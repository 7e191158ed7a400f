import Mathlib.Data.List.Infix
import Mathlib.Data.Nat.Notation
import Mathlib.Tactic.Common

/-!
# Streaming decoders

A streaming decoder is called with some input and some room for output, and says how much of the
input it used. Its calls are lawful for a function of whole inputs if what they have put out so far
is always a prefix of what the function gives for the input used so far.

A cursor reads a source through such a decoder. Its position in the source, the input that is read and
not yet used, and the output so far are kept together by `Fed`.
-/

namespace Prosperity

/-- What a call of a decoder says. -/
inductive DecodeStatus where
  | ok
  | streamEnd
  | error
  deriving DecidableEq

/-- The decoder after a call, how much of the input it used and what it put out. -/
structure Decoded (σ β : Type*) where
  state : σ
  used : ℕ
  out : List β
  status : DecodeStatus

structure StreamDecoder (α β : Type) where
  State : Type
  init : State
  decode : State → List α → ℕ → Decoded State β

namespace StreamDecoder

variable {α β : Type} (d : StreamDecoder α β)

inductive Run : d.State → List α → List β → Prop
  | init : Run d.init [] []
  | decode {st : d.State} {used : List α} {output : List β} (given : List α) (room : ℕ) : Run st used output →
        Run (d.decode st given room).state (used ++ given.take (d.decode st given room).used)
          (output ++ (d.decode st given room).out)

/-- The decoder computes `whole`, piece by piece. -/
structure Lawful (whole : List α → List β) : Prop where
  used_le : ∀ st given room, (d.decode st given room).used ≤ given.length
  out_le : ∀ st given room, (d.decode st given room).out.length ≤ room
  /-- A call that is fine has used input or put something out. -/
  progress : ∀ st given room, (d.decode st given room).status = .ok →
    0 < (d.decode st given room).used ∨ (d.decode st given room).out ≠ []
  /-- More input leaves the output for the input before as it was. -/
  mono : ∀ i j, i <+: j → whole i <+: whole j
  run : ∀ st used output, d.Run st used output → output <+: whole used

/-- The decoder has used the source up to `pos`, except for what is `pending`. -/
def Fed (src : List α) (pos : ℕ) (st : d.State) (pending : List α) (output : List β) : Prop :=
  ∃ used, d.Run st used output ∧ used ++ pending = src.take pos

variable {d} {whole : List α → List β} {src : List α} {pos : ℕ} {st : d.State} {pending : List α}
  {output : List β}

theorem Fed.init (src : List α) : d.Fed src 0 d.init [] [] := ⟨[], .init, rfl⟩

theorem Fed.fill (h : d.Fed src pos st [] output) {n : ℕ} {piece : List α}
    (hpiece : piece = (src.drop pos).take n) : d.Fed src (pos + n) st piece output := by
  obtain ⟨used, hrun, hused⟩ := h
  rw [List.append_nil] at hused
  refine ⟨used, hrun, ?_⟩
  rw [hused, hpiece, ← List.take_add]

theorem Fed.decode (h : d.Fed src pos st pending output) (room : ℕ) : d.Fed src pos (d.decode st pending room).state
      (pending.drop (d.decode st pending room).used) (output ++ (d.decode st pending room).out) := by
  obtain ⟨used, hrun, hused⟩ := h
  refine ⟨_, hrun.decode pending room, ?_⟩
  rw [List.append_assoc, List.take_append_drop, hused]

theorem Fed.output_prefix (h : d.Fed src pos st pending output) (hd : d.Lawful whole) {n : ℕ}
    (hn : (src.take pos).length ≤ n) : output <+: whole (src.take n) := by
  obtain ⟨used, hrun, hused⟩ := h
  refine (hd.run _ _ _ hrun).trans (hd.mono _ _ ?_)
  have hinitial : used <+: src.take pos := hused ▸ List.prefix_append _ _
  refine hinitial.trans ?_
  rw [List.prefix_take_iff]
  exact ⟨List.take_prefix _ _, hn⟩

/-- **A slice of the whole output**: what a cursor puts out after the elements before. -/
theorem Fed.slice {before piece : List β} (h : d.Fed src pos st pending (before ++ piece))
    (hd : d.Lawful whole) {n : ℕ} (hn : (src.take pos).length ≤ n) :
    piece = ((whole (src.take n)).drop before.length).take piece.length := by
  obtain ⟨rest, hrest⟩ := h.output_prefix hd hn
  rw [← hrest, List.append_assoc, List.drop_left, List.take_left]

end StreamDecoder

end Prosperity
