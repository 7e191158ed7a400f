import Mathlib.Data.List.Basic
import Mathlib.Logic.Function.Basic

/-!
# Sequences of byte copies

A kernel that rearranges memory is a sequence of `memcpy` calls between two buffers. What it does
to a byte depends only on which bytes it moves where, so a sequence is described by the pairs of
addresses it moves.
-/

namespace Prosperity

universe u

/-- `memcpy(to_ + dst, from_ + src, len)`. -/
structure ByteCopy where
  dst : ℕ
  src : ℕ
  len : ℕ
  deriving DecidableEq

def ByteCopy.swap (c : ByteCopy) : ByteCopy := ⟨c.src, c.dst, c.len⟩

variable {α : Type u}

def ByteCopy.run (from_ to_ : ℕ → α) (c : ByteCopy) : ℕ → α :=
  fun a => if c.dst ≤ a ∧ a < c.dst + c.len then from_ (c.src + (a - c.dst)) else to_ a

def runCopies (cs : List ByteCopy) (from_ to_ : ℕ → α) : ℕ → α :=
  cs.foldl (ByteCopy.run from_) to_

/-- The sequence copies the byte at `s` to `d`. -/
def Moves (cs : List ByteCopy) (d s : ℕ) : Prop :=
  ∃ c ∈ cs, ∃ k, k < c.len ∧ d = c.dst + k ∧ s = c.src + k

@[simp] theorem not_moves_nil (d s : ℕ) : ¬Moves [] d s := by simp [Moves]

theorem moves_cons {c : ByteCopy} {cs : List ByteCopy} {d s : ℕ} :
    Moves (c :: cs) d s ↔ (∃ k, k < c.len ∧ d = c.dst + k ∧ s = c.src + k) ∨ Moves cs d s := by
  simp [Moves]

theorem moves_mk_cons {cs : List ByteCopy} {dst src len d s : ℕ} :
    Moves (⟨dst, src, len⟩ :: cs) d s ↔ (dst ≤ d ∧ d < dst + len ∧ s = src + (d - dst)) ∨ Moves cs d s := by
  rw [moves_cons]
  refine or_congr_left ⟨?_, fun ⟨hlow, hhigh, hs⟩ => ⟨d - dst, ?_, ?_, hs⟩⟩
  · rintro ⟨k, hk, rfl, rfl⟩
    exact ⟨Nat.le_add_right _ _, Nat.add_lt_add_left hk _, by rw [Nat.add_sub_cancel_left]⟩
  · exact Nat.sub_lt_left_of_lt_add hlow hhigh
  · exact (Nat.add_sub_cancel' hlow).symm

theorem runCopies_of_not_moves {cs : List ByteCopy} {from_ to_ : ℕ → α} {d : ℕ}
    (h : ∀ s, ¬Moves cs d s) : runCopies cs from_ to_ d = to_ d := by
  induction cs generalizing to_ with
  | nil => rfl
  | cons c cs ih =>
    have hrest : ∀ s, ¬Moves cs d s := fun s hs => h s (moves_cons.mpr (.inr hs))
    rw [runCopies, List.foldl_cons, ← runCopies, ih hrest, ByteCopy.run, if_neg]
    intro hin
    exact h (c.src + (d - c.dst)) (moves_cons.mpr (.inl ⟨d - c.dst, by omega, by omega, rfl⟩))

theorem runCopies_eq_of_moves {cs : List ByteCopy} {from_ to_ : ℕ → α} {d s : ℕ} {v : α}
    (hval : ∀ s', Moves cs d s' → from_ s' = v) (h : Moves cs d s) : runCopies cs from_ to_ d = v := by
  induction cs generalizing to_ s with
  | nil => exact absurd h (not_moves_nil d s)
  | cons c cs ih =>
    have hrest : ∀ s', Moves cs d s' → from_ s' = v := fun s' hs => hval s' (moves_cons.mpr (.inr hs))
    rw [runCopies, List.foldl_cons, ← runCopies]
    by_cases hlater : ∃ s', Moves cs d s'
    · obtain ⟨s', hs'⟩ := hlater
      exact ih hrest hs'
    · -- the first copy is the only one that writes the byte
      rw [runCopies_of_not_moves fun s' hs' => hlater ⟨s', hs'⟩]
      obtain ⟨k, hk, hd, hs⟩ := (moves_cons.mp h).resolve_right fun hs => hlater ⟨s, hs⟩
      rw [ByteCopy.run, if_pos (by omega), ← hval s h]
      congr 1
      omega

end Prosperity
