import Mathlib.Data.List.Basic
import Mathlib.Logic.Function.Basic
import Mathlib.Logic.Relation

/-!
# Walking command buffers

The command processor of the PS5 walks a ring of packets and the indirect buffers it calls. A wait
that the memory does not satisfy stops the walk, and a later poll enters every buffer again where
it stopped. Beside it stands the command processor as the hardware has it: one stack of positions
that a wait leaves alone.
-/

namespace Prosperity.Gpu

universe u v w

/-! ## Packets -/

def kRegFileSize : ℕ := 0xD000

def kMaxIbDepth : ℕ := 8

def pm4Count (hdr : ℕ) : ℕ := ((hdr >>> 16) &&& 0x3FFF) + 1

def pm4Opcode (hdr : ℕ) : ℕ := (hdr >>> 8) &&& 0xFF

def pm4Type0Reg (hdr : ℕ) : ℕ := hdr &&& 0xFFFF

inductive Packet where
  /-- Filler, a dword to resync at, or a packet too short for its opcode. -/
  | skip (size : ℕ)
  /-- Registers, draws, labels and all else that neither jumps nor waits. -/
  | effect (size hdr : ℕ) (body : List ℕ)
  /-- `IT_INDIRECT_BUFFER` and `IT_INDIRECT_BUFFER_CNST`. -/
  | indirect (size ib ibWords : ℕ)
  /-- `IT_COND_EXEC`. -/
  | condExec (size flag skip : ℕ)
  /-- `waitOnAddress` in its two widths. -/
  | wait (size hdr : ℕ) (body : List ℕ)
  deriving DecidableEq

/-- The packet at the address `a`, with `r` dwords of the buffer left from there. -/
def packetAt (word : ℕ → ℕ) (a r : ℕ) : Packet :=
  let hdr := word a
  let type := hdr >>> 30
  let count := pm4Count hdr
  let body := (List.range count).map fun j => word (a + 4 * (j + 1))
  if type = 2 ∨ hdr = 0 then .skip 1
  else if type = 0 then
    if pm4Type0Reg hdr + count > kRegFileSize ∨ 1 + count > r then .skip 1
    else .effect (1 + count) hdr body
  else if type ≠ 3 then .skip 1
  -- `IT_NOP` with its count saturated is one dword
  else if pm4Opcode hdr = 0x10 ∧ (hdr >>> 16) &&& 0x3FFF = 0x3FFF then .skip 1
  else if 1 + count > r then .skip 1
  else if pm4Opcode hdr = 0x3F ∨ pm4Opcode hdr = 0x33 then
    if count < 3 then .skip (1 + count)
    else .indirect (1 + count) ((word (a + 8) &&& 0xFFFF) <<< 32 ||| word (a + 4))
      (word (a + 12) &&& 0xFFFFF)
  else if pm4Opcode hdr = 0x22 then
    if count < 4 then .skip (1 + count)
    else .condExec (1 + count) ((word (a + 8) &&& 0xFFFF) <<< 32 ||| (word (a + 4) &&& 0xFFFFFFFC))
      (word (a + 16) &&& 0x3FFF)
  else if pm4Opcode hdr = 0x3c ∨ pm4Opcode hdr = 0x93 then .wait (1 + count) hdr body
  else .effect (1 + count) hdr body

def Packet.size : Packet → ℕ
  | .skip size | .effect size _ _ | .indirect size _ _ | .condExec size _ _ | .wait size _ _ => size

theorem packetAt_size_pos (word : ℕ → ℕ) (a r : ℕ) : 0 < (packetAt word a r).size := by
  have hone : ∀ count : ℕ, 0 < 1 + count := fun count => by omega
  simp only [packetAt, apply_ite Packet.size]
  repeat' split
  all_goals first | exact Nat.one_pos | exact hone _

/-- What packets do: `ι` are the queues, `ρ` the registers of one, and `σ` is what the queues
share, the memory and the waits parked for label writes among it. -/
structure Processor (ι : Type u) (ρ : Type v) (σ : Type w) where
  word : σ → ℕ → ℕ
  /-- `IsReadableRangeCached`. -/
  readable : σ → ℕ → ℕ → Bool
  effect : ι → ℕ → List ℕ → ρ × σ → ρ × σ
  /-- `StallOnWait`, with what it leaves behind. -/
  stallOnWait : ι → ℕ → List ℕ → σ → Bool × σ

section

variable {ι : Type u} {ρ : Type v} {σ : Type w}

def isGuestAddress (address : ℕ) : Bool := 0x10000 ≤ address && address < 0x1000000000000

def Processor.follows (m : Processor ι ρ σ) (shared : σ) (ib ibWords : ℕ) : Bool :=
  ibWords ≠ 0 && ibWords ≤ 0x40000 && isGuestAddress ib && m.readable shared ib (ibWords * 4)

/-- Whether a flag of `IT_COND_EXEC` is zero. -/
def Processor.flagClear (m : Processor ι ρ σ) (shared : σ) (flag : ℕ) : Bool :=
  isGuestAddress flag && m.readable shared flag 4 && m.word shared flag = 0

theorem ne_zero_of_follows {m : Processor ι ρ σ} {shared : σ} {ib ibWords : ℕ}
    (h : m.follows shared ib ibWords = true) : ib ≠ 0 := by
  simp only [Processor.follows, isGuestAddress, Bool.and_eq_true, decide_eq_true_eq] at h
  omega

/-! ## The walk -/

/-- Where inside each nested indirect buffer the walk stopped, by depth. -/
structure RingStall where
  stalled : Bool
  ib : ℕ → ℕ
  ibDw : ℕ → ℕ

def RingStall.initial : RingStall := ⟨false, fun _ => 0, fun _ => 0⟩

structure WalkState (ρ : Type v) (σ : Type w) where
  regs : ρ
  stall : RingStall
  shared : σ

variable (m : Processor ι ρ σ) (q : ι)

/-- The loop of `Walk` over the buffer at `p`, with the dword it stops at. `enter` walks an
indirect buffer, and the first number bounds the turns. -/
def walkLoop (enter : ℕ → ℕ → WalkState ρ σ → WalkState ρ σ) (p words : ℕ) : ℕ → ℕ → WalkState ρ σ → WalkState ρ σ × ℕ
  | 0, _, s => (s, words)
  | turns + 1, i, s =>
    if i < words then
      match packetAt (m.word s.shared) (p + 4 * i) (words - i) with
      | .skip size => walkLoop enter p words turns (i + size) s
      | .effect size hdr body =>
        let t := m.effect q hdr body (s.regs, s.shared)
        walkLoop enter p words turns (i + size) { s with regs := t.1, shared := t.2 }
      | .indirect size ib ibWords =>
        if m.follows s.shared ib ibWords then
          let t := enter ib ibWords s
          -- the packet that called the buffer is walked again
          if t.stall.stalled then (t, i) else walkLoop enter p words turns (i + size) t
        else walkLoop enter p words turns (i + size) s
      | .condExec size flag skip =>
        walkLoop enter p words turns (i + size + if m.flagClear s.shared flag then skip else 0) s
      | .wait size hdr body =>
        let t := m.stallOnWait q hdr body s.shared
        if t.1 then ({ s with shared := t.2, stall := { s.stall with stalled := true } }, i)
        else walkLoop enter p words turns (i + size) { s with shared := t.2 }
    else (s, words)

/-- `IT_INDIRECT_BUFFER`, at the given depth: the buffer is entered where a stalled walk of it left
off. -/
def enterIb (sub : ℕ → ℕ → WalkState ρ σ → WalkState ρ σ × ℕ) (depth ib ibWords : ℕ)
    (s : WalkState ρ σ) : WalkState ρ σ :=
  let resumes := s.stall.ib (depth + 1) = ib
  let start := if resumes then min (s.stall.ibDw (depth + 1)) ibWords else 0
  let s :=
    if resumes then
      { s with stall := { s.stall with ib := Function.update s.stall.ib (depth + 1) 0 } }
    else s
  let t := sub (ib + 4 * start) (ibWords - start) s
  if t.1.stall.stalled then
    { t.1 with
      stall :=
        { t.1.stall with
          ib := Function.update t.1.stall.ib (depth + 1) ib
          ibDw := Function.update t.1.stall.ibDw (depth + 1) (start + t.2) } }
  else t.1

/-- `Walk`, with the number of depths left up to `kMaxIbDepth`. -/
def walk : ℕ → ℕ → ℕ → ℕ → WalkState ρ σ → WalkState ρ σ × ℕ
  | 0, _, _, words, s => (s, words)
  | levels + 1, depth, p, words, s =>
    if p = 0 then (s, words)
    else walkLoop m q (enterIb (walk levels (depth + 1)) depth) p words words 0 s

/-- `SubmitDcbRing`: the dwords consumed are fewer than handed in where the walk stalled. -/
def submitDcbRing (dcb words : ℕ) (s : WalkState ρ σ) : WalkState ρ σ × ℕ :=
  if dcb = 0 ∨ words = 0 then (s, words)
  else walk m q (kMaxIbDepth + 1) 0 dcb words { s with stall := { s.stall with stalled := false } }

/-! ## The stack of positions -/

/-- A buffer that is being walked: `ret` is the size of the packet that called it. -/
structure Frame where
  base : ℕ
  words : ℕ
  off : ℕ
  ret : ℕ

def Frame.advance (f : Frame) (size : ℕ) : Frame := { f with off := f.off + size }

def Frame.packet (f : Frame) (shared : σ) : Packet :=
  packetAt (m.word shared) (f.base + 4 * f.off) (f.words - f.off)

/-- A queue's registers, and the buffers it is in, the innermost first. -/
structure Config (ρ : Type v) (σ : Type w) where
  frames : List Frame
  regs : ρ
  shared : σ

/-- One packet takes effect, or a buffer ends. -/
inductive Advance : Config ρ σ → Config ρ σ → Prop where
  | leave {f g : Frame} {fs : List Frame} {regs : ρ} {shared : σ} : f.words ≤ f.off →
      Advance ⟨f :: g :: fs, regs, shared⟩ ⟨g.advance f.ret :: fs, regs, shared⟩
  | finish {f : Frame} {regs : ρ} {shared : σ} : f.words ≤ f.off → Advance ⟨[f], regs, shared⟩ ⟨[], regs, shared⟩
  | skip {f : Frame} {fs : List Frame} {regs : ρ} {shared : σ} {size : ℕ} : f.off < f.words →
      f.packet m shared = .skip size →
      Advance ⟨f :: fs, regs, shared⟩ ⟨f.advance size :: fs, regs, shared⟩
  | effect {f : Frame} {fs : List Frame} {regs : ρ} {shared : σ} {size hdr : ℕ}
      {body : List ℕ} : f.off < f.words → f.packet m shared = .effect size hdr body →
      Advance ⟨f :: fs, regs, shared⟩ ⟨f.advance size :: fs,
        (m.effect q hdr body (regs, shared)).1, (m.effect q hdr body (regs, shared)).2⟩
  | enter {f : Frame} {fs : List Frame} {regs : ρ} {shared : σ} {size ib ibWords : ℕ} :
      f.off < f.words → f.packet m shared = .indirect size ib ibWords →
      m.follows shared ib ibWords = true → fs.length < kMaxIbDepth →
      Advance ⟨f :: fs, regs, shared⟩ ⟨⟨ib, ibWords, 0, size⟩ :: f :: fs, regs, shared⟩
  | pass {f : Frame} {fs : List Frame} {regs : ρ} {shared : σ} {size ib ibWords : ℕ} :
      f.off < f.words → f.packet m shared = .indirect size ib ibWords →
      ¬ (m.follows shared ib ibWords = true ∧ fs.length < kMaxIbDepth) →
      Advance ⟨f :: fs, regs, shared⟩ ⟨f.advance size :: fs, regs, shared⟩
  | condExec {f : Frame} {fs : List Frame} {regs : ρ} {shared : σ} {size flag skip : ℕ} :
      f.off < f.words → f.packet m shared = .condExec size flag skip →
      Advance ⟨f :: fs, regs, shared⟩
        ⟨f.advance (size + if m.flagClear shared flag then skip else 0) :: fs, regs, shared⟩
  | wait {f : Frame} {fs : List Frame} {regs : ρ} {shared : σ} {size hdr : ℕ} {body : List ℕ} :
      f.off < f.words → f.packet m shared = .wait size hdr body →
      (m.stallOnWait q hdr body shared).1 = false →
      Advance ⟨f :: fs, regs, shared⟩
        ⟨f.advance size :: fs, regs, (m.stallOnWait q hdr body shared).2⟩

/-- The next packet is a wait that is not satisfied; looking at it leaves the buffers and the
registers alone. -/
inductive Stops : Config ρ σ → Config ρ σ → Prop where
  | intro {f : Frame} {fs : List Frame} {regs : ρ} {shared : σ} {size hdr : ℕ} {body : List ℕ} :
      f.off < f.words → f.packet m shared = .wait size hdr body →
      (m.stallOnWait q hdr body shared).1 = true →
      Stops ⟨f :: fs, regs, shared⟩ ⟨f :: fs, regs, (m.stallOnWait q hdr body shared).2⟩

/-- The queue runs until a wait stops it. -/
def Blocks (c c' : Config ρ σ) : Prop :=
  ∃ c₁, Relation.ReflTransGen (Advance m q) c c₁ ∧ Stops m q c₁ c'

/-- The queue runs until a wait stops it or there is nothing left. -/
def Polls (c c' : Config ρ σ) : Prop :=
  Blocks m q c c' ∨ Relation.ReflTransGen (Advance m q) c c' ∧ c'.frames = []

variable {m q} {c c' c₁ c₂ : Config ρ σ}

theorem Blocks.trans (h : Relation.ReflTransGen (Advance m q) c c₁) (hb : Blocks m q c₁ c') : Blocks m q c c' := by
  obtain ⟨c₂, hsteps, hstops⟩ := hb
  exact ⟨c₂, h.trans hsteps, hstops⟩

/-! ## The stack machine is deterministic -/

theorem Advance.unique (h : Advance m q c c₁) (h' : Advance m q c c₂) : c₁ = c₂ := by
  cases h <;> cases h' <;> first | rfl | (exfalso; omega) | simp_all

theorem not_advance_of_stops (h : Stops m q c c') : ¬ Advance m q c c₁ := by
  intro h'
  cases h
  cases h' <;> first | omega | simp_all

theorem Stops.unique (h : Stops m q c c₁) (h' : Stops m q c c₂) : c₁ = c₂ := by
  cases h
  cases h'
  simp_all

theorem not_advance_of_nil (h : c.frames = []) : ¬ Advance m q c c₁ := by
  intro h'
  cases h' <;> cases h

theorem advances_unique (h : Relation.ReflTransGen (Advance m q) c c₁)
    (h' : Relation.ReflTransGen (Advance m q) c c₂) (hend : ∀ d, ¬ Advance m q c₁ d)
    (hend' : ∀ d, ¬ Advance m q c₂ d) : c₁ = c₂ := by
  induction h using Relation.ReflTransGen.head_induction_on with
  | refl =>
    rcases h'.cases_head with heq | ⟨d, hd, -⟩
    · exact heq
    · exact absurd hd (hend d)
  | head hstep _ ih =>
    rcases h'.cases_head with rfl | ⟨d, hd, hrest⟩
    · exact absurd hstep (hend' _)
    · obtain rfl := hstep.unique hd
      exact ih hrest

theorem polls_unique (h : Polls m q c c₁) (h' : Polls m q c c₂) : c₁ = c₂ := by
  rcases h with ⟨d, hd, hstops⟩ | ⟨hd, hnil⟩ <;> rcases h' with ⟨d', hd', hstops'⟩ | ⟨hd', hnil'⟩
  · obtain rfl := advances_unique hd hd' (fun _ => not_advance_of_stops hstops)
      fun _ => not_advance_of_stops hstops'
    exact hstops.unique hstops'
  · obtain rfl := advances_unique hd hd' (fun _ => not_advance_of_stops hstops)
      fun _ => not_advance_of_nil hnil'
    cases hstops
    cases hnil'
  · obtain rfl := advances_unique hd hd' (fun _ => not_advance_of_nil hnil)
      fun _ => not_advance_of_stops hstops'
    cases hstops'
    cases hnil
  · exact advances_unique hd hd' (fun _ => not_advance_of_nil hnil)
      fun _ => not_advance_of_nil hnil'

theorem Advance.length_le (h : Advance m q c c') (hlen : c.frames.length ≤ kMaxIbDepth + 1) :
    c'.frames.length ≤ kMaxIbDepth + 1 := by
  cases h <;> simp only [List.length_cons, List.length_nil] at hlen ⊢ <;> omega

theorem Polls.length_le (h : Polls m q c c') (hlen : c.frames.length ≤ kMaxIbDepth + 1) :
    c'.frames.length ≤ kMaxIbDepth + 1 := by
  have hrun : ∀ {d}, Relation.ReflTransGen (Advance m q) c d →
      d.frames.length ≤ kMaxIbDepth + 1 := by
    intro d hd
    induction hd with
    | refl => exact hlen
    | tail _ hstep ih => exact hstep.length_le ih
  rcases h with ⟨d, hd, hstops⟩ | ⟨hd, -⟩
  · have := hrun hd
    cases hstops
    exact this
  · exact hrun hd

end

end Prosperity.Gpu
