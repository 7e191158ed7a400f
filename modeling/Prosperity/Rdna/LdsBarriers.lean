import Prosperity.Foundations.BarrierWalks
import Prosperity.Rdna.ControlLowering

/-!
# Barriers between LDS accesses

A wave of 64 lanes that the host splits over two subgroups loses the order of its LDS accesses. Both lowerings keep,
within a block, what the LDS saw since the last barrier, and put a barrier before an access that does not go with it:
a read behind a write, or a write behind a read. A block of structured code may be entered after either; the
scheduler has barriers of its own before each block.

Two accesses that only write get no barrier, and neither does `ds_read_addtid_b32`, which counts as a write.
-/

namespace Prosperity.Rdna

open Gcn (Enc)
open BarrierWalk (Synced)

universe u v

variable {ρ : Type u} {μ : Type v} {program : Program} {inst : Inst} {seen seen' : ℕ}

/-! ## The instructions -/

section Accesses

/-- Bit 17 of the first word: the global data share. -/
def isGds (inst : Inst) : Bool := (inst.raw.getD 0 0 >>> 17) &&& 1 ≠ 0

/-- `LdsAccess`: 1 for a read, 2 for a write and 3 for an atomic that returns. -/
def ldsAccess (inst : Inst) : ℕ :=
  if inst.enc ≠ .kDs ∨ isGds inst = true then 0
  else
    let op := inst.opcode
    if op = 0x35 ∨ op = 0xb2 ∨ op = 0xb3 ∨ (0x3d ≤ op ∧ op ≤ 0x3f) then 0
    else if (0x20 ≤ op ∧ op ≤ 0x33) ∨ (0x60 ≤ op ∧ op ≤ 0x73) then 3
    else if (0x36 ≤ op ∧ op ≤ 0x3c) ∨ (0x76 ≤ op ∧ op ≤ 0x78) ∨ op = 0xfe ∨ op = 0xff ∨ (0xa1 ≤ op ∧ op ≤ 0xa6) then 1
    else 2

/-- The loads of `EmitDs`, `ds_read_addtid_b32` (177) among them. -/
def dsLoads : List ℕ := [54, 55, 56, 118, 119, 120, 177, 254, 255]

/-- The stores of `EmitDs`, `ds_write_addtid_b32` (176) among them. -/
def dsStores : List ℕ := [13, 14, 15, 77, 78, 79, 176, 222, 223]

/-- The atomics of `EmitDs` that return nothing. -/
def dsAtomics : List ℕ := [0, 1, 5, 6, 7, 8, 9, 10, 11]

/-- The atomics of `EmitDs` that return the old value. -/
def dsReturningAtomics : List ℕ := [32, 33, 37, 38, 39, 40, 41, 42, 43, 45]

def isLds (opcodes : List ℕ) (inst : Inst) : Prop := inst.enc = .kDs ∧ isGds inst = false ∧ inst.opcode ∈ opcodes

instance (opcodes : List ℕ) (inst : Inst) : Decidable (isLds opcodes inst) :=
  inferInstanceAs (Decidable (_ ∧ _ ∧ _))

abbrev ReadsLds (inst : Inst) : Prop := isLds (dsLoads ++ dsAtomics ++ dsReturningAtomics) inst

abbrev WritesLds (inst : Inst) : Prop := isLds (dsStores ++ dsAtomics ++ dsReturningAtomics) inst

abbrev ReturnsLds (inst : Inst) : Prop := isLds (dsLoads ++ dsReturningAtomics) inst

theorem ldsAccess_read (h : ReturnsLds inst) (haddtid : inst.opcode ≠ 177) : (ldsAccess inst).testBit 0 = true := by
  obtain ⟨henc, hgds, hop⟩ := h
  unfold ldsAccess
  rw [if_neg (by simp [henc, hgds])]
  generalize inst.opcode = op at hop haddtid
  revert haddtid
  revert op
  decide

theorem ldsAccess_write (h : WritesLds inst) : (ldsAccess inst).testBit 1 = true := by
  obtain ⟨henc, hgds, hop⟩ := h
  unfold ldsAccess
  rw [if_neg (by simp [henc, hgds])]
  generalize inst.opcode = op at hop
  revert op
  decide

theorem isBarrier_of_lds {opcodes : List ℕ} (h : isLds opcodes inst) : isBarrier inst = false := by
  unfold isBarrier
  rw [h.1]
  rfl

end Accesses

/-! ## What is emitted -/

section Emission

/-- An item of the emitted code: a barrier of the lowering, or what `RdnaEmitInst` emits. -/
inductive LdsItem where
  | barrier
  | inst (inst : Inst)

/-- A barrier of the workgroup: one of the lowering, or an `s_barrier`. -/
def LdsItem.isBarrier : LdsItem → Bool
  | .barrier => true
  | .inst inst => Rdna.isBarrier inst

def LdsItem.inst? : LdsItem → Option Inst
  | .barrier => none
  | .inst inst => some inst

/-- Whether an access does not go with what the LDS saw. -/
def asksBarrier (seen : ℕ) (inst : Inst) : Bool :=
  ((ldsAccess inst).testBit 0 && seen.testBit 1) || ((ldsAccess inst).testBit 1 && seen.testBit 0)

/-- `lds_seen` behind an instruction. -/
def nextSeen (seen : ℕ) (inst : Inst) : ℕ := if isBarrier inst then 0 else seen ||| ldsAccess inst

/-- The instructions of a block, with `lds_seen` before them. -/
def syncItems : ℕ → List Inst → List LdsItem
  | _, [] => []
  | seen, inst :: rest =>
    if asksBarrier seen inst then .barrier :: .inst inst :: syncItems (nextSeen 0 inst) rest
    else .inst inst :: syncItems (nextSeen seen inst) rest

/-- The lowerings with `lds_sync`: a single wave may have structured code, and what has not is scheduled. -/
inductive Lowering where
  | structured
  | scheduled

def blockItems (program : Program) (lowering : Lowering) (block : ℕ) : List LdsItem :=
  match lowering with
  | .structured => syncItems 3 (ordinary (cfgBody program block))
  | .scheduled =>
    .barrier :: .barrier :: .barrier ::
      syncItems (if 1 < kExit program then 3 else 0) (ordinary (blockBody program block))

def lowered (program : Program) (lowering : Lowering) (blocks : List ℕ) : List LdsItem :=
  blocks.flatMap (blockItems program lowering)

/-- The instructions that are put under EXEC: the accesses of `EmitCsMemory` that write. -/
def guarded (inst : Inst) : Bool :=
  inst.enc = .kDs && inst.opcode ≠ 0x35 && !(0x36 ≤ inst.opcode && inst.opcode ≤ 0x38) &&
    !(0x76 ≤ inst.opcode && inst.opcode ≤ 0x78) && inst.opcode ≠ 0xfe && inst.opcode ≠ 0xff

inductive LaneDoes : List LdsItem → List LdsItem → Prop
  | done : LaneDoes [] []
  | does {item : LdsItem} {items items' : List LdsItem} : LaneDoes items items' → LaneDoes (item :: items) (item :: items')
  | skips {inst : Inst} {items items' : List LdsItem} : guarded inst = true → LaneDoes items items' →
      LaneDoes (.inst inst :: items) items'

end Emission

/-! ## Synchronised code -/

section Sync

def seenAfter (seen : ℕ) : LdsItem → ℕ
  | .barrier => 0
  | .inst inst => nextSeen seen inst

def Unsynced (seen : ℕ) : LdsItem → Prop
  | .barrier => False
  | .inst inst => asksBarrier seen inst = true

def SeenBelow (seen seen' : ℕ) : Prop := ∀ k < 2, seen.testBit k = true → seen'.testBit k = true

theorem below_zero (seen : ℕ) : SeenBelow 0 seen := by
  intro k _ h
  rw [Nat.zero_testBit] at h
  cases h

theorem below_three (seen : ℕ) : SeenBelow seen 3 := by
  intro k hk _
  obtain rfl | rfl : k = 0 ∨ k = 1 := by omega
  · decide
  · decide

theorem SeenBelow.next (h : SeenBelow seen seen') (inst : Inst) : SeenBelow (nextSeen seen inst) (nextSeen seen' inst) := by
  intro k hk hbit
  unfold nextSeen at hbit ⊢
  split at hbit
  · rw [Nat.zero_testBit] at hbit
    cases hbit
  · rename_i hbar
    rw [if_neg hbar]
    rw [Nat.testBit_or, Bool.or_eq_true] at hbit ⊢
    exact hbit.imp_left (h k hk)

theorem SeenBelow.asks (h : SeenBelow seen seen') (hask : asksBarrier seen inst = true) : asksBarrier seen' inst = true := by
  unfold asksBarrier at hask ⊢
  simp only [Bool.or_eq_true, Bool.and_eq_true] at hask ⊢
  exact hask.imp (And.imp_right (h 1 Nat.one_lt_two)) (And.imp_right (h 0 Nat.two_pos))

/-- **The instructions of a block are synchronised**, whatever of what the lowering assumes the LDS has seen. -/
theorem synced_syncItems (h : SeenBelow seen seen') (insts : List Inst) :
    Synced seenAfter Unsynced seen (syncItems seen' insts) := by
  induction insts generalizing seen seen' with
  | nil => trivial
  | cons inst rest ih =>
    unfold syncItems
    split
    · refine ⟨fun hask => hask, fun hask => ?_, ih ((below_zero 0).next inst)⟩
      have hzero : asksBarrier 0 inst = false := by
        unfold asksBarrier
        rw [Nat.zero_testBit, Nat.zero_testBit, Bool.and_false, Bool.and_false]
        rfl
      exact absurd hask (by rw [show seenAfter seen .barrier = 0 from rfl, Unsynced, hzero]; decide)
    · rename_i hquiet
      exact ⟨fun hask => hquiet (h.asks hask), ih (h.next inst)⟩

theorem synced_lowered (program : Program) (lowering : Lowering) (blocks : List ℕ) (seen : ℕ) :
    Synced seenAfter Unsynced seen (lowered program lowering blocks) := by
  induction blocks generalizing seen with
  | nil => trivial
  | cons block blocks ih =>
    refine BarrierWalk.synced_append.mpr ⟨?_, ih _⟩
    cases lowering with
    | structured => exact synced_syncItems (below_three seen) _
    | scheduled => exact ⟨fun h => h, fun h => h, fun h => h, synced_syncItems (below_zero _) _⟩

theorem LaneDoes.barriers {items items' : List LdsItem} (h : LaneDoes items items') :
    items'.filter LdsItem.isBarrier = items.filter LdsItem.isBarrier := by
  induction h with
  | done => rfl
  | @does item _ _ _ ih => rw [List.filter_cons, List.filter_cons, ih]
  | @skips inst _ _ hguard _ ih =>
    have hnot : LdsItem.isBarrier (.inst inst) = false := by
      unfold guarded at hguard
      simp only [Bool.and_eq_true, decide_eq_true_eq] at hguard
      change Rdna.isBarrier inst = false
      unfold Rdna.isBarrier
      rw [hguard.1.1.1.1.1]
      rfl
    rw [List.filter_cons_of_neg (by rw [hnot]; decide), ih]

theorem seenAfter_keeps {k : ℕ} {item : LdsItem} (h : seen.testBit k = true) (hnot : ¬item.isBarrier = true) :
    (seenAfter seen item).testBit k = true := by
  cases item with
  | barrier => exact absurd rfl hnot
  | inst inst =>
    change ¬Rdna.isBarrier inst = true at hnot
    change (nextSeen seen inst).testBit k = true
    rw [nextSeen, if_neg hnot, Nat.testBit_or, h]
    rfl

theorem seenAfter_inst {k : ℕ} {opcodes : List ℕ} (h : isLds opcodes inst) (hbit : (ldsAccess inst).testBit k = true) :
    (seenAfter seen (.inst inst)).testBit k = true := by
  change (nextSeen seen inst).testBit k = true
  rw [nextSeen, isBarrier_of_lds h, if_neg (by decide), Nat.testBit_or, hbit, Bool.or_true]

/-- **A barrier comes between two LDS instructions** of which one returns a value, but not `ds_read_addtid_b32`, and
the other writes, in structured and in scheduled code and over any blocks that run one after the other. All lanes
execute it. -/
theorem lds_synchronised (program : Program) (lowering : Lowering) (blocks : List ℕ)
    {before mid behind : List LdsItem} {x y : Inst}
    (hrun : lowered program lowering blocks = before ++ .inst x :: (mid ++ .inst y :: behind))
    (hx : x.opcode ≠ 177) (hy : y.opcode ≠ 177)
    (hpair : (ReturnsLds x ∧ WritesLds y) ∨ (WritesLds x ∧ ReturnsLds y)) : (∃ item ∈ mid, item.isBarrier = true) ∧
      ∀ done, LaneDoes mid done → done.filter LdsItem.isBarrier = mid.filter LdsItem.isBarrier := by
  refine ⟨?_, fun done hdone => hdone.barriers⟩
  have hsynced := synced_lowered program lowering blocks 0
  rw [hrun] at hsynced
  rcases hpair with ⟨hread, hwrite⟩ | ⟨hwrite, hread⟩
  · refine @Synced.exists_barrier _ _ _ _ _ (fun seen => seen.testBit 0 = true) _ _ (fun item => item.isBarrier = true)
      _ _ _ hsynced (fun _ => seenAfter_inst hread (ldsAccess_read hread hx)) (fun _ _ => seenAfter_keeps) ?_
    intro seen hseen
    change asksBarrier seen y = true
    rw [asksBarrier, ldsAccess_write hwrite, hseen, Bool.and_self, Bool.or_true]
  · refine @Synced.exists_barrier _ _ _ _ _ (fun seen => seen.testBit 1 = true) _ _ (fun item => item.isBarrier = true)
      _ _ _ hsynced (fun _ => seenAfter_inst hwrite (ldsAccess_write hwrite)) (fun _ _ => seenAfter_keeps) ?_
    intro seen hseen
    change asksBarrier seen y = true
    rw [asksBarrier, ldsAccess_read hread hy, hseen, Bool.and_self, Bool.true_or]

end Sync

/-! ## Runs -/

section Runs

variable {isa : WaveIsa ρ μ Unit} {code : Emitted} {cap it it' : ℕ} {s s' : WaveRegs ρ × μ} {t : List Inst}
  {outcome : Outcome}

def ldsInst (op pc : ℕ) : Inst := ⟨.kDs, op, [0xD8000000 + op <<< 18, 0], 2, pc, false, 0, .kNone⟩

/-- A store and a load. -/
theorem lds_synchronised_two : ∃ item ∈ [LdsItem.barrier], item.isBarrier = true :=
  (@lds_synchronised [ldsInst 13 0, ldsInst 54 2] .structured [0] [.barrier] [.barrier] [] (ldsInst 13 0) (ldsInst 54 2)
    (by rfl) (by decide) (by decide) (.inr ⟨by decide, by decide⟩)).1

/-- Two stores get no barrier between them. -/
theorem stores_unsynchronised :
    ¬∀ (program : Program) (lowering : Lowering) (blocks : List ℕ) (before mid behind : List LdsItem) (x y : Inst),
      lowered program lowering blocks = before ++ .inst x :: (mid ++ .inst y :: behind) →
      ((WritesLds x ∧ (ReadsLds y ∨ WritesLds y)) ∨ (WritesLds y ∧ (ReadsLds x ∨ WritesLds x))) →
        ∃ item ∈ mid, item.isBarrier = true := by
  intro h
  obtain ⟨item, hitem, -⟩ := h [ldsInst 13 0, ldsInst 13 2] .structured [0] [.barrier] [] [] (ldsInst 13 0)
    (ldsInst 13 2) rfl (.inl ⟨by decide, .inr (by decide)⟩)
  cases hitem

end Runs

end Prosperity.Rdna
