import Mathlib.Data.Fin.Basic
import Prosperity.Gcn.Reachability

/-!
# Waves

A wave runs a decoded program: 64 lanes with one control, the lanes of EXEC active. Exact are the
lane-index operations; what any other instruction writes is left to the instruction set, which is
a parameter.
-/

namespace Prosperity.Gcn

abbrev Lane := Fin 64

structure Wave where
  pc : ℕ
  exec : Lane → Bool
  scalar : ℕ → ℕ
  vgpr : ℕ → Lane → ℕ
  reached : ℕ → Lane → Bool

def Wave.operand (s : Wave) (field : ℕ) (l : Lane) : ℕ :=
  if 256 ≤ field then s.vgpr (field - 256) l
  else if 128 ≤ field ∧ field ≤ 192 then field - 128
  else if 193 ≤ field ∧ field ≤ 208 then 2 ^ 32 - (field - 192)
  else s.scalar field

@[simp]
theorem Wave.operand_vgpr (s : Wave) (r : ℕ) (l : Lane) : s.operand (256 + r) l = s.vgpr r l := by
  rw [operand, if_pos (Nat.le_add_right 256 r), Nat.add_sub_cancel_left]

theorem Wave.operand_inline (s : Wave) {n : ℕ} (h : n ≤ 64) (l : Lane) : s.operand (128 + n) l = n := by
  rw [operand, if_neg (by omega), if_pos (by omega), Nat.add_sub_cancel_left]

theorem Wave.operand_ones (s : Wave) (l : Lane) : s.operand 193 l = 2 ^ 32 - 1 := rfl

/-! ## Fields of vector instructions -/

def vdst (inst : Inst) : ℕ :=
  if inst.enc = .kVop3 then inst.raw0 &&& 0xFF else (inst.raw0 >>> 17) &&& 0xFF

def src0 (inst : Inst) : ℕ :=
  if inst.enc = .kVop3 then inst.raw1 &&& 0x1FF else inst.raw0 &&& 0x1FF

def src1 (inst : Inst) : ℕ :=
  if inst.enc = .kVop3 then (inst.raw1 >>> 9) &&& 0x1FF else 256 + ((inst.raw0 >>> 9) &&& 0xFF)

/-! ## Lane-index operations -/

inductive LaneOp where
  | lshlrev
  | mbcntLo
  | mbcntHi
  deriving DecidableEq

/-- The operation of an instruction in its VOP2 or VOP3 spelling. Sources 249 and 250 of the
former announce another word of modifiers. -/
def laneOp (inst : Inst) : Option LaneOp :=
  let op :=
    if inst.enc = .kVop2 ∧ src0 inst ≠ 249 ∧ src0 inst ≠ 250 then some inst.opcode
    else if inst.enc = .kVop3 ∧ 0x100 ≤ inst.opcode then some (inst.opcode - 0x100)
    else none
  if op = some 0x1a then some .lshlrev
  else if op = some 0x23 then some .mbcntLo
  else if op = some 0x24 then some .mbcntHi
  else none

/-- The bits of a half of a mask, from lane `base` on, that lie below the lane's own. -/
def maskBits (base mask : ℕ) (l : Lane) : ℕ :=
  ((List.range 32).filter fun b => mask.testBit b && base + b < l.val).length

def LaneOp.value (op : LaneOp) (a b : ℕ) (l : Lane) : ℕ :=
  match op with
  | .lshlrev => (b <<< (a &&& 31)) % 2 ^ 32
  | .mbcntLo => (maskBits 0 a l + b) % 2 ^ 32
  | .mbcntHi => (maskBits 32 a l + b) % 2 ^ 32

theorem maskBits_high (l : Lane) : maskBits 32 (2 ^ 32 - 1) l = l.val - 32 := by
  revert l
  decide

theorem maskBits_low (l : Lane) : maskBits 0 (2 ^ 32 - 1) l = min l.val 32 := by
  revert l
  decide

theorem mbcntHi_value (l : Lane) : LaneOp.mbcntHi.value (2 ^ 32 - 1) 0 l = l.val - 32 := by
  rw [LaneOp.value, maskBits_high]
  omega

theorem mbcntLo_value (l : Lane) : LaneOp.mbcntLo.value (2 ^ 32 - 1) (l.val - 32) l = l.val := by
  rw [LaneOp.value, maskBits_low]
  omega

theorem lshlrev_value (l : Lane) : LaneOp.lshlrev.value 2 l.val l = 4 * l.val := by
  change (l.val <<< 2) % 2 ^ 32 = 4 * l.val
  rw [Nat.shiftLeft_eq]
  omega

/-! ## Instructions and runs -/

/-- The instruction set: the VGPRs that an instruction writes, which may depend on a scalar such
as M0. -/
structure Isa where
  writes : Inst → (ℕ → ℕ) → ℕ → Prop
  writes_laneOp : ∀ {inst : Inst} {op : LaneOp}, laneOp inst = some op →
    ∀ scalar r, writes inst scalar r ↔ r = vdst inst

/-- One instruction of a wave. EXEC, the scalars and the results that `laneOp` does not give are
arbitrary. -/
structure Step (isa : Isa) (program : Program) (inst : Inst) (s s' : Wave) : Prop where
  fetched : fetch program s.pc = some inst
  goes : Goes inst s'.pc
  kept : ∀ r, ¬ isa.writes inst s.scalar r → s'.vgpr r = s.vgpr r ∧ s'.reached r = s.reached r
  wrote : ∀ r, isa.writes inst s.scalar r → s'.reached r = s.exec
  result : ∀ op, laneOp inst = some op → ∀ l, s.exec l = true →
    s'.vgpr (vdst inst) l = op.value (s.operand (src0 inst) l) (s.operand (src1 inst) l) l

/-- An executed instruction with the states around it. -/
structure Event where
  inst : Inst
  before : Wave
  after : Wave

inductive Run (isa : Isa) (program : Program) : List Event → Wave → Prop where
  | start {s : Wave} : s.pc = 0 → Run isa program [] s
  | step {events : List Event} {inst : Inst} {s s' : Wave} : Run isa program events s →
      Step isa program inst s s' → Run isa program (⟨inst, s, s'⟩ :: events) s'

section Runs

variable {isa : Isa} {program : Program} {events : List Event} {s s' : Wave} {inst : Inst}

theorem Run.executed (h : Run isa program events s) (hfetch : fetch program s.pc = some inst) :
    Executed program inst := by
  induction h generalizing inst with
  | start hpc => exact .first (hpc ▸ hfetch)
  | step _ hstep ih => exact .next (ih hstep.fetched) hstep.goes hfetch

theorem Run.exists_of_mem (h : Run isa program events s) {e : Event} (he : e ∈ events) :
    ∃ earlier later, events = later ++ e :: earlier ∧ Run isa program earlier e.before ∧
      Step isa program e.inst e.before e.after := by
  induction h with
  | start _ => cases he
  | @step events inst s s' hrun hstep ih =>
    rcases List.mem_cons.mp he with rfl | he
    · exact ⟨events, [], rfl, hrun, hstep⟩
    · obtain ⟨earlier, later, rfl, hrun', hstep'⟩ := ih he
      exact ⟨earlier, ⟨inst, s, s'⟩ :: later, rfl, hrun', hstep'⟩

end Runs

/-! ## Instructions by index -/

section Index

variable {program : Program} {inst : Inst} {k pc : ℕ}

theorem ContiguousFrom.fetch_next {start : ℕ} (h : ContiguousFrom start program) (hk : program[k]? = some inst) :
    fetch program (inst.pc + inst.size) = program[k + 1]? := by
  induction program generalizing start k with
  | nil => simp at hk
  | cons first rest ih =>
    obtain ⟨hpc, hsize, hrest⟩ := h
    cases k with
    | zero =>
      obtain rfl : first = inst := by simpa using hk
      rw [fetch, List.find?_cons_of_neg (by simp; omega)]
      cases rest with
      | nil => rfl
      | cons second rest =>
        rw [List.find?_cons_of_pos (by simp [hrest.1, hpc])]
        rfl
    | succ k =>
      have hmem : inst ∈ rest := List.mem_of_getElem? (by simpa using hk)
      have hle := hrest.le hmem
      rw [fetch, List.find?_cons_of_neg (by simp; omega)]
      exact ih hrest (by simpa using hk)

theorem ContiguousFrom.index_unique {start j : ℕ} {inst' : Inst} (h : ContiguousFrom start program)
    (hk : program[k]? = some inst) (hj : program[j]? = some inst') (hpc : inst.pc = inst'.pc) : k = j := by
  have hsorted := List.pairwise_iff_getElem.mp (ContiguousFrom.sorted h)
  obtain ⟨hk', rfl⟩ := List.getElem?_eq_some_iff.mp hk
  obtain ⟨hj', rfl⟩ := List.getElem?_eq_some_iff.mp hj
  rcases Nat.lt_trichotomy k j with hlt | heq | hlt
  · have := hsorted k j hk' hj' hlt
    have := h.size_pos (List.getElem_mem hk')
    omega
  · exact heq
  · have := hsorted j k hj' hk' hlt
    have := h.size_pos (List.getElem_mem hj')
    omega

theorem exists_index_of_fetch (h : fetch program pc = some inst) : ∃ k : ℕ, program[k]? = some inst :=
  List.mem_iff_getElem?.mp (fetch_some h).1

end Index

end Prosperity.Gcn
