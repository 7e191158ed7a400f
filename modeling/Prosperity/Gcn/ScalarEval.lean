import Mathlib.Algebra.Group.Nat.Defs
import Prosperity.Gcn.Decode

/-!
# Evaluating scalar registers

The walk over a shader that follows its descriptor pointers: a file of 136 scalar registers, which knows
some of their values, starts with the user data and steps one instruction after the other. What it
cannot model makes its destination unknown. Scalars that a shader parks in the lanes of a VGPR are
remembered by lane.

Guest memory is a parameter, constant while a program is walked.
-/

namespace Prosperity.Gcn

/-! ## Fields -/

/-- `Smrd`: the operand fields of a scalar load. -/
structure Smrd where
  op : ℕ
  sdst : ℕ
  /-- The index of an SGPR pair. -/
  sbase : ℕ

def decodeSmrd (w : ℕ) : Smrd where
  op := (w >>> 22) &&& 0x1F
  sdst := (w >>> 15) &&& 0x7F
  sbase := (w >>> 9) &&& 0x3F

/-- `SmrdOffset`: a number of dwords, or an SGPR that holds a number of bytes. -/
inductive SmrdOffset where
  | dwords (n : ℕ)
  | inSgpr (sgpr : ℕ)

def decodeSmrdOffset (inst : Inst) : SmrdOffset :=
  let w := inst.raw0
  let field := w &&& 0xFF
  if (w >>> 8) &&& 1 ≠ 0 then .dwords field
  else if field = 0xFF ∧ inst.hasLiteral then .dwords inst.literal
  else .inSgpr field

def smrdDwords (op : ℕ) : Option ℕ :=
  if op ≤ 0x04 then some (1 <<< op)
  else if 0x08 ≤ op ∧ op ≤ 0x0c then some (1 <<< (op - 0x08))
  else none

def isBufferLoad (op : ℕ) : Bool := 0x08 ≤ op ∧ op ≤ 0x0c

def sop1DestIs64 (op : ℕ) : Bool :=
  op ∈ [0x04, 0x06, 0x08, 0x0a, 0x0c, 0x1c, 0x1e, 0x1f, 0x21, 0x24, 0x25, 0x26, 0x27, 0x28, 0x29, 0x2a,
    0x2b, 0x2d, 0x2f, 0x31]

def sop2DestIs64 (op : ℕ) : Bool :=
  op ∈ [0x0b, 0x0f, 0x11, 0x13, 0x15, 0x17, 0x19, 0x1b, 0x1d, 0x1f, 0x21, 0x23, 0x25, 0x29, 0x2a]

def vop3bWritesSdst (op : ℕ) : Bool :=
  op ∈ [0x125, 0x126, 0x127, 0x128, 0x129, 0x12a, 0x16d, 0x16e, 0x176, 0x177]

/-- The value of a source that names no register. -/
def inlineConst (field literal : ℕ) : Option UInt32 :=
  if field = 128 then some 0
  else if 129 ≤ field ∧ field ≤ 192 then some (.ofNat (field - 128))
  else if 193 ≤ field ∧ field ≤ 208 then some (-.ofNat (field - 192))
  else if field = 240 then some 0x3f000000
  else if field = 241 then some 0xbf000000
  else if field = 242 then some 0x3f800000
  else if field = 243 then some 0xbf800000
  else if field = 244 then some 0x40000000
  else if field = 245 then some 0xc0000000
  else if field = 246 then some 0x40800000
  else if field = 247 then some 0xc0800000
  else if field = 255 then some (.ofNat literal)
  else none

def sop2Value (op : ℕ) (a b : UInt32) : Option UInt32 :=
  match op with
  | 0x06 => some (min a.toInt32 b.toInt32).toUInt32
  | 0x07 => some (min a b)
  | 0x08 => some (max a.toInt32 b.toInt32).toUInt32
  | 0x09 => some (max a b)
  | 0x27 =>
    let width := (b >>> 16) &&& 0x7F
    some (if width ≥ 32 then a >>> (b &&& 31) else (a >>> (b &&& 31)) &&& ((1 <<< width) - 1))
  | 0x00 | 0x02 => some (a + b)
  | 0x01 | 0x03 => some (a - b)
  | 0x0e => some (a &&& b)
  | 0x10 => some (a ||| b)
  | 0x12 => some (a ^^^ b)
  | 0x14 => some (a &&& ~~~b)
  | 0x16 => some (a ||| ~~~b)
  | 0x18 => some (~~~(a &&& b))
  | 0x1a => some (~~~(a ||| b))
  | 0x1c => some (~~~(a ^^^ b))
  | 0x1e => some (a <<< (b &&& 31))
  | 0x20 => some (a >>> (b &&& 31))
  | 0x22 => some (a.toInt32 >>> (b &&& 31).toInt32).toUInt32
  | 0x26 => some (a * b)
  | _ => none

/-! ## Registers -/

structure ScalarMemory where
  range : ℕ → ℕ → Bool
  dword : ℕ → UInt32

def kRegs : ℕ := 136

structure ScalarEval where
  sgpr : ℕ → UInt32
  known : ℕ → Bool
  /-- The address that a dword was loaded from. -/
  src : ℕ → ℕ
  /-- By VGPR and lane. -/
  laneSpill : ℕ → Option UInt32
  laneSpillSrc : ℕ → Option ℕ

namespace ScalarEval

/-- The registers before the first instruction. -/
def start (userData : ℕ → UInt32) : ScalarEval where
  sgpr i := if i < 16 then userData i else 0
  known i := i < 16
  src _ := 0
  laneSpill _ := none
  laneSpillSrc _ := none

variable (e : ScalarEval)

def value (r : ℕ) : Option UInt32 := if e.known r then some (e.sgpr r) else none

/-- `Ptr`: a pointer of 48 bits. -/
def ptr (s : ℕ) : ℕ := (((e.sgpr (s + 1)).toNat &&& 0xFFFF) <<< 32) ||| (e.sgpr s).toNat

/-- The base of `DecodeVBuffer`. -/
def vbufferBase (s : ℕ) : ℕ := (((e.sgpr (s + 1)).toNat &&& 0xFFF) <<< 32) ||| (e.sgpr s).toNat

def allKnown (s n : ℕ) : Bool := s + n ≤ kRegs ∧ (List.range n).all fun i => e.known (s + i)

def set (s : ℕ) (v : UInt32) : ScalarEval :=
  if s < kRegs then
    { e with
      sgpr := fun r => if r = s then v else e.sgpr r
      known := fun r => if r = s then true else e.known r }
  else e

def clear (s : ℕ) : ScalarEval :=
  if s < kRegs then { e with known := fun r => if r = s then false else e.known r } else e

/-- Clears the `n` registers from `s` on. -/
def clears (s n : ℕ) : ScalarEval := (List.range n).foldl (fun e i => e.clear (s + i)) e

def setSrc (s at_ : ℕ) : ScalarEval := { e with src := fun r => if r = s then at_ else e.src r }

def source (field literal : ℕ) : Option UInt32 :=
  if field ≤ 127 then e.value field else inlineConst field literal

def sourceHi (field : ℕ) : Option UInt32 := if field ≤ 126 then e.source (field + 1) 0 else some 0

end ScalarEval

/-! ## Lane operations -/

section Lanes

variable (inst : Inst)

def isReadlane : Bool :=
  (inst.enc = .kVop2 ∧ inst.opcode = 0x01) ∨ (inst.enc = .kVop3 ∧ inst.opcode = 0x101)

def isWritelane : Bool :=
  (inst.enc = .kVop2 ∧ inst.opcode = 0x02) ∨ (inst.enc = .kVop3 ∧ inst.opcode = 0x102)

def isReadfirstlane : Bool :=
  (inst.enc = .kVop1 ∧ inst.opcode = 0x02) ∨ (inst.enc = .kVop3 ∧ inst.opcode = 0x182)

def laneDst : ℕ :=
  if inst.enc = .kVop3 then inst.raw0 &&& 0xFF else (inst.raw0 >>> 17) &&& 0xFF

def laneSrc0 : ℕ := if inst.enc = .kVop3 then inst.raw1 &&& 0x1FF else inst.raw0 &&& 0x1FF

def laneSrc1 : ℕ :=
  if inst.enc = .kVop3 then (inst.raw1 >>> 9) &&& 0x1FF else (inst.raw0 >>> 9) &&& 0xFF

end Lanes

namespace ScalarEval

variable (inst : Inst) (e : ScalarEval)

def forget (slot : ℕ) : ScalarEval :=
  { e with
    laneSpill := fun i => if i = slot then none else e.laneSpill i
    laneSpillSrc := fun i => if i = slot then none else e.laneSpillSrc i }

def park (slot : ℕ) (v : UInt32) (at_ : ℕ) : ScalarEval :=
  { e with
    laneSpill := fun i => if i = slot then some v else e.laneSpill i
    laneSpillSrc := fun i => if i = slot then some at_ else e.laneSpillSrc i }

def stepWritelane : ScalarEval :=
  let dst := laneDst inst
  match e.source (laneSrc1 inst) inst.literal with
  | none => (List.range 64).foldl (fun e i => e.forget (dst * 64 + i)) e
  | some lane =>
    let slot := dst * 64 + (lane.toNat &&& 63)
    match e.source (laneSrc0 inst) inst.literal with
    | none => e.forget slot
    | some v => e.park slot v (if laneSrc0 inst ≤ 127 then e.src (laneSrc0 inst) else 0)

def stepReadlane : ScalarEval :=
  let dst := laneDst inst
  let src0 := laneSrc0 inst
  let lane := if isReadfirstlane inst then some 0 else e.source (laneSrc1 inst) inst.literal
  let slot := lane.map fun lane => (src0 - 256) * 64 + (lane.toNat &&& 63)
  match slot.bind fun slot => if 256 ≤ src0 ∧ src0 < 512 then
      (e.laneSpill slot).map fun v => (slot, v) else none with
  | none => e.clear dst
  | some (slot, v) => (e.set dst v).setSrc dst ((e.laneSpillSrc slot).getD 0)

/-- `StepLaneOp`, `none` where it returns false. -/
def stepLaneOp : Option ScalarEval :=
  if inst.enc ≠ .kVop1 ∧ inst.enc ≠ .kVop2 ∧ inst.enc ≠ .kVop3 then none
  else if isWritelane inst then some (e.stepWritelane inst)
  else if isReadlane inst ∨ isReadfirstlane inst then some (e.stepReadlane inst)
  else if inst.enc = .kVop3 ∧ (inst.opcode < 0x100 ∨ vop3bWritesSdst inst.opcode) then
    some (e.clears (if inst.opcode < 0x100 then laneDst inst else (inst.raw0 >>> 8) &&& 0x7F) 2)
  else none

/-! ## Scalar operations -/

def setPair (s : ℕ) : Option (UInt32 × UInt32) → ScalarEval
  | some (lo, hi) => (e.set s lo).set (s + 1) hi
  | none => e.clears s 2

def stepSop1 (codeBase : ℕ) : ScalarEval :=
  let w := inst.raw0
  let sdst := (w >>> 16) &&& 0x7F
  let ssrc0 := w &&& 0xFF
  if inst.opcode = 0x03 then
    match e.source ssrc0 inst.literal with
    | some v => e.set sdst v
    | none => e.clear sdst
  else if inst.opcode = 0x04 then
    e.setPair sdst <|
      (e.source ssrc0 inst.literal).bind fun lo => (e.sourceHi ssrc0).map fun hi => (lo, hi)
  else if inst.opcode = 0x1f then
    let pc := codeBase + (inst.pc + inst.size) * 4
    e.setPair sdst (if codeBase ≠ 0 then some (.ofNat pc, .ofNat (pc >>> 32)) else none)
  else e.clears sdst (if sop1DestIs64 inst.opcode then 2 else 1)

/-- `static_cast<u32>(static_cast<i32>(static_cast<i16>(w)))`. -/
def simm16 (w : ℕ) : UInt32 := (UInt16.ofNat w).toInt16.toInt32.toUInt32

def sopkKeeps (op : ℕ) : Bool := (0x03 ≤ op ∧ op ≤ 0x0e) ∨ op = 0x11 ∨ op = 0x13 ∨ op = 0x15

def stepSopk : ScalarEval :=
  let w := inst.raw0
  let sdst := (w >>> 16) &&& 0x7F
  if inst.opcode = 0x00 then e.set sdst (simm16 w)
  else if inst.opcode = 0x0f then
    if e.known sdst then e.set sdst (e.sgpr sdst + simm16 w) else e
  else if inst.opcode = 0x10 then
    if e.known sdst then e.set sdst (e.sgpr sdst * simm16 w) else e
  else if sopkKeeps inst.opcode then e
  else e.clear sdst

def stepSop2 : ScalarEval :=
  let w := inst.raw0
  let sdst := (w >>> 16) &&& 0x7F
  let result := (e.source (w &&& 0xFF) inst.literal).bind fun a =>
    (e.source ((w >>> 8) &&& 0xFF) inst.literal).bind fun b => sop2Value inst.opcode a b
  match result with
  | some v => e.set sdst v
  | none => e.clears sdst (if sop2DestIs64 inst.opcode then 2 else 1)

def smrdAddress : Option ℕ :=
  let s := decodeSmrd inst.raw0
  let base := s.sbase * 2
  let byteOff :=
    match decodeSmrdOffset inst with
    | .dwords n => some (n * 4)
    | .inSgpr sgpr => if sgpr < kRegs ∧ e.known sgpr then some (e.sgpr sgpr).toNat else none
  if e.allKnown base (if isBufferLoad s.op then 4 else 2) then
    byteOff.map fun byteOff =>
      (if isBufferLoad s.op then e.vbufferBase base else e.ptr base) + byteOff
  else none

/-- Puts `n` dwords of memory into the registers from `sdst` on. -/
def load (guest : ScalarMemory) (sdst address n : ℕ) : ScalarEval :=
  (List.range n).foldl (fun e i =>
    let e := e.set (sdst + i) (guest.dword (address + i * 4))
    if sdst + i < kRegs then e.setSrc (sdst + i) (address + i * 4) else e) e

def stepSmrd (guest : ScalarMemory) : ScalarEval :=
  let s := decodeSmrd inst.raw0
  match smrdDwords s.op with
  | none => e
  | some dwords =>
    let cleared := e.clears s.sdst dwords
    match e.smrdAddress inst with
    | none => cleared
    | some address =>
      if address > 2 ^ 64 - 1 then cleared
      else if guest.range address (dwords * 4) then cleared.load guest s.sdst address dwords
      else cleared

def step (guest : ScalarMemory) (codeBase : ℕ) : ScalarEval :=
  match inst.enc with
  | .kSop1 => e.stepSop1 inst codeBase
  | .kSopk => e.stepSopk inst
  | .kSop2 => e.stepSop2 inst
  | .kSmrd => e.stepSmrd inst guest
  | _ => (e.stepLaneOp inst).getD e

/-! ## What a step assigns -/

/-- The registers after an assignment to the `n` registers from `s` on, which leaves the lanes alone. -/
structure Assigns (e e' : ScalarEval) (s n : ℕ) (vals : ℕ → Option UInt32) : Prop where
  value : ∀ r, e'.value r = if s ≤ r ∧ r < s + n ∧ r < kRegs then vals (r - s) else e.value r
  laneSpill : e'.laneSpill = e.laneSpill

variable {e inst} {e' e'' : ScalarEval} {s n : ℕ} {vals : ℕ → Option UInt32}

theorem value_set (s : ℕ) (v : UInt32) (r : ℕ) :
    (e.set s v).value r = if r = s ∧ s < kRegs then some v else e.value r := by
  rw [set]
  by_cases hs : s < kRegs
  · rw [if_pos hs, value]
    by_cases hr : r = s
    · simp [hr, hs]
    · simp [hr, value]
  · rw [if_neg hs, if_neg fun h => hs h.2]

theorem value_clear (s r : ℕ) : (e.clear s).value r = if r = s ∧ s < kRegs then none else e.value r := by
  rw [clear]
  by_cases hs : s < kRegs
  · rw [if_pos hs, value]
    by_cases hr : r = s
    · simp [hr, hs]
    · simp [hr, value]
  · rw [if_neg hs, if_neg fun h => hs h.2]

@[simp]
theorem laneSpill_set (s : ℕ) (v : UInt32) : (e.set s v).laneSpill = e.laneSpill := by
  rw [set]
  split_ifs <;> rfl

@[simp]
theorem laneSpill_clear (s : ℕ) : (e.clear s).laneSpill = e.laneSpill := by
  rw [clear]
  split_ifs <;> rfl

theorem assigns_set (s : ℕ) (v : UInt32) : Assigns e (e.set s v) s 1 fun _ => some v := by
  refine ⟨fun r => ?_, laneSpill_set s v⟩
  rw [value_set]
  exact if_congr (by omega) rfl rfl

theorem assigns_clear (s : ℕ) : Assigns e (e.clear s) s 1 fun _ => none := by
  refine ⟨fun r => ?_, laneSpill_clear s⟩
  rw [value_clear]
  exact if_congr (by omega) rfl rfl

theorem assigns_none (s : ℕ) : Assigns e e s 0 vals := by
  refine ⟨fun r => ?_, rfl⟩
  rw [if_neg (by omega)]

theorem Assigns.snoc (h : Assigns e e' s n vals) (h' : Assigns e' e'' (s + n) 1 fun _ => vals n) :
    Assigns e e'' s (n + 1) vals := by
  refine ⟨fun r => ?_, h'.laneSpill.trans h.laneSpill⟩
  rw [h'.value, h.value]
  by_cases hlast : s + n ≤ r ∧ r < s + n + 1 ∧ r < kRegs
  · have hr : r - s = n := by omega
    rw [if_pos hlast, if_pos (by omega), hr]
  · rw [if_neg hlast]
    exact if_congr (by omega) rfl rfl

theorem Assigns.again {vals' : ℕ → Option UInt32} (h : Assigns e e' s n vals)
    (h' : Assigns e' e'' s n vals') : Assigns e e'' s n vals' := by
  refine ⟨fun r => ?_, h'.laneSpill.trans h.laneSpill⟩
  rw [h'.value, h.value]
  split_ifs <;> rfl

theorem Assigns.congr {vals' : ℕ → Option UInt32} (h : Assigns e e' s n vals)
    (heq : ∀ i < n, vals i = vals' i) : Assigns e e' s n vals' := by
  refine ⟨fun r => ?_, h.laneSpill⟩
  rw [h.value]
  split_ifs with hr
  · exact heq _ (by omega)
  · rfl

theorem clears_succ (s n : ℕ) : e.clears s (n + 1) = (e.clears s n).clear (s + n) := by
  rw [clears, List.range_succ, List.foldl_append]
  rfl

theorem load_succ (guest : ScalarMemory) (s address n : ℕ) : e.load guest s address (n + 1) =
    let loaded := (e.load guest s address n).set (s + n) (guest.dword (address + n * 4))
    if s + n < kRegs then loaded.setSrc (s + n) (address + n * 4) else loaded := by
  rw [load, List.range_succ, List.foldl_append]
  rfl

theorem assigns_clears (s n : ℕ) : Assigns e (e.clears s n) s n fun _ => none := by
  induction n with
  | zero => exact assigns_none s
  | succ n ih =>
    rw [clears_succ]
    exact ih.snoc (assigns_clear (s + n))

theorem assigns_load (guest : ScalarMemory) (s address n : ℕ) :
    Assigns e (e.load guest s address n) s n fun i => some (guest.dword (address + i * 4)) := by
  induction n with
  | zero => exact assigns_none s
  | succ n ih =>
    rw [load_succ]
    refine ih.snoc ?_
    have hset := assigns_set (e := e.load guest s address n) (s + n) (guest.dword (address + n * 4))
    dsimp only
    -- The source address that is noted as well is no value.
    split_ifs
    · exact ⟨hset.value, hset.laneSpill⟩
    · exact hset

theorem assigns_setPair (s : ℕ) (pair : Option (UInt32 × UInt32)) :
    Assigns e (e.setPair s pair) s 2 fun i => pair.map fun p => if i = 0 then p.1 else p.2 := by
  cases pair with
  | none => exact assigns_clears s 2
  | some p =>
    have hlo : Assigns e (e.set s p.1) s 1 fun i => (some p).map fun p => if i = 0 then p.1 else p.2 :=
      (assigns_set s p.1).congr fun i hi => by
        obtain rfl : i = 0 := by omega
        rfl
    exact hlo.snoc (assigns_set (s + 1) p.2)

/-! ### The scalar operations -/

variable (e inst) in
def sop1Results (codeBase : ℕ) (i : ℕ) : Option UInt32 :=
  let w := inst.raw0
  let ssrc0 := w &&& 0xFF
  let pair : Option (UInt32 × UInt32) :=
    if inst.opcode = 0x04 then
      (e.source ssrc0 inst.literal).bind fun lo => (e.sourceHi ssrc0).map fun hi => (lo, hi)
    else if inst.opcode = 0x1f then
      let pc := codeBase + (inst.pc + inst.size) * 4
      if codeBase ≠ 0 then some (.ofNat pc, .ofNat (pc >>> 32)) else none
    else none
  if inst.opcode = 0x03 then e.source ssrc0 inst.literal
  else pair.map fun p => if i = 0 then p.1 else p.2

theorem assigns_stepSop1 (codeBase : ℕ) : Assigns e (e.stepSop1 inst codeBase) ((inst.raw0 >>> 16) &&& 0x7F)
      (if sop1DestIs64 inst.opcode then 2 else 1) (e.sop1Results inst codeBase) := by
  rw [stepSop1]
  by_cases hmov : inst.opcode = 0x03
  · have hcount : sop1DestIs64 inst.opcode = false := by rw [hmov]; rfl
    have hvals : e.sop1Results inst codeBase =
        fun _ => e.source (inst.raw0 &&& 0xFF) inst.literal := by
      funext i
      rw [sop1Results, if_pos hmov]
    rw [if_pos hmov, hcount, hvals]
    cases e.source (inst.raw0 &&& 0xFF) inst.literal with
    | none => exact assigns_clear _
    | some v => exact assigns_set _ v
  by_cases hpair : inst.opcode = 0x04
  · have hcount : sop1DestIs64 inst.opcode = true := by rw [hpair]; rfl
    rw [if_neg hmov, if_pos hpair, hcount]
    refine (assigns_setPair _ _).congr ?_
    intro i _
    rw [sop1Results, if_neg hmov, if_pos hpair]
  by_cases hpc : inst.opcode = 0x1f
  · have hcount : sop1DestIs64 inst.opcode = true := by rw [hpc]; rfl
    rw [if_neg hmov, if_neg hpair, if_pos hpc, hcount]
    refine (assigns_setPair _ _).congr ?_
    intro i _
    rw [sop1Results, if_neg hmov, if_neg hpair, if_pos hpc]
  · -- The other opcodes are not modelled.
    rw [if_neg hmov, if_neg hpair, if_neg hpc]
    refine (assigns_clears _ _).congr ?_
    intro i _
    rw [sop1Results, if_neg hmov, if_neg hpair, if_neg hpc]
    rfl

variable (e inst) in
def sopkResult : Option UInt32 :=
  let w := inst.raw0
  let sdst := (w >>> 16) &&& 0x7F
  if inst.opcode = 0x00 then some (simm16 w)
  else if inst.opcode = 0x0f then (e.value sdst).map (· + simm16 w)
  else if inst.opcode = 0x10 then (e.value sdst).map (· * simm16 w)
  else none

theorem assigns_update (s : ℕ) (f : UInt32 → UInt32) :
    Assigns e (if e.known s then e.set s (f (e.sgpr s)) else e) s 1 fun _ => (e.value s).map f := by
  by_cases hknown : e.known s = true
  · rw [if_pos hknown, value, if_pos hknown]
    exact assigns_set s _
  · refine ⟨fun r => ?_, by rw [if_neg hknown]⟩
    rw [if_neg hknown]
    split_ifs with hr
    · obtain rfl : r = s := by omega
      rw [value, if_neg hknown]
      rfl
    · rfl

theorem assigns_stepSopk (h : sopkKeeps inst.opcode = false) :
    Assigns e (e.stepSopk inst) ((inst.raw0 >>> 16) &&& 0x7F) 1 fun _ => e.sopkResult inst := by
  rw [stepSopk]
  simp only [sopkResult]
  by_cases hmovk : inst.opcode = 0x00
  · rw [if_pos hmovk, if_pos hmovk]
    exact assigns_set _ _
  by_cases haddk : inst.opcode = 0x0f
  · rw [if_neg hmovk, if_pos haddk, if_neg hmovk, if_pos haddk]
    exact assigns_update _ fun v => v + simm16 inst.raw0
  by_cases hmulk : inst.opcode = 0x10
  · rw [if_neg hmovk, if_neg haddk, if_pos hmulk, if_neg hmovk, if_neg haddk, if_pos hmulk]
    exact assigns_update _ fun v => v * simm16 inst.raw0
  · rw [if_neg hmovk, if_neg haddk, if_neg hmulk, if_neg hmovk, if_neg haddk, if_neg hmulk,
      h, if_neg Bool.false_ne_true]
    exact assigns_clear _

variable (e inst) in
def sop2Results (i : ℕ) : Option UInt32 :=
  let w := inst.raw0
  if i = 0 then
    (e.source (w &&& 0xFF) inst.literal).bind fun a =>
      (e.source ((w >>> 8) &&& 0xFF) inst.literal).bind fun b => sop2Value inst.opcode a b
  else none

theorem sop2Value_eq_none {op : ℕ} (h : sop2DestIs64 op = true) (a b : UInt32) : sop2Value op a b = none := by
  rw [sop2DestIs64, decide_eq_true_iff] at h
  simp only [List.mem_cons, List.not_mem_nil, or_false] at h
  rcases h with rfl | rfl | rfl | rfl | rfl | rfl | rfl | rfl | rfl | rfl | rfl | rfl | rfl | rfl | rfl
    <;> rfl

theorem assigns_stepSop2 : Assigns e (e.stepSop2 inst) ((inst.raw0 >>> 16) &&& 0x7F)
      (if sop2DestIs64 inst.opcode then 2 else 1) (e.sop2Results inst) := by
  rw [stepSop2]
  split
  case h_1 v hv =>
    have hcount : sop2DestIs64 inst.opcode = false := by
      by_contra htrue
      obtain ⟨a, -, hb⟩ := Option.bind_eq_some_iff.mp hv
      obtain ⟨b, -, hvalue⟩ := Option.bind_eq_some_iff.mp hb
      rw [sop2Value_eq_none (Bool.not_eq_false _ ▸ htrue)] at hvalue
      cases hvalue
    rw [hcount]
    refine (assigns_set _ v).congr ?_
    intro i hi
    obtain rfl : i = 0 := by omega
    exact hv.symm
  case h_2 hnone =>
    refine (assigns_clears _ _).congr ?_
    intro i _
    rw [sop2Results]
    split_ifs
    · exact hnone.symm
    · rfl

variable (e inst) in
def smrdResults (guest : ScalarMemory) (dwords i : ℕ) : Option UInt32 :=
  (e.smrdAddress inst).bind fun address =>
    if address > 2 ^ 64 - 1 then none
    else if guest.range address (dwords * 4) then some (guest.dword (address + i * 4)) else none

theorem assigns_stepSmrd {guest : ScalarMemory} {dwords : ℕ}
    (h : smrdDwords (decodeSmrd inst.raw0).op = some dwords) :
    Assigns e (e.stepSmrd inst guest) (decodeSmrd inst.raw0).sdst dwords (e.smrdResults inst guest dwords) := by
  rw [stepSmrd]
  dsimp only
  rw [h]
  dsimp only
  have hclears := assigns_clears (e := e) (decodeSmrd inst.raw0).sdst dwords
  unfold smrdResults
  cases e.smrdAddress inst with
  | none => exact hclears
  | some address =>
    simp only [Option.bind_some]
    split_ifs
    · exact hclears
    · exact hclears.again (assigns_load guest _ _ _)
    · exact hclears

/-! ### The lane operations -/

variable (e inst) in
/-- What a lane read gives its destination. -/
def readlaneResult : Option UInt32 :=
  let src0 := laneSrc0 inst
  let lane := if isReadfirstlane inst then some 0 else e.source (laneSrc1 inst) inst.literal
  lane.bind fun lane =>
    if 256 ≤ src0 ∧ src0 < 512 then e.laneSpill ((src0 - 256) * 64 + (lane.toNat &&& 63)) else none

theorem assigns_stepReadlane : Assigns e (e.stepReadlane inst) (laneDst inst) 1 fun _ => e.readlaneResult inst := by
  rw [stepReadlane, readlaneResult]
  cases hlane : (if isReadfirstlane inst then some 0 else e.source (laneSrc1 inst) inst.literal) with
  | none => exact assigns_clear _
  | some lane =>
    simp only [Option.map_some, Option.bind_some]
    by_cases hsrc : 256 ≤ laneSrc0 inst ∧ laneSrc0 inst < 512
    · rw [if_pos hsrc, if_pos hsrc]
      cases e.laneSpill ((laneSrc0 inst - 256) * 64 + (lane.toNat &&& 63)) with
      | none => exact assigns_clear _
      | some v =>
        have hset := assigns_set (e := e) (laneDst inst) v
        exact ⟨hset.value, hset.laneSpill⟩
    · rw [if_neg hsrc, if_neg hsrc]
      exact assigns_clear _

theorem value_stepWritelane (r : ℕ) : (e.stepWritelane inst).value r = e.value r := by
  have hforget : ∀ (n : ℕ) (f : ℕ → ℕ),
      ((List.range n).foldl (fun e i => e.forget (f i)) e).value r = e.value r := by
    intro n f
    induction n with
    | zero => rfl
    | succ n ih =>
      rw [List.range_succ, List.foldl_append]
      exact ih
  rw [stepWritelane]
  split
  · exact hforget 64 _
  · split
    · rfl
    · rfl

theorem step_lanes {guest : ScalarMemory} {codeBase : ℕ}
    (henc : inst.enc = .kVop1 ∨ inst.enc = .kVop2 ∨ inst.enc = .kVop3) :
    e.step inst guest codeBase = (e.stepLaneOp inst).getD e := by
  rcases henc with henc | henc | henc <;> rw [step, henc]

theorem stepLaneOp_cases (henc : inst.enc = .kVop1 ∨ inst.enc = .kVop2 ∨ inst.enc = .kVop3) :
    (isWritelane inst = true ∧ e.stepLaneOp inst = some (e.stepWritelane inst)) ∨
    (isWritelane inst = false ∧ (isReadlane inst = true ∨ isReadfirstlane inst = true) ∧
      e.stepLaneOp inst = some (e.stepReadlane inst)) ∨
    (isWritelane inst = false ∧ ¬(isReadlane inst = true ∨ isReadfirstlane inst = true) ∧
      (inst.enc = .kVop3 ∧ (inst.opcode < 0x100 ∨ vop3bWritesSdst inst.opcode = true)) ∧
      e.stepLaneOp inst = some (e.clears
        (if inst.opcode < 0x100 then laneDst inst else (inst.raw0 >>> 8) &&& 0x7F) 2)) ∨
    (isWritelane inst = false ∧ ¬(isReadlane inst = true ∨ isReadfirstlane inst = true) ∧
      ¬(inst.enc = .kVop3 ∧ (inst.opcode < 0x100 ∨ vop3bWritesSdst inst.opcode = true)) ∧
      e.stepLaneOp inst = none) := by
  have hnot : ¬(inst.enc ≠ .kVop1 ∧ inst.enc ≠ .kVop2 ∧ inst.enc ≠ .kVop3) := by
    rcases henc with henc | henc | henc <;> simp [henc]
  rw [stepLaneOp, if_neg hnot]
  cases hwrite : isWritelane inst with
  | true => exact .inl ⟨rfl, rfl⟩
  | false =>
    rw [if_neg Bool.false_ne_true]
    by_cases hread : isReadlane inst = true ∨ isReadfirstlane inst = true
    · rw [if_pos hread]
      exact .inr (.inl ⟨rfl, hread, rfl⟩)
    rw [if_neg hread]
    by_cases hsdst : inst.enc = .kVop3 ∧ (inst.opcode < 0x100 ∨ vop3bWritesSdst inst.opcode = true)
    · rw [if_pos hsdst]
      exact .inr (.inr (.inl ⟨rfl, hread, hsdst, rfl⟩))
    · rw [if_neg hsdst]
      exact .inr (.inr (.inr ⟨rfl, hread, hsdst, rfl⟩))

theorem step_other {guest : ScalarMemory} {codeBase : ℕ} (hscalar : inst.enc ∉ [Enc.kSop1, .kSopk, .kSop2, .kSmrd])
    (hvector : ¬(inst.enc = .kVop1 ∨ inst.enc = .kVop2 ∨ inst.enc = .kVop3)) : e.step inst guest codeBase = e := by
  have hnone : e.stepLaneOp inst = none := by
    rw [stepLaneOp, if_pos (by simpa [not_or] using hvector)]
  cases henc : inst.enc <;> simp [henc] at hscalar
  all_goals
    rw [step, henc, hnone]
    rfl

end ScalarEval

end Prosperity.Gcn
