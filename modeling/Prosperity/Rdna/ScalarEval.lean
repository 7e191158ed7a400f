import Mathlib.Algebra.Group.Int.Defs
import Prosperity.Gcn.ScalarEval
import Prosperity.Rdna.Decode

/-!
# Evaluating the scalar registers of RDNA shaders

The walk over a shader that follows its descriptor pointers: a file of 136 scalar registers and SCC,
each with a value or unknown. What an instruction writes is an `Update`; a destination field that names
the null register writes nothing.

Guest memory is a parameter, constant while a program is walked.
-/

namespace Prosperity.Rdna

open Gcn (Enc ScalarMemory)

/-! ## Fields -/

namespace Inst

variable (inst : Inst)

def word0 : ℕ := inst.raw.getD 0 0

def word1 : ℕ := inst.raw.getD 1 0

/-- The destination field of the scalar ALU. -/
def sdst : ℕ := (inst.word0 >>> 16) &&& 0x7F

def ssrc0 : ℕ := inst.word0 &&& 0xFF

def ssrc1 : ℕ := (inst.word0 >>> 8) &&& 0xFF

end Inst

structure Smem where
  op : ℕ
  sdst : ℕ
  sbase : ℕ
  soffset : ℕ
  offset : ℤ

/-- The low 21 bits as a signed number. -/
def simm21 (w : ℕ) : ℤ :=
  if w &&& 0x1FFFFF < 0x100000 then ((w &&& 0x1FFFFF : ℕ) : ℤ)
  else ((w &&& 0x1FFFFF : ℕ) : ℤ) - 0x200000

def decodeSmem (inst : Inst) : Smem where
  op := inst.opcode
  sdst := (inst.word0 >>> 6) &&& 0x7F
  sbase := (inst.word0 &&& 0x3F) * 2
  soffset := (inst.word1 >>> 25) &&& 0x7F
  offset := simm21 inst.word1

/-- `SmemLoadCount`: no dwords for what is not a load. -/
def smemLoadCount (op : ℕ) : ℕ :=
  match op with
  | 0x00 | 0x08 => 1
  | 0x01 | 0x09 => 2
  | 0x02 | 0x0A => 4
  | 0x03 | 0x0B => 8
  | 0x04 | 0x0C => 16
  | _ => 0

def sop1WriteDwords (op : ℕ) : ℕ :=
  if op ∈ [0x03, 0x05, 0x07, 0x09, 0x0b, 0x0d, 0x0e, 0x0f, 0x10, 0x11, 0x12, 0x13, 0x14, 0x15, 0x16,
      0x17, 0x18, 0x19, 0x1a, 0x1b, 0x1d, 0x2c, 0x2e, 0x30, 0x34, 0x3c, 0x3d, 0x3e, 0x3f, 0x40, 0x41,
      0x42, 0x43, 0x44, 0x45, 0x46, 0x47, 0x49] then 1
  else if op ∈ [0x20, 0x22] then 0
  else 2

def sop2WriteDwords (op : ℕ) : ℕ :=
  if op ≤ 0x0A ∨ op = 0x26 ∨ op = 0x27 ∨ op = 0x28 ∨ op = 0x2c ∨ (op ≥ 0x2f ∧ op ≤ 0x37) then 1
  else if op ≥ 0x0e ∧ op ≤ 0x28 then if op &&& 1 ≠ 0 then 2 else 1
  else 2

/-- `wide` in `DecodeScalarWrite`. -/
def sop2Wide (op : ℕ) : Bool :=
  op ∈ [0x0B, 0x0F, 0x11, 0x13, 0x15, 0x17, 0x19, 0x1B, 0x1D, 0x1F, 0x21, 0x23, 0x29]

/-- The value of a source that names no register. -/
def inlineConst (field literal : ℕ) : Option UInt32 :=
  if field = 128 then some 0
  else if field ≥ 129 ∧ field ≤ 192 then some (.ofNat (field - 128))
  else if field ≥ 193 ∧ field ≤ 208 then some (-.ofNat (field - 192))
  else if field = 240 then some 0x3f000000
  else if field = 241 then some 0xbf000000
  else if field = 242 then some 0x3f800000
  else if field = 243 then some 0xbf800000
  else if field = 244 then some 0x40000000
  else if field = 245 then some 0xc0000000
  else if field = 246 then some 0x40800000
  else if field = 247 then some 0xc0800000
  else if field = 255 then some (.ofNat literal)
  else none

/-! ## Registers -/

def kRegs : ℕ := 136

/-- A register or SCC that is not known is `none`. -/
structure ScalarEval where
  reg : ℕ → Option UInt32
  scc : Option Bool

/-- The writes of a step in order, and SCC where the step sets it. -/
structure Update where
  writes : List (ℕ × Option UInt32) := []
  scc : Option (Option Bool) := none

/-- `SetDest` of a value, and `ClearDest` of `none`. -/
def setDest (base offset : ℕ) (value : Option UInt32) : List (ℕ × Option UInt32) :=
  if base ≠ 125 then [(base + offset, value)] else []

namespace ScalarEval

/-- The registers before the first instruction. -/
def start (userData : ℕ → UInt32) (userSgprs userSgprBase : ℕ) (systemUserDataAddr : UInt64) : ScalarEval where
  reg r :=
    if r = 126 then some 1
    else if r = 127 then some 0
    else if userSgprBase = 8 ∧ r = 3 then some 0x0101
    else if userSgprBase = 8 ∧ (systemUserDataAddr ≠ 0 ∨ userSgprs ≥ 2) ∧ r = 0 then
      some (if systemUserDataAddr ≠ 0 then systemUserDataAddr.toUInt32 else userData 0)
    else if userSgprBase = 8 ∧ (systemUserDataAddr ≠ 0 ∨ userSgprs ≥ 2) ∧ r = 1 then
      some (if systemUserDataAddr ≠ 0 then (systemUserDataAddr >>> 32).toUInt32 else userData 1)
    else if r < kRegs ∧ userSgprBase ≤ r ∧ r < userSgprBase + min userSgprs 32 then
      some (userData (r - userSgprBase))
    else none
  scc := none

/-- `Set` of a value, and `Clear` of `none`. -/
def write (e : ScalarEval) (w : ℕ × Option UInt32) : ScalarEval :=
  if w.1 < kRegs then { e with reg := fun r => if r = w.1 then w.2 else e.reg r } else e

def assign (e : ScalarEval) (writes : List (ℕ × Option UInt32)) : ScalarEval := writes.foldl write e

def apply (e : ScalarEval) (u : Update) : ScalarEval :=
  { e.assign u.writes with scc := u.scc.getD e.scc }

variable (e : ScalarEval)

def allKnown (s n : ℕ) : Bool := s + n ≤ kRegs ∧ (List.range n).all fun i => (e.reg (s + i)).isSome

/-- `sgpr[r]` of a register that is known. -/
def sgpr (r : ℕ) : UInt32 := (e.reg r).getD 0

/-- `Ptr`: a pointer of 48 bits. -/
def ptr (s : ℕ) : ℕ := (((e.sgpr (s + 1)).toNat &&& 0xFFFF) <<< 32) ||| (e.sgpr s).toNat

def source (field literal : ℕ) : Option UInt32 :=
  if field = 125 then some 0
  else if field ≤ 127 then e.reg field
  else inlineConst field literal

def sourceHi (field : ℕ) : Option UInt32 :=
  if field = 125 then some 0
  else if field ≤ 126 then e.source (field + 1) 0
  else some 0

end ScalarEval

/-! ## Results -/

def sop2Value (op : ℕ) (a b : UInt32) : Option UInt32 :=
  match op with
  | 0x00 | 0x02 => some (a + b)
  | 0x01 | 0x03 => some (a - b)
  | 0x0e => some (a &&& b)
  | 0x10 => some (a ||| b)
  | 0x12 => some (a ^^^ b)
  | 0x14 => some (a &&& ~~~b)
  | 0x16 => some (a ||| ~~~b)
  | 0x18 => some (~~~(a &&& b))
  | 0x1a => some (~~~(a ||| b))
  | 0x1c => some (~~~(a ^^^ b))
  | 0x1e => some (a <<< (b &&& 31))
  | 0x20 => some (a >>> (b &&& 31))
  | 0x22 => some (a.toInt32 >>> (b &&& 31).toInt32).toUInt32
  | 0x26 => some (a * b)
  | 0x27 =>
    let offset := b &&& 31
    let width := (b >>> 16) &&& 0x7F
    some (if width ≥ 32 - offset then a >>> offset else (a >>> offset) &&& ((1 <<< width) - 1))
  | 0x2f | 0x30 | 0x31 | 0x32 => some ((a <<< .ofNat (op - 0x2e)) + b)
  | _ => none

def sop2Scc (op : ℕ) (a b value : UInt32) : Option (Option Bool) :=
  if op = 0x00 then some (some ((a.toNat + b.toNat) >>> 32 ≠ 0))
  else if op = 0x01 then some (some (b > a))
  else if op ∈ [0x0e, 0x10, 0x12, 0x14, 0x16, 0x18, 0x1a, 0x1c, 0x1e, 0x20, 0x22, 0x27] then
    some (some (value ≠ 0))
  else if op ≤ 0x05 ∨ (op ≥ 0x2f ∧ op ≤ 0x32) then some none
  else none

/-- `s_addc_u32` and `s_subb_u32`: the value and the carry. -/
def sop2Carry (op : ℕ) (a b : UInt32) (scc : Bool) : UInt32 × Bool :=
  let c : UInt32 := if scc then 1 else 0
  if op = 0x04 then (a + b + c, (a.toNat + b.toNat + c.toNat) >>> 32 ≠ 0)
  else (a - b - c, b.toNat + c.toNat > a.toNat)

def widen (lo hi : UInt32) : UInt64 := lo.toUInt64 ||| (hi.toUInt64 <<< 32)

/-- `s_bfe_u64` and `s_bfe_i64`. -/
def bfe64 (op : ℕ) (wide : UInt64) (b : UInt32) : UInt64 :=
  let off := (b &&& 0x3F).toUInt64
  let width := ((b >>> 16) &&& 0x7F).toUInt64
  if width = 0 then 0
  else
    let r := wide >>> off
    let r := if width < 64 then r &&& ((1 <<< width) - 1) else r
    if op = 0x2A ∧ width < 64 ∧ r &&& (1 <<< (width - 1)) ≠ 0 then r ||| ~~~((1 <<< width) - 1) else r

def shift64 (op : ℕ) (wide : UInt64) (b : UInt32) : UInt64 :=
  let n := (b &&& 63).toUInt64
  if op = 0x1F then wide <<< n
  else if op = 0x21 then wide >>> n
  else (wide.toInt64 >>> n.toInt64).toUInt64

def sopkCompare (op : ℕ) (value simm imm : UInt32) : Bool :=
  match op with
  | 0x03 => value.toInt32 = simm.toInt32
  | 0x04 => value.toInt32 ≠ simm.toInt32
  | 0x05 => value.toInt32 > simm.toInt32
  | 0x06 => value.toInt32 ≥ simm.toInt32
  | 0x07 => value.toInt32 < simm.toInt32
  | 0x08 => value.toInt32 ≤ simm.toInt32
  | 0x09 => value = imm
  | 0x0A => value ≠ imm
  | 0x0B => value > imm
  | 0x0C => value ≥ imm
  | 0x0D => value < imm
  | _ => value ≤ imm

def sopcCompare (op : ℕ) (a b : UInt32) : Option Bool :=
  match op with
  | 0x00 | 0x06 => some (a = b)
  | 0x01 | 0x07 => some (a ≠ b)
  | 0x02 => some (a.toInt32 > b.toInt32)
  | 0x03 => some (a.toInt32 ≥ b.toInt32)
  | 0x04 => some (a.toInt32 < b.toInt32)
  | 0x05 => some (a.toInt32 ≤ b.toInt32)
  | 0x08 => some (a > b)
  | 0x09 => some (a ≥ b)
  | 0x0a => some (a < b)
  | 0x0b => some (a ≤ b)
  | 0x0c => some ((a >>> (b &&& 31)) &&& 1 = 0)
  | 0x0d => some ((a >>> (b &&& 31)) &&& 1 ≠ 0)
  | _ => none

/-! ## One instruction -/

namespace ScalarEval

variable (e : ScalarEval) (inst : Inst)

/-- The SOP1 part of `Step`, for code at `codeAddr`. -/
def updateSop1 (codeAddr : ℕ) : Update :=
  if inst.opcode = 0x03 then
    { writes := setDest inst.sdst 0 (e.source inst.ssrc0 inst.literal) }
  else if inst.opcode = 0x04 then
    match e.source inst.ssrc0 inst.literal, e.sourceHi inst.ssrc0 with
    | some lo, some hi => { writes := setDest inst.sdst 0 (some lo) ++ setDest inst.sdst 1 (some hi) }
    | _, _ => { writes := setDest inst.sdst 0 none ++ setDest inst.sdst 1 none }
  else if inst.opcode = 0x1F ∧ codeAddr ≠ 0 then
    let next := UInt64.ofNat (codeAddr + (inst.pc + 1) * 4)
    { writes := setDest inst.sdst 0 (some next.toUInt32) ++
        setDest inst.sdst 1 (some (next >>> 32).toUInt32) }
  else
    { writes := (List.range (sop1WriteDwords inst.opcode)).flatMap fun i => setDest inst.sdst i none }

/-- `s_cselect_b32` and `s_cselect_b64`: the second dword is read behind the write of the first. -/
def updateCselect : Update :=
  match e.scc with
  | none =>
    { writes := setDest inst.sdst 0 none ++
        if inst.opcode = 0x0B then setDest inst.sdst 1 none else [] }
  | some scc =>
    let source := if scc then inst.ssrc0 else inst.ssrc1
    let low := setDest inst.sdst 0 (e.source source inst.literal)
    { writes := low ++
        if inst.opcode = 0x0B then setDest inst.sdst 1 ((e.assign low).sourceHi source) else [] }

/-- The SOP2 operations on a source pair. -/
def updateWide (a : UInt32) (f : UInt64 → UInt64) : Update :=
  match e.sourceHi inst.ssrc0 with
  | none => { writes := setDest inst.sdst 0 none ++ setDest inst.sdst 1 none, scc := some none }
  | some hi =>
    let r := f (widen a hi)
    { writes := setDest inst.sdst 0 (some r.toUInt32) ++
        setDest inst.sdst 1 (some (r >>> 32).toUInt32)
      scc := some (some (r ≠ 0)) }

/-- The SOP2 operations on single dwords. -/
def updateNarrow (a b : UInt32) : Update :=
  if inst.opcode = 0x04 ∨ inst.opcode = 0x05 then
    match e.scc with
    | none => { writes := setDest inst.sdst 0 none }
    | some scc =>
      let r := sop2Carry inst.opcode a b scc
      { writes := setDest inst.sdst 0 (some r.1), scc := some (some r.2) }
  else
    match sop2Value inst.opcode a b with
    | some value =>
      { writes := setDest inst.sdst 0 (some value), scc := sop2Scc inst.opcode a b value }
    | none =>
      { writes := setDest inst.sdst 0 none ++
          if inst.opcode = 0x0B ∨ inst.opcode = 0x29 ∨
              (inst.opcode ≥ 0x0F ∧ inst.opcode ≤ 0x23 ∧ inst.opcode &&& 1 ≠ 0) then
            setDest inst.sdst 1 none
          else []
        scc := some none }

/-- The SOP2 part of `Step`. -/
def updateSop2 : Update :=
  if inst.opcode = 0x0A ∨ inst.opcode = 0x0B then e.updateCselect inst
  else
    match e.source inst.ssrc0 inst.literal, e.source inst.ssrc1 inst.literal with
    | some a, some b =>
      if inst.opcode = 0x29 ∨ inst.opcode = 0x2A then
        e.updateWide inst a fun wide => bfe64 inst.opcode wide b
      else if inst.opcode = 0x1F ∨ inst.opcode = 0x21 ∨ inst.opcode = 0x23 then
        e.updateWide inst a fun wide => shift64 inst.opcode wide b
      else e.updateNarrow inst a b
    | _, _ =>
      { writes := setDest inst.sdst 0 none ++
          if sop2Wide inst.opcode then setDest inst.sdst 1 none else []
        scc := some none }

/-- The SOPK part of `Step`. -/
def updateSopk : Update :=
  let imm := UInt16.ofNat inst.word0
  let simm := imm.toInt16.toInt32.toUInt32
  if inst.opcode = 0x00 then { writes := setDest inst.sdst 0 (some simm) }
  else if inst.opcode = 0x02 then
    match e.scc with
    | none => { writes := setDest inst.sdst 0 none }
    | some true => { writes := setDest inst.sdst 0 (some simm) }
    | some false => {}
  else if inst.opcode ≥ 0x03 ∧ inst.opcode ≤ 0x0E then
    { scc := some ((e.source inst.sdst 0).map fun value =>
        sopkCompare inst.opcode value simm imm.toUInt32) }
  else if inst.opcode = 0x0F ∨ inst.opcode = 0x10 then
    { writes :=
        match e.source inst.sdst 0 with
        | some value =>
          setDest inst.sdst 0 (some (if inst.opcode = 0x0F then value + simm else value * simm))
        | none => []
      scc := if inst.opcode = 0x0F then some none else none }
  else if inst.opcode = 0x12 then { writes := setDest inst.sdst 0 (some 0) }
  else {}

/-- The SOPC part of `Step`. -/
def updateSopc : Update :=
  { scc := some (
      match e.source inst.ssrc0 inst.literal, e.source inst.ssrc1 inst.literal with
      | some a, some b =>
        if inst.opcode = 0x12 ∨ inst.opcode = 0x13 then
          match e.sourceHi inst.ssrc0, e.sourceHi inst.ssrc1 with
          | some aHi, some bHi =>
            let equal : Bool := a = b ∧ aHi = bHi
            some (if inst.opcode = 0x12 then equal else !equal)
          | _, _ => none
        else sopcCompare inst.opcode a b
      | _, _ => none) }

def smemAddress (guest : ScalarMemory) : Option ℕ :=
  let smem := decodeSmem inst
  let buffer : Bool := smem.op ≥ 0x08
  if e.allKnown smem.sbase (if buffer then 4 else 2) then
    (e.source smem.soffset 0).bind fun soffset =>
      let immediate : ℤ := if buffer then ((inst.word1 &&& 0xFFFFF : ℕ) : ℤ) else smem.offset
      let byteOffset : ℤ := (soffset &&& ~~~3).toNat + immediate / 4 * 4
      let base := e.ptr smem.sbase
      if byteOffset < 0 ∨ byteOffset > 2 ^ 64 - 1 - base then none
      else
        let address := base + byteOffset.toNat
        if guest.range address (smemLoadCount smem.op * 4) then some address else none
  else none

/-- The SMEM part of `Step`. -/
def updateSmem (guest : ScalarMemory) : Update :=
  let smem := decodeSmem inst
  let dwords := smemLoadCount smem.op
  { writes := ((List.range dwords).flatMap fun i => setDest smem.sdst i none) ++
      match e.smemAddress inst guest with
      | none => []
      | some address =>
        (List.range dwords).flatMap fun i => setDest smem.sdst i (some (guest.dword (address + i * 4))) }

/-- What an instruction writes. -/
def update (guest : ScalarMemory) (codeAddr : ℕ) : Update :=
  match inst.enc with
  | .kSop1 => e.updateSop1 inst codeAddr
  | .kSop2 => e.updateSop2 inst
  | .kSopk => e.updateSopk inst
  | .kSopc => e.updateSopc inst
  | .kSmrd => e.updateSmem inst guest
  | _ => {}

def step (guest : ScalarMemory) (codeAddr : ℕ) : ScalarEval := e.apply (e.update inst guest codeAddr)

end ScalarEval

/-! ## Writes -/

section Writes

namespace ScalarEval

variable {e f : ScalarEval} {writes : List (ℕ × Option UInt32)} {r : ℕ}

@[simp]
theorem assign_nil : e.assign [] = e := rfl

@[simp]
theorem assign_cons {w : ℕ × Option UInt32} : e.assign (w :: writes) = (e.write w).assign writes := rfl

theorem reg_write {w : ℕ × Option UInt32} : (e.write w).reg r = if w.1 < kRegs ∧ r = w.1 then w.2 else e.reg r := by
  rw [write]
  by_cases hw : w.1 < kRegs
  · simp [hw]
  · simp [hw]

theorem reg_assign_of_notMem (h : r < kRegs → r ∉ writes.map Prod.fst) : (e.assign writes).reg r = e.reg r := by
  induction writes generalizing e with
  | nil => rfl
  | cons w writes ih =>
    rw [assign_cons, ih (fun hlt hmem => h hlt (List.mem_cons_of_mem _ hmem)), reg_write, if_neg]
    rintro ⟨hlt, rfl⟩
    exact h hlt (List.mem_cons_self ..)

theorem reg_assign_congr (h : (r < kRegs ∧ r ∈ writes.map Prod.fst) ∨ e.reg r = f.reg r) :
    (e.assign writes).reg r = (f.assign writes).reg r := by
  induction writes generalizing e f with
  | nil => exact h.resolve_left (by simp)
  | cons w writes ih =>
    rw [assign_cons, assign_cons]
    apply ih
    rw [reg_write, reg_write]
    by_cases hw : w.1 < kRegs ∧ r = w.1
    · exact .inr (by rw [if_pos hw, if_pos hw])
    · rw [if_neg hw, if_neg hw]
      refine h.imp_left ?_
      rintro ⟨hlt, hmem⟩
      refine ⟨hlt, (List.mem_cons.mp hmem).resolve_left ?_⟩
      rintro rfl
      exact hw ⟨hlt, rfl⟩

end ScalarEval

end Writes

end Prosperity.Rdna
