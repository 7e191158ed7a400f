import Prosperity.Gcn.ScalarEval

/-!
# The scalar registers of the instruction set

What the instruction set says of the scalar registers: which of them an instruction may write, and what
the instructions give that a walk over the scalar part of a shader follows. VCC, M0 and EXEC are the
registers 106, 124 and 126 with the ones behind them. What an instruction writes into VGPRs is left open
but for lane writes, and so are the sources that are no register and no constant.
-/

namespace Prosperity.Gcn

structure ScalarState where
  sgpr : ℕ → UInt32
  vgpr : ℕ → ℕ → UInt32

/-! ## Destinations -/

def namedSdst (inst : Inst) : ℕ := (inst.raw0 >>> 16) &&& 0x7F

def sop1WritesPair (op : ℕ) : Bool :=
  op = 4 ∨ op = 6 ∨ op = 8 ∨ op = 10 ∨ op = 12 ∨ op = 28 ∨ op = 30 ∨ op = 31 ∨ op = 33 ∨
    (36 ≤ op ∧ op ≤ 43) ∨ op = 45 ∨ op = 47 ∨ op = 49

def sop2WritesPair (op : ℕ) : Bool :=
  op = 11 ∨ (15 ≤ op ∧ op ≤ 37 ∧ op % 2 = 1) ∨ op = 41 ∨ op = 42

def usesBranchStack (inst : Inst) : Bool :=
  (inst.enc = .kSop1 ∧ inst.opcode = 50) ∨ (inst.enc = .kSop2 ∧ inst.opcode = 43) ∨
    (inst.enc = .kSopk ∧ inst.opcode = 17)

/-- `s_*_saveexec_b64`, and the compares that write EXEC. -/
def writesExec (inst : Inst) : Bool :=
  (inst.enc = .kSop1 ∧ 36 ≤ inst.opcode ∧ inst.opcode ≤ 43) ∨ (inst.enc = .kVopc ∧ (inst.opcode / 16) % 2 = 1) ∨
      (inst.enc = .kVop3 ∧ inst.opcode < 256 ∧ (inst.opcode / 16) % 2 = 1)

/-- The compact forms with a mask for a result: a compare, and the carries. -/
def writesVcc (inst : Inst) : Bool :=
  inst.enc = .kVopc ∨ (inst.enc = .kVop2 ∧ 37 ≤ inst.opcode ∧ inst.opcode ≤ 42)

def implicitWrites (inst : Inst) (s : ScalarState) (r : ℕ) : Prop :=
  usesBranchStack inst = true ∨ (writesExec inst = true ∧ (r = 126 ∨ r = 127)) ∨
    (writesVcc inst = true ∧ (r = 106 ∨ r = 107)) ∨
    (inst.enc = .kSop1 ∧ (inst.opcode = 48 ∨ inst.opcode = 49) ∧
      namedSdst inst + (s.sgpr 124).toNat ≤ r ∧ r ≤ namedSdst inst + (s.sgpr 124).toNat + 1) ∨
    (inst.enc = .kSmrd ∧ (decodeSmrd inst.raw0).op = 30 ∧
      ((decodeSmrd inst.raw0).sdst = r ∨ (decodeSmrd inst.raw0).sdst + 1 = r))

def namedWrites (inst : Inst) : ℕ × ℕ :=
  match inst.enc with
  | .kSop1 => (namedSdst inst, if sop1WritesPair inst.opcode then 2 else 1)
  | .kSop2 => (namedSdst inst, if sop2WritesPair inst.opcode then 2 else 1)
  | .kSopk =>
    (namedSdst inst, if inst.opcode = 0 ∨ inst.opcode = 2 ∨ inst.opcode = 15 ∨ inst.opcode = 16 ∨ inst.opcode = 18
      then 1 else 0)
  | .kSmrd => ((decodeSmrd inst.raw0).sdst, (smrdDwords (decodeSmrd inst.raw0).op).getD 0)
  | .kVop1 | .kVop2 | .kVop3 =>
    if isWritelane inst then (0, 0)
    else if isReadlane inst ∨ isReadfirstlane inst then (laneDst inst, 1)
    else if inst.enc = .kVop3 ∧ inst.opcode < 256 then (laneDst inst, 2)
    else if inst.enc = .kVop3 ∧ vop3bWritesSdst inst.opcode then ((inst.raw0 >>> 8) &&& 0x7F, 2)
    else (0, 0)
  | _ => (0, 0)

def sgprWrites (inst : Inst) (s : ScalarState) (r : ℕ) : Prop :=
  implicitWrites inst s r ∨ ((namedWrites inst).1 ≤ r ∧ r < (namedWrites inst).1 + (namedWrites inst).2)

/-! ## Results -/

def constSource (field literal : ℕ) : Option UInt32 :=
  if 128 ≤ field ∧ field ≤ 208 then
    some (if field ≤ 192 then .ofNat (field - 128) else .ofNat (2 ^ 32 - (field - 192)))
  else if 240 ≤ field ∧ field ≤ 247 then
    some (.ofNat ([0x3f000000, 0x3f800000, 0x40000000, 0x40800000].getD ((field - 240) / 2) 0 +
      (if field % 2 = 1 then 2 ^ 31 else 0)))
  else if field = 255 then some (.ofNat literal)
  else none

/-- What the instruction set leaves to its implementations here. -/
structure ScalarIsa where
  /-- A source that is no register and no constant. -/
  special : ScalarState → ℕ → UInt32
  /-- The upper dword of a constant of 64 bits. -/
  constHi : ℕ → ℕ → UInt32
  /-- The lanes of a VGPR that an instruction other than a lane write may write. -/
  vgprWrites : Inst → ScalarState → ℕ → ℕ → Prop
  /-- An integer constant is extended with its sign. -/
  constHi_int : ∀ field literal, 128 ≤ field → field ≤ 208 →
    constHi field literal = if field ≤ 192 then 0 else 0xFFFFFFFF

section Results

variable (isa : ScalarIsa) (guest : ScalarMemory) (codeBase : ℕ) (inst : Inst) (s : ScalarState)

def operand (field : ℕ) : UInt32 :=
  if field ≤ 127 then s.sgpr field
  else (constSource field inst.literal).getD (isa.special s field)

def operandHi (field : ℕ) : UInt32 :=
  if field ≤ 126 then s.sgpr (field + 1)
  else if field = 127 then isa.special s field
  else isa.constHi field inst.literal

def sop2Result (op : ℕ) (a b : UInt32) : Option UInt32 :=
  match op with
  | 0 | 2 => some (a + b)
  | 1 | 3 => some (a - b)
  | 6 => some (if a.toInt32 ≤ b.toInt32 then a else b)
  | 7 => some (if a ≤ b then a else b)
  | 8 => some (if a.toInt32 ≤ b.toInt32 then b else a)
  | 9 => some (if a ≤ b then b else a)
  | 14 => some (a &&& b)
  | 16 => some (a ||| b)
  | 18 => some (a ^^^ b)
  | 20 => some (a &&& ~~~b)
  | 22 => some (a ||| ~~~b)
  | 24 => some (~~~(a &&& b))
  | 26 => some (~~~(a ||| b))
  | 28 => some (~~~(a ^^^ b))
  | 30 => some (.ofNat (a.toNat * 2 ^ (b.toNat % 32)))
  | 32 => some (.ofNat (a.toNat / 2 ^ (b.toNat % 32)))
  | 34 => some (Int32.ofInt (a.toInt32.toInt / 2 ^ (b.toNat % 32))).toUInt32
  | 38 => some (a * b)
  | 39 => some (.ofNat (a.toNat / 2 ^ (b.toNat % 32) % 2 ^ (b.toNat / 2 ^ 16 % 128)))
  | _ => none

def bufferBytes (word1 records : UInt32) : ℕ :=
  let stride := (word1.toNat >>> 16) &&& 0x3FFF
  if stride = 0 then records.toNat else stride * records.toNat

def loadOffset : ℕ :=
  match decodeSmrdOffset inst with
  | .dwords n => n * 4
  | .inSgpr sgpr => (s.sgpr sgpr).toNat

/-- The dword `i` of a scalar load: the two lowest bits of its address are ignored, and what is not
covered by the V# is zero. -/
def loadResult (i : ℕ) : UInt32 :=
  let d := decodeSmrd inst.raw0
  let base := d.sbase * 2
  let lo := (s.sgpr base).toNat
  let hi := (s.sgpr (base + 1)).toNat
  let offset := loadOffset inst s
  if isBufferLoad d.op then
    if offset + i * 4 + 4 ≤ bufferBytes (s.sgpr (base + 1)) (s.sgpr (base + 2)) then
      guest.dword (((hi % 2 ^ 12 * 2 ^ 32 + lo) + offset) / 4 * 4 + i * 4)
    else 0
  else guest.dword (((hi % 2 ^ 16 * 2 ^ 32 + lo) + offset) / 4 * 4 + i * 4)

def firstLane : ℕ :=
  let exec := (s.sgpr 126).toNat + (s.sgpr 127).toNat * 2 ^ 32
  ((List.range 64).find? fun l => exec.testBit l).getD 0

def readLane : ℕ :=
  if isReadfirstlane inst then firstLane s else (operand isa inst s (laneSrc1 inst)).toNat % 64

/-- What an instruction gives the dword `i` of the destination that it names, where it is followed. -/
def scalarResult (i : ℕ) : Option UInt32 :=
  let w := inst.raw0
  match inst.enc with
  | .kSop1 =>
    if inst.opcode = 3 then some (operand isa inst s (w &&& 0xFF))
    else if inst.opcode = 4 then
      some (if i = 0 then operand isa inst s (w &&& 0xFF) else operandHi isa inst s (w &&& 0xFF))
    else if inst.opcode = 31 then
      let pc := codeBase + (inst.pc + inst.size) * 4
      some (.ofNat (if i = 0 then pc else pc / 2 ^ 32))
    else none
  | .kSopk =>
    let imm : UInt32 := (Int16.ofNat w).toInt32.toUInt32
    if inst.opcode = 0 then some imm
    else if inst.opcode = 15 then some (s.sgpr (namedSdst inst) + imm)
    else if inst.opcode = 16 then some (s.sgpr (namedSdst inst) * imm)
    else none
  | .kSop2 =>
    if i = 0 then
      sop2Result inst.opcode (operand isa inst s (w &&& 0xFF)) (operand isa inst s ((w >>> 8) &&& 0xFF))
    else none
  | .kSmrd => (smrdDwords (decodeSmrd w).op).map fun _ => loadResult guest inst s i
  | .kVop1 | .kVop2 | .kVop3 =>
    if (isReadlane inst ∨ isReadfirstlane inst) ∧ 256 ≤ laneSrc0 inst then
      some (s.vgpr (laneSrc0 inst - 256) (readLane isa inst s))
    else none
  | _ => none

end Results

/-- One instruction. -/
structure ScalarIsa.Step (isa : ScalarIsa) (guest : ScalarMemory) (codeBase : ℕ) (inst : Inst)
    (s s' : ScalarState) : Prop where
  kept : ∀ r, ¬sgprWrites inst s r → s'.sgpr r = s.sgpr r
  result : ∀ i v, i < (namedWrites inst).2 → ¬implicitWrites inst s ((namedWrites inst).1 + i) →
    scalarResult isa guest codeBase inst s i = some v → s'.sgpr ((namedWrites inst).1 + i) = v
  keptLanes : isWritelane inst = false → ∀ v l, ¬isa.vgprWrites inst s v l → s'.vgpr v l = s.vgpr v l
  writelane : isWritelane inst = true → s'.vgpr = fun v l =>
    if v = laneDst inst ∧ l = (operand isa inst s (laneSrc1 inst)).toNat % 64 then
      operand isa inst s (laneSrc0 inst)
    else s.vgpr v l

end Prosperity.Gcn
