import Prosperity.Rdna.ScalarEval

/-!
# The scalar registers of the RDNA instruction set

What the gfx10.3 instruction set says of the scalar registers and of SCC: which of them an instruction may
write, and what the instructions give that a walk over the scalar part of a shader follows. VCC, M0 and
EXEC are the registers 106, 124 and 126 with the ones behind them. The null register 125 reads as zero;
nothing is said of what is written to it.
-/

namespace Prosperity.Rdna

open Gcn (Enc ScalarMemory)

structure ScalarState where
  sgpr : ℕ → UInt32
  scc : Bool

/-! ## Destinations -/

/-- The `n` registers from the destination field on. -/
def InDest (sdst n r : ℕ) : Prop := sdst ≠ 125 ∧ sdst ≤ r ∧ r < sdst + n

def sop1Width (op : ℕ) : ℕ :=
  if op ∈ [0x04, 0x06, 0x08, 0x0a, 0x0c, 0x1c, 0x1e, 0x1f, 0x21, 0x24, 0x25, 0x26, 0x27, 0x28, 0x29, 0x2a,
      0x2b, 0x2d, 0x2f, 0x31, 0x37, 0x38, 0x39, 0x3a, 0x3b] then 2
  else if op = 0x20 ∨ op = 0x22 then 0
  else 1

def sop2Width (op : ℕ) : ℕ :=
  if op = 0x0b ∨ (0x0f ≤ op ∧ op ≤ 0x25 ∧ op % 2 = 1) ∨ op = 0x29 ∨ op = 0x2a then 2 else 1

/-- How many registers a SOPK opcode writes: moves, `s_addk_i32`, `s_mulk_i32`, `s_getreg_b32`, the return
address of `s_call_b64`, and the mask that a subvector loop saves. -/
def sopkWidth (op : ℕ) : ℕ :=
  if op ∈ [0x00, 0x02, 0x0f, 0x10, 0x12, 0x1b, 0x1c] then 1 else if op = 0x16 then 2 else 0

def smemWidth (op : ℕ) : ℕ :=
  if smemLoadCount op ≠ 0 then smemLoadCount op
  else if op = 0x24 ∨ op = 0x25 then 2
  else if op ≥ 0x40 then 4
  else 0

/-- `s_*_saveexec`, `s_*_wrexec` and the subvector loops. -/
def writesExec (inst : Inst) : Bool :=
  (inst.enc = .kSop1 ∧ ((0x24 ≤ inst.opcode ∧ inst.opcode ≤ 0x2b) ∨ (0x37 ≤ inst.opcode ∧ inst.opcode ≤ 0x3a) ∨
        (0x3c ≤ inst.opcode ∧ inst.opcode ≤ 0x47))) ∨
    (inst.enc = .kSopk ∧ (inst.opcode = 0x1b ∨ inst.opcode = 0x1c))

def relativeDest (inst : Inst) (s : ScalarState) : Option ℕ :=
  if inst.enc ≠ .kSop1 then none
  else if inst.opcode = 0x30 ∨ inst.opcode = 0x31 then some (inst.sdst + (s.sgpr 124).toNat)
  else if inst.opcode = 0x49 then some (inst.sdst + (s.sgpr 124).toNat / 2 ^ 16 % 2 ^ 10)
  else none

def vectorWrites (inst : Inst) (r : ℕ) : Prop :=
  match inst.enc with
  | .kVop1 => inst.opcode = 0x02 ∧ r = (inst.word0 >>> 17) &&& 0xFF
  | .kVop2 => 0x28 ≤ inst.opcode ∧ inst.opcode ≤ 0x2a ∧ (r = 106 ∨ r = 107)
  | .kVopc =>
    if (inst.opcode / 16) % 2 = 1 then r = 126 ∨ r = 127
    else if inst.extension = .kSdwa ∧ inst.word1.testBit 15 = true then
      InDest ((inst.word1 >>> 8) &&& 0x7F) 2 r
    else r = 106 ∨ r = 107
  | .kVop3 =>
    (inst.opcode < 0x100 ∧ if (inst.opcode / 16) % 2 = 1 then r = 126 ∨ r = 127 else InDest (inst.word0 &&& 0xFF) 2 r) ∨
      ((inst.opcode = 0x182 ∨ inst.opcode = 0x360) ∧ InDest (inst.word0 &&& 0xFF) 1 r) ∨
      (inst.opcode ∈ [0x128, 0x129, 0x12a, 0x16d, 0x16e, 0x176, 0x177, 0x30f, 0x310, 0x319] ∧
        InDest ((inst.word0 >>> 8) &&& 0x7F) 2 r)
  | _ => False

/-- How many registers an instruction writes from its destination field on. -/
def destWidth (inst : Inst) : ℕ :=
  match inst.enc with
  | .kSop1 => sop1Width inst.opcode
  | .kSop2 => sop2Width inst.opcode
  | .kSopk => sopkWidth inst.opcode
  | .kSmrd => smemWidth inst.opcode
  | _ => 0

def destField (inst : Inst) : ℕ := if inst.enc = .kSmrd then (decodeSmem inst).sdst else inst.sdst

def implicitWrites (inst : Inst) (s : ScalarState) (r : ℕ) : Prop :=
  (writesExec inst = true ∧ (r = 126 ∨ r = 127)) ∨
    (∃ first, relativeDest inst s = some first ∧ (r = first ∨ r = first + 1)) ∨ vectorWrites inst r

def mayWrite (inst : Inst) (s : ScalarState) (r : ℕ) : Prop :=
  implicitWrites inst s r ∨ InDest (destField inst) (destWidth inst) r

def sop1WritesScc (op : ℕ) : Bool :=
  op ∈ [0x07, 0x08, 0x09, 0x0a, 0x0d, 0x0e, 0x0f, 0x10, 0x2c, 0x2d, 0x34] ∨ (0x24 ≤ op ∧ op ≤ 0x2b) ∨
    (0x37 ≤ op ∧ op ≤ 0x3a) ∨ (0x3c ≤ op ∧ op ≤ 0x47)

def sop2KeepsScc (op : ℕ) : Bool :=
  op ∈ [0x0a, 0x0b, 0x24, 0x25, 0x26, 0x32, 0x33, 0x34, 0x35, 0x36]

def mayWriteScc (inst : Inst) : Bool :=
  match inst.enc with
  | .kSop1 => sop1WritesScc inst.opcode
  | .kSop2 => !sop2KeepsScc inst.opcode
  | .kSopk => 0x03 ≤ inst.opcode ∧ inst.opcode ≤ 0x0f
  | .kSopc => true
  | _ => false

/-! ## Operands -/

def constSource (field literal : ℕ) : Option UInt32 :=
  if 128 ≤ field ∧ field ≤ 208 then
    some (if field ≤ 192 then .ofNat (field - 128) else .ofNat (2 ^ 32 - (field - 192)))
  else if 240 ≤ field ∧ field ≤ 247 then
    some (.ofNat ([0x3f000000, 0x3f800000, 0x40000000, 0x40800000].getD ((field - 240) / 2) 0 +
      (if field % 2 = 1 then 2 ^ 31 else 0)))
  else if field = 255 then some (.ofNat literal)
  else none

/-- What is left open here. -/
structure ScalarIsa where
  /-- A source that is no register and no constant. -/
  special : ScalarState → ℕ → UInt32
  pair : ScalarState → ℕ → ℕ → UInt32 × UInt32
  /-- An integer constant is extended with its sign. -/
  pair_int : ∀ s field literal, 128 ≤ field → field ≤ 208 → pair s field literal =
      if field ≤ 192 then (.ofNat (field - 128), 0) else (.ofNat (2 ^ 32 - (field - 192)), 0xFFFFFFFF)

section Operands

variable (isa : ScalarIsa) (inst : Inst) (s : ScalarState)

/-- A register as a source: the null register is zero. -/
def ScalarState.read (r : ℕ) : UInt32 := if r = 125 then 0 else s.sgpr r

def operand (field : ℕ) : UInt32 :=
  if field ≤ 127 then s.read field else (constSource field inst.literal).getD (isa.special s field)

def operandPair (field : ℕ) : UInt32 × UInt32 :=
  if field = 125 then (0, 0)
  else if field ≤ 126 then (s.read field, s.read (field + 1))
  else isa.pair s field inst.literal

/-- A source of 64 bits as a number. -/
def operand64 (field : ℕ) : ℕ :=
  (operandPair isa inst s field).1.toNat + (operandPair isa inst s field).2.toNat * 2 ^ 32

end Operands

/-! ## Results -/

def sop2Result (op : ℕ) (a b : UInt32) (scc : Bool) : Option (UInt32 × Option Bool) :=
  let c := if scc then 1 else 0
  let logic (v : UInt32) : Option (UInt32 × Option Bool) := some (v, some (decide (v ≠ 0)))
  match op with
  | 0x00 => some (a + b, some (decide (2 ^ 32 ≤ a.toNat + b.toNat)))
  | 0x01 => some (a - b, some (decide (a.toNat < b.toNat)))
  | 0x02 => some (a + b, none)
  | 0x03 => some (a - b, none)
  | 0x04 => some (.ofNat (a.toNat + b.toNat + c), some (decide (2 ^ 32 ≤ a.toNat + b.toNat + c)))
  | 0x05 => some (.ofNat (2 ^ 33 + a.toNat - b.toNat - c), some (decide (a.toNat < b.toNat + c)))
  | 0x0e => logic (a &&& b)
  | 0x10 => logic (a ||| b)
  | 0x12 => logic (a ^^^ b)
  | 0x14 => logic (a &&& ~~~b)
  | 0x16 => logic (a ||| ~~~b)
  | 0x18 => logic (~~~(a &&& b))
  | 0x1a => logic (~~~(a ||| b))
  | 0x1c => logic (~~~(a ^^^ b))
  | 0x1e => logic (.ofNat (a.toNat * 2 ^ (b.toNat % 32)))
  | 0x20 => logic (.ofNat (a.toNat / 2 ^ (b.toNat % 32)))
  | 0x22 => logic (Int32.ofInt (a.toInt32.toInt / 2 ^ (b.toNat % 32))).toUInt32
  | 0x26 => some (a * b, none)
  | 0x27 => logic (.ofNat (a.toNat / 2 ^ (b.toNat % 32) % 2 ^ (b.toNat / 2 ^ 16 % 128)))
  | 0x2e | 0x2f | 0x30 | 0x31 => some (.ofNat (a.toNat * 2 ^ (op - 0x2d) + b.toNat), none)
  | _ => none

/-- A field of `width` bits with a sign. -/
def signedField (x width : ℕ) : ℕ :=
  if width ≠ 0 ∧ 2 ^ (width - 1) ≤ x then x + (2 ^ 64 - 2 ^ min width 64) else x

def sop2Result64 (op a b : ℕ) : Option ℕ :=
  match op with
  | 0x1f => some (a * 2 ^ (b % 64) % 2 ^ 64)
  | 0x21 => some (a / 2 ^ (b % 64))
  | 0x23 => some ((Int64.ofInt ((UInt64.ofNat a).toInt64.toInt / 2 ^ (b % 64))).toUInt64.toNat)
  | 0x29 => some (a / 2 ^ (b % 64) % 2 ^ (b / 2 ^ 16 % 128))
  | 0x2a => some (signedField (a / 2 ^ (b % 64) % 2 ^ (b / 2 ^ 16 % 128)) (b / 2 ^ 16 % 128))
  | _ => none

def sopkResult (op : ℕ) (value : UInt32) (imm : ℕ) : Option Bool :=
  let simm := (Int16.ofNat imm).toInt
  match op with
  | 0x03 => some (value.toInt32.toInt = simm)
  | 0x04 => some (value.toInt32.toInt ≠ simm)
  | 0x05 => some (simm < value.toInt32.toInt)
  | 0x06 => some (simm ≤ value.toInt32.toInt)
  | 0x07 => some (value.toInt32.toInt < simm)
  | 0x08 => some (value.toInt32.toInt ≤ simm)
  | 0x09 => some (value.toNat = imm % 2 ^ 16)
  | 0x0a => some (value.toNat ≠ imm % 2 ^ 16)
  | 0x0b => some (imm % 2 ^ 16 < value.toNat)
  | 0x0c => some (imm % 2 ^ 16 ≤ value.toNat)
  | 0x0d => some (value.toNat < imm % 2 ^ 16)
  | 0x0e => some (value.toNat ≤ imm % 2 ^ 16)
  | _ => none

def sopcResult (op : ℕ) (a b : UInt32) : Option Bool :=
  match op with
  | 0x00 => some (a.toInt32.toInt = b.toInt32.toInt)
  | 0x01 => some (a.toInt32.toInt ≠ b.toInt32.toInt)
  | 0x02 => some (b.toInt32.toInt < a.toInt32.toInt)
  | 0x03 => some (b.toInt32.toInt ≤ a.toInt32.toInt)
  | 0x04 => some (a.toInt32.toInt < b.toInt32.toInt)
  | 0x05 => some (a.toInt32.toInt ≤ b.toInt32.toInt)
  | 0x06 => some (a.toNat = b.toNat)
  | 0x07 => some (a.toNat ≠ b.toNat)
  | 0x08 => some (b.toNat < a.toNat)
  | 0x09 => some (b.toNat ≤ a.toNat)
  | 0x0a => some (a.toNat < b.toNat)
  | 0x0b => some (a.toNat ≤ b.toNat)
  | 0x0c => some (a.toNat.testBit (b.toNat % 32) = false)
  | 0x0d => some (a.toNat.testBit (b.toNat % 32) = true)
  | _ => none

def bufferBytes (word1 records : UInt32) : ℕ :=
  let stride := (word1.toNat >>> 16) &&& 0x3FFF
  if stride = 0 then records.toNat else stride * records.toNat

section Results

variable (isa : ScalarIsa) (guest : ScalarMemory) (codeAddr : ℕ) (inst : Inst) (s : ScalarState)

/-- The dword `i` of a scalar load: the two lowest bits of the parts of its address are ignored, and what
is not covered by the V# is zero. -/
def loadResult (i : ℕ) : UInt32 :=
  let smem := decodeSmem inst
  let lo := (s.read smem.sbase).toNat
  let hi := (s.read (smem.sbase + 1)).toNat
  let offset : ℤ := (s.read smem.soffset).toNat / 4 * 4 + smem.offset / 4 * 4
  let address := ((hi % 2 ^ 16 * 2 ^ 32 + lo) / 4 * 4 + offset).toNat + i * 4
  if smem.op ≥ 0x08 ∧
      ¬offset + i * 4 + 4 ≤ bufferBytes (s.read (smem.sbase + 1)) (s.read (smem.sbase + 2)) then 0
  else guest.dword address

/-- What an instruction gives the dword `i` behind its destination field, where it is followed. -/
def scalarResult (i : ℕ) : Option UInt32 :=
  let pairDword (v : UInt32 × UInt32) : UInt32 := if i = 0 then v.1 else v.2
  let imm : UInt32 := (Int16.ofNat inst.word0).toInt32.toUInt32
  match inst.enc with
  | .kSop1 =>
    if inst.opcode = 0x03 then some (operand isa inst s inst.ssrc0)
    else if inst.opcode = 0x04 then some (pairDword (operandPair isa inst s inst.ssrc0))
    else if inst.opcode = 0x1f then
      some (.ofNat ((codeAddr + (inst.pc + 1) * 4) % 2 ^ 64 / 2 ^ (32 * i)))
    else none
  | .kSopk =>
    if inst.opcode = 0x00 then some imm
    else if inst.opcode = 0x02 then some (if s.scc then imm else s.sgpr inst.sdst)
    else if inst.opcode = 0x0f then some (s.read inst.sdst + imm)
    else if inst.opcode = 0x10 then some (s.read inst.sdst * imm)
    else none
  | .kSop2 =>
    if inst.opcode = 0x0a then some (operand isa inst s (if s.scc then inst.ssrc0 else inst.ssrc1))
    else if inst.opcode = 0x0b then
      some (pairDword (operandPair isa inst s (if s.scc then inst.ssrc0 else inst.ssrc1)))
    else if sop2Width inst.opcode = 2 then
      (sop2Result64 inst.opcode (operand64 isa inst s inst.ssrc0)
        (operand isa inst s inst.ssrc1).toNat).map fun v => .ofNat (v / 2 ^ (32 * i))
    else
      (sop2Result inst.opcode (operand isa inst s inst.ssrc0) (operand isa inst s inst.ssrc1) s.scc).map
        Prod.fst
  | .kSmrd => if smemLoadCount inst.opcode ≠ 0 then some (loadResult guest inst s i) else none
  | _ => none

def sccResult : Option Bool :=
  match inst.enc with
  | .kSop2 =>
    if sop2Width inst.opcode = 2 then
      (sop2Result64 inst.opcode (operand64 isa inst s inst.ssrc0)
        (operand isa inst s inst.ssrc1).toNat).map fun v => v ≠ 0
    else
      (sop2Result inst.opcode (operand isa inst s inst.ssrc0) (operand isa inst s inst.ssrc1) s.scc).bind
        Prod.snd
  | .kSopk => sopkResult inst.opcode (s.read inst.sdst) inst.word0
  | .kSopc =>
    if inst.opcode = 0x12 then some (operand64 isa inst s inst.ssrc0 = operand64 isa inst s inst.ssrc1)
    else if inst.opcode = 0x13 then
      some (operand64 isa inst s inst.ssrc0 ≠ operand64 isa inst s inst.ssrc1)
    else sopcResult inst.opcode (operand isa inst s inst.ssrc0) (operand isa inst s inst.ssrc1)
  | _ => none

end Results

/-- One instruction. -/
structure ScalarIsa.Step (isa : ScalarIsa) (guest : ScalarMemory) (codeAddr : ℕ) (inst : Inst)
    (s s' : ScalarState) : Prop where
  kept : ∀ r, ¬mayWrite inst s r → s'.sgpr r = s.sgpr r
  result : ∀ i v, InDest (destField inst) (destWidth inst) (destField inst + i) →
    ¬implicitWrites inst s (destField inst + i) →
    scalarResult isa guest codeAddr inst s i = some v → s'.sgpr (destField inst + i) = v
  keptScc : mayWriteScc inst = false → s'.scc = s.scc
  resultScc : ∀ b, sccResult isa inst s = some b → s'.scc = b

end Prosperity.Rdna
