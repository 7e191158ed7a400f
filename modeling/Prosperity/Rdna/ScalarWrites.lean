import Prosperity.Rdna.ScalarSlice

/-!
# The scalar registers that an RDNA instruction may write

`PossibleScalarWrites`, for every family of instructions: the ranges of registers, each with whether the
walk over the scalar registers has their values or has them unknown.
-/

namespace Prosperity.Rdna

open Gcn (Enc)

/-- `ScalarWrites::Range` -/
structure ScalarRange where
  first : ℕ
  count : ℕ
  exact_ : Bool
  deriving DecidableEq

def vop3HasSdst (op : ℕ) : Bool :=
  op ∈ [0x128, 0x129, 0x12A, 0x30F, 0x310, 0x319, 0x16D, 0x16E, 0x176, 0x177]

def sop2Exact (op : ℕ) (sccTrusted : Bool) : Bool :=
  if op ∈ [0x0A, 0x0B, 0x04, 0x05] then sccTrusted
  else op ∈ [0x00, 0x01, 0x02, 0x03, 0x0E, 0x10, 0x12, 0x14, 0x16, 0x18, 0x1A, 0x1C, 0x1E, 0x1F, 0x20, 0x21,
    0x22, 0x23, 0x26, 0x27, 0x29, 0x2A, 0x2F, 0x30, 0x31, 0x32]

/-- `PossibleScalarWrites` -/
def possibleScalarRanges (inst : Inst) (sccTrusted : Bool) : List ScalarRange :=
  match inst.enc with
  | .kSmrd =>
    let n := smemLoadCount inst.opcode
    [⟨(decodeSmem inst).sdst, if n ≠ 0 then n else 2, n ≠ 0⟩]
  | .kSop1 => [⟨inst.sdst, sop1WriteDwords inst.opcode, inst.opcode = 0x03 ∨ inst.opcode = 0x04⟩]
  | .kSop2 => [⟨inst.sdst, sop2WriteDwords inst.opcode, sop2Exact inst.opcode sccTrusted⟩]
  | .kSopk =>
    if inst.opcode = 0x16 then [⟨inst.sdst, 2, false⟩]
    else
      let exact_ : Bool :=
        inst.opcode = 0x00 ∨ inst.opcode = 0x0F ∨ inst.opcode = 0x10 ∨ (inst.opcode = 0x02 ∧ sccTrusted)
      if exact_ = true ∨ inst.opcode = 0x02 ∨ inst.opcode = 0x12 then [⟨inst.sdst, 1, exact_⟩] else []
  | .kVop1 => if inst.opcode = 0x02 then [⟨(inst.word0 >>> 17) &&& 0xFF, 1, false⟩] else []
  | .kVop2 => if 0x28 ≤ inst.opcode ∧ inst.opcode ≤ 0x2A then [⟨106, 2, false⟩] else []
  | .kVopc =>
    if inst.opcode &&& 0x10 ≠ 0 then [⟨126, 2, false⟩]
    else if inst.extension = .kSdwa ∧ inst.word1 &&& 0x8000 ≠ 0 then
      [⟨(inst.word1 >>> 8) &&& 0x7F, 2, false⟩]
    else [⟨106, 2, false⟩]
  | .kVop3 =>
    (if inst.opcode < 0x100 then
        [⟨if inst.opcode &&& 0x10 ≠ 0 then 126 else inst.word0 &&& 0xFF, 2, false⟩]
      else if inst.opcode = 0x182 ∨ inst.opcode = 0x360 then [⟨inst.word0 &&& 0xFF, 1, false⟩]
      else []) ++
      if vop3HasSdst inst.opcode then [⟨(inst.word0 >>> 8) &&& 0x7F, 2, false⟩] else []
  | _ => []

def ScalarRange.Has (range : ScalarRange) (r : ℕ) : Prop := range.first ≤ r ∧ r < range.first + range.count

instance (range : ScalarRange) (r : ℕ) : Decidable (range.Has r) := inferInstanceAs (Decidable (_ ∧ _))

def InRange (inst : Inst) (r : ℕ) : Prop := ∃ range ∈ possibleScalarRanges inst false, range.Has r

instance (inst : Inst) (r : ℕ) : Decidable (InRange inst r) :=
  inferInstanceAs (Decidable (∃ range ∈ possibleScalarRanges inst false, range.Has r))

end Prosperity.Rdna
