import Prosperity.Foundations.Liveness
import Prosperity.Rdna.ScalarEval

/-!
# The scalar slice of an RDNA shader

The walk over a shader only needs what reaches a descriptor. A pass back over the program keeps the
instructions that write a live register and leaves out the steps of the others.
-/

namespace Prosperity.Rdna

open Gcn (Enc ScalarMemory)

/-! ## Consumers -/

namespace Inst

variable (inst : Inst)

def srsrc : ℕ := ((inst.word1 >>> 16) &&& 0x1F) * 4

def ssamp : ℕ := ((inst.word1 >>> 21) &&& 0x1F) * 4

/-- The dwords of a T#: four if `r128` is set. -/
def imageDwords : ℕ := if (inst.word0 >>> 15) &&& 1 ≠ 0 then 4 else 8

/-- The SOFFSET field of a buffer instruction. -/
def soff : ℕ := (inst.word1 >>> 24) &&& 0xFF

def seg : ℕ := (inst.word0 >>> 14) &&& 0x3

def saddr : ℕ := (inst.word1 >>> 16) &&& 0x7F

end Inst

structure BufferResource where
  base : ℕ
  descriptor : List UInt32
  descriptorDwords : ℕ
  descriptorValid : Bool := true
  soffset : UInt32 := 0
  soffsetValid : Bool := false
  deriving DecidableEq

section Consumers

variable (e : ScalarEval)

/-- The resource that `n` registers from `s` on describe, if they are known. -/
def resource (s n : ℕ) : Option BufferResource :=
  if e.allKnown s n then
    some
      { base := e.ptr s
        descriptor := (List.range n).map fun i => e.sgpr (s + i)
        descriptorDwords := n }
  else none

def fetchOffset (soff : ℕ) : Option UInt32 :=
  if soff = 128 then some 0
  else if soff > 128 ∧ soff ≤ 192 then some (.ofNat (soff - 128))
  else if soff < kRegs then e.reg soff
  else none

/-- One turn of the loop of `ResolveBuffersImpl`, before the step. -/
def resolveAt (inst : Inst) : Option BufferResource :=
  match inst.enc with
  | .kSmrd =>
    let smem := decodeSmem inst
    if smemLoadCount inst.opcode ≠ 0 then resource e smem.sbase (if smem.op ≥ 0x08 then 4 else 2)
    else none
  | .kMimg => resource e inst.srsrc inst.imageDwords
  | .kFlat =>
    if inst.seg = 2 ∧ inst.saddr ≠ 0x7D ∧ inst.saddr ≠ 0x7F then resource e inst.saddr 2 else none
  | .kMubuf | .kMtbuf =>
    (resource e inst.srsrc 4).map fun r =>
      match fetchOffset e inst.soff with
      | some offset => { r with soffset := offset, soffsetValid := true }
      | none => r
  | _ => none

def imageAt (inst : Inst) : Option (List (Option UInt32) × List (Option UInt32)) :=
  if inst.enc = .kMimg then
    some ((List.range inst.imageDwords).map fun i => e.reg (inst.srsrc + i),
      (List.range 4).map fun i => e.reg (inst.ssamp + i))
  else none

end Consumers

/-! ## The slice -/

def kScc : ℕ := kRegs

def use (live : Finset ℕ) (reg n : ℕ) : Finset ℕ :=
  live ∪ (Finset.range kScc).filter fun r => reg ≤ r ∧ r < reg + n

def useSrc (live : Finset ℕ) (field : ℕ) : Finset ℕ := if field ≤ 127 then use live field 2 else live

/-- `any` -/
def anyLive (live : Finset ℕ) (reg n : ℕ) : Bool := ¬Disjoint (use ∅ reg n) live

/-- `PossibleScalarWrites` of a scalar ALU instruction: the first register, and how many. -/
def possibleScalarWrites (inst : Inst) : ℕ × ℕ :=
  match inst.enc with
  | .kSop1 => (inst.sdst, sop1WriteDwords inst.opcode)
  | .kSop2 => (inst.sdst, sop2WriteDwords inst.opcode)
  | .kSopk =>
    if inst.opcode = 0x16 then (inst.sdst, 2)
    else if inst.opcode ∈ [0x00, 0x02, 0x0F, 0x10, 0x12] then (inst.sdst, 1)
    else (0, 0)
  | _ => (0, 0)

/-- One turn of the loop of `ScalarSlice`: whether a kept instruction steps, and the live registers
before it. -/
def sliceTurn (inst : Inst) (live : Finset ℕ) : Option (Bool × Finset ℕ) :=
  match inst.enc with
  | .kMimg => some (false, use (use live inst.srsrc inst.imageDwords) inst.ssamp 4)
  | .kMubuf | .kMtbuf => some (false, useSrc (use live inst.srsrc 4) inst.soff)
  | .kFlat => some (false, use live inst.saddr 2)
  | .kSmrd =>
    let smem := decodeSmem inst
    let n := smemLoadCount smem.op
    let step : Bool := n ≠ 0 ∧ smem.sdst ≠ 125 ∧ anyLive live smem.sdst n
    let live := if step then live \ use ∅ smem.sdst n else live
    some (step, useSrc (use live smem.sbase (if smem.op ≥ 0x08 then 4 else 2)) smem.soffset)
  | .kSop1 | .kSop2 | .kSopk | .kSopc =>
    let r := possibleScalarWrites inst
    let sccWriter := inst.enc ≠ .kSop1
    if (inst.enc ≠ .kSopc ∧ r.2 ≠ 0 ∧ anyLive live r.1 r.2) ∨ (sccWriter ∧ kScc ∈ live) then
      let live :=
        if (inst.enc = .kSop1 ∨ inst.enc = .kSop2) ∧ r.2 ≠ 0 ∧ inst.sdst < kScc then
          live.erase inst.sdst
        else live
      let live := if inst.enc = .kSopc then live.erase kScc else live
      some (true, if inst.enc = .kSop1 then
          if inst.opcode = 0x03 ∨ inst.opcode = 0x04 then useSrc live inst.ssrc0 else live
        else if inst.enc = .kSopk then insert kScc (use live inst.sdst 1)
        else
          let live := useSrc (useSrc live inst.ssrc0) inst.ssrc1
          if inst.enc = .kSop2 ∧ inst.opcode ∈ [0x04, 0x05, 0x0A, 0x0B] then insert kScc live
          else live)
    else none
  | _ => none

structure SliceInst where
  inst : Inst
  step : Bool

/-- The loop of `ScalarSlice`, with the live registers before the instructions. -/
def sliceBackward : Program → List SliceInst × Finset ℕ
  | [] => ([], ∅)
  | inst :: rest =>
    let (kept, live) := sliceBackward rest
    match sliceTurn inst live with
    | some (step, live) => (⟨inst, step⟩ :: kept, live)
    | none => (kept, live)

def scalarSlice (program : Program) (full : Bool) : List SliceInst :=
  if full then program.map fun inst => ⟨inst, true⟩ else (sliceBackward program).1

/-! ## The replays -/

section Replays

variable (guest : ScalarMemory) (codeAddr : ℕ)

def SliceInst.stepFrom (si : SliceInst) (e : ScalarEval) : ScalarEval :=
  if si.step then e.step si.inst guest codeAddr else e

def replay {α : Type} (observe : ScalarEval → Inst → Option α) : List SliceInst → ScalarEval → List (ℕ × α)
  | [], _ => []
  | si :: rest, e =>
    ((observe e si.inst).map fun x => (si.inst.pc, x)).toList ++
      replay observe rest (si.stepFrom guest codeAddr e)

/-- `out.emplace`: an entry that is there stays. -/
def emplace {α : Type} (out : List (ℕ × α)) (entry : ℕ × α) : List (ℕ × α) :=
  if (out.lookup entry.1).isSome then out else out ++ [entry]

/-- `ResolveBuffersImpl`, from the registers before the first instruction. -/
def resolveBuffersImpl (program : Program) (start : ScalarEval) (full : Bool) : List (ℕ × BufferResource) :=
  (replay guest codeAddr resolveAt (scalarSlice program full) start).foldl emplace []

/-- What `TrackTextures` sees of the T# and S# of each image instruction, behind its step. -/
def imageOperands : List SliceInst → ScalarEval → List (ℕ × List (Option UInt32) × List (Option UInt32))
  | [], _ => []
  | si :: rest, e =>
    let e := si.stepFrom guest codeAddr e
    ((imageAt e si.inst).map fun x => (si.inst.pc, x)).toList ++ imageOperands rest e

end Replays

end Prosperity.Rdna
