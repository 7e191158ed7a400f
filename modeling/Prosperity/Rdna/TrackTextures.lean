import Prosperity.Rdna.ScalarSlice

/-!
# The textures of an RDNA draw

`TrackTextures` walks the slice of a program and reads the T# and the S# of each image binding behind the
step of the first image instruction that has it. `RdnaPlanMimg` gives the image instructions their
bindings: two share one if they name the same registers and those have not been written in between.

A texture is what `DecodeTImage` is given, with what `TrackTextures` adds; the options for debugging are
off.
-/

namespace Prosperity.Rdna

open Gcn (Enc ScalarMemory)

/-! ## The plan -/

/-- `MimgArrayed`, of the DIM field. -/
def mimgArrayed (inst : Inst) : Bool :=
  let dim := (inst.word0 >>> 3) &&& 0x7
  dim = 3 ∨ dim = 5

def isDepthCompare (inst : Inst) : Bool := inst.opcode = 0x28 ∨ inst.opcode = 0x2f

def isForceLodZero (inst : Inst) : Bool := inst.opcode = 0x47

def isImageStorage (inst : Inst) : Bool := inst.opcode = 0x08 ∨ inst.opcode = 0x09

/-- The instruction has a S#. -/
def isSampling (inst : Inst) : Bool := inst.opcode ≥ 0x20

/-- `DecodeScalarWrite`: the first register, and how many. -/
def decodeScalarWrite (inst : Inst) : ℕ × ℕ :=
  match inst.enc with
  | .kSmrd =>
    let sdst := (decodeSmem inst).sdst
    if sdst = 125 then (0, 0) else (sdst, smemLoadCount inst.opcode)
  | .kSopk =>
    if inst.sdst = 125 then (0, 0)
    else if inst.opcode ∈ [0x00, 0x02, 0x0F, 0x10, 0x12] then (inst.sdst, 1)
    else (0, 0)
  | .kSop1 =>
    if inst.sdst = 125 ∨ sop1WriteDwords inst.opcode = 0 then (0, 0)
    else (inst.sdst, sop1WriteDwords inst.opcode)
  | .kSop2 => if inst.sdst = 125 then (0, 0) else (inst.sdst, if sop2Wide inst.opcode then 2 else 1)
  | _ => (0, 0)

/-- `BindingKey` of `RdnaPlanMimg`. -/
structure ImageKey where
  srsrc : ℕ
  ssamp : ℕ
  flags : ℕ
  versions : List ℕ
  deriving DecidableEq

def imageKey (versions : ℕ → ℕ) (inst : Inst) : ImageKey where
  srsrc := inst.srsrc
  ssamp := if isSampling inst then inst.ssamp else 0xFF
  flags :=
    (mimgArrayed inst).toNat ||| ((isDepthCompare inst).toNat <<< 1) |||
      ((isForceLodZero inst).toNat <<< 2) ||| ((isImageStorage inst).toNat <<< 3) |||
      ((decide (inst.imageDwords = 4)).toNat <<< 4)
  versions :=
    ((List.range 8).map fun i => if i < inst.imageDwords then versions (inst.srsrc + i) else 0) ++
      (List.range 4).map fun i => if isSampling inst then versions (inst.ssamp + i) else 0

/-- The keys of the bindings in order, and the state of the loop of `RdnaPlanMimg`. -/
structure ImagePlan where
  keys : List ImageKey := []
  byPc : List (ℕ × ℕ) := []
  versions : ℕ → ℕ := fun _ => 0
  generation : ℕ := 1
  loads : List ((ℕ × ℕ × ℕ × ℕ) × ℕ) := []

namespace ImagePlan

variable (plan : ImagePlan) (inst : Inst)

def bind : ImagePlan :=
  if inst.enc = .kMimg then
    let key := imageKey plan.versions inst
    let binding := plan.keys.idxOf key
    { plan with
      keys := if binding = plan.keys.length then plan.keys ++ [key] else plan.keys
      byPc := (inst.pc, binding) :: plan.byPc }
  else plan

def writeVersion (readOnly : Bool) : ℕ × List ((ℕ × ℕ × ℕ × ℕ) × ℕ) :=
  let smem := decodeSmem inst
  if readOnly = true ∧ inst.enc = .kSmrd ∧ inst.opcode ≤ 4 ∧ smem.soffset = 125 then
    let key := (inst.word0, inst.word1, plan.versions smem.sbase, plan.versions (smem.sbase + 1))
    match plan.loads.lookup key with
    | some version => (version, plan.loads)
    | none => (plan.generation, (key, plan.generation) :: plan.loads)
  else (plan.generation, plan.loads)

/-- One turn of the loop of `RdnaPlanMimg`. -/
def turn (readOnly : Bool) : ImagePlan :=
  let plan := plan.bind inst
  let write := decodeScalarWrite inst
  let version := plan.writeVersion inst readOnly
  { plan with
    versions := fun r =>
      if write.1 ≤ r ∧ r < write.1 + write.2 ∧ r < 136 then version.1 else plan.versions r
    generation := plan.generation + 1
    loads := version.2 }

end ImagePlan

def writesMemory (inst : Inst) : Bool :=
  (inst.enc = .kSmrd ∧ inst.opcode ≥ 0x10) ∨ (inst.enc = .kMubuf ∧ inst.opcode ≥ 4) ∨
    (inst.enc = .kMtbuf ∧ inst.opcode ≥ 4) ∨ inst.enc = .kFlat ∨
    (inst.enc = .kMimg ∧ inst.opcode ≥ 8 ∧ inst.opcode < 0x20)

def rdnaPlanMimg (program : Program) : ImagePlan :=
  let readOnly := program.all fun inst => !writesMemory inst
  program.foldl (fun plan inst => plan.turn inst readOnly) {}

/-! ## The walk -/

structure WalkStep where
  si : SliceInst
  before : ScalarEval
  behind : ScalarEval

def walk (guest : ScalarMemory) (codeAddr : ℕ) : List SliceInst → ScalarEval → List WalkStep
  | [], _ => []
  | si :: rest, e =>
    ⟨si, e, si.stepFrom guest codeAddr e⟩ :: walk guest codeAddr rest (si.stepFrom guest codeAddr e)

/-- What `TrackTextures` finds of a binding. -/
structure ImageTexture where
  /-- The dwords that `DecodeTImage` decodes. -/
  descriptor : List UInt32
  arrayed : Bool
  depthCompare : Bool
  forceLodZero : Bool
  storage : Bool
  /-- The dwords of the S#, if they are valid. -/
  sampler : Option (List UInt32)
  deriving DecidableEq

/-- The `n` registers from `s` on, if they are known. -/
def knownDwords (e : ScalarEval) (s n : ℕ) : Option (List UInt32) :=
  if e.allKnown s n then some ((List.range n).map fun i => e.sgpr (s + i)) else none

def textureAt (e : ScalarEval) (inst : Inst) : Option ImageTexture :=
  (knownDwords e inst.srsrc inst.imageDwords).map fun descriptor =>
    { descriptor
      arrayed := mimgArrayed inst
      depthCompare := isDepthCompare inst
      forceLodZero := isForceLodZero inst
      storage := isImageStorage inst
      sampler := if isSampling inst then knownDwords e inst.ssamp 4 else none }

structure TexturePass where
  out : List (Option ImageTexture)
  filled : List ℕ

/-- One turn of the loop of `TrackTextures`. -/
def TexturePass.turn (plan : ImagePlan) (pass : TexturePass) (at_ : WalkStep) : TexturePass :=
  if at_.si.inst.enc = .kMimg then
    match plan.byPc.lookup at_.si.inst.pc with
    | none => pass
    | some b =>
      if b ∈ pass.filled then pass
      else
        { out :=
            match textureAt at_.behind at_.si.inst with
            | none => pass.out
            | some t => pass.out.set b (some t)
          filled := b :: pass.filled }
  else pass

/-- The loop of `TrackTextures` over a walk. -/
def fillTextures (plan : ImagePlan) (steps : List WalkStep) : List (Option ImageTexture) :=
  (steps.foldl (TexturePass.turn plan) ⟨plan.keys.map fun _ => none, []⟩).out

end Prosperity.Rdna
