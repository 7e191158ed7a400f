import Prosperity.Foundations.ImmediateDominators
import Prosperity.Rdna.CfgBlocks
import Prosperity.Rdna.ScalarWrites

/-!
# The plan of a scalar replay

`PlanScalarReplay` lists what a program may write to the scalar registers, its back edges and its
dominators; `LossAt` tells from them whether a walk over the program in order holds the value that a wave
has in some registers at an instruction.
-/

namespace Prosperity.Rdna

open Gcn (Enc)

/-! ## Branches -/

/-- `BranchKind`: 0 falls through, 1 is unconditional, 2 conditional or a call, 3 the end and 4
indirect. -/
def replayBranchKind (inst : Inst) : ℕ :=
  if inst.enc = .kSopk then if inst.opcode = 0x16 ∨ inst.opcode = 0x1b ∨ inst.opcode = 0x1c then 2 else 0
  else if inst.enc = .kSop1 then if 0x20 ≤ inst.opcode ∧ inst.opcode ≤ 0x22 then 4 else 0
  else if inst.enc ≠ .kSopp then 0
  else if inst.opcode ∈ [0x01, 0x1b, 0x1e, 0x1f] then 3
  else if inst.opcode = 0x02 then 1
  else if inst.opcode ∈ [0x04, 0x05, 0x06, 0x07, 0x08, 0x09, 0x17, 0x18, 0x19, 0x1a] then 2
  else 0

def relativeTarget (inst : Inst) : ℤ := inst.pc + inst.size + (Int16.ofNat inst.word0).toInt

/-- `BranchTargetIndex`: past the end if nothing is there. -/
def branchTargetIndex (program : Program) (inst : Inst) : ℕ :=
  program.findIdx fun other => relativeTarget inst ≤ other.pc

/-! ## The plan -/

/-- `ScalarReplayPlan::Loss`, from the least to the worst. -/
inductive Loss where
  | kCovered
  | kUnmodelled
  | kConditional
  | kLoopBody
  | kLoopCarried
  deriving DecidableEq

def Loss.rank : Loss → ℕ
  | kCovered => 0
  | kUnmodelled => 1
  | kConditional => 2
  | kLoopBody => 3
  | kLoopCarried => 4

def Loss.worse (a b : Loss) : Loss := if a.rank ≤ b.rank then b else a

/-- `ScalarReplayPlan::Write` -/
structure ReplayWrite where
  index : ℕ
  first : ℕ
  count : ℕ
  exact_ : Bool
  loopInvariant : Bool

structure BackEdge where
  target : ℕ
  source : ℕ

structure ScalarReplayPlan where
  writes : List ReplayWrite := []
  backEdges : List BackEdge := []
  targets : List ℕ := []
  indirect : Bool := false
  blockOf : List ℕ := []
  idom : ℕ → Option ℕ := fun _ => none

def writesSccUnmodelled (inst : Inst) : Bool := inst.enc = .kSop1 && inst.opcode ≠ 0x03 && inst.opcode ≠ 0x04

def restoresScc (inst : Inst) : Bool :=
  inst.enc = .kSopc || (inst.enc = .kSop2 && inst.opcode ≠ 0x0A && inst.opcode ≠ 0x0B) ||
    (inst.enc = .kSopk && 0x03 ≤ inst.opcode && inst.opcode ≤ 0x0F)

/-- One turn of the loop of `PlanScalarReplay`, with `scc_trusted`. -/
def replayTurn (program : Program) (st : ScalarReplayPlan × Bool) (at_ : Inst × ℕ) : ScalarReplayPlan × Bool :=
  let (plan, sccTrusted) := st
  let (inst, index) := at_
  let kind := replayBranchKind inst
  let target := branchTargetIndex program inst
  let branches : Bool := kind = 1 || kind = 2
  ({ plan with
      indirect := plan.indirect || kind = 4
      targets := plan.targets ++ if branches then [target] else []
      backEdges := plan.backEdges ++ if branches && target ≤ index then [⟨target, index⟩] else []
      writes := plan.writes ++ (((possibleScalarRanges inst sccTrusted).filter fun range => range.count ≠ 0).map
        fun range => ⟨index, range.first, range.count, range.exact_, false⟩) },
    if writesSccUnmodelled inst then false else if restoresScc inst then true else sccTrusted)

/-- The loop of `PlanScalarReplay`. -/
def replayLoop (program : Program) : ScalarReplayPlan × Bool := program.zipIdx.foldl (replayTurn program) ({}, true)

/-! ## Dominators -/

section Blocks

variable (program : Program) (targets : List ℕ)

def replayLeader (i : ℕ) : Bool :=
  i = 0 || targets.contains i || (program[i - 1]?.any fun inst => replayBranchKind inst ≠ 0)

/-- How many blocks start before an instruction. -/
def leadersBelow (i : ℕ) : ℕ := ((List.range i).filter (replayLeader program targets)).length

def replayBlockOf (i : ℕ) : ℕ := leadersBelow program targets (i + 1) - 1

def replayBlocks : ℕ := leadersBelow program targets program.length

/-- `last`: the instruction before the next block. -/
def replayLast (b : ℕ) : ℕ :=
  (if b + 1 < replayBlocks program targets then
    ((List.range program.length).filter (replayLeader program targets)).getD (b + 1) 0
  else program.length) - 1

def replayPreds (b : ℕ) : List ℕ :=
  (List.range (replayBlocks program targets)).flatMap fun p =>
    let last := replayLast program targets p
    (program[last]?.toList).flatMap fun inst =>
      let kind := replayBranchKind inst
      let target := branchTargetIndex program inst
      (if (kind = 1 ∨ kind = 2) ∧ target < program.length ∧ replayBlockOf program targets target = b then [p] else []) ++
        if (kind = 0 ∨ kind = 2) ∧ last + 1 < program.length ∧ replayBlockOf program targets (last + 1) = b then [p]
        else []

end Blocks

/-- `BuildBlockDominators`, if its passes end. -/
def buildBlockDominators (fuel : ℕ) (program : Program) (plan : ScalarReplayPlan) : Option ScalarReplayPlan :=
  if program.length = 0 then some plan
  else
    (Dominators.passes (replayPreds program plan.targets) fuel (replayBlocks program plan.targets) fuel
      Dominators.start).map fun idom =>
        { plan with
          blockOf := (List.range program.length).map (replayBlockOf program plan.targets)
          idom := idom }

/-- The chain of `b` has `a`. -/
def onChain (idom : ℕ → Option ℕ) (a : ℕ) : ℕ → ℕ → Bool
  | 0, _ => false
  | turns + 1, b =>
    if b = a then true
    else
      match idom b with
      | none => false
      | some next => if next = b then false else onChain idom a turns next

def ScalarReplayPlan.dominates (plan : ScalarReplayPlan) (write use : ℕ) : Bool :=
  match plan.blockOf[write]?, plan.blockOf[use]? with
  | some writeBlock, some useBlock =>
    if writeBlock = useBlock then write ≤ use else onChain plan.idom writeBlock (plan.blockOf.length + 1) useBlock
  | _, _ => false

/-! ## Loops -/

def scalarSourceRegs (inst : Inst) : Option (List ℕ) :=
  let ofSource (field : ℕ) : List ℕ := if field < 102 then [field, field + 1] else []
  match inst.enc with
  | .kSmrd =>
    let smem := decodeSmem inst
    some ((smem.sbase :: (smem.sbase + 1) :: if smem.soffset < 102 then [smem.soffset] else []).filter (· < kRegs))
  | .kSop1 => some (ofSource inst.ssrc0)
  | .kSop2 => some (ofSource inst.ssrc0 ++ ofSource inst.ssrc1)
  | .kSopk => some [inst.sdst]
  | _ => none

def widestLoop (edges : List BackEdge) (index : ℕ) : Option (ℕ × ℕ) :=
  edges.foldl (fun loop edge =>
    if edge.target ≤ index ∧ index ≤ edge.source then
      match loop with
      | some (first, last) => some (min first edge.target, max last edge.source)
      | none => some (edge.target, edge.source)
    else loop) none

def markWrite (program : Program) (plan : ScalarReplayPlan) (write : ReplayWrite) : ReplayWrite :=
  match widestLoop plan.backEdges write.index, program[write.index]?.bind scalarSourceRegs with
  | some (first, last), some reads =>
    { write with
      loopInvariant := plan.writes.all fun other =>
        other.index < first || last < other.index ||
          reads.all fun reg => reg < other.first || other.first + other.count ≤ reg }
  | _, _ => write

def markLoopInvariantWrites (program : Program) (plan : ScalarReplayPlan) : ScalarReplayPlan :=
  { plan with writes := plan.writes.map (markWrite program plan) }

def planScalarReplay (fuel : ℕ) (program : Program) : Option ScalarReplayPlan :=
  (buildBlockDominators fuel program (replayLoop program).1).map (markLoopInvariantWrites program)

/-! ## `LossAt` -/

namespace ScalarReplayPlan

variable (plan : ScalarReplayPlan)

def skippable (use write : ℕ) : Loss :=
  if !plan.dominates write use then .kConditional
  else if plan.backEdges.any fun edge => edge.target ≤ write && write ≤ edge.source then
    if plan.writes.any fun w => w.index = write && w.loopInvariant then .kCovered else .kLoopBody
  else .kCovered

def carried (use write : ℕ) (last : Option ReplayWrite) : Bool :=
  plan.backEdges.any fun edge =>
    edge.target ≤ use && write ≤ edge.source && !(last.any fun w => edge.target ≤ w.index && plan.dominates w.index use)

def writesOf (reg : ℕ) : List ReplayWrite :=
  plan.writes.filter fun write => write.first ≤ reg && reg < write.first + write.count

/-- `last`: the last write of a register before the use in program order. -/
def lastWrite (reg use : ℕ) : Option ReplayWrite := ((plan.writesOf reg).filter fun write => write.index < use).getLast?

/-- What is noted about a register. -/
def regLosses (reg use : ℕ) : List Loss :=
  let last := plan.lastWrite reg use
  ((plan.writesOf reg).filter fun write => use ≤ write.index && (plan.indirect || plan.carried use write.index last)).map
      (fun _ => .kLoopCarried) ++
    match last with
    | none => []
    | some write =>
      if !write.exact_ then [.kUnmodelled] else if plan.indirect then [.kConditional]
      else [plan.skippable use write.index]

def lossAt (sgpr dwords use : ℕ) : Loss :=
  if sgpr + dwords > kRegs then .kUnmodelled
  else if sgpr < 128 ∧ sgpr + dwords > 126 then .kUnmodelled
  else ((List.range dwords).flatMap fun i => plan.regLosses (sgpr + i) use).foldl .worse .kCovered

end ScalarReplayPlan

end Prosperity.Rdna
