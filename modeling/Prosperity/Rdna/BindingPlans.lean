import Mathlib.Logic.Function.Basic
import Prosperity.Foundations.Stamps
import Prosperity.Rdna.CfgBlocks
import Prosperity.Rdna.ScalarWrites
import Prosperity.Rdna.TrackTextures

/-!
# The binding plans of RDNA shaders

Three planners give the instructions of a shader that read a descriptor from scalar registers a binding
each. `RdnaPlanCbufs` tells the buffers of scalar loads by the versions of the registers that name them,
or by the table entry that a load of four dwords took the registers from; `RdnaPlanGfxBuffers` drops a
descriptor when an instruction may write it; the `PlanResources` of compute compares the last writes of
all its registers.

A hash map is a function with an `Option`, and the options for debugging are off.
-/

namespace Prosperity.Rdna

open Gcn (Enc)

/-- The registers from `first` on, and those from `other` on. -/
def overlaps (first count other otherCount : ℕ) : Bool := first < other + otherCount && other < first + count

/-! ## Versions -/

/-- The instruction `k` has the register in the range that `DecodeScalarWrite` gives. -/
def decodedWrite (program : Program) (k r : ℕ) : Bool :=
  program[k]?.any fun inst =>
    r < 136 && (decodeScalarWrite inst).1 ≤ r && r < (decodeScalarWrite inst).1 + (decodeScalarWrite inst).2

/-- `versions` of `BufferVersionKeys` before the instruction `k`, whose `generation` is one more. -/
def bufferVersion (program : Program) (k r : ℕ) : ℕ := stamp (decodedWrite program) k r

def smemDwords (inst : Inst) : ℕ := if inst.opcode ≥ 0x08 then 4 else 2

/-- A key of `BufferVersionKeys`: the registers, and 13 bits for each of their versions. -/
def bufferVersionKey (program : Program) (k : ℕ) (inst : Inst) : ℕ :=
  let smem := decodeSmem inst
  let dwords := smemDwords inst
  (List.range dwords).foldl
    (fun key i => key ||| (bufferVersion program k (smem.sbase + i) <<< (8 + i * 13)) % 2 ^ 64)
    (smem.sbase ||| (if dwords = 4 then 1 else 0) <<< 7)

/-- `BufferVersionKeys`, by pc; the first entry of a pc stays. -/
def bufferVersionKeys (program : Program) (pc : ℕ) : Option ℕ :=
  ((program.zipIdx.find? fun (inst, _) =>
    inst.pc = pc && inst.enc = .kSmrd && smemLoadCount inst.opcode ≠ 0)).map fun (inst, k) =>
      bufferVersionKey program k inst

/-! ## `RdnaPlanCbufs` -/

structure CbufDef where
  source : ℕ
  offset : ℕ
  count : ℕ

structure ShaderCbuf where
  binding : ℕ
  udSgpr : ℕ
  numDwords : ℕ
  firstDword : ℕ
  chainLen : ℕ
  chainOff : List ℕ
  usePc : ℕ

def kCbufDwords : ℕ := 4096

def invalidateCbufDefs (loads : ℕ → Option CbufDef) (write : ℕ × ℕ) : ℕ → Option CbufDef := fun first =>
  if write.2 = 0 then loads first
  else (loads first).filter fun d => !overlaps first d.count write.1 write.2

def invalidateDescSrc (src : ℕ → Option ℕ) (write : ℕ × ℕ) : ℕ → Option ℕ := fun first =>
  if write.2 = 0 then src first
  else (src first).filter fun _ => !overlaps first 4 write.1 write.2

/-- `UsedAsBaseBeforeOverwrite` of the instructions behind a load. -/
def usedAsBaseBeforeOverwrite (behind : Program) (sdst count : ℕ) : Bool :=
  match behind with
  | [] => false
  | inst :: rest =>
    if inst.enc = .kSmrd ∧ smemLoadCount inst.opcode ≠ 0 ∧ (decodeSmem inst).sbase = sdst then true
    else if overlaps sdst count (decodeScalarWrite inst).1 (decodeScalarWrite inst).2 then false
    else usedAsBaseBeforeOverwrite rest sdst count

/-- `TraceCbufChain`: the root, and the offsets from it on. -/
def traceCbufChain (loads : ℕ → Option CbufDef) : ℕ → ℕ → List ℕ → ℕ × List ℕ
  | 0, cur, chain => (cur, chain)
  | turns + 1, cur, chain =>
    match loads cur with
    | none => (cur, chain)
    | some d => traceCbufChain loads turns d.source (d.offset :: chain)

def vmemDescriptorSgprs (program : Program) (r : ℕ) : Bool :=
  program.any fun inst =>
    let img := inst.enc = .kMimg
    (inst.enc = .kMubuf || inst.enc = .kMtbuf || img) && ((inst.srsrc ≤ r && r < inst.srsrc + 8) ||
        (img && inst.opcode ≥ 0x20 && inst.ssamp ≤ r && r < inst.ssamp + 4))

def indexedRawDescriptors (program : Program) : List ℕ :=
  program.filterMap fun inst =>
    if ((inst.enc = .kMubuf ∧ 0x08 ≤ inst.opcode ∧ inst.opcode ≤ 0x0f) ∨
        (inst.enc = .kMtbuf ∧ inst.opcode ≤ 0x03)) ∧ inst.word0 &&& (1 <<< 13) ≠ 0 then some inst.srsrc
    else none

/-- The state of the loop. `byDescriptor` has the bindings of a key, and `span` the lowest dword that the
loads of a binding touch and the one past the highest. -/
structure CbufPlan where
  loads : ℕ → Option CbufDef := fun _ => none
  byDescriptor : ℕ → List ℕ := fun _ => []
  span : ℕ → ℕ × ℕ := fun _ => (0, 0)
  descSrc : ℕ → Option ℕ := fun _ => none
  cbufs : List ShaderCbuf := []
  bindings : ℕ → Option ℕ := fun _ => none
  byPc : ℕ → Option ℕ := fun _ => none

/-- `s_buffer_load_*` -/
def isSbufload (inst : Inst) : Bool := inst.enc = .kSmrd && 0x08 ≤ inst.opcode && inst.opcode ≤ 0x0C

/-- `s_load_*` -/
def isSload (inst : Inst) : Bool := inst.enc = .kSmrd && inst.opcode ≤ 0x04

def cbufOff (inst : Inst) : ℤ :=
  if isSbufload inst then ((inst.word1 &&& 0xFFFFF : ℕ) : ℤ) else (decodeSmem inst).offset

/-- What a load of four dwords leaves in `desc_src`: a hash of its table entry. -/
def descHash (versionKey : ℕ) (inst : Inst) : ℕ :=
  (versionKey * 0x9E3779B97F4A7C15 + (cbufOff inst % 2 ^ 32).toNat) % 2 ^ 64

def isDynamic (inst : Inst) : Bool := (decodeSmem inst).soffset ≠ 125

def cbufLo (inst : Inst) : ℕ := if isDynamic inst then 0 else (max (cbufOff inst) 0).toNat / 4

def cbufHi (inst : Inst) : ℕ := if isDynamic inst then kCbufDwords else cbufLo inst + smemLoadCount inst.opcode

def rawDescriptor (program : Program) (inst : Inst) : Bool :=
  (indexedRawDescriptors program).any fun descriptor =>
    overlaps (decodeSmem inst).sdst (smemLoadCount inst.opcode) descriptor 4

def isDescriptorFetch (program : Program) (inst : Inst) : Bool :=
  isSload inst && vmemDescriptorSgprs program (decodeSmem inst).sdst && !rawDescriptor program inst

def isBaseLoad (program : Program) (k : ℕ) (inst : Inst) : Bool :=
  isSload inst && !rawDescriptor program inst &&
    usedAsBaseBeforeOverwrite (program.drop (k + 1)) (decodeSmem inst).sdst (smemLoadCount inst.opcode)

def CbufPlan.widen (plan : CbufPlan) (binding lo hi : ℕ) : CbufPlan :=
  let s := (min (plan.span binding).1 lo, max (plan.span binding).2 hi)
  { plan with
    span := Function.update plan.span binding s
    cbufs := plan.cbufs.map fun cb =>
      if cb.binding = binding then { cb with firstDword := s.1, numDwords := s.2 - s.1 } else cb }

def CbufPlan.keyOf (plan : CbufPlan) (versionKey : ℕ) (inst : Inst) : ℕ :=
  (plan.descSrc (decodeSmem inst).sbase).getD versionKey

/-- A load that reads data: it joins a binding of its descriptor whose window can take it, or gets one. -/
def cbufLeaf (first limit versionKey : ℕ) (inst : Inst) (plan : CbufPlan) : Option CbufPlan :=
  let smem := decodeSmem inst
  let lo := cbufLo inst
  let hi := cbufHi inst
  let (root, chain) := traceCbufChain plan.loads 3 smem.sbase []
  let key := plan.keyOf versionKey inst
  let shared := plan.byDescriptor key
  let write := (smem.sdst, smemLoadCount inst.opcode)
  let planned : Option (ℕ × CbufPlan) :=
    match shared.find? fun b => max (plan.span b).2 hi - min (plan.span b).1 lo ≤ kCbufDwords with
    | some binding => some (binding, plan.widen binding lo hi)
    | none =>
      let binding := first + plan.cbufs.length
      if binding ≥ limit then none
      else
        some (binding,
          { plan with
            byDescriptor := Function.update plan.byDescriptor key (shared ++ [binding])
            bindings := Function.update plan.bindings smem.sbase ((plan.bindings smem.sbase).getD binding)
            cbufs := plan.cbufs ++ [⟨binding, root, hi - lo, lo, chain.length, chain, inst.pc⟩]
            span := Function.update plan.span binding (lo, hi) })
  planned.map fun (binding, plan) =>
    { plan with
      byPc := Function.update plan.byPc inst.pc (some binding)
      loads := invalidateCbufDefs plan.loads write
      descSrc := invalidateDescSrc plan.descSrc write }

/-- `desc_src` behind the note of a load of four dwords. -/
def noteQuad (versionKey : ℕ) (inst : Inst) (plan : CbufPlan) : CbufPlan :=
  if isSload inst ∧ smemLoadCount inst.opcode = 4 then
    { plan with
      descSrc := Function.update (invalidateDescSrc plan.descSrc ((decodeSmem inst).sdst, 4))
        (decodeSmem inst).sdst (some (descHash versionKey inst)) }
  else plan

/-- One turn of the loop of `RdnaPlanCbufs`. -/
def cbufTurn (program : Program) (first limit k : ℕ) (inst : Inst) (plan : CbufPlan) : Option CbufPlan :=
  if inst.enc ≠ .kSmrd then
    some { plan with
      loads := invalidateCbufDefs plan.loads (decodeScalarWrite inst)
      descSrc := invalidateDescSrc plan.descSrc (decodeScalarWrite inst) }
  else if ¬(isSbufload inst = true ∨ isSload inst = true) then some plan
  else
    let smem := decodeSmem inst
    let write := (smem.sdst, smemLoadCount inst.opcode)
    let versionKey := (bufferVersionKeys program inst.pc).getD 0
    let plan := noteQuad versionKey inst plan
    if isDescriptorFetch program inst then some { plan with loads := invalidateCbufDefs plan.loads write }
    else if isSload inst ∧ smem.soffset = 125 ∧ cbufOff inst < 0 then none
    else if isBaseLoad program k inst then
      some { plan with
        loads := Function.update (invalidateCbufDefs plan.loads write) smem.sdst
          (some ⟨smem.sbase, (cbufOff inst % 2 ^ 32).toNat, smemLoadCount inst.opcode⟩) }
    else cbufLeaf first limit versionKey inst plan

/-- The loop of `RdnaPlanCbufs` over the instructions from `k` on. -/
def cbufLoop (program : Program) (first limit : ℕ) : ℕ → Program → CbufPlan → Option CbufPlan
  | _, [], plan => some plan
  | k, inst :: rest, plan =>
    (cbufTurn program first limit k inst plan).bind (cbufLoop program first limit (k + 1) rest)

def rdnaPlanCbufs (program : Program) (first limit : ℕ) : Option CbufPlan :=
  cbufLoop program first limit 0 program {}

/-- The first dword that `RdnaEmitSmem` reads of the buffer for a load whose offset is an immediate. -/
def emittedDword (inst : Inst) : ℕ :=
  (if inst.opcode ≥ 0x08 then inst.word1 &&& 0xFFFFC
    else ((decodeSmem inst).offset % 2 ^ 32).toNat &&& 0xFFFFFFFC) >>> 2

/-! ## `RdnaPlanGfxBuffers` -/

def kFlatBaseTag : ℕ := 0x100

structure ShaderBuffer where
  binding : ℕ
  srsrcSgpr : ℕ
  usePc : ℕ

structure GfxPlan where
  bySrsrc : ℕ → Option ℕ := fun _ => none
  buffers : List ShaderBuffer := []
  bindings : ℕ → Option ℕ := fun _ => none

/-- The first register of an entry of `by_srsrc`, and how many it has. -/
def gfxRegs (srsrc : ℕ) : ℕ × ℕ := if srsrc ≥ kFlatBaseTag then (srsrc - kFlatBaseTag, 2) else (srsrc, 4)

def gfxOverwritten (inst : Inst) (srsrc : ℕ) : Bool :=
  (possibleScalarRanges inst false).any fun write =>
    write.count ≠ 0 && (gfxRegs srsrc).1 < write.first + write.count &&
      write.first < (gfxRegs srsrc).1 + (gfxRegs srsrc).2

def flatLoadDwords (op : ℕ) : ℕ :=
  match op with
  | 0x08 | 0x09 | 0x0a | 0x0b | 0x0c => 1
  | 0x0d => 2
  | 0x0e => 4
  | 0x0f => 3
  | _ => 0

/-- `FlatServableLoad`: a GLOBAL load whose base is a pair, with an immediate that is not negative. -/
def flatServableLoad (inst : Inst) : Bool :=
  inst.seg = 2 && inst.saddr ≠ 0x7D && inst.saddr ≠ 0x7F && (inst.word0 >>> 13) &&& 1 = 0 &&
    flatLoadDwords ((inst.word0 >>> 18) &&& 0x7F) ≠ 0 && (inst.word0 &&& 0xFFF) < 0x800

/-- `srsrc` of an instruction that is planned. -/
def gfxSrsrc (claimed : ℕ → Bool) (inst : Inst) : Option ℕ :=
  if inst.enc = .kFlat then if flatServableLoad inst then some (kFlatBaseTag + inst.saddr) else none
  else
    let raw := 0x08 ≤ inst.opcode && inst.opcode ≤ 0x0f
    let format := inst.opcode ≤ 0x03
    let typed := inst.enc = .kMtbuf && format
    if (!typed && (inst.enc ≠ .kMubuf || (!raw && !format))) || claimed inst.pc then none else some inst.srsrc

/-- One turn of the loop of `RdnaPlanGfxBuffers`. -/
def gfxTurn (first maxBuffers : ℕ) (claimed : ℕ → Bool) (plan : GfxPlan) (inst : Inst) : GfxPlan :=
  let bySrsrc := fun srsrc => (plan.bySrsrc srsrc).filter fun _ => !gfxOverwritten inst srsrc
  match gfxSrsrc claimed inst with
  | none => { plan with bySrsrc := bySrsrc }
  | some srsrc =>
    match bySrsrc srsrc with
    | some binding =>
      { plan with bySrsrc := bySrsrc, bindings := Function.update plan.bindings inst.pc (some binding) }
    | none =>
      let binding := first + plan.buffers.length
      if binding ≥ maxBuffers then { plan with bySrsrc := bySrsrc }
      else
        { bySrsrc := Function.update bySrsrc srsrc (some binding)
          buffers := plan.buffers ++ [⟨binding, srsrc, inst.pc⟩]
          bindings := Function.update plan.bindings inst.pc (some binding) }

/-- `RdnaPlanGfxBuffers`; `claimed` has the instructions that are lifted to vertex inputs. -/
def rdnaPlanGfxBuffers (program : Program) (first maxBuffers : ℕ) (claimed : ℕ → Bool) : GfxPlan :=
  program.foldl (gfxTurn first maxBuffers claimed) {}

/-! ## `PlanResources` of compute -/

/-- `CsResource`, as the loop leaves it. -/
structure CsResource where
  baseSgpr : ℕ
  usePc : ℕ
  binding : ℕ
  /-- 0 for a V#, 1 for a T#, 2 for a pointer, 3 for the T# of a BVH. -/
  kind : ℕ
  written : Bool
  read : Bool
  minBytes : ℕ
  runtimeAddress : Bool
  inlineUserData : Bool

def kMaxCsResources : ℕ := 128

/-- `BindingKey` of `PlanResources`. -/
structure ResourceKey where
  baseSgpr : ℕ
  kind : ℕ
  versions : List ℕ
  deriving DecidableEq

structure ResourcePlan where
  keys : List ResourceKey := []
  resources : List CsResource := []
  bind : ℕ → Option ℕ := fun _ => none

/-- An instruction may write the register, `range.first + k < 136`. -/
def possibleWrite (program : Program) (k r : ℕ) : Bool :=
  program[k]?.any fun inst => r < 136 && decide (InRange inst r)

/-- `version` before the instruction `k`: the index of the last write, plus one. -/
def resourceVersion (program : Program) (k r : ℕ) : ℕ := stamp (possibleWrite program) k r

/-- What an instruction asks `resource` for. -/
structure ResourceUse where
  baseSgpr : ℕ
  dwords : ℕ
  kind : ℕ
  written : Bool
  minBytes : ℕ
  reads : Bool
  /-- The base is resolved on the GPU in any case. -/
  live : Bool := false

def csMimgSupported (op : ℕ) : Bool :=
  op ∈ [0x00, 0x01, 0x08, 0x09, 0x0f, 0x10, 0x11, 0x12, 0x14, 0x15, 0x16, 0x17, 0x18, 0x19, 0x1a, 0x24, 0x27,
    0x2c, 0x2f, 0x34, 0x37, 0x44, 0x47, 0x57, 0x5f]

/-- `load` and `store` of an instruction of the FLAT family. -/
def flatStoreOp (op : ℕ) : Bool := op = 0x18 || op = 0x1a || (0x1c ≤ op && op ≤ 0x1f)

def bvhServed (inst : Inst) : Bool :=
  let w := inst.word0
  let w1 := inst.word1
  let nsa := (w >>> 1) &&& 3
  let addresses := (if (w1 >>> 30) &&& 1 ≠ 0 then 8 else 11) + if inst.opcode = 0xe7 then 1 else 0
  !(w &&& 0x39f38 ≠ 0x9f00 || w1 &&& 0xbfe00000 ≠ 0 || (nsa ≠ 0 && 1 + nsa * 4 < addresses) ||
    (nsa = 0 && (w1 &&& 255) + addresses > 256) || (w1 >>> 8) &&& 255 > 252)

/-- What the switch of `PlanResources` makes of an instruction: the inner option is none where it asks for
no resource, the outer one where the program is rejected. -/
def resourceUse (ldsDwords : ℕ) (inst : Inst) : Option (Option ResourceUse) :=
  let w := inst.word0
  let op := inst.opcode
  match inst.enc with
  | .kSmrd =>
    let smem := decodeSmem inst
    let n := smemLoadCount op
    if n = 0 ∨ smem.offset < 0 then none
    else
      let buffer := op ≥ 0x08
      some (some ⟨smem.sbase, if buffer then 4 else 2, if buffer then 0 else 2, false,
        smem.offset.toNat + n * 4, true, false⟩)
  | .kMubuf =>
    let load := op ≤ 0x03 || (0x08 ≤ op && op ≤ 0x0f)
    let store := (0x04 ≤ op && op ≤ 0x07) || op = 0x18 || op = 0x1a || (0x1c ≤ op && op ≤ 0x1f)
    let atomic := (0x30 ≤ op && op ≤ 0x3f) || (0x50 ≤ op && op ≤ 0x5f)
    if (!load && !store && !atomic) || (w >>> 16) &&& 1 ≠ 0 || (inst.word1 >>> 23) &&& 1 ≠ 0 then none
    else some (some ⟨inst.srsrc, 4, 0, store || atomic, 0, !store || atomic, false⟩)
  | .kMtbuf =>
    if op > 0x07 ∨ (inst.word1 >>> 23) &&& 1 ≠ 0 then none
    else some (some ⟨inst.srsrc, 4, 0, op ≥ 4, 0, op < 4, false⟩)
  | .kDs =>
    let gds := (w >>> 17) &&& 1 ≠ 0
    if gds ∧ (op = 0x3d ∨ op = 0x3e) then some none
    else if gds ∨ (ldsDwords = 0 ∧ op ≠ 0x35) then none
    else some none
  | .kMimg =>
    if op = 0xe6 ∨ op = 0xe7 then
      if bvhServed inst then some (some ⟨inst.srsrc, 4, 3, false, 0, true, false⟩) else none
    else if op = 0x0e then some none
    else
      let store := op = 0x08 || op = 0x09 || (0x0f ≤ op && op ≤ 0x1a)
      if !csMimgSupported op || (w >>> 15) &&& 1 ≠ 0 || inst.srsrc + 7 ≥ 136 then none
      else some (some ⟨inst.srsrc, 8, 1, store, 0, op ≠ 0x08 && op ≠ 0x09, false⟩)
  | .kFlat =>
    let load := 0x08 ≤ op && op ≤ 0x0f
    if inst.seg ≠ 2 || (inst.saddr ≥ 104 && inst.saddr ≠ 125) || (!load && !flatStoreOp op) then none
    else some (some ⟨if inst.saddr = 125 then 0 else inst.saddr, 2, 2, flatStoreOp op, 0, !flatStoreOp op, true⟩)
  | _ => some none

def resourceKey (program : Program) (k : ℕ) (use : ResourceUse) : ResourceKey :=
  ⟨use.baseSgpr, use.kind, (List.range 8).map fun i =>
    if i < use.dwords then resourceVersion program k (use.baseSgpr + i) else 0⟩

section Resources

variable (program : Program) (ldsDwords userSgpr : ℕ)
  /- `LossAt` is not `kCovered`: the registers, how many, and the index of the use. -/
  (lost : ℕ → ℕ → ℕ → Bool)

def planResource (k pc : ℕ) (use : ResourceUse) (plan : ResourcePlan) : Option ResourcePlan :=
  if use.baseSgpr + use.dwords > 136 then none
  else
    let untouched := (List.range use.dwords).all fun i => resourceVersion program k (use.baseSgpr + i) = 0
    let inline := use.baseSgpr + use.dwords ≤ min userSgpr 16 && untouched
    let loss := !inline && lost use.baseSgpr use.dwords k
    if loss && use.written && use.kind = 1 then none
    else
      let runtime := loss && use.kind ≠ 1
      let key := resourceKey program k use
      let i := plan.keys.idxOf key
      if i < plan.keys.length then
        some { plan with
          resources := plan.resources.modify i fun res =>
            { res with
              written := res.written || use.written
              read := res.read || use.reads
              runtimeAddress := res.runtimeAddress || runtime || use.live
              minBytes := max res.minBytes use.minBytes }
          bind := Function.update plan.bind pc (some i) }
      else if plan.resources.length ≥ kMaxCsResources then none
      else
        some
          { keys := plan.keys ++ [key]
            resources := plan.resources ++ [⟨use.baseSgpr, pc, plan.resources.length, use.kind, use.written,
              use.reads, use.minBytes, runtime || use.live, inline⟩]
            bind := Function.update plan.bind pc (some plan.resources.length) }

/-- The loop of `PlanResources` over the instructions from `k` on. -/
def resourceLoop : ℕ → Program → ResourcePlan → Option ResourcePlan
  | _, [], plan => some plan
  | k, inst :: rest, plan =>
    match resourceUse ldsDwords inst with
    | none => none
    | some none => resourceLoop (k + 1) rest plan
    | some (some use) => (planResource program userSgpr lost k inst.pc use plan).bind (resourceLoop (k + 1) rest)

/-- The loop of `PlanResources`. -/
def planResources : Option ResourcePlan := resourceLoop program ldsDwords userSgpr lost 0 program {}

end Resources

end Prosperity.Rdna
