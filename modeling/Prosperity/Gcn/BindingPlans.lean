import Prosperity.Foundations.Numbering
import Prosperity.Gcn.DescriptorVersions

/-!
# Binding plans

Before a shader is translated, each of its accesses gets a binding: scalar loads of constants, buffer
loads of a graphics stage, the resources of a compute shader, and image accesses. A binding stands for a
descriptor, which is told by its registers and by the scalar load that last filled them. Four planners do
this, each in one walk over the reachable instructions of a program.
-/

namespace Prosperity.Gcn

/-! ## The walk -/

/-- What an instruction wants of a plan. -/
inductive Demand (ρ : Type) where
  | pass
  | reject
  | use (request : Request ℕ ρ)

/-- A planner with a record `τ` of the scalar loads so far and with entries `ρ`. -/
structure Planner (τ ρ : Type) where
  start : τ
  /-- The record after an instruction, which is at an index. -/
  note : τ → ℕ → Inst → τ
  demand : τ → Inst → Demand ρ
  first : ℕ
  room : ℕ → Bool
  /-- There is no plan if a use finds no room; else the use goes without a binding. -/
  strict : Bool

namespace Planner

variable {τ ρ : Type} (p : Planner τ ρ) (reached : ℕ → Bool)

def step (state : τ × Numbering ℕ ℕ ρ) (at_ : Inst × ℕ) : Option (τ × Numbering ℕ ℕ ρ) :=
  let (inst, index) := at_
  if reached index then
    match p.demand state.1 inst with
    | .pass => some (p.note state.1 index inst, state.2)
    | .reject => none
    | .use request =>
      match state.2.put p.first p.room inst.pc request with
      | some plan => some (p.note state.1 index inst, plan)
      | none => if p.strict then none else some (p.note state.1 index inst, state.2)
  else some state

def plan (program : Program) : Option (Numbering ℕ ℕ ρ) :=
  (program.zipIdx.foldlM (p.step reached) (p.start, {})).map Prod.snd

end Planner

/-! ## Scalar loads -/

/-- `UINT32_MAX`: the descriptor is still the user data. -/
def kInlineVersion : ℕ := 0xFFFFFFFF

def loadSdst (inst : Inst) : ℕ := (inst.raw0 >>> 15) &&& 0x7F

def loadBase (inst : Inst) : ℕ := ((inst.raw0 >>> 9) &&& 0x3F) * 2

/-- The registers that a scalar load fills, by `SmrdDwordCount`. -/
def scalarLoad (inst : Inst) : Option (ℕ × ℕ) :=
  if inst.enc = .kSmrd then (smrdDwords inst.opcode).map fun n => (loadSdst inst, n) else none

def byIndex (load : Inst → Option (ℕ × ℕ)) (index : ℕ) (inst : Inst) : Option (Overlay ℕ) :=
  (load inst).map fun l => ⟨l.1, l.2, index⟩

def byPc (load : Inst → Option (ℕ × ℕ)) (_index : ℕ) (inst : Inst) : Option (Overlay ℕ) :=
  (load inst).map fun l => ⟨l.1, l.2, inst.pc⟩

/-- `loads` after an instruction. -/
def noteLoad (noted : ℕ → Inst → Option (Overlay ℕ)) (loads : List (Overlay ℕ)) (index : ℕ) (inst : Inst) :
    List (Overlay ℕ) :=
  match noted index inst with
  | some load => lay loads load
  | none => loads

/-- `descriptor_version`, `covering_load`. -/
def descriptorVersion (inline : ℕ) (loads : List (Overlay ℕ)) (sgpr dwords : ℕ) : ℕ :=
  (versionOf loads sgpr dwords).getD inline

/-! ## Constants -/

structure ShaderCbuf where
  binding : ℕ
  udSgpr : ℕ
  numDwords : ℕ
  pointer : Bool
  version : ℕ

def cbufKey (base : ℕ) (pointer : Bool) (version : ℕ) : ℕ :=
  (version <<< 32) ||| base ||| (if pointer then 0x100 else 0)

def isPointerLoad (inst : Inst) : Bool := inst.opcode ≤ 0x04

/-- The dwords of the constants that a load may reach. -/
def cbufEnd (inst : Inst) (n : ℕ) : ℕ :=
  match decodeSmrdOffset inst with
  | .inSgpr _ => 256
  | .dwords offset => (offset + n) % 2 ^ 32

/-- The window of constants grows to what a load reaches. -/
def ShaderCbuf.widen (end_ : ℕ) (cb : ShaderCbuf) : ShaderCbuf :=
  { cb with numDwords := max cb.numDwords end_ }

def cbufDemand (versions : DescriptorVersions) (inst : Inst) : Demand ShaderCbuf :=
  if inst.enc ≠ .kSmrd then .pass
  else
    match smrdDwords inst.opcode with
    | none => .pass
    | some n =>
      let base := loadBase inst
      let pointer := isPointerLoad inst
      let version := versions.of base (if pointer then 2 else 4)
      .use
        { key := cbufKey base pointer version
          entry := fun binding =>
            ShaderCbuf.widen (cbufEnd inst n)
              { binding := binding, udSgpr := base, numDwords := 0, pointer := pointer, version := version }
          merge := ShaderCbuf.widen (cbufEnd inst n) }

def cbufPlanner (firstBinding maxBindings : ℕ) : Planner DescriptorVersions ShaderCbuf where
  start := {}
  note versions _ inst := versions.note inst
  demand := cbufDemand
  first := firstBinding
  room binding := binding < maxBindings
  strict := true

def planCbufs (program : Program) (firstBinding : ℕ) (reached : ℕ → Bool) (maxBindings : ℕ) :
    Option (Numbering ℕ ℕ ShaderCbuf) :=
  (cbufPlanner firstBinding maxBindings).plan reached program

def cbufRegs (inst : Inst) : List (ℕ × ℕ) := [(loadBase inst, if isPointerLoad inst then 2 else 4)]

/-! ## Buffers of a graphics stage -/

def gfxMubufLoadDwords (op : ℕ) : ℕ :=
  if op ≤ 0x03 then op + 1
  else if 0x08 ≤ op ∧ op ≤ 0x0b then 1
  else if op = 0x0c then 1
  else if op = 0x0d then 2
  else if op = 0x0e then 4
  else if op = 0x0f then 3
  else 0

def gfxMtbufLoadDwords (op : ℕ) : ℕ := if op ≤ 0x03 then op + 1 else 0

def srsrcOf (inst : Inst) : ℕ := ((inst.raw1 >>> 16) &&& 0x1F) * 4

structure ShaderBuffer where
  binding : ℕ
  sgpr : ℕ
  usePc : ℕ

def isGfxBufferLoad (claimed : ℕ → Bool) (inst : Inst) : Bool :=
  ((inst.enc = .kMubuf ∧ gfxMubufLoadDwords ((inst.raw0 >>> 18) &&& 0x7F) ≠ 0) ∨
    (inst.enc = .kMtbuf ∧ gfxMtbufLoadDwords inst.opcode ≠ 0)) ∧ claimed inst.pc = false

def gfxDemand (claimed : ℕ → Bool) (loads : List (Overlay ℕ)) (inst : Inst) : Demand ShaderBuffer :=
  if isGfxBufferLoad claimed inst then
    let srsrc := srsrcOf inst
    .use
      { key := srsrc ||| (descriptorVersion kInlineVersion loads srsrc 4 <<< 8)
        entry := fun binding => { binding := binding, sgpr := srsrc, usePc := inst.pc }
        merge := id }
  else .pass

def gfxPlanner (firstBinding maxGfxBuffers : ℕ) (claimed : ℕ → Bool) : Planner (List (Overlay ℕ)) ShaderBuffer where
  start := []
  note := noteLoad (byIndex scalarLoad)
  demand := gfxDemand claimed
  first := firstBinding
  room binding := binding < maxGfxBuffers
  strict := false

/-- `PlanGfxBuffers`; `claimed` are the pcs of the vertex inputs. This planner never fails. -/
def planGfxBuffers (program : Program) (firstBinding : ℕ) (claimed : ℕ → Bool) (maxGfxBuffers : ℕ)
    (reached : ℕ → Bool) : Option (Numbering ℕ ℕ ShaderBuffer) :=
  (gfxPlanner firstBinding maxGfxBuffers claimed).plan reached program

/-- The V# of a buffer access. -/
def gfxRegs (inst : Inst) : List (ℕ × ℕ) := [(srsrcOf inst, 4)]

/-! ## Resources of a compute shader -/

def kMaxCsResources : ℕ := 128

def kUnknownStoreExtent : ℕ := 0xFFFFFFFF

structure CsResource where
  baseSgpr : ℕ
  usePc : ℕ
  binding : ℕ
  /-- A V#, a T# or a pointer. -/
  kind : ℕ
  written : Bool
  read : Bool
  minBytes : ℕ
  storeExtent : ℕ

def csResource (loads : List (Overlay ℕ)) (pc base dwords kind : ℕ) (written : Bool) (minBytes : ℕ)
    (read : Bool) (storeExtent : ℕ) : Demand CsResource :=
  .use
    { key := kind ||| (base <<< 8) ||| (descriptorVersion kInlineVersion loads base dwords <<< 16)
      entry := fun index =>
        { baseSgpr := base, usePc := pc, binding := index, kind := kind, written := written,
          read := read, minBytes := minBytes, storeExtent := storeExtent }
      merge := fun res =>
        { res with
          written := res.written || written
          read := res.read || read
          minBytes := max res.minBytes minBytes
          storeExtent := max res.storeExtent storeExtent } }

def storeExtentOf (w w1 bytes : ℕ) : ℕ :=
  if (w >>> 12) &&& 1 ≠ 0 ∨ (w1 >>> 24) &&& 0xFF ≠ 0x80 then kUnknownStoreExtent else (w &&& 0xFFF) + bytes

def csLoadDwords (op : ℕ) : Option ℕ := if op < 0x08 then some (1 <<< op) else smrdDwords op

def csLoad (inst : Inst) : Option (ℕ × ℕ) :=
  if inst.enc = .kSmrd then (csLoadDwords inst.opcode).map fun n => (loadSdst inst, n) else none

def csMinBytes (inst : Inst) (n : ℕ) : ℕ :=
  match decodeSmrdOffset inst with
  | .inSgpr _ => 0
  | .dwords offset => (offset + n) * 4 % 2 ^ 32

def csSmrdDemand (loads : List (Overlay ℕ)) (inst : Inst) : Demand CsResource :=
  match csLoadDwords inst.opcode with
  | none => .reject
  | some n =>
    if inst.opcode < 0x08 then
      csResource loads inst.pc (loadBase inst) 2 2 false (csMinBytes inst n) true 0
    else csResource loads inst.pc (loadBase inst) 4 0 false (csMinBytes inst n) true 0

def mubufAtomic (op : ℕ) : Bool := (0x30 ≤ op ∧ op ≤ 0x3f) ∨ (0x50 ≤ op ∧ op ≤ 0x5f)

def csMubufDemand (loads : List (Overlay ℕ)) (inst : Inst) : Demand CsResource :=
  let op := (inst.raw0 >>> 18) &&& 0x7F
  let load : Bool := op ≤ 0x03 ∨ (0x08 ≤ op ∧ op ≤ 0x0f)
  let store : Bool := (0x04 ≤ op ∧ op ≤ 0x07) ∨ op = 0x18 ∨ op = 0x1a ∨ (0x1c ≤ op ∧ op ≤ 0x1f)
  let atomic := mubufAtomic op
  let storeBytes :=
    if 0x04 ≤ op ∧ op ≤ 0x07 then (op - 3) * 4
    else if op = 0x18 then 1
    else if op = 0x1a then 2
    else if op = 0x1c then 4
    else if op = 0x1d then 8
    else if op = 0x1e then 16
    else if op = 0x1f then 12
    else 8
  if load = false ∧ store = false ∧ atomic = false then .reject
  else
    csResource loads inst.pc (srsrcOf inst) 4 0 (store || atomic) 0 (load || atomic)
      (if atomic then kUnknownStoreExtent
        else if store then storeExtentOf inst.raw0 inst.raw1 storeBytes
        else 0)

/-- `kDfmtBytes`. -/
def dfmtBytes (dfmt : ℕ) : ℕ := [0, 1, 2, 2, 4, 4, 4, 4, 4, 4, 4, 8, 8, 12, 16, 16].getD dfmt 0

def csMtbufDemand (loads : List (Overlay ℕ)) (inst : Inst) : Demand CsResource :=
  let op := (inst.raw0 >>> 16) &&& 0x7
  let bytes := dfmtBytes ((inst.raw0 >>> 19) &&& 0xF)
  let storeBytes := max bytes (((op &&& 3) + 1) * 4)
  csResource loads inst.pc (srsrcOf inst) 4 0 (4 ≤ op) 0 (op < 4)
    (if 4 ≤ op then
        if bytes ≠ 0 then storeExtentOf inst.raw0 inst.raw1 storeBytes else kUnknownStoreExtent
      else 0)

/-- The image access states its level of detail. -/
def mimgNamesItsLod (op : ℕ) : Bool :=
  if op = 0x00 ∨ op = 0x01 then true
  else if 0x40 ≤ op ∧ op ≤ 0x5f then op &&& 7 = 7
  else (0x20 ≤ op ∧ op ≤ 0x3f) ∧ (op &&& 7 = 4 ∨ op &&& 7 = 7)

def mimgOp (inst : Inst) : ℕ := (inst.raw0 >>> 18) &&& 0x7F

def csMimgDemand (loads : List (Overlay ℕ)) (inst : Inst) : Demand CsResource :=
  let op := mimgOp inst
  let srsrc := srsrcOf inst
  let r128 : Bool := inst.raw0 &&& 0x8000 ≠ 0
  if op = 0x0e then .pass
  else
    let store : Bool := op = 0x08 ∨ op = 0x09
    let load : Bool := op = 0x00 ∨ op = 0x01
    let sample : Bool := 0x20 ≤ op ∧ mimgNamesItsLod op
    if (store = false ∧ load = false ∧ sample = false) ∨ r128 = true ∨ srsrc + 7 ≥ 136 then .reject
    else csResource loads inst.pc srsrc 8 1 store 0 (load || sample) 0

def isGds (inst : Inst) : Bool := inst.enc = .kDs ∧ (inst.raw0 >>> 17) &&& 1 ≠ 0

def csDemand (ldsDwords : ℕ) (loads : List (Overlay ℕ)) (inst : Inst) : Demand CsResource :=
  match inst.enc with
  | .kSmrd => csSmrdDemand loads inst
  | .kMubuf => csMubufDemand loads inst
  | .kMtbuf => csMtbufDemand loads inst
  | .kMimg => csMimgDemand loads inst
  | .kDs =>
    if isGds inst then
      -- only the append and consume counters are modelled
      if inst.opcode ≠ 0x3d ∧ inst.opcode ≠ 0x3e then .reject else .pass
    else if ldsDwords = 0 ∧ inst.opcode ≠ 0x35 then .reject
    else .pass
  | _ => .pass

def csPlanner (ldsDwords : ℕ) : Planner (List (Overlay ℕ)) CsResource where
  start := []
  note := noteLoad (byIndex csLoad)
  demand := csDemand ldsDwords
  first := 0
  room index := index < kMaxCsResources
  strict := true

structure CsPlan where
  resources : Numbering ℕ ℕ CsResource
  gdsBinding : Option ℕ

/-- `PlanCsResources`. The counters of the global data share get a binding past the resources. -/
def planCsResources (program : Program) (reached : ℕ → Bool) (ldsDwords : ℕ) : Option CsPlan :=
  ((csPlanner ldsDwords).plan reached program).map fun resources =>
    { resources := resources
      gdsBinding :=
        if program.zipIdx.any fun at_ => reached at_.2 && isGds at_.1 then some resources.entries.length
        else none }

/-- The descriptor of an access of a compute shader. -/
def csRegs (inst : Inst) : List (ℕ × ℕ) :=
  match inst.enc with
  | .kSmrd => [(loadBase inst, if inst.opcode < 0x08 then 2 else 4)]
  | .kMimg => [(srsrcOf inst, 8)]
  | _ => [(srsrcOf inst, 4)]

/-! ## Images -/

def mimgDescriptorKey (srsrc ssamp loadRsrc loadSamp flags : ℕ) : ℕ :=
  srsrc ||| (ssamp <<< 8) ||| ((loadRsrc &&& 0xFFFF) <<< 16) ||| ((loadSamp &&& 0xFFFF) <<< 32) ||| (flags <<< 48)

def ssampOf (inst : Inst) : ℕ := ((inst.raw1 >>> 21) &&& 0x1F) * 4

def isSampling (inst : Inst) : Bool := 0x20 ≤ mimgOp inst

def isStorage (inst : Inst) : Bool := mimgOp inst = 0x08 ∨ mimgOp inst = 0x09

/-- The kinds of access that need bindings of their own. -/
def mimgFlags (inst : Inst) : ℕ :=
  let op := mimgOp inst
  ((inst.raw0 >>> 14) &&& 1) ||| ((if op = 0x28 ∨ op = 0x2f then 1 else 0) <<< 1) |||
    ((if op = 0x47 then 1 else 0) <<< 2) ||| ((if isStorage inst then 1 else 0) <<< 3)

def pointerLoad (inst : Inst) : Option (ℕ × ℕ) :=
  let s := decodeSmrd inst.raw0
  if inst.enc = .kSmrd ∧ s.op ≤ 0x04 then some (s.sdst, 1 <<< s.op) else none

/-- The T# and whether it is stored to. -/
structure MimgBinding where
  srsrc : ℕ
  storage : Bool

def mimgDemand (loads : List (Overlay ℕ)) (inst : Inst) : Demand MimgBinding :=
  if inst.enc ≠ .kMimg then .pass
  else
    let srsrc := srsrcOf inst
    let sampling := isSampling inst
    let ssamp := if sampling then ssampOf inst else 0xFF
    .use
      { key :=
          mimgDescriptorKey srsrc ssamp (descriptorVersion 0xFFFF loads srsrc 8)
            (if sampling then descriptorVersion 0xFFFF loads ssamp 4 else 0xFFFE) (mimgFlags inst)
        entry := fun _ => { srsrc := srsrc, storage := isStorage inst }
        merge := id }

def mimgPlanner : Planner (List (Overlay ℕ)) MimgBinding where
  start := []
  note := noteLoad (byIndex pointerLoad)
  demand := mimgDemand
  first := 0
  room _ := true
  strict := true

/-- `PlanMimgBindings`. This planner never fails. -/
def planMimgBindings (program : Program) (reached : ℕ → Bool) : Option (Numbering ℕ ℕ MimgBinding) :=
  mimgPlanner.plan reached program

/-- The T# of an image access, and the S# of a sampling one. -/
def mimgRegs (inst : Inst) : List (ℕ × ℕ) :=
  (srsrcOf inst, 8) :: if isSampling inst then [(ssampOf inst, 4)] else []

end Prosperity.Gcn
