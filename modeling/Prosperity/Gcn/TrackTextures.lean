import Prosperity.Gcn.BindingPlans
import Prosperity.Gcn.ScalarReplay
import Prosperity.Gcn.StagedImage

/-!
# The textures of a draw

`TrackTextures` reads the T# and the S# of each image binding of a program out of a walk of the scalar
evaluator. The binding of an image instruction comes from the plan, by its pc. The walk is the program's
own, or the replay that the draw's resolvers share; what the replay captured has the face of the
evaluator, and a read that it did not capture sends `TrackTextures` back to its own walk.

The evaluator's options for debugging are off, among them those that replace a T#.
-/

namespace Prosperity.Gcn

/-- `TImage`, with what `TrackTextures` adds to it. -/
structure TrackedTexture extends TImage where
  baseArray : ℕ
  viewLayers : ℕ
  baseMip : ℕ
  viewMips : ℕ
  minLod : ℕ
  dstSel : List ℕ
  is1d : Bool
  nullDescriptor : Bool
  /-- The words of the S#, if they are valid. -/
  sampler : Option (List UInt32)
  arrayed : Bool
  forceLodZero : Bool
  depthCompare : Bool
  storage : Bool
  src : ℕ

def TrackedTexture.blank : TrackedTexture where
  base := 0
  width := 0
  height := 0
  pitch := 0
  depth := 1
  layers := 1
  mipLevels := 1
  dfmt := 0
  nfmt := 0
  type := 0
  tilingIdx := 0
  pow2Pad := false
  is3d := false
  valid := false
  baseArray := 0
  viewLayers := 1
  baseMip := 0
  viewMips := 1
  minLod := 0
  dstSel := [4, 5, 6, 7]
  is1d := false
  nullDescriptor := false
  sampler := none
  arrayed := false
  forceLodZero := false
  depthCompare := false
  storage := false
  src := 0

/-- `DecodeTImage`; `guest` is `GuestRange`. -/
def decodeTexture (guest : ℕ → Bool) (d : ℕ → UInt32) : TrackedTexture :=
  let t := gcnTImage guest d
  let arrayed := t.type = 13 ∨ t.type = 12 ∨ t.type = 11
  let baseArray := if arrayed then word d 5 0 0x1FFF else 0
  let lastArray := word d 5 13 0x1FFF
  let baseMip := word d 3 12 0xF
  let lastMip := word d 3 16 0xF
  { TrackedTexture.blank with
    toTImage := t
    baseArray
    viewLayers :=
      if arrayed then
        if baseArray < t.layers ∧ baseArray ≤ lastArray then
          min lastArray (t.layers - 1) - baseArray + 1
        else 0
      else 1
    baseMip
    viewMips := if baseMip ≤ lastMip then lastMip - baseMip + 1 else 0
    minLod := word d 1 8 0xFFF
    dstSel := (List.range 4).map fun i => word d 3 (3 * i) 0x7
    is1d := t.type = 8 ∨ t.type = 12
    nullDescriptor := (List.range 8).all fun i => d i = 0 }

/-! ## The registers -/

/-- The face of `ScalarEval` and of `ConsumerRegs`, `none` for a read that was not captured. -/
structure ScalarFace where
  allKnown : ℕ → ℕ → Option Bool
  sgpr : ℕ → Option UInt32
  src : ℕ → Option ℕ

/-- The evaluator itself. -/
def ScalarEval.face (e : ScalarEval) : ScalarFace where
  allKnown s n := some (e.allKnown s n)
  sgpr s := some (e.sgpr s)
  src s := some (e.src s)

/-- The window has the registers from `s` to `s + n`. -/
def Window.Covers (w : Window) (s n : ℕ) : Prop := w.first ≤ s ∧ s + n ≤ w.first + w.value.length

instance (w : Window) (s n : ℕ) : Decidable (w.Covers s n) := inferInstanceAs (Decidable (_ ∧ _))

/-- `ConsumerRegs`. -/
def ScalarConsumer.face (c : ScalarConsumer) : ScalarFace where
  allKnown s n := ([c.regs, c.sampler].find? fun w => w.Covers s n).map fun w =>
    ((w.value.drop (s - w.first)).take n).all Option.isSome
  sgpr s := ([c.regs, c.sampler].find? fun w => w.Covers s 1).map fun w =>
    (w.value.getD (s - w.first) none).getD 0
  src s := if s = c.regs.first then some c.src else none

/-- The words of a descriptor, `none` if not all are known. -/
def ScalarFace.words (f : ScalarFace) (s n : ℕ) : Option (Option (List UInt32)) := do
  if ← f.allKnown s n then some (some (← (List.range n).mapM fun i => f.sgpr (s + i)))
  else some none

/-! ## The walk -/

structure ImageRead where
  image : Option (List UInt32)
  sampler : Option (List UInt32)
  src : ℕ

def introduce (guest : ℕ → Bool) (inst : Inst) (read : ImageRead) : TrackedTexture :=
  let op := mimgOp inst
  let t : TrackedTexture :=
    match read.image with
    | some words => { decodeTexture guest (words.getD · 0) with src := read.src }
    | none => .blank
  { t with
    sampler := read.sampler
    arrayed := inst.raw0 &&& 0x4000 ≠ 0 ∨ t.type = 11
    forceLodZero := op = 0x47
    depthCompare := op = 0x28 ∨ op = 0x2f
    storage := op = 0x08 ∨ op = 0x09 }

/-- What a later use of the binding changes. -/
def backfill (sampler : Option (List UInt32)) (t : TrackedTexture) : TrackedTexture :=
  { t with sampler := t.sampler.or sampler }

/-- `consume`, with `result` so far; `none` if something that is read was not captured. -/
def consume (guest : ℕ → Bool) (plan : Numbering ℕ ℕ MimgBinding) (result : List TrackedTexture)
    (inst : Inst) (f : ScalarFace) : Option (List TrackedTexture) :=
  if inst.enc ≠ .kMimg then some result
  else
    match plan.byUse inst.pc with
    | none => some result
    | some binding =>
      (if 0x20 ≤ mimgOp inst then f.words (ssampOf inst) 4 else some none).bind fun sampler =>
        if binding < result.length then some (result.modify binding (backfill sampler))
        else
          (f.words (srsrcOf inst) 8).bind fun image =>
            (if image.isSome then f.src (srsrcOf inst) else some 0).map fun src =>
              result ++ [introduce guest inst ⟨image, sampler, src⟩]

section Track

variable (guest : ScalarMemory) (codeBase : ℕ)

/-- The loop of `ForEachConsumer` over the instructions. -/
def ownConsumers : List Inst → ScalarEval → List (Inst × ScalarFace)
  | [], _ => []
  | inst :: insts, e =>
    (if isSmrdConsumer inst then [(inst, e.face)] else []) ++
      (if isResourceConsumer inst then [(inst, (e.step inst guest codeBase).face)] else []) ++
      ownConsumers insts (e.step inst guest codeBase)

/-- The loop of `ForEachConsumer` over the replay. -/
def sharedConsumers (insts : List Inst) (userData : ℕ → UInt32) : List (Inst × ScalarFace) :=
  (buildReplay guest codeBase insts (planReplay insts true) userData).filterMap fun c =>
    insts[c.index]?.map fun inst => (inst, c.face)

def trackConsumers (plan : Numbering ℕ ℕ MimgBinding) (consumers : List (Inst × ScalarFace)) :
    Option (List TrackedTexture) :=
  consumers.foldlM (fun result c => consume (guest.range · 1) plan result c.1 c.2) []

/-- `TrackTextures`; `shared` if a replay of the draw is shared. -/
def trackTextures (program : Program) (reachable : List Bool) (userData : ℕ → UInt32) (shared : Bool) :
    Option (List TrackedTexture) := do
  let plan ← planMimgBindings program fun i => reachable.getD i false
  let insts := scalarInsts program reachable
  let own := trackConsumers guest plan (ownConsumers guest codeBase insts (ScalarEval.start userData))
  if shared then
    (trackConsumers guest plan (sharedConsumers guest codeBase insts userData)).or own
  else own

end Track

end Prosperity.Gcn
