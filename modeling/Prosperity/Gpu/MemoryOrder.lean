import Prosperity.Gpu.ParkedWaits

/-!
# The memory order of a queue

The packets of one queue, against the publishing thread that carries out the held writes. Beside
guest memory runs the memory of the packets executed one after another with every write applied at
once; what a packet reads is compared with that memory.

The walk and the publishing thread take one load or one store a step. WAIT_REG_MEM reads memory and
then the held writes. COND_EXEC and the source of DMA_DATA are read from memory alone, the operands
of ATOMIC_MEM and COPY_DATA when the write runs. A DMA copy or fill of more than 64 bytes does not
go through `PublishLabel`.
-/

namespace Prosperity.Gpu

def runActs : List WriteAct → List UInt8 → GuestMemory → GuestMemory
  | [], _, m => m
  | .load at_ bytes :: rest, _, m => runActs rest (loadBytes m at_ bytes) m
  | .store at_ f :: rest, loaded, m => runActs rest loaded (storeBytes at_ (f loaded) m)
  | .record _ :: rest, loaded, m => runActs rest loaded m

def runLoads : List WriteAct → List UInt8 → GuestMemory → List (List UInt8)
  | [], _, _ => []
  | .load at_ bytes :: rest, _, m =>
    loadBytes m at_ bytes :: runLoads rest (loadBytes m at_ bytes) m
  | .store at_ f :: rest, loaded, m => runLoads rest loaded (storeBytes at_ (f loaded) m)
  | .record _ :: rest, loaded, m => runLoads rest loaded m

/-- The range that a packet declares to `PublishLabel`. -/
def CpWrite.base : CpWrite → ℕ
  | .writeData address _ | .label address _ _ | .atomicMem address _ _ _ | .zpassDone address _ =>
    address
  | .dmaCopy dst _ | .dmaFill dst _ _ | .copyData dst _ _ => dst

def CpWrite.bytes : CpWrite → ℕ
  | .writeData _ chunks | .dmaCopy _ chunks => chunks.flatten.length
  | .label _ _ is64bit => if is64bit then 8 else 4
  | .dmaFill _ bytes _ => bytes
  | .atomicMem _ _ _ _ | .copyData _ _ _ => 8
  | .zpassDone _ _ => 256

/-- The bytes that a packet declares, none where it does not know them. -/
def CpWrite.data : CpWrite → List UInt8
  | .writeData _ chunks | .dmaCopy _ chunks => chunks.flatten
  | .label _ value is64bit => valueBytes (if is64bit then 8 else 4) value
  | .dmaFill _ bytes fill => ((List.replicate 16 (valueBytes 4 fill)).flatten).take bytes
  | .atomicMem _ _ _ _ | .copyData _ _ _ | .zpassDone _ _ => []

def CpWrite.isDma : CpWrite → Bool
  | .dmaCopy _ _ | .dmaFill _ _ _ => true
  | _ => false

def CpWrite.stored : CpWrite → ℕ
  | .dmaFill _ bytes _ => 4 * (bytes / 4)
  | p => p.bytes

/-- The `memcpy` of a large DMA copy, byte by byte. -/
def largeCopyActs (src dst bytes : ℕ) : List WriteAct :=
  (List.range bytes).flatMap fun i => [.load (src + i) 1, .store (dst + i) id]

/-- What is left of a write, and beside it what the packets one after another would load. -/
structure Job extends WriterAt where
  loads : List (List UInt8)

structure HeldWrite where
  packet : CpWrite
  lo : ℕ
  hi : ℕ
  job : Job

/-- What `OverlayHeld` sees of a held write. -/
def HeldWrite.toHeld (h : HeldWrite) : Held := ⟨0, h.lo, h.hi, h.packet.data, none⟩

inductive OrderWalk where
  | idle
  | writing (job : Job)
  /-- In `WaitSatisfied`, between its read of memory and `OverlayHeld`. -/
  | read (base : ℕ) (out : List UInt8)
  /-- Memory with the held writes laid over it, `none` where they do not know their bytes. -/
  | answered (base bytes : ℕ) (out : Option (List UInt8))

/-- Guest memory, the writes held and the walk, and the memory of the packets one after another. -/
structure OrderState where
  memory : GuestMemory
  held : List HeldWrite
  /-- Whether the publishing thread is at the first of them. -/
  running : Bool
  walk : OrderWalk
  seq : GuestMemory

inductive OrderEvent where
  /-- A packet that is no DMA packet; `point` is what `GuestWritePublishBatch` gave. -/
  | publish (p : CpWrite) (point : ℕ)
  /-- DMA_DATA from memory to memory. -/
  | dmaCopy (src dst bytes point : ℕ)
  | dmaFill (dst bytes fill point : ℕ)
  | write
  | condExec (flag : ℕ)
  | read (base bytes : ℕ)
  | overlay
  /-- The publishing thread has waited for the batch of the first held write. -/
  | take
  /-- Its next step, or the end of the write. -/
  | publisher

namespace OrderState

variable (s : OrderState)

def init (m : GuestMemory) : OrderState := ⟨m, [], false, .idle, m⟩

def walkFree : Bool :=
  match s.walk with
  | .idle | .answered _ _ _ => true
  | _ => false

/-- `PublishLabel` of the packet `p`, where the packets one after another would come to `p'`. -/
def publish (p p' : CpWrite) (point : ℕ) : OrderState :=
  let job : Job := ⟨⟨p.acts, []⟩, runLoads p'.acts [] s.seq⟩
  let seq := runActs p'.acts [] s.seq
  if point ≠ 0 ∨ s.held ≠ [] then
    { s with held := s.held ++ [⟨p, p.base, heldEnd p.base p.bytes, job⟩], walk := .idle, seq }
  else { s with walk := .writing job, seq }

/-- A write past `PublishLabel`. -/
def direct (acts : List WriteAct) : OrderState :=
  { s with
    walk := .writing ⟨⟨acts, []⟩, runLoads acts [] s.seq⟩
    seq := runActs acts [] s.seq }

def smallCopy (m : GuestMemory) (src dst bytes : ℕ) : CpWrite :=
  .dmaCopy dst ((loadBytes m src bytes).map fun b => [b])

def atOnce : OrderEvent → GuestMemory → GuestMemory
  | .publish p _, m => runActs p.acts [] m
  | .dmaCopy src dst bytes _, m =>
    if bytes ≤ kLabelBytes then runActs (smallCopy m src dst bytes).acts [] m
    else runActs (largeCopyActs src dst bytes) [] m
  | .dmaFill dst bytes fill _, m => runActs (CpWrite.dmaFill dst bytes fill).acts [] m
  | _, m => m

def jobStep (m : GuestMemory) (j : Job) : Option (GuestMemory × Job) :=
  match j.rest with
  | .load at_ bytes :: rest => some (m, ⟨⟨rest, loadBytes m at_ bytes⟩, j.loads.tail⟩)
  | .store at_ f :: rest => some (storeBytes at_ (f j.loaded) m, ⟨⟨rest, j.loaded⟩, j.loads⟩)
  | .record _ :: rest => some (m, ⟨⟨rest, j.loaded⟩, j.loads⟩)
  | [] => none

def writeStep : Option OrderState :=
  match s.walk with
  | .writing j =>
    match jobStep s.memory j with
    | some (memory, j) => some { s with memory, walk := .writing j }
    | none => some { s with walk := .idle }
  | _ => none

def publisherStep : Option OrderState :=
  match s.held with
  | h :: hs =>
    if s.running then
      match jobStep s.memory h.job with
      | some (memory, job) => some { s with memory, held := { h with job } :: hs }
      | none => some { s with held := hs, running := false }
    else none
  | [] => none

def InGuest (base bytes : ℕ) : Prop := isLabelAddress base ∧ bytes < 2 ^ 32

instance (base bytes : ℕ) : Decidable (InGuest base bytes) := inferInstanceAs (Decidable (_ ∧ _))

def step : OrderEvent → Option OrderState
  | .publish p point =>
    if s.walkFree ∧ p.isDma = false ∧ InGuest p.base p.bytes then some (s.publish p p point)
    else none
  | .dmaCopy src dst bytes point =>
    if s.walkFree ∧ InGuest dst bytes then
      some <|
        if bytes ≤ kLabelBytes then
          s.publish (smallCopy s.memory src dst bytes) (smallCopy s.seq src dst bytes) point
        else s.direct (largeCopyActs src dst bytes)
    else none
  | .dmaFill dst bytes fill point =>
    if s.walkFree ∧ InGuest dst bytes then
      some <|
        if bytes ≤ kLabelBytes then s.publish (.dmaFill dst bytes fill) (.dmaFill dst bytes fill) point
        else s.direct (CpWrite.dmaFill dst bytes fill).acts
    else none
  | .write => s.writeStep
  | .condExec flag =>
    if s.walkFree ∧ isLabelAddress flag then some { s with walk := .idle } else none
  | .read base bytes =>
    if s.walkFree ∧ InGuest base bytes then
      some { s with walk := .read base (loadBytes s.memory base bytes) }
    else none
  | .overlay =>
    match s.walk with
    | .read base out =>
      some { s with
        walk := .answered base out.length
          (overlayHeld base out.length (s.held.map HeldWrite.toHeld) out) }
    | _ => none
  | .take => if s.held ≠ [] ∧ s.running = false then some { s with running := true } else none
  | .publisher => s.publisherStep

/-- Every interleaving of a queue's walk and the publishing thread. -/
def system : LabelledSystem OrderState OrderEvent := ⟨step⟩

/-! ### What the order asks -/

def LoadsOk (m : GuestMemory) (j : Job) : Prop :=
  ∀ at_ bytes rest, j.rest = .load at_ bytes :: rest → j.loads.head? = some (loadBytes m at_ bytes)

/-- What a step consumes is what the packets one after another consume. -/
def InOrder (e : OrderEvent) (s' : OrderState) : Prop :=
  match e with
  | .condExec flag => loadBytes s.memory flag 4 = loadBytes s.seq flag 4
  | .dmaCopy src _ bytes _ =>
    bytes ≤ kLabelBytes → loadBytes s.memory src bytes = loadBytes s.seq src bytes
  | .write => ∀ j, s.walk = .writing j → LoadsOk s.memory j
  | .publisher => ∀ h ∈ s.held.head?, s.running = true → LoadsOk s.memory h.job
  | .overlay =>
    ∀ base bytes out, s'.walk = .answered base bytes (some out) → out = loadBytes s.seq base bytes
  | _ => True

/-- The range `[base, base + bytes)` meets no byte that the held write may store. -/
def HeldWrite.Clear (base bytes : ℕ) (h : HeldWrite) : Prop := base + bytes ≤ h.lo ∨ h.hi ≤ base

def LoadsOff (base bytes : ℕ) (acts : List WriteAct) : Prop :=
  ∀ at_ n, WriteAct.load at_ n ∈ acts → base + bytes ≤ at_ ∨ at_ + n ≤ base

/-- No held write stands in the way: none stores where COND_EXEC or DMA_DATA read; none stores or
loads where a large DMA packet stores; none that a WAIT_REG_MEM reads over is taken off between its
read of memory and `OverlayHeld`, or is a fill that declares the bytes read and does not store
them. -/
def Careful : OrderEvent → Prop
  | .condExec flag => ∀ h ∈ s.held, HeldWrite.Clear flag 4 h
  | .dmaCopy src dst bytes _ =>
    (∀ h ∈ s.held, HeldWrite.Clear src bytes h) ∧ (kLabelBytes < bytes → ∀ h ∈ s.held,
      HeldWrite.Clear dst bytes h ∧ LoadsOff dst bytes h.job.rest)
  | .dmaFill dst bytes _ _ =>
    kLabelBytes < bytes → ∀ h ∈ s.held, HeldWrite.Clear dst bytes h ∧ LoadsOff dst bytes h.job.rest
  | .publisher => ∀ base out h, s.walk = .read base out → s.held.head? = some h →
    h.job.rest = [] → HeldWrite.Clear base out.length h
  | .overlay => ∀ base out, s.walk = .read base out → ∀ h ∈ s.held,
    ∀ a, h.lo + h.packet.stored ≤ a → a < h.hi → a < base ∨ base + out.length ≤ a
  | _ => True

def Drained : Prop := s.held = [] ∧ ∀ j, s.walk ≠ .writing j

end OrderState

end Prosperity.Gpu
