import Mathlib.Algebra.Group.Nat.Defs
import Prosperity.Foundations.Execution

/-!
# The label publisher

`PublishLabel` writes a fence label at once when no GPU write into guest memory is on its way and
nothing is held, and otherwise leaves the write to a publishing thread. `OverlayHeld` lays the held
writes over bytes of memory that its caller has read, so that a queue sees a label before it lands.

Two threads meet here: the one that walks the command buffers, which holds the GPU's lock through
each call, and the publishing thread. A step is one section under `g_lock`, one store into guest
memory, or the caller's read of it. `NotifyAll` and the condition variables only end a sleep that
ends by itself after 20 ms, and have no step.
-/

namespace Prosperity.Gpu

abbrev GuestMemory := ℕ → UInt8

abbrev GuestStore := GuestMemory → GuestMemory

def runStores (stores : List GuestStore) (m : GuestMemory) : GuestMemory :=
  stores.foldl (fun m store => store m) m

def storeBytes (at_ : ℕ) (bytes : List UInt8) : GuestStore := fun m a =>
  if at_ ≤ a ∧ a < at_ + bytes.length then bytes.getD (a - at_) (m a) else m a

def storeChunks : ℕ → List (List UInt8) → List GuestStore
  | _, [] => []
  | at_, c :: cs => storeBytes at_ c :: storeChunks (at_ + c.length) cs

/-- Where the bytes of `[base, base + bytes)` end, kept from wrapping round. -/
def heldEnd (base bytes : ℕ) : ℕ :=
  if (base + bytes) % 2 ^ 64 < base then 2 ^ 64 - 1 else (base + bytes) % 2 ^ 64

/-- A call of `PublishLabel`: the range it declares, the bytes there when it knows them, and the
stores of its `write`. -/
structure Label where
  base : ℕ
  bytes : ℕ
  data : Option (List UInt8)
  write : List GuestStore
  base_lt : base < 2 ^ 64
  data_length : ∀ d, data = some d → d.length = bytes

def Label.hi (l : Label) : ℕ := heldEnd l.base l.bytes

/-- `Held`. The publishing thread moves `write` out and leaves `none`. -/
structure Held where
  batch : ℕ
  lo : ℕ
  hi : ℕ
  /-- Empty where what is written is not known. -/
  data : List UInt8
  write : Option (List GuestStore)

/-- The `memcpy` of a WRITE_DATA packet or of a small DMA copy. -/
def copyLabel (dst : ℕ) (data : List UInt8) (h : dst < 2 ^ 64) : Label where
  base := dst
  bytes := data.length
  data := some data
  write := storeChunks dst (data.map fun b => [b])
  base_lt := h
  data_length := fun _ hd => congrArg List.length (Option.some.inj hd).symm

def dwordBytes (word : UInt32) : List UInt8 :=
  [word.toUInt8, (word >>> 8).toUInt8, (word >>> 16).toUInt8, (word >>> 24).toUInt8]

/-- `filled`, the sixteen dwords that a small DMA fill declares its bytes from. -/
def filledBytes (fill : UInt32) : List UInt8 := (List.replicate 16 (dwordBytes fill)).flatten

/-- A small DMA fill of `HandleDmaData`: it declares `bytes` bytes and stores whole dwords. -/
def fillLabel (dst bytes : ℕ) (fill : UInt32) (h : dst < 2 ^ 64) (hb : bytes ≤ 64) : Label where
  base := dst
  bytes := bytes
  data := some ((filledBytes fill).take bytes)
  write := storeChunks dst (List.replicate (bytes / 4) (dwordBytes fill))
  base_lt := h
  data_length := fun _ hd =>
    (congrArg List.length (Option.some.inj hd).symm).trans (List.length_take_of_le hb)

/-- What `PublishLabel` holds. -/
def Label.toHeld (l : Label) (point : ℕ) : Held where
  batch := point
  lo := l.base
  hi := l.hi
  data := l.data.getD []
  write := some l.write

inductive LabelWalk where
  | idle
  /-- In `PublishLabel`, past the lock, with the stores of its own write to come. -/
  | writing (rest : List GuestStore)
  /-- Memory is read, `OverlayHeld` not yet called. -/
  | read (base : ℕ) (out : List UInt8)
  /-- `OverlayHeld` has answered for `bytes` bytes; `none` where it returned false. -/
  | answered (base bytes : ℕ) (out : Option (List UInt8))

/-- Where the publishing thread stands. -/
inductive PublisherAt where
  | wait
  /-- Before `WaitBatch`, with the write moved out. -/
  | batch (write : Option (List GuestStore))
  | writing (rest : List GuestStore)

/-- The publisher, with the calls so far and how many of their writes have landed. -/
structure LabelState where
  memory : GuestMemory
  held : List Held
  head : ℕ
  started : Bool
  walk : LabelWalk
  publisher : PublisherAt
  initial : GuestMemory
  published : List Label
  landed : ℕ

/-- Nothing is held. -/
def LabelState.init (m : GuestMemory) : LabelState where
  memory := m
  held := []
  head := 0
  started := false
  walk := .idle
  publisher := .wait
  initial := m
  published := []
  landed := 0

namespace LabelState

variable (s : LabelState)

/-- `g_held[g_head..]`, which have not run. -/
def pending : List Held := s.held.drop s.head

/-- The section of `PublishLabel` under the lock; `point` is what `GuestWritePublishBatch` gave. -/
def publishLabel (l : Label) (point : ℕ) : LabelState :=
  if point ≠ 0 ∨ s.head < s.held.length then
    { s with
      held := s.held ++ [l.toHeld point]
      started := true
      walk := .idle
      published := s.published ++ [l] }
  else
    { s with walk := .writing l.write, published := s.published ++ [l] }

def writeStep : Option LabelState :=
  match s.walk with
  | .writing (store :: rest) => some { s with memory := store s.memory, walk := .writing rest }
  | .writing [] => some { s with walk := .idle, landed := s.landed + 1 }
  | _ => none

/-- The loop of `Run`, one section or one store a step. -/
def publisherStep : Option LabelState :=
  match s.publisher with
  | .wait =>
    match s.held[s.head]? with
    | some h =>
      if s.started then
        some { s with
          held := s.held.set s.head { h with write := none }
          publisher := .batch h.write }
      else none
    | none => none
  | .batch (some write) => some { s with publisher := .writing write }
  -- A write that was moved out already cannot be called.
  | .batch none => none
  | .writing (store :: rest) =>
    some { s with memory := store s.memory, publisher := .writing rest }
  | .writing [] =>
    if s.head + 1 = s.held.length then
      some { s with held := [], head := 0, publisher := .wait, landed := s.landed + 1 }
    else
      some { s with head := s.head + 1, publisher := .wait, landed := s.landed + 1 }

end LabelState

/-- `memcpy(out + at, bytes, size)`. -/
def copyInto (out : List UInt8) (at_ : ℕ) (bytes : List UInt8) : List UInt8 :=
  out.take at_ ++ bytes ++ out.drop (at_ + bytes.length)

/-- The loop of `OverlayHeld` over the held writes. -/
def overlayHeld (base bytes : ℕ) : List Held → List UInt8 → Option (List UInt8)
  | [], out => some out
  | h :: hs, out =>
    if h.hi ≤ base ∨ (base + bytes) % 2 ^ 64 ≤ h.lo then overlayHeld base bytes hs out
    else if h.data = [] then none
    else
      let lo := max base h.lo
      let hi := min ((base + bytes) % 2 ^ 64) h.hi
      overlayHeld base bytes hs
        (copyInto out (lo - base) ((h.data.drop (lo - h.lo)).take (hi - lo)))

def kGuestBase : ℕ := 0x10000

def kGuestEnd : ℕ := 0x1000000000000

/-- `IsGuestAddress`, which is all `IsLabelAddress` asks. -/
def isLabelAddress (address : ℕ) : Prop := kGuestBase ≤ address ∧ address < kGuestEnd

instance (address : ℕ) : Decidable (isLabelAddress address) :=
  inferInstanceAs (Decidable (_ ∧ _))

/-- A step of one of the two threads. -/
inductive LabelEvent where
  | publish (l : Label) (point : ℕ)
  | write
  /-- `WaitSatisfied` reads the label it waits for. -/
  | read (base bytes : ℕ)
  | overlay
  | publisher

namespace LabelState

variable (s : LabelState)

def walkFree : Bool :=
  match s.walk with
  | .idle | .answered _ _ _ => true
  | _ => false

/-- `WaitSatisfied` up to its read of memory. -/
def readLabel (base bytes : ℕ) : Option LabelState :=
  if isLabelAddress base ∧ bytes < 2 ^ 32 then
    some { s with walk := .read base ((List.range bytes).map fun i => s.memory (base + i)) }
  else none

/-- `OverlayHeld`, under the lock. -/
def overlayStep : Option LabelState :=
  match s.walk with
  | .read base out =>
    some { s with
      walk := .answered base out.length (overlayHeld base out.length s.pending out) }
  | _ => none

def step : LabelEvent → Option LabelState
  | .publish l point => if s.walkFree then some (s.publishLabel l point) else none
  | .write => s.writeStep
  | .read base bytes => if s.walkFree then s.readLabel base bytes else none
  | .overlay => s.overlayStep
  | .publisher => s.publisherStep

/-- Every interleaving of the walk and the publishing thread. -/
def system : LabelledSystem LabelState LabelEvent := ⟨step⟩

end LabelState

end Prosperity.Gpu
