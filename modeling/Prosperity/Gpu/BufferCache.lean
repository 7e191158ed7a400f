import Mathlib.Algebra.Group.Nat.Defs
import Prosperity.Foundations.Digits
import Prosperity.Foundations.Execution
import Prosperity.Foundations.Extents

/-!
# The buffer cache

Guest vertex data is copied into blocks of GPU-visible memory and kept there across frames. A copy
that is dropped leaves its extent to the frames that may still read it, and a later frame puts it
back among the free extents of its block.

Whether the device has another block to give, what the compute side has written, and the order in
which the hash map of the index is walked are not the cache's own: each is part of the call.
-/

namespace Prosperity.Gpu

def kBlockBytes : ℕ := 64 <<< 20

def kAlign : ℕ := 256

def kRetireFrames : ℕ := 3

def kIdleFrames : ℕ := 120

def kIndexShift : ℕ := 16

def kSweepFrames : ℕ := 16

/-- `(bytes + kAlign - 1) & ~(kAlign - 1)`. -/
def aligned (bytes : ℕ) : ℕ := alignUp bytes kAlign

/-- `Entry`: a copy of the guest bytes from `base` on. -/
structure CacheEntry where
  base : ℕ
  block : ℕ
  offset : ℕ
  /-- 0 for a free handle. -/
  bytes : ℕ
  lastUsed : ℕ
  deriving DecidableEq

instance : Inhabited CacheEntry := ⟨⟨0, 0, 0, 0, 0⟩⟩

/-- `Retired`: an extent that frames in flight may still read. -/
structure Retired where
  block : ℕ
  offset : ℕ
  bytes : ℕ
  frame : ℕ
  deriving DecidableEq

/-- The cache, with `g_frame.num`. `released` keeps every extent that was ever dropped. -/
structure BufferCache where
  /-- `free` of each block. -/
  blocks : List (List Extent)
  pool : List CacheEntry
  /-- `g_free_handles`, the last one pushed in front. -/
  freeHandles : List ℕ
  byBase : List (ℕ × ℕ)
  index : List (ℕ × List ℕ)
  retired : List Retired
  liveBytes : ℕ
  frameNum : ℕ
  released : List Retired

namespace BufferCache

def init : BufferCache where
  blocks := []
  pool := []
  freeHandles := []
  byBase := []
  index := []
  retired := []
  liveBytes := 0
  frameNum := 0
  released := []

variable (s : BufferCache)

/-- `g_pool[handle]`. -/
def entry (handle : ℕ) : CacheEntry := s.pool.getD handle default

/-- `g_by_base.find(base)`. -/
def findBase (base : ℕ) : Option ℕ := s.byBase.lookup base

def free (block offset bytes : ℕ) : BufferCache :=
  { s with blocks := s.blocks.modify block fun l => release l (offset, bytes) }

/-- The loop of `Allocate` over the blocks. -/
def allocateIn (bytes : ℕ) : List (List Extent) → Option (ℕ × ℕ × List (List Extent))
  | [] => none
  | l :: ls =>
    match takeFirst bytes l with
    | some (offset, l') => some (0, offset, l' :: ls)
    | none => (allocateIn bytes ls).map fun r => (r.1 + 1, r.2.1, l :: r.2.2)

/-- `Allocate`, with the block and the offset; `created` says whether the device has a buffer for
another block, and `budget` is `kBufferCacheMb`. -/
def allocate (budget : ℕ) (created : Bool) (bytes : ℕ) : Option (ℕ × ℕ × BufferCache) :=
  if kBlockBytes < aligned bytes then none
  else
    match allocateIn (aligned bytes) s.blocks with
    | some (block, offset, blocks) => some (block, offset, { s with blocks := blocks })
    | none =>
      if budget <<< 20 < (s.blocks.length + 1) * kBlockBytes then none
      else if created then
        some (s.blocks.length, 0,
          { s with
            blocks := s.blocks ++ [[(aligned bytes, kBlockBytes - aligned bytes)]] })
      else none

def drop (handle : ℕ) : BufferCache :=
  let e := s.entry handle
  let r : Retired := ⟨e.block, e.offset, aligned e.bytes, s.frameNum⟩
  { s with
    retired := s.retired ++ [r]
    liveBytes := s.liveBytes - e.bytes
    byBase := s.byBase.filter fun p => p.1 ≠ e.base
    pool := s.pool.set handle { e with bytes := 0 }
    freeHandles := handle :: s.freeHandles
    released := s.released ++ [r] }

/-- `Drop` for the copy of the base, if there is one. -/
def dropBase (base : ℕ) : BufferCache :=
  match s.findBase base with
  | some old => s.drop old
  | none => s

/-- `Drop` for each handle of a live copy that meets the test. -/
def dropWhere (p : CacheEntry → Bool) (handles : List ℕ) : BufferCache :=
  handles.foldl
    (fun s handle => if (s.entry handle).bytes ≠ 0 ∧ p (s.entry handle) then s.drop handle else s) s

/-- `g_index[b].push_back(handle)`. -/
def pushIndex (handle : ℕ) : List (ℕ × List ℕ) → ℕ → List (ℕ × List ℕ)
  | [], b => [(b, [handle])]
  | (k, handles) :: rest, b =>
    if k = b then (k, handles ++ [handle]) :: rest
    else (k, handles) :: pushIndex handle rest b

def indexBlocks (e : CacheEntry) : List ℕ :=
  List.range' (e.base >>> kIndexShift)
    ((e.base + e.bytes - 1) >>> kIndexShift + 1 - e.base >>> kIndexShift)

def indexHandle (handle : ℕ) : BufferCache :=
  { s with index := (indexBlocks (s.entry handle)).foldl (pushIndex handle) s.index }

/-- `FindCachedBuffer`; `dirty` is what `CsRangeDirtyOverlapping` says. -/
def findCachedBuffer (base bytes : ℕ) (dirty : Bool) : BufferCache :=
  match s.findBase base with
  | some handle =>
    let e := s.entry handle
    if e.bytes < bytes ∨ dirty then s
    else { s with pool := s.pool.set handle { e with lastUsed := s.frameNum } }
  | none => s

def takeHandle : ℕ × BufferCache :=
  match s.freeHandles with
  | handle :: rest => (handle, { s with freeHandles := rest })
  | [] => (s.pool.length, { s with pool := s.pool ++ [default] })

def store (handle : ℕ) (e : CacheEntry) : BufferCache :=
  { s with
    pool := s.pool.set handle e
    byBase := (e.base, handle) :: s.byBase.filter fun p => p.1 ≠ e.base
    liveBytes := s.liveBytes + e.bytes }

def cacheGuestBuffer (budget : ℕ) (created : Bool) (base bytes : ℕ) : BufferCache :=
  if bytes = 0 then s
  else
    match s.allocate budget created bytes with
    | none => s
    | some (block, offset, s) =>
      let s := s.dropBase base
      let (handle, s) := s.takeHandle
      (s.store handle ⟨base, block, offset, bytes, s.frameNum⟩).indexHandle handle

/-- The copy overlaps `[first, end)`. -/
def overlaps (first end_ : ℕ) (e : CacheEntry) : Bool := e.base < end_ ∧ first < e.base + e.bytes

/-- `InvalidateCachedBuffers`; `order` is the index in the order its hash map is walked. -/
def invalidateCachedBuffers (first end_ : ℕ) (order : List (ℕ × List ℕ)) : BufferCache :=
  if s.byBase = [] ∨ end_ ≤ first then s
  else
    let firstBlock := first >>> kIndexShift
    let lastBlock := (end_ - 1) >>> kIndexShift
    -- The smaller side is walked.
    if s.index.length < lastBlock - firstBlock + 1 then
      order.foldl (fun s entry =>
        if firstBlock ≤ entry.1 ∧ entry.1 ≤ lastBlock then s.dropWhere (overlaps first end_) entry.2
        else s) s
    else
      (List.range' firstBlock (lastBlock - firstBlock + 1)).foldl (fun t b =>
        match s.index.lookup b with
        | some handles => t.dropWhere (overlaps first end_) handles
        | none => t) s

/-- The `EraseIf` of `BufferCacheEndFrame` over the retired extents. -/
def freeRetired : BufferCache :=
  s.retired.foldl (fun t r =>
      if r.frame + kRetireFrames ≤ s.frameNum then t.free r.block r.offset r.bytes else t)
    { s with retired := s.retired.filter fun r => s.frameNum < r.frame + kRetireFrames }

def rebuildIndex : BufferCache :=
  (List.range s.pool.length).foldl
    (fun t handle => if (t.entry handle).bytes ≠ 0 then t.indexHandle handle else t)
    { s with index := [] }

/-- Every `kSweepFrames` frames: the idle copies dropped. -/
def dropIdle : BufferCache :=
  if s.frameNum % kSweepFrames = 0 then
    s.dropWhere (fun e => e.lastUsed + kIdleFrames < s.frameNum) (List.range s.pool.length)
  else s

def bufferCacheEndFrame : BufferCache :=
  let s := s.dropIdle.freeRetired
  if s.frameNum % 64 = 0 then s.rebuildIndex else s

end BufferCache

inductive CacheCall where
  | find (base bytes : ℕ) (dirty : Bool)
  | cache (base : ℕ) (bytes : ℕ) (created : Bool)
  | invalidate (first end_ : ℕ) (order : List (ℕ × List ℕ))
  | endFrame
  | nextFrame

namespace BufferCache

/-- The range is memory that can be copied from: not in the first page, and its end an address. -/
def mapped (base bytes : ℕ) : Prop := 0x1000 ≤ base ∧ base + bytes < 2 ^ 64

instance (base bytes : ℕ) : Decidable (mapped base bytes) :=
  inferInstanceAs (Decidable (_ ∧ _))

def step (budget : ℕ) (s : BufferCache) : CacheCall → Option BufferCache
  | .find base bytes dirty => some (s.findCachedBuffer base bytes dirty)
  | .cache base bytes created =>
    if mapped base bytes then some (s.cacheGuestBuffer budget created base bytes) else none
  | .invalidate first end_ order =>
    if order.Perm s.index then some (s.invalidateCachedBuffers first end_ order) else none
  | .endFrame => some s.bufferCacheEndFrame
  | .nextFrame => some { s with frameNum := s.frameNum + 1 }

/-- The sequences of calls of a cache of `budget` MiB. -/
def system (budget : ℕ) : LabelledSystem BufferCache CacheCall := ⟨step budget⟩

end BufferCache

end Prosperity.Gpu
