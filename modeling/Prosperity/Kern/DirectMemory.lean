import Prosperity.Foundations.Digits
import Prosperity.Kern.VmMap

/-!
# The direct memory pool

The dmem device hands out ranges of one physical pool. `DmemAllocate` takes the first aligned hole of
a window, or of the band above `kDmemBase` with the highest hole of the pool to fall back on;
`DmemFree` trims and splits the live regions; `DmemLargestHole` scans for the largest hole. The
arguments are the guest's, and the sums of them are words of 64 bits.
-/

namespace Prosperity.Kern

structure DmemRegion where
  start : ℕ
  stop : ℕ
  memType : ℕ
  deriving DecidableEq

def kDmemBase : ℕ := 0x10000000

/-- The alignment that a zero argument stands for. -/
def kDmemAlign : ℕ := 0x4000

def roundDown (align x : ℕ) : ℕ := andNot x (align - 1)

def roundUp (align x : ℕ) : ℕ := andNot (u64 (x + (align - 1))) (align - 1)

/-- The loop of the first fit: `cand` behind the regions in its way. -/
def findFit (len align : ℕ) : ℕ → List DmemRegion → ℕ
  | cand, [] => cand
  | cand, r :: rs =>
    if r.stop ≤ cand then findFit len align cand rs
    else if r.start ≥ u64 (cand + len) then cand
    else findFit len align (roundUp align (if r.stop > cand then r.stop else cand)) rs

def findTop (len align : ℕ) : ℕ → List DmemRegion → Option ℕ
  | top, [] =>
    let base := roundDown align (u64 (top + (2 ^ 64 - len)))
    if top < len ∨ base < kDmemBase then none else some base
  | top, r :: rs =>
    if r.start ≥ top then findTop len align r.start rs
    else
      let base := roundDown align (u64 (top + (2 ^ 64 - len)))
      if top ≥ len ∧ base ≥ r.stop ∧ base ≥ kDmemBase then some base
      else findTop len align r.start rs

/-- `insert` in front of the first region that does not begin before the new one. -/
def insertRegion (new : DmemRegion) : List DmemRegion → List DmemRegion
  | [] => [new]
  | r :: rs => if r.start < new.start then r :: insertRegion new rs else new :: r :: rs

def windowed (total lo hi : ℕ) : Bool := lo ≠ 0 || (hi ≠ 0 && hi < total)

def windowEnd (total hi : ℕ) : ℕ := if hi = 0 ∨ hi > total then total else hi

/-- `DmemAllocate` in a pool of `total` bytes: the offset and the live regions, or the error. -/
def dmemAllocate (total : ℕ) (regions : List DmemRegion) (lo hi len align memType : ℕ) :
    Except ℤ (ℕ × List DmemRegion) :=
  let stop := windowEnd total hi
  if len = 0 ∨ align = 0 ∨ align &&& (align - 1) ≠ 0 ∨ lo ≥ stop then .error (-22)
  else if windowed total lo hi then
    let cand := findFit len align (roundUp align lo) regions
    if u64 (cand + len) > stop then .error (-12)
    else .ok (cand, insertRegion ⟨cand, u64 (cand + len), memType⟩ regions)
  else
    let cand := findFit len align (roundUp align kDmemBase) regions
    if u64 (cand + len) ≤ stop then
      .ok (cand, insertRegion ⟨cand, u64 (cand + len), memType⟩ regions)
    else
      match findTop len align stop regions.reverse with
      | some cand => .ok (cand, insertRegion ⟨cand, u64 (cand + len), memType⟩ regions)
      | none => .error (-12)

/-- The loop of `DmemFree`. -/
def freeRegions (start stop : ℕ) : List DmemRegion → List DmemRegion
  | [] => []
  | r :: rs =>
    if r.stop ≤ start ∨ r.start ≥ stop then r :: freeRegions start stop rs
    else if r.start < start ∧ r.stop > stop then
      { r with stop := start } :: ⟨stop, r.stop, r.memType⟩ :: rs
    else if r.start < start then { r with stop := start } :: freeRegions start stop rs
    else if r.stop > stop then { r with start := stop } :: freeRegions start stop rs
    else freeRegions start stop rs

def dmemFree (regions : List DmemRegion) (start len : ℕ) : List DmemRegion :=
  freeRegions start (u64 (start + len)) regions

/-- The `consider` of `DmemLargestHole`: the larger of the best hole and `[cur, stop)`. -/
def consider (cur stop : ℕ) (best : ℕ × ℕ) : ℕ × ℕ :=
  if stop > cur ∧ stop - cur > best.2 then (cur, stop - cur) else best

/-- The loop of `DmemLargestHole`, and the last hole behind it. -/
def largestHole (hi align : ℕ) : ℕ → ℕ × ℕ → List DmemRegion → ℕ × ℕ
  | cur, best, [] => consider cur hi best
  | cur, best, r :: rs =>
    if r.stop ≤ cur then largestHole hi align cur best rs
    else if r.start ≥ hi then consider cur hi best
    else
      largestHole hi align (roundUp align (if r.stop > cur then r.stop else cur))
        (consider cur (if r.start < hi then r.start else hi) best) rs

/-- `DmemLargestHole`: where the hole is, and its size. -/
def dmemLargestHole (total : ℕ) (regions : List DmemRegion) (lo hi align : ℕ) : ℕ × ℕ :=
  let stop := windowEnd total hi
  let lo := if lo = 0 then kDmemBase else lo
  let align := if align = 0 then kDmemAlign else align
  largestHole stop align (roundUp align lo) (0, 0) regions

/-! ## The device -/

/-- The ioctls that touch the pool, with the words the guest passes. -/
inductive DmemEvent where
  /-- AllocateDirectMemory -/
  | allocate (lo hi len align : UInt64) (memType : UInt32)
  /-- AllocateMainDirectMemory -/
  | allocateMain (len align : UInt64) (memType : UInt32)
  /-- ReleaseDirectMemory -/
  | release (start len : UInt64)
  /-- AvailableDirectMemorySize -/
  | available (lo hi align : UInt64)

inductive DmemReply where
  | done
  | offset (off : ℕ)
  | failed (code : ℤ)
  | hole (base size : ℕ)
  deriving DecidableEq

/-- The live regions, and what the last call returned. -/
structure DmemPool where
  regions : List DmemRegion
  reply : DmemReply

/-- The alignment that an argument asks for. -/
def alignOf (align : UInt64) : ℕ := if align = 0 then kDmemAlign else align.toNat

namespace DmemPool

def init : DmemPool := ⟨[], .done⟩

/-- An allocation as the ioctls make it. -/
def allocateStep (total : ℕ) (s : DmemPool) (lo hi : ℕ) (len align : UInt64) (memType : UInt32) : DmemPool :=
  if len = 0 then { s with reply := .failed (-1) }
  else
    match dmemAllocate total s.regions lo hi len.toNat (alignOf align) memType.toNat with
    | .ok (off, regions) => ⟨regions, .offset off⟩
    | .error code => { s with reply := .failed code }

def step (total : UInt64) (s : DmemPool) : DmemEvent → DmemPool
  | .allocate lo hi len align memType =>
    s.allocateStep total.toNat lo.toNat hi.toNat len align memType
  | .allocateMain len align memType => s.allocateStep total.toNat 0 total.toNat len align memType
  | .release start len =>
    if len = 0 then { s with reply := .done }
    else ⟨dmemFree s.regions start.toNat len.toNat, .done⟩
  | .available lo hi align =>
    let hole := dmemLargestHole total.toNat s.regions lo.toNat hi.toNat align.toNat
    { s with reply := .hole hole.1 hole.2 }

def system (total : UInt64) : LabelledSystem DmemPool DmemEvent where
  step s e := some (s.step total e)

end DmemPool

/-! ## What the calls promise -/

structure Regions (total : ℕ) (regions : List DmemRegion) : Prop where
  sorted : regions.Pairwise fun a b => a.stop ≤ b.start
  nonempty : ∀ r ∈ regions, r.start < r.stop
  inside : ∀ r ∈ regions, r.stop ≤ total

def Live (regions : List DmemRegion) (x : ℕ) : Prop := ∃ r ∈ regions, r.start ≤ x ∧ x < r.stop

/-- No byte of the range is live. -/
def Free (regions : List DmemRegion) (start len : ℕ) : Prop :=
  ∀ x, start ≤ x → x < start + len → ¬Live regions x

structure AlignedHole (regions : List DmemRegion) (lo hi len align y : ℕ) : Prop where
  pos : 0 < len
  power : align.isPowerOfTwo
  aligned : align ∣ y
  ge : lo ≤ y
  le : y + len ≤ hi
  free : Free regions y len

namespace DmemPool

/-- An allocation in the window from `lo` to `hi` has given a hole of the window, which is live
now, or has failed and changed nothing; a search that asks for a window fails only where there is no
hole. -/
def AllocateSound (total : ℕ) (s : DmemPool) (lo hi : ℕ) (len align : UInt64) (s' : DmemPool) : Prop :=
  match s'.reply with
  | .offset off =>
    AlignedHole s.regions lo (windowEnd total hi) len.toNat (alignOf align) off ∧
      ∀ x, Live s'.regions x ↔ Live s.regions x ∨ off ≤ x ∧ x < off + len.toNat
  | .failed _ =>
    s'.regions = s.regions ∧ (windowed total lo hi = true →
      ∀ y, ¬AlignedHole s.regions lo (windowEnd total hi) len.toNat (alignOf align) y)
  | _ => False

def CallSound (total : UInt64) (s : DmemPool) : DmemEvent → DmemPool → Prop
  | .allocate lo hi len align _, s' =>
    AllocateSound total.toNat s lo.toNat hi.toNat len align s'
  | .allocateMain len align _, s' => AllocateSound total.toNat s 0 total.toNat len align s'
  | .release start len, s' =>
    ∀ x, Live s'.regions x ↔ Live s.regions x ∧ ¬(start.toNat ≤ x ∧ x < start.toNat + len.toNat)
  | .available lo hi align, s' =>
    s'.regions = s.regions ∧ ∃ base size, s'.reply = .hole base size ∧ (size ≠ 0 →
      lo.toNat ≤ base ∧ base + size ≤ windowEnd total.toNat hi.toNat ∧ Free s.regions base size ∧
        ∀ memType, ∃ regions, dmemAllocate total.toNat s.regions base (base + size) size
          (alignOf align) memType = .ok (base, regions))

/-- Rounding an address up, and going `len` bytes on from there, stays below 2^64. -/
def Reaches (align len x : ℕ) : Prop :=
  x + (align - 1) < 2 ^ 64 ∧ roundUp align x + len < 2 ^ 64

instance (align len x : ℕ) : Decidable (Reaches align len x) := inferInstanceAs (Decidable (_ ∧ _))

/-- No place that an allocation looks at is so high that its end wraps. -/
def CarefulAllocate (total : ℕ) (s : DmemPool) (lo hi : ℕ) (len align : UInt64) : Prop :=
  (alignOf align).isPowerOfTwo → lo < windowEnd total hi →
    Reaches (alignOf align) len.toNat (if windowed total lo hi then lo else kDmemBase) ∧
      ∀ r ∈ s.regions, Reaches (alignOf align) len.toNat r.stop

/-- An allocation none of whose places wraps, a release whose end does not wrap or that begins behind
all live regions, and a query for a power of two whose rounding does not wrap. -/
def Careful (total : UInt64) (s : DmemPool) : DmemEvent → Prop
  | .allocate lo hi len align _ => CarefulAllocate total.toNat s lo.toNat hi.toNat len align
  | .allocateMain len align _ => CarefulAllocate total.toNat s 0 total.toNat len align
  | .release start len =>
    start.toNat + len.toNat < 2 ^ 64 ∨ ∀ r ∈ s.regions, r.stop ≤ start.toNat
  | .available lo _ align =>
    (alignOf align).isPowerOfTwo ∧ (if lo.toNat = 0 then kDmemBase else lo.toNat) + (alignOf align - 1) < 2 ^ 64 ∧
      ∀ r ∈ s.regions, r.stop + (alignOf align - 1) < 2 ^ 64

end DmemPool

end Prosperity.Kern
