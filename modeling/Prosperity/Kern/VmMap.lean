import Mathlib.Algebra.Group.Nat.Defs
import Mathlib.Order.Basic
import Prosperity.Foundations.Execution

/-!
# The map of a guest's address space

`VmMap` keeps the tracked ranges of a guest as a vector of entries. A new range first punches a
hole of its own size, so the entries stay disjoint and `Get` is unambiguous. Addresses, sizes and
physical offsets are 64-bit words, and their sums wrap.
-/

namespace Prosperity.Kern

/-- A sum as a 64-bit word. -/
def u64 (x : ℕ) : ℕ := x % 2 ^ 64

theorem u64_of_lt {x : ℕ} (h : x < 2 ^ 64) : u64 x = x := Nat.mod_eq_of_lt h

theorem u64_lt (x : ℕ) : u64 x < 2 ^ 64 := Nat.mod_lt _ (by decide)

abbrev Mprot := BitVec 32

structure PageInfo where
  ptr : ℕ
  size : ℕ
  prot : Mprot
  sceProt : BitVec 32
  name : Option String
  reserved : Bool
  physOffset : ℕ
  hasPhys : Bool
  deriving DecidableEq

/-- The constructor. -/
def PageInfo.make (ptr size : ℕ) (prot : Mprot) (sceProt : BitVec 32) (reserved : Bool) : PageInfo :=
  ⟨ptr, size, prot, sceProt, none, reserved, 0, false⟩

/-- One past the last byte, as the code computes it. -/
def PageInfo.stop (e : PageInfo) : ℕ := u64 (e.ptr + e.size)

/-- What an operation asks of the host and of the caches above the kernel. -/
inductive VmEffect where
  | track (ptr size : ℕ)
  | detach (ptr size : ℕ)
  | forget (ptr size : ℕ)
  | changed (ptr size : ℕ)
  deriving DecidableEq

structure VmMap where
  rtPages : List PageInfo
  effects : List VmEffect
  deriving DecidableEq

namespace VmMap

def empty : VmMap := ⟨[], []⟩

/-- One visit of the loop of `PunchHoleLocked`: what it leaves in the entry's place, and what it
appends to the vector. -/
def punchOne (p stop : ℕ) (e : PageInfo) : List PageInfo × List PageInfo :=
  if e.stop ≤ p ∨ stop ≤ e.ptr then ([e], [])
  else if p ≤ e.ptr ∧ e.stop ≤ stop then ([], [])
  else if e.ptr < p ∧ stop < e.stop then
    -- the appended tail is visited too, and found disjoint
    ([{ e with size := p - e.ptr }],
      [{ e with
          ptr := stop
          size := e.stop - stop
          physOffset := u64 (e.physOffset + (stop - e.ptr)) }])
  else if e.ptr < p then ([{ e with size := p - e.ptr }], [])
  else
    ([{ e with
        ptr := stop
        size := e.stop - stop
        physOffset := u64 (e.physOffset + (stop - e.ptr)) }], [])

/-- The loop of `PunchHoleLocked`: `seen` are the entries below the index, `rest` those from it
on, and the number bounds the visits. -/
def punchLoop (p stop : ℕ) : ℕ → List PageInfo → List PageInfo → Option (List PageInfo)
  | _, seen, [] => some seen
  | 0, _, _ :: _ => none
  | n + 1, seen, e :: rest =>
    punchLoop p stop n (seen ++ (punchOne p stop e).1) (rest ++ (punchOne p stop e).2)

/-- `PunchHoleLocked`. Each entry is visited, and at most one tail of it. -/
def punchHole (pages : List PageInfo) (p s : ℕ) : Option (List PageInfo) :=
  punchLoop p (u64 (p + s)) (2 * pages.length) [] pages

/-- `Add` and `AddDirect`, which differ in the entry they append. -/
def addEntry (m : VmMap) (e : PageInfo) : Option VmMap :=
  (punchHole m.rtPages e.ptr e.size).map fun pages =>
    ⟨pages ++ [e], .changed e.ptr e.size :: .track e.ptr e.size :: m.effects⟩

def add (m : VmMap) (ptr size : ℕ) (prot : Mprot) (sceProt : BitVec 32) (reserved : Bool) : Option VmMap :=
  m.addEntry (PageInfo.make ptr size prot sceProt reserved)

def addDirect (m : VmMap) (ptr size : ℕ) (prot : Mprot) (sceProt : BitVec 32)
    (physOffset : ℕ) : Option VmMap :=
  m.addEntry
    { PageInfo.make ptr size prot sceProt false with physOffset := physOffset, hasPhys := true }

/-- The part of an entry in a range, where it aliases direct memory: `Remove` detaches it. -/
def directPart (ptr size : ℕ) (e : PageInfo) : Option VmEffect :=
  let first := max ptr e.ptr
  let stop := min (u64 (ptr + size)) e.stop
  if e.hasPhys && decide (first < stop) then some (.detach first (stop - first)) else none

def remove (m : VmMap) (ptr size : ℕ) : Option VmMap :=
  (punchHole m.rtPages ptr size).map fun pages =>
    ⟨pages, .changed ptr size :: (m.rtPages.filterMap (directPart ptr size)).reverse ++ m.effects⟩

/-- The address range at which an entry maps a physical range, if it maps any of it. -/
def physPart (physOffset size : ℕ) (e : PageInfo) : Option (ℕ × ℕ) :=
  let first := max physOffset e.physOffset
  let stop := min (u64 (physOffset + size)) (u64 (e.physOffset + e.size))
  if e.hasPhys && decide (first < stop) then
    some (u64 (e.ptr + first + (2 ^ 64 - e.physOffset)), stop - first)
  else none

/-- The second loop of `RemoveDirect`, over the ranges the first has collected. -/
def dropAll : VmMap → List (ℕ × ℕ) → Option VmMap
  | m, [] => some m
  | m, (p, s) :: removed =>
    (punchHole m.rtPages p s).bind fun pages =>
      dropAll ⟨pages, .changed p s :: .forget p s :: .detach p s :: m.effects⟩ removed

def removeDirect (m : VmMap) (physOffset size : ℕ) : Option VmMap :=
  m.dropAll (m.rtPages.filterMap (physPart physOffset size))

/-- `UnmapRtMemory`. Where no entry starts at `ptr`, the code erases the end iterator, which is
undefined. -/
def unmapRtMemory (m : VmMap) (ptr : ℕ) : Option VmMap :=
  if m.rtPages.any fun e => e.ptr = ptr then
    some { m with rtPages := m.rtPages.eraseP fun e => e.ptr = ptr }
  else none

/-- `Get`: the entry that contains the address. -/
def get (m : VmMap) (a : ℕ) : Option PageInfo :=
  m.rtPages.find? fun e => e.ptr ≤ a ∧ a < e.stop

end VmMap

/-- The operations. -/
inductive VmOp where
  | add (ptr size : ℕ) (prot : Mprot) (sceProt : BitVec 32) (reserved : Bool)
  | addDirect (ptr size : ℕ) (prot : Mprot) (sceProt : BitVec 32) (physOffset : ℕ)
  | remove (ptr size : ℕ)
  | removeDirect (physOffset size : ℕ)
  | unmapRtMemory (ptr : ℕ)

def GoodRange (p s : ℕ) : Prop := 0 < s ∧ p + s < 2 ^ 64

instance (p s : ℕ) : Decidable (GoodRange p s) := inferInstanceAs (Decidable (_ ∧ _))

/-- Every range of the operation is not empty and does not wrap. -/
def VmOp.Good : VmOp → Prop
  | .add ptr size _ _ _ => GoodRange ptr size
  | .addDirect ptr size _ _ physOffset => GoodRange ptr size ∧ GoodRange physOffset size
  | .remove ptr size => GoodRange ptr size
  | .removeDirect physOffset size => GoodRange physOffset size
  | .unmapRtMemory _ => True

instance (op : VmOp) : Decidable op.Good := by
  cases op <;> unfold VmOp.Good <;> infer_instance

def VmMap.step (m : VmMap) : VmOp → Option VmMap
  | .add ptr size prot sceProt reserved => m.add ptr size prot sceProt reserved
  | .addDirect ptr size prot sceProt physOffset => m.addDirect ptr size prot sceProt physOffset
  | .remove ptr size => m.remove ptr size
  | .removeDirect physOffset size => m.removeDirect physOffset size
  | .unmapRtMemory ptr => m.unmapRtMemory ptr

/-! ## The meaning, byte by byte -/

/-- What the newest operation that covers a byte says of it. `stamp` tells the operations apart,
and `phys` is the byte's own physical offset. -/
structure ByteInfo where
  stamp : ℕ
  prot : Mprot
  sceProt : BitVec 32
  name : Option String
  reserved : Bool
  phys : Option ℕ

structure ByteMap where
  bytes : ℕ → Option ByteInfo
  clock : ℕ

namespace ByteMap

open Classical

def empty : ByteMap := ⟨fun _ => none, 0⟩

/-- The bytes from `p` on that one operation has mapped, without a gap. -/
def RunFrom (bytes : ℕ → Option ByteInfo) (p a : ℕ) : Prop :=
  p ≤ a ∧ ∃ n, ∀ c, p ≤ c → c ≤ a → ∃ b, bytes c = some b ∧ b.stamp = n

/-- The table after the bytes in `gone` have been removed. -/
noncomputable def without (bytes : ℕ → Option ByteInfo) (gone : ℕ → Prop) :
    ℕ → Option ByteInfo :=
  fun a => if gone a then none else bytes a

/-- The table after the range `[p, p + s)` has been mapped as `f` says. -/
noncomputable def fillRange (bytes : ℕ → Option ByteInfo) (p s : ℕ) (f : ℕ → ByteInfo) : ℕ → Option ByteInfo :=
  fun a => if p ≤ a ∧ a < p + s then some (f a) else bytes a

/-- The meaning of an operation. A physical range is removed wherever it is mapped. -/
noncomputable def step (b : ByteMap) : VmOp → ByteMap
  | .add ptr size prot sceProt reserved =>
    ⟨fillRange b.bytes ptr size fun _ => ⟨b.clock, prot, sceProt, none, reserved, none⟩, b.clock + 1⟩
  | .addDirect ptr size prot sceProt physOffset =>
    ⟨fillRange b.bytes ptr size fun a =>
      ⟨b.clock, prot, sceProt, none, false, some (physOffset + (a - ptr))⟩, b.clock + 1⟩
  | .remove ptr size => ⟨without b.bytes fun a => ptr ≤ a ∧ a < ptr + size, b.clock + 1⟩
  | .removeDirect physOffset size =>
    ⟨without b.bytes fun a =>
      ∃ i q, b.bytes a = some i ∧ i.phys = some q ∧ physOffset ≤ q ∧ q < physOffset + size,
      b.clock + 1⟩
  | .unmapRtMemory ptr => ⟨without b.bytes (RunFrom b.bytes ptr), b.clock + 1⟩

end ByteMap

noncomputable def vmSystem : LabelledSystem (VmMap × ByteMap) VmOp :=
  ⟨fun s op => (s.1.step op).map fun m => (m, s.2.step op)⟩

end Prosperity.Kern
