import Mathlib.Algebra.Order.Group.Int
import Mathlib.Algebra.Ring.Nat
import Prosperity.Foundations.CInt
import Prosperity.Foundations.Threads

/-!
# Reads of an archive

A read of an entry is served from the cache of whole entries, or by the backend. The cache is behind a lock,
and a miss decodes outside of it, so that the steps of the threads interleave.

The backend comes as a parameter. The integers are those of the source's types where a value can leave them:
the number of bytes left in an entry is turned into a signed one.
-/

namespace Prosperity.Formats.ArchiveCache

structure Slot where
  index : ℕ
  data : List UInt8
  deriving DecidableEq

/-- A call of `Read`, by the index of the entry in the table. -/
structure Request where
  index : ℕ
  off : ℤ
  len : ℤ
  deriving DecidableEq

/-- A backend: `ExtractRange` of an entry, with the bytes that it produces, `none` for -1. -/
structure Backend (β : Type) where
  extractRange : β → Request → β × Option (List UInt8)

structure Backend.Serves {β : Type} (b : Backend β) (contents : ℕ → Option (List UInt8)) : Prop where
  slice : ∀ st r c, contents r.index = some c → 0 ≤ r.off → 0 ≤ r.len →
    (b.extractRange st r).2 = some ((c.drop r.off.toNat).take r.len.toNat)
  negative : ∀ st r, r.len < 0 → (b.extractRange st r).2 = none

/-- What a mount is configured with, and the sizes of its entries. -/
structure Config where
  cacheMb : CInt
  smallMb : CInt
  sizes : List UInt64

/-- `budget` of `Trim`. -/
def Config.budget (k : Config) : ℕ := (max 0 (k.cacheMb : ℤ)).toNat <<< 20

/-- `small_max` of `Read`. -/
def Config.smallMax (k : Config) : ℕ := (max 0 (k.smallMb : ℤ)).toNat <<< 20

def Config.size (k : Config) (index : ℕ) : ℕ := (k.sizes.getD index 0).toNat

structure Shared (β : Type) where
  lru : List Slot
  lruBytes : ℕ
  backend : β

inductive Reading where
  | idle
  /-- The entry is not in the cache. -/
  | missed (r : Request)
  /-- The entry is decoded. -/
  | decoded (r : Request) (data : List UInt8)
  /-- The entry has been put into the cache. -/
  | inserted (r : Request)
  /-- The entry was trimmed again. -/
  | trimmed (r : Request)
  /-- With what was returned, `none` for -1. -/
  | returned (r : Request) (result : Option (List UInt8))
  deriving DecidableEq

/-- `len` of `Read` after it is clipped: the number of bytes left is turned into a signed one. -/
def Config.clip (k : Config) (r : Request) : ℤ := min r.len (Int.bmod (k.size r.index - r.off) (2 ^ 64))

/-- The hit moves to the front. -/
def touch (index : ℕ) (lru : List Slot) : List Slot :=
  match lru.find? fun s => s.index = index with
  | none => lru
  | some s => s :: lru.eraseP fun s => s.index = index

/-- `copy_cached`: what it copies, `none` where the entry is not in the cache (-2). -/
def copyCached (lru : List Slot) (index : ℕ) (off len : ℤ) : Option (List UInt8) :=
  (lru.find? fun s => s.index = index).map fun s =>
    if s.data.length ≤ off then []
    else (s.data.drop off.toNat).take (min len (s.data.length - off)).toNat

/-- The loop of `Trim`, over the slots from the last one on. -/
def trimLoop (budget : ℕ) : List Slot → ℕ → List Slot × ℕ
  | [], bytes => ([], bytes)
  | s :: slots, bytes =>
    if budget < bytes then trimLoop budget slots (bytes - s.data.length) else (s :: slots, bytes)

def trim (budget : ℕ) (lru : List Slot) (bytes : ℕ) : List Slot × ℕ :=
  ((trimLoop budget lru.reverse bytes).1.reverse, (trimLoop budget lru.reverse bytes).2)

/-- The decoded entry goes to the front, unless another thread has put it there. -/
def insertSlot (budget : ℕ) (index : ℕ) (data : List UInt8) (lru : List Slot) (bytes : ℕ) : List Slot × ℕ :=
  if lru.any fun s => s.index = index then (lru, bytes)
  else trim budget (⟨index, data⟩ :: lru) (bytes + data.length)

section Read

variable {β : Type} (b : Backend β) (k : Config)

/-- A step that asks the backend and returns what it says. -/
def extract (s : Shared β) (r : Request) (off len : ℤ) : Shared β × Reading :=
  ({ s with backend := (b.extractRange s.backend ⟨r.index, off, len⟩).1 },
    .returned r (b.extractRange s.backend ⟨r.index, off, len⟩).2)

/-- `copy_cached` under the lock, and `missed` where it finds nothing. -/
def lookUp (s : Shared β) (r : Request) (missed : Reading) : Shared β × Reading :=
  match copyCached s.lru r.index r.off (k.clip r) with
  | some bytes => ({ s with lru := touch r.index s.lru }, .returned r (some bytes))
  | none => (s, missed)

/-- `Read` up to the first look into the cache. -/
def call (s : Shared β) (r : Request) : Shared β × Reading :=
  if r.off < 0 ∨ r.len < 0 ∨ k.sizes.length ≤ r.index then (s, .returned r none)
  else if k.size r.index ≤ r.off then (s, .returned r (some []))
  else if k.clip r = 0 then (s, .returned r (some []))
  else if k.smallMax < k.size r.index then extract b s r r.off (k.clip r)
  else lookUp k s r (.missed r)

def decode (s : Shared β) (r : Request) : Shared β × Reading :=
  if r.off = 0 ∧ k.clip r = k.size r.index then extract b s r 0 (k.clip r)
  else
    match b.extractRange s.backend ⟨r.index, 0, k.size r.index⟩ with
    | (st, none) => ({ s with backend := st }, .returned r none)
    | (st, some data) => ({ s with backend := st }, .decoded r data)

def insert (s : Shared β) (r : Request) (data : List UInt8) : Shared β × Reading :=
  ({ s with
    lru := (insertSlot k.budget r.index data s.lru s.lruBytes).1
    lruBytes := (insertSlot k.budget r.index data s.lru s.lruBytes).2 }, .inserted r)

/-- A call, or the next step of one. -/
inductive ReadAction where
  | call (r : Request)
  | next
  deriving DecidableEq

def act : ReadAction → Shared β → Reading → Option (Shared β × Reading)
  | .call r, s, .idle | .call r, s, .returned _ _ => some (call b k s r)
  | .next, s, .missed r => some (decode b k s r)
  | .next, s, .decoded r data => some (insert k s r data)
  | .next, s, .inserted r => some (lookUp k s r (.trimmed r))
  | .next, s, .trimmed r => some (extract b s r r.off (k.clip r))
  | _, _, _ => none

def system (ι : Type) [DecidableEq ι] : LabelledSystem (Threads ι (Shared β) Reading) (ι × ReadAction) :=
  (⟨fun _ => act b k⟩ : ThreadSystem ..).system

end Read

/-- An empty cache. -/
def init {β : Type} (ι : Type) (st : β) : Threads ι (Shared β) Reading := ⟨⟨[], 0, st⟩, fun _ => .idle⟩

end Prosperity.Formats.ArchiveCache
