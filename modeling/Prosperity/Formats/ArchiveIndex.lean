import Prosperity.Foundations.LittleEndian

/-!
# The index cache of an archive

The entries of an archive are kept in a file, so that the next mount need not walk the container. The file
begins with a magic and the name of the backend. The loader fills the list of the filesystem while it parses;
where it fails, the backend appends its entries to that list.

The file is given by its bytes, `none` where it cannot be read whole.
-/

namespace Prosperity.Formats.ArchiveIndex

structure ArchiveEntry where
  path : List UInt8
  size : UInt64
  packedSize : UInt64
  dataOffset : UInt64
  extra : UInt64
  method : UInt32
  crc : UInt32
  deriving DecidableEq

inductive Backend where
  | rar
  | zip
  deriving DecidableEq

/-- "rar" and "zip". -/
def Backend.name : Backend → List UInt8
  | rar => [114, 97, 114]
  | zip => [122, 105, 112]

/-- "DARIDX01". -/
def kIndexMagic : List UInt8 := [68, 65, 82, 73, 68, 88, 48, 49]

/-- The most entries that a load takes. -/
def kMaxCount : ℕ := 2 ^ 26

/-! ## Writing -/

def put64 (v : List UInt8) (x : UInt64) : List UInt8 := v ++ leBytes 8 x.toNat

def put32 (v : List UInt8) (x : UInt32) : List UInt8 := v ++ leBytes 4 x.toNat

def putEntry (buf : List UInt8) (e : ArchiveEntry) : List UInt8 :=
  let buf := put32 buf (.ofNat e.path.length)
  let buf := buf ++ e.path
  let buf := put64 buf e.size
  let buf := put64 buf e.packedSize
  let buf := put64 buf e.dataOffset
  let buf := put64 buf e.extra
  let buf := put32 buf e.method
  put32 buf e.crc

/-- `SaveIndexCache`: the bytes of the file. -/
def saveIndexCache (backend : Backend) (entries : List ArchiveEntry) : List UInt8 :=
  let nameLen := UInt32.ofNat backend.name.length
  let buf := put32 kIndexMagic nameLen
  let buf := buf ++ backend.name.take nameLen.toNat
  let buf := put64 buf (.ofNat entries.length)
  entries.foldl putEntry buf

/-! ## Reading -/

/-- What is left of the buffer, and whether all reads so far were inside it. -/
structure Reader where
  p : List UInt8
  ok : Bool

def Reader.u64v (r : Reader) : UInt64 × Reader :=
  if r.p.length < 8 then (0, { r with ok := false })
  else (.ofNat (leNat (r.p.take 8)), { r with p := r.p.drop 8 })

def Reader.u32v (r : Reader) : UInt32 × Reader :=
  if r.p.length < 4 then (0, { r with ok := false })
  else (.ofNat (leNat (r.p.take 4)), { r with p := r.p.drop 4 })

def Reader.str (r : Reader) (n : UInt32) : List UInt8 × Reader :=
  if r.p.length < n.toNat then ([], { r with ok := false })
  else (r.p.take n.toNat, { r with p := r.p.drop n.toNat })

/-- One turn of the loop, up to its test. -/
def Reader.entry (r : Reader) : ArchiveEntry × Reader :=
  let (pathLen, r) := r.u32v
  let (path, r) := r.str pathLen
  let (size, r) := r.u64v
  let (packedSize, r) := r.u64v
  let (dataOffset, r) := r.u64v
  let (extra, r) := r.u64v
  let (method, r) := r.u32v
  let (crc, r) := r.u32v
  (⟨path, size, packedSize, dataOffset, extra, method, crc⟩, r)

/-- The loop of `LoadIndexCache`, with the list that it fills. -/
def loadEntries : ℕ → Reader → List ArchiveEntry → Bool × List ArchiveEntry
  | 0, _, out => (true, out)
  | n + 1, r, out => if r.entry.2.ok then loadEntries n r.entry.2 (out ++ [r.entry.1]) else (false, out)

/-- `LoadIndexCache`: whether it succeeds, and the list that it leaves. -/
def loadIndexCache (file : Option (List UInt8)) (backend : Backend) (out : List ArchiveEntry) :
    Bool × List ArchiveEntry :=
  match file with
  | none => (false, out)
  | some buf =>
    if buf.length < kIndexMagic.length then (false, out)
    else if buf.take kIndexMagic.length ≠ kIndexMagic then (false, out)
    else
      let (nameLen, r) := Reader.u32v ⟨buf.drop kIndexMagic.length, true⟩
      if ¬r.ok then (false, out)
      else
        let (name, r) := r.str nameLen
        if name ≠ backend.name then (false, out)
        else
          let (count, r) := r.u64v
          if ¬r.ok ∨ kMaxCount < count.toNat then (false, out)
          else loadEntries count.toNat r []

/-! ## The mount -/

/-- What `Index` of the backend appends, and whether it succeeds. -/
structure Indexed where
  ok : Bool
  entries : List ArchiveEntry

structure Mounted where
  entries : List ArchiveEntry
  saved : Option (List UInt8)
  deriving DecidableEq

/-- The constructor of `ArchiveImpl` up to the entries, `none` where it gives up; `noIndexCache` is
`kNoIndexCache`. -/
def mountEntries (noIndexCache : Bool) (file : Option (List UInt8)) (backend : Backend) (indexed : Indexed) :
    Option Mounted :=
  let loaded := if noIndexCache then (false, []) else loadIndexCache file backend []
  if loaded.1 then if loaded.2 = [] then none else some ⟨loaded.2, none⟩
  else if ¬indexed.ok then none
  else if loaded.2 ++ indexed.entries = [] then none
  else some ⟨loaded.2 ++ indexed.entries,
    if noIndexCache then none else some (saveIndexCache backend (loaded.2 ++ indexed.entries))⟩

end Prosperity.Formats.ArchiveIndex
