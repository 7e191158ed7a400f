import Mathlib.Algebra.Group.Int.Defs
import Mathlib.Algebra.Group.Nat.Defs
import Mathlib.Data.List.FinRange
import Mathlib.Logic.Function.Basic
import Prosperity.Foundations.Execution
import Prosperity.Foundations.StreamDecoder

/-!
# Zip archives

The backend of zip archives: the walk over the central directory, and the reads of ranges of members.
A deflated member is read through one of four sessions, each with an inflate stream that the next
read resumes, restarts or evicts.

The decompressor and the checksum are those of zlib and come as parameters. The file is given by its
bytes, and a seek beyond the signed offsets fails and leaves the position where it was, which nothing
checks.
-/

namespace Prosperity.Formats

/-! ## Numbers in a buffer -/

/-- The bytes as a number, the least significant first. -/
def leValue : List UInt8 → ℕ
  | [] => 0
  | b :: bs => b.toNat + 256 * leValue bs

/-- The `n` bytes from `p` on, if they are all in the buffer. -/
def rdBytes (n : ℕ) (b : List UInt8) (p : ℕ) : Option (List UInt8) :=
  if p + n ≤ b.length then some ((b.drop p).take n) else none

def rd16 (b : List UInt8) (p : ℕ) : Option ℕ := (rdBytes 2 b p).map leValue

def rd32 (b : List UInt8) (p : ℕ) : Option ℕ := (rdBytes 4 b p).map leValue

def rd64 (b : List UInt8) (p : ℕ) : Option ℕ := (rdBytes 8 b p).map leValue

def kCenSig : ℕ := 0x02014b50

def kLocSig : ℕ := 0x04034b50

def kMethodStore : ℕ := 0

def kMethodDeflate : ℕ := 8

/-! ## The central directory -/

/-- `ArchiveEntry`, as the backend fills it in; `extra` is the offset of the local header. -/
structure ArchiveEntry where
  path : List UInt8
  size : ℕ
  packedSize : ℕ
  dataOffset : ℕ
  extra : ℕ
  method : ℕ
  crc : ℕ
  deriving DecidableEq

structure CenHeader where
  flags : ℕ
  method : ℕ
  crc : ℕ
  comp : ℕ
  uncomp : ℕ
  nameLen : ℕ
  extraLen : ℕ
  cmtLen : ℕ
  extAttr : ℕ
  lho : ℕ

def cenHeader (cd : List UInt8) (p : ℕ) : Option CenHeader := do
  let flags ← rd16 cd (p + 8)
  let method ← rd16 cd (p + 10)
  let crc ← rd32 cd (p + 16)
  let comp ← rd32 cd (p + 20)
  let uncomp ← rd32 cd (p + 24)
  let nameLen ← rd16 cd (p + 28)
  let extraLen ← rd16 cd (p + 30)
  let cmtLen ← rd16 cd (p + 32)
  let extAttr ← rd32 cd (p + 38)
  let lho ← rd32 cd (p + 42)
  return ⟨flags, method, crc, comp, uncomp, nameLen, extraLen, cmtLen, extAttr, lho⟩

def CenHeader.length (h : CenHeader) : ℕ := 46 + h.nameLen + h.extraLen + h.cmtLen

def saturated (cd : List UInt8) (value d left : ℕ) : Option (ℕ × ℕ × ℕ) :=
  if value = 0xFFFFFFFF ∧ 8 ≤ left then (rd64 cd d).map fun v => (v, d + 8, left - 8)
  else some (value, d, left)

/-- The three fields that a ZIP64 record of `sz` bytes at `d` can hold: sizes and header offset. -/
def zip64Record (cd : List UInt8) (d sz : ℕ) (h : CenHeader) : Option CenHeader := do
  let (uncomp, d, left) ← saturated cd h.uncomp d sz
  let (comp, d, left) ← saturated cd h.comp d left
  let (lho, _, _) ← saturated cd h.lho d left
  return { h with uncomp := uncomp, comp := comp, lho := lho }

/-- The loop over the records of the extra field, from `xp` to `xe`. A record takes at least four
bytes, so that the length of the field bounds their number. -/
def zip64Fields (cd : List UInt8) (xe : ℕ) : ℕ → ℕ → CenHeader → Option CenHeader
  | 0, _, h => some h
  | fuel + 1, xp, h =>
    if xp + 4 ≤ xe then do
      let id ← rd16 cd xp
      let sz ← rd16 cd (xp + 2)
      if xe < xp + 4 + sz then some h
      else do
        let h ← if id = 0x0001 then zip64Record cd (xp + 4) sz h else some h
        zip64Fields cd xe fuel (xp + 4 + sz) h
    else some h

def entryPath (name : List UInt8) : List UInt8 :=
  (name.map fun c => if c = 92 then 47 else c).dropWhile fun c => c = 47

/-- A directory, by its name or by its attributes. -/
def isDir (path : List UInt8) (extAttr : ℕ) : Bool :=
  path = [] ∨ path.getLast? = some 47 ∨ extAttr &&& 0x10 ≠ 0 ∨ (extAttr >>> 16) &&& 0xF000 = 0x4000

def entryOf (h : CenHeader) (name : List UInt8) : Option ArchiveEntry :=
  let path := entryPath name
  if isDir path h.extAttr then none
  else if h.flags &&& 1 ≠ 0 then none
  else if h.method ≠ kMethodStore ∧ h.method ≠ kMethodDeflate then none
  else some ⟨path, h.uncomp, h.comp, 0, h.lho, h.method, h.crc⟩

/-- The loop of `Index` over the directory. The outer option is `none` when a read is not within the
buffer, the inner one when the directory is refused. -/
def indexLoop (cd : List UInt8) : ℕ → ℕ → List ArchiveEntry → Option (Option (List ArchiveEntry))
  | 0, _, out => some (some out)
  | n + 1, p, out =>
    if cd.length < p + 46 then some none
    else do
      let sig ← rd32 cd p
      if sig ≠ kCenSig then some none
      else do
        let h ← cenHeader cd p
        if cd.length < p + h.length then some none
        else do
          let xp := p + 46 + h.nameLen
          let full ← zip64Fields cd (xp + h.extraLen) h.extraLen xp h
          let name ← rdBytes h.nameLen cd (p + 46)
          indexLoop cd n (p + h.length) (out ++ (entryOf full name).toList)

/-- The walk over a central directory of `cdCount` headers. -/
def indexDirectory (cd : List UInt8) (cdCount : ℕ) : Option (Option (List ArchiveEntry)) :=
  indexLoop cd cdCount 0 []

/-! ## The file -/

/-- A file, which an `off_t` can measure. -/
structure DiskFile where
  bytes : List UInt8
  size_lt : bytes.length < 2 ^ 63

namespace DiskFile

/-- `Pread` at `off`, an unsigned offset, with the position before: what is read, if it is all
there, and the position after. A seek to what is negative as a signed offset does nothing. -/
def pread (file : DiskFile) (pos off len : ℕ) : Option (List UInt8) × ℕ :=
  let pos := if off < 2 ^ 63 then off else pos
  let data := (file.bytes.drop pos).take len
  (if data.length = len then some data else none, pos + data.length)

def index (file : DiskFile) (pos cdOff cdSize cdCount : ℕ) : Option (Option (List ArchiveEntry)) :=
  if 1 <<< 30 < cdSize then some none
  else
    match (file.pread pos cdOff cdSize).1 with
    | none => some none
    | some cd => indexDirectory cd cdCount

end DiskFile

/-! ## The sessions -/

structure Zlib extends StreamDecoder UInt8 UInt8 where
  crc32 : ℕ → List UInt8 → ℕ

/-- `Session`; `input` is what `next_in` and `avail_in` describe. -/
structure Session (σ : Type) where
  zs : σ
  input : List UInt8
  key : ℕ
  /-- The next compressed byte in the archive. -/
  filePos : ℕ
  compLeft : ℕ
  outPos : ℕ
  stamp : ℕ
  crc : ℕ
  ended : Bool
  isOpen : Bool

def kInBytes : ℕ := 256 <<< 10

namespace Session

variable (z : Zlib) (file : DiskFile)

/-- `Fill`, with the position of the file. -/
def fill (pos : ℕ) (s : Session z.State) : Bool × ℕ × Session z.State :=
  let n := min kInBytes s.compLeft
  if n = 0 then (false, pos, s)
  else
    match file.pread pos s.filePos n with
    | (none, pos) => (false, pos, s)
    | (some data, pos) =>
      (true, pos, { s with input := data, filePos := s.filePos + n, compLeft := s.compLeft - n })

/-- `Fill`, when there is no input and there is more of it. -/
def refill (pos : ℕ) (s : Session z.State) : Bool × ℕ × Session z.State :=
  if s.input = [] ∧ 0 < s.compLeft then s.fill z file pos else (true, pos, s)

/-- The session after a call of `inflate` with room for `avail` bytes. -/
def inflated (s : Session z.State) (avail : ℕ) : Session z.State :=
  let r := z.decode s.zs s.input avail
  { s with
    zs := r.state
    input := s.input.drop r.used
    crc := z.crc32 s.crc r.out
    outPos := s.outPos + r.out.length }

/-- The loop of `InflateTo`: the bytes there are, or `none` for -1. -/
def inflateLoop (want : ℕ) : ℕ → List UInt8 → ℕ → Session z.State → Option (List UInt8) × ℕ × Session z.State
  | 0, _, pos, s => (none, pos, s)
  | fuel + 1, done, pos, s =>
    if done.length < want ∧ ¬s.ended then
      match s.refill z file pos with
      | (false, pos, s) => (none, pos, s)
      | (true, pos, s) =>
        let avail := min (want - done.length) (1 <<< 30)
        let r := z.decode s.zs s.input avail
        let s := s.inflated z avail
        match r.status with
        | .streamEnd => (some (done ++ r.out), pos, { s with ended := true })
        | .error => (none, pos, s)
        | .ok =>
          -- The stream is cut off.
          if r.out = [] ∧ s.input = [] ∧ s.compLeft = 0 then (none, pos, s)
          else inflateLoop want fuel (done ++ r.out) pos s
    else (some done, pos, s)

def rounds (want : ℕ) (done : List UInt8) (s : Session z.State) : ℕ :=
  (want - done.length) + s.input.length + s.compLeft

def inflateTo (want pos : ℕ) (s : Session z.State) : Option (List UInt8) × ℕ × Session z.State :=
  s.inflateLoop z file want (s.rounds z want [] + 1) [] pos

/-- The loop that decodes up to `off` and throws away what it decodes. -/
def skipTo (off : ℕ) : ℕ → ℕ → Session z.State → Bool × ℕ × Session z.State
  | 0, pos, s => (true, pos, s)
  | fuel + 1, pos, s =>
    if s.outPos < off then
      let chunk := min kInBytes (off - s.outPos)
      match s.inflateTo z file chunk pos with
      | (none, pos, s) => (false, pos, s)
      | (some done, pos, s) =>
        if done.length = chunk then skipTo off fuel pos s else (false, pos, s)
    else (true, pos, s)

/-- Where the stream has to end: the call that finds out whether it does. -/
def finish (pos : ℕ) (s : Session z.State) : ℕ × Session z.State :=
  if s.ended then (pos, s)
  else
    let (_, pos, s) := s.refill z file pos
    let r := z.decode s.zs s.input 1
    (pos, { s with
      zs := r.state, input := s.input.drop r.used, ended := r.status = .streamEnd })

/-- `Drop`. -/
def close (s : Session z.State) : Session z.State := { s with isOpen := false }

/-- The part of `ExtractRange` that reads `want` bytes from `off` on, through the session. -/
def read (e : ArchiveEntry) (off want pos : ℕ) (s : Session z.State) : Option (List UInt8) × ℕ × Session z.State :=
  match s.skipTo z file off (off - s.outPos) pos with
  | (false, pos, s) => (none, pos, s.close z)
  | (true, pos, s) =>
    match s.inflateTo z file want pos with
    | (none, pos, s) => (none, pos, s.close z)
    | (some done, pos, s) =>
      if done.length ≠ want then (none, pos, s.close z)
      else if s.outPos = e.size then
        let (pos, s) := s.finish z file pos
        (if s.ended ∧ s.crc = e.crc then some done else none, pos, s.close z)
      else (some done, pos, s)

end Session

/-! ## Reads -/

/-- The backend, with the position of its file, and what the last call returned: the bytes, or
`none` for -1. -/
structure ZipState (z : Zlib) where
  pos : ℕ
  dataOff : List (ℕ × ℕ)
  sess : Fin 4 → Session z.State
  stamp : ℕ
  returned : Option (List UInt8)

namespace ZipState

variable {z : Zlib} (file : DiskFile) (s : ZipState z)

/-- The backend of a file that stands at `pos`. -/
def init (z : Zlib) (pos : ℕ) : ZipState z where
  pos := pos
  dataOff := []
  sess := fun _ => ⟨z.init, [], 0, 0, 0, 0, 0, 0, false, false⟩
  stamp := 0
  returned := none

def signed (off : ℕ) : Option ℕ := if off < 2 ^ 63 then some off else none

def dataStart (e : ArchiveEntry) : Option ℕ × ZipState z :=
  if e.dataOffset ≠ 0 then (signed e.dataOffset, s)
  else
    match s.dataOff.lookup e.extra with
    | some off => (signed off, s)
    | none =>
      match file.pread s.pos e.extra 30 with
      | (none, pos) => (none, { s with pos := pos })
      | (some lh, pos) =>
        if rd32 lh 0 ≠ some kLocSig then (none, { s with pos := pos })
        else
          let off := (e.extra + 30 + (rd16 lh 26).getD 0 + (rd16 lh 28).getD 0) % 2 ^ 64
          (signed off, { s with pos := pos, dataOff := (e.extra, off) :: s.dataOff })

def findSession (key : ℕ) : Option (Fin 4) :=
  (List.finRange 4).find? fun i => (s.sess i).isOpen ∧ (s.sess i).key = key

/-- The session to be replaced: the first that is not open, else the one stamped first. -/
def victim : Fin 4 → List (Fin 4) → Fin 4
  | v, [] => v
  | v, i :: is =>
    if ¬(s.sess i).isOpen then i
    else victim (if (s.sess i).stamp < (s.sess v).stamp then i else v) is

def setSession (i : Fin 4) (c : Session z.State) : ZipState z :=
  { s with sess := Function.update s.sess i c }

def stamped (i : Fin 4) : ZipState z :=
  { s with
    sess := Function.update s.sess i { s.sess i with stamp := s.stamp + 1 }
    stamp := s.stamp + 1 }

/-- A new session for the entry, in the place of another; `created` says whether `inflateInit2`
is `Z_OK`. -/
def openSession (created : Bool) (e : ArchiveEntry) (dataOff : ℕ) : Option (Fin 4) × ZipState z :=
  let i := s.victim 0 (List.finRange 4)
  let s := s.setSession i ((s.sess i).close z)
  if created then
    (some i, (s.setSession i ⟨z.init, [], e.extra, dataOff, e.packedSize, 0, (s.sess i).stamp,
      z.crc32 0 [], false, true⟩).stamped i)
  else (none, s)

def acquire (created : Bool) (e : ArchiveEntry) (dataOff wantOff : ℕ) : Option (Fin 4) × ZipState z :=
  match s.findSession e.extra with
  | some i =>
    if wantOff < (s.sess i).outPos ∨ (s.sess i).ended then
      (s.setSession i ((s.sess i).close z)).openSession created e dataOff
    else (some i, s.stamped i)
  | none => s.openSession created e dataOff

/-- How much a read of `len` bytes at `off` wants of an entry that has as much. -/
def wanted (e : ArchiveEntry) (off len : ℕ) : ℕ := min len (e.size - off)

def extractRange (created : Bool) (e : ArchiveEntry) (off len : ℤ) : ZipState z :=
  if off < 0 ∨ len < 0 then { s with returned := none }
  else
    let off := off.toNat
    if e.size ≤ off then { s with returned := some [] }
    else
      let want := wanted e off len.toNat
      match s.dataStart file e with
      | (none, s) => { s with returned := none }
      | (some ds, s) =>
        if e.method = kMethodStore then
          let (data, pos) := file.pread s.pos (ds + off) want
          { s with pos := pos, returned := data }
        else
          match s.acquire created e ds off with
          | (none, s) => { s with returned := none }
          | (some i, s) =>
            let (data, pos, c) := (s.sess i).read z file e off want s.pos
            { s.setSession i c with pos := pos, returned := data }

end ZipState

/-- A call of `ExtractRange`. -/
structure ExtractCall where
  entry : ArchiveEntry
  off : ℤ
  len : ℤ
  created : Bool

namespace ZipState

def step {z : Zlib} (file : DiskFile) (entries : List ArchiveEntry) (s : ZipState z)
    (c : ExtractCall) : Option (ZipState z) :=
  if c.entry ∈ entries ∧ c.off < 2 ^ 63 ∧ c.len < 2 ^ 63 then
    some (s.extractRange file c.created c.entry c.off c.len)
  else none

/-- The sequences of calls. -/
def system (z : Zlib) (file : DiskFile) (entries : List ArchiveEntry) :
    LabelledSystem (ZipState z) ExtractCall := ⟨step file entries⟩

end ZipState

end Prosperity.Formats
