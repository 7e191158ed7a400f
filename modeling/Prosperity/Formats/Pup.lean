import Mathlib.Algebra.Order.Group.Nat
import Prosperity.Foundations.CheckedBuffers
import Prosperity.Foundations.SeekableFile

/-!
# Segments of a PS5 firmware package

The package has a table of segments. The data of a segment is stored as it is, as one compressed stream, or in
blocks of a fixed size, each stored or compressed. A second segment is then the table of the blocks: a digest for
each, and behind the digests the place and size of each.

A run stops where it leaves a table or a buffer, or where an offset is not what it is computed for.
-/

namespace Prosperity.Formats.Pup

def kPupMagicPS5 : UInt32 := 0xEEF51454

structure PupEntry where
  flags : UInt32
  offset : UInt64
  sizeCompressed : UInt64
  sizeUncompressed : UInt64
  deriving DecidableEq

/-- A package, with `InflateBlock`: the bytes of a stream, if there are as many as asked for. -/
structure PupReader where
  file : HostFile
  entries : List PupEntry
  inflate : List UInt8 → (n : ℕ) → Option (Vector UInt8 n)

inductive Fault where
  | index
  | copy
  /-- A difference below zero. -/
  | wrap
  /-- A read that does not take place where it is asked for. -/
  | seek
  deriving DecidableEq

def entryAt (file : HostFile) (pos : ℕ) : PupEntry :=
  ⟨.ofNat (leAt 4 file.byte pos), .ofNat (leAt 8 file.byte (pos + 8)), .ofNat (leAt 8 file.byte (pos + 16)),
    .ofNat (leAt 8 file.byte (pos + 24))⟩

/-- `Load`, of a PS5 package. -/
def load (file : HostFile) (inflate : List UInt8 → (n : ℕ) → Option (Vector UInt8 n)) : Option PupReader :=
  if file.size < 32 ∨ UInt32.ofNat (leAt 4 file.byte 0) ≠ kPupMagicPS5 then none
  else
    let numSegments := leAt 2 file.byte 24
    if file.size < 32 + 32 * numSegments then none
    else some ⟨file, (List.range numSegments).map fun i => entryAt file (32 + 32 * i), inflate⟩

namespace PupEntry

variable (e : PupEntry)

/-- `Ps5Compressed`. -/
def compressed : Bool := e.flags &&& 0x8 ≠ 0

/-- `Ps5Blocked`. -/
def blocked : Bool := e.flags &&& 0x800 ≠ 0

/-- `Ps5IsTable`. -/
def isTable : Bool := e.flags &&& 0x1 ≠ 0

/-- `Ps5BlockSize`. -/
def blockSize : ℕ := 2 ^ ((e.flags.toNat / 2 ^ 12) % 16 + 12)

def blockCount : UInt64 := (e.sizeUncompressed + .ofNat e.blockSize - 1) / .ofNat e.blockSize

/-- `ublk`: the bytes that a block has in the segment. -/
def ublk (b : ℕ) : ℕ := min e.blockSize (e.sizeUncompressed.toNat - b * e.blockSize)

end PupEntry

structure BlockExtent where
  offset : UInt32
  size : UInt32
  deriving DecidableEq

inductive Block where
  | unread
  | bad
  | dec (bytes : List UInt8)
  deriving DecidableEq

namespace PupReader

variable (p : PupReader)

/-- The bytes at a place of the package. Nothing can be read anywhere. -/
def slice (off n : ℕ) : Option (List UInt8) :=
  if n = 0 ∨ off + n ≤ p.file.size then some ((List.range n).map fun k => p.file.byte (off + k)) else none

/-- `read_at`. A seek to 2^63 or above is refused, and a sum of 2^64 or above wraps. -/
def readAt (off n : ℕ) : Except Fault (Option (List UInt8)) :=
  if n ≠ 0 ∧ 2 ^ 63 ≤ off then .error .seek else .ok (p.slice off n)

def tableForData (dataIdx : ℕ) : Option PupEntry :=
  p.entries.find? fun t => t.isTable && t.flags.toNat / 2 ^ 20 = dataIdx

/-- An extent behind the digests of a table of `n` blocks. -/
def extentAt (tbl : List UInt8) (n b : ℕ) : BlockExtent :=
  ⟨.ofNat (leNat ((tbl.drop (n * 32 + b * 8)).take 4)), .ofNat (leNat ((tbl.drop (n * 32 + b * 8 + 4)).take 4))⟩

/-- The extents of a table of `n` blocks, where the last one is inside the table. -/
def extents (tbl : List UInt8) (n : ℕ) : Except Fault (List BlockExtent) :=
  if tbl.length < n * 32 + n * 8 then .error .index else .ok ((List.range n).map (extentAt tbl n))

/-! ## Segments without blocks -/

/-- The loop over the rest of a stored segment. Each of its at most `fuel` turns copies a byte at least. -/
def copyRest : ℕ → ℕ → ℕ → List UInt8 → Except Fault (List UInt8)
  | 0, _, _, out => .ok out
  | fuel + 1, pos, remaining, out =>
    if remaining = 0 then .ok out
    else do
      let n := min remaining (2 ^ 20)
      match ← p.readAt pos n with
      | none => return out
      | some buf => copyRest fuel (pos + n) (remaining - n) (out ++ buf)

/-- A segment that is stored as it is. -/
def extractPlain (e : PupEntry) (opens : Bool) : Except Fault (Option (List UInt8)) := do
  match ← p.readAt e.offset.toNat (min e.sizeCompressed.toNat 0x1000) with
  | none => return none
  | some first =>
    if !opens then return none
    let remaining := e.sizeCompressed.toNat - first.length
    let out ← p.copyRest remaining (e.offset.toNat + first.length) remaining first
    return if out.length = e.sizeUncompressed.toNat then some out else none

/-- A segment that is one stream. -/
def extractWhole (e : PupEntry) (opens : Bool) : Except Fault (Option (List UInt8)) := do
  match ← p.readAt e.offset.toNat e.sizeCompressed.toNat with
  | none => return none
  | some raw =>
    match p.inflate raw e.sizeUncompressed.toNat with
    | none => return none
    | some first => return if opens then some first.toList else none

/-! ## Segments in blocks -/

def stop (e : PupEntry) (exts : List BlockExtent) (b : ℕ) : ℕ :=
  match exts[b + 1]? with
  | some next => next.offset.toNat
  | none => e.sizeCompressed.toNat

def block (e : PupEntry) (exts : List BlockExtent) (b : ℕ) : Except Fault Block :=
  match exts[b]? with
  | none => .error .index
  | some ext =>
    let start := ext.offset.toNat
    if stop e exts b < start then .error .wrap
    else do
      match ← p.readAt (e.offset.toNat + start) (stop e exts b - start) with
      | none => return .unread
      | some raw =>
        -- A block whose size in the table is not below the unpacked one is taken to be stored raw.
        if e.ublk b ≤ ext.size.toNat then
          if raw.length < e.ublk b then .error .copy else return .dec (raw.take (e.ublk b))
        else
          match p.inflate raw (e.ublk b) with
          | none => return .bad
          | some dec => return .dec dec.toList

/-- The loop over `n` blocks from `b` on. -/
def streamBlocks (e : PupEntry) (exts : List BlockExtent) : ℕ → ℕ → List UInt8 → Except Fault (Option (List UInt8))
  | 0, _, out => .ok (some out)
  | n + 1, b, out => do
    match ← p.block e exts b with
    | .unread => return some out
    | .bad => return none
    | .dec bytes => streamBlocks e exts n (b + 1) (out ++ bytes)

def writeBlocks (e : PupEntry) (exts : List BlockExtent) (opens : Bool) : Except Fault (Option (List UInt8)) := do
  match ← p.block e exts 0 with
  | .unread | .bad => return none
  | .dec first =>
    if !opens then return none
    match ← p.streamBlocks e exts (exts.length - 1) 1 first with
    | none => return none
    | some out => return if out.length = e.sizeUncompressed.toNat then some out else none

def extractBlocked (e : PupEntry) (idx : ℕ) (opens : Bool) : Except Fault (Option (List UInt8)) := do
  match p.tableForData idx with
  | none => return none
  | some t =>
    match ← p.readAt t.offset.toNat t.sizeCompressed.toNat with
    | none => return none
    | some tbl =>
      -- The count may be zero, in which case every table is long enough.
      if tbl.length < (e.blockCount * 40).toNat then return none
      p.writeBlocks e (← extents tbl e.blockCount.toNat) opens

/-- `ExtractPS5Segment`: what is in the file when `true` is returned. -/
def extractPS5Segment (e : PupEntry) (idx : ℕ) (opens : Bool) : Except Fault (Option (List UInt8)) :=
  if !e.compressed then p.extractPlain e opens
  else if !e.blocked then p.extractWhole e opens
  else p.extractBlocked e idx opens

end PupReader

end Prosperity.Formats.Pup
