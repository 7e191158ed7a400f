import Mathlib.Algebra.Order.Group.Nat
import Prosperity.Foundations.CheckedBuffers
import Prosperity.Foundations.SeekableFile

/-!
# Files of a UFS2 image

An inode has twelve block addresses and the addresses of three indirect blocks, whose entries are addresses in turn.
An address counts fragments of the image, and zero stands for a block of zeros. Addresses are of 64 bits, with sign,
and are given by these bits.

A run carries the position of the image file, at which a refused seek leaves the next read.
-/

namespace Prosperity.Formats.Ufs2

def kSblockUfs2 : UInt64 := 65536

def kUfs2Magic : UInt32 := 0x19540119

/-- `UFS_NDADDR`. -/
def kNumDirect : ℕ := 12

structure Superblock where
  bsize : UInt32
  fsize : UInt32
  iblkno : UInt32
  ipg : UInt32
  fpg : UInt32
  deriving DecidableEq

/-- Pointers per indirect block. -/
def Superblock.nindir (sb : Superblock) : ℕ := (sb.bsize / 8).toNat

structure Dinode where
  size : UInt64
  db : Vector UInt64 12
  ib : Vector UInt64 3

/-- `ReadAt`: the bytes, and the position that is left. -/
def readAt (file : HostFile) (off : UInt64) (n : ℕ) (pos : ℕ) : Option (ℕ → UInt8) × ℕ :=
  if file.size < (off + .ofNat n).toNat then (none, pos)
  else
    let pos := HostFile.seekSet off pos
    (if file.count pos n = n then some fun k => file.byte (pos + k) else none, pos + file.count pos n)

def parseSuperblock (file : HostFile) (pos : ℕ) : Option Superblock :=
  match (readAt file kSblockUfs2 0x600 pos).1 with
  | none => none
  | some sb =>
    let field : ℕ → UInt32 := fun off => .ofNat (leAt 4 sb off)
    if field 0x55c ≠ kUfs2Magic then none
    else
      let s : Superblock := ⟨field 0x30, field 0x34, field 0x10, field 0xb8, field 0xbc⟩
      if s.bsize = 0 ∨ s.fsize = 0 ∨ s.bsize &&& (s.bsize - 1) ≠ 0 ∨ s.fsize &&& (s.fsize - 1) ≠ 0 ∨
          s.bsize < s.fsize ∨ s.ipg = 0 ∨ s.fpg = 0 then none
      else some s

def nonpos (ptr : UInt64) : Bool := ptr = 0 || 2 ^ 63 ≤ ptr.toNat

/-- `Indirect`: an entry of the indirect block at `ptr`. -/
def indirect (file : HostFile) (sb : Superblock) (ptr : UInt64) (idx pos : ℕ) : UInt64 × ℕ :=
  if nonpos ptr then (0, pos)
  else
    match readAt file (ptr * sb.fsize.toUInt64 + .ofNat idx * 8) 8 pos with
    | (none, pos) => (0, pos)
    | (some v, pos) => (.ofNat (leAt 8 v 0), pos)

/-- `BlockAddr`: the address of a block, and the position that is left. -/
def blockAddr (file : HostFile) (sb : Superblock) (din : Dinode) (lbn pos : ℕ) : Except Fault (UInt64 × ℕ) :=
  let n := sb.nindir
  if h : lbn < kNumDirect then .ok (din.db[lbn], pos)
  else
    let lbn := lbn - kNumDirect
    if lbn < n then .ok (indirect file sb din.ib[0] lbn pos)
    else
      let lbn := lbn - n
      if lbn < n * n then
        let (mid, pos) := indirect file sb din.ib[1] (lbn / n) pos
        .ok (indirect file sb mid (lbn % n) pos)
      else
        let lbn := lbn - n * n
        if n = 0 then .error .divide
        else
          let (l1, pos) := indirect file sb din.ib[2] (lbn / (n * n)) pos
          let (l2, pos) := indirect file sb l1 (lbn / n % n) pos
          .ok (indirect file sb l2 (lbn % n) pos)

/-- What the loop of `ReadInode` leaves: the bytes, and whether a read failed. -/
structure Loop where
  bytes : List UInt8
  failed : Bool
  pos : ℕ

/-- The loop of `ReadInode` with `want` bytes from `off` on to go. Each of its at most `fuel` turns reads a byte at
least. -/
def readLoop (file : HostFile) (sb : Superblock) (din : Dinode) : ℕ → ℕ → ℕ → ℕ → Except Fault Loop
  | 0, _, _, pos => .ok ⟨[], false, pos⟩
  | fuel + 1, off, want, pos =>
    if want = 0 then .ok ⟨[], false, pos⟩
    else do
      let boff := off % sb.bsize.toNat
      let chunk := min (sb.bsize.toNat - boff) want
      let (frag, pos) ← blockAddr file sb din (off / sb.bsize.toNat) pos
      if nonpos frag then
        let rest ← readLoop file sb din fuel (off + chunk) (want - chunk) pos
        return { rest with bytes := List.replicate chunk 0 ++ rest.bytes }
      else
        match readAt file (frag * sb.fsize.toUInt64 + .ofNat boff) chunk pos with
        | (none, pos) => return ⟨[], true, pos⟩
        | (some buf, pos) =>
          let rest ← readLoop file sb din fuel (off + chunk) (want - chunk) pos
          return { rest with bytes := (List.range chunk).map buf ++ rest.bytes }

/-- What `ReadInode` returns, with the bytes that it wrote. -/
structure Reading where
  ret : ℤ
  bytes : List UInt8
  deriving DecidableEq

def readInode (file : HostFile) (sb : Superblock) (din : Dinode) (off len : Int64) (pos : ℕ) :
    Except Fault (Reading × ℕ) :=
  if off < 0 ∨ len < 0 then .ok (⟨-1, []⟩, pos)
  else if din.size.toNat ≤ off.toInt.toNat then .ok (⟨0, []⟩, pos)
  else do
    let want := min len.toInt.toNat (din.size.toNat - off.toInt.toNat)
    let l ← readLoop file sb din want off.toInt.toNat want pos
    if l.failed ∧ l.bytes = [] then return (⟨-1, []⟩, l.pos)
    else return (⟨l.bytes.length, l.bytes⟩, l.pos)

end Prosperity.Formats.Ufs2
