import Prosperity.Foundations.SeekableFile

/-!
# The directories of a PFS image

The inodes stand in the blocks behind the first one. A directory is a run of blocks with entries, each with the
inode of a child, its kind and name, and the distance to the next entry. The files are listed by a walk that goes
down wherever an entry is a directory.

Reads behind the end of the image give zeros. The walk need not end, so it has a limit on its depth; the other loops
are over counts of the image.
-/

namespace Prosperity.Formats.PfsTree

structure Inode where
  size : UInt64
  blocks : UInt32
  start : UInt32
  deriving DecidableEq

/-- The image, with what `BuildPfs` takes out of its header. `Build` returns where the block size is zero. -/
structure Pfs where
  img : List UInt8
  bs : UInt32
  signedFlag : Bool
  nd : UInt64
  ndb : UInt64
  bsNonzero : bs ≠ 0

namespace Pfs

variable (p : Pfs)

/-- `Read` of the source below. -/
def read (off : UInt64) : ℕ → UInt8 := fun k => p.img.getD (off.toNat + k) 0

/-! ## Inodes -/

def dsz : ℕ := if p.signedFlag then 0x2C8 else 0xA8

def per : ℕ := p.bs.toNat / p.dsz

def inodeAt (d : ℕ → UInt8) (j : ℕ) : Inode :=
  ⟨.ofNat (leAt 8 d (j * p.dsz + 8)), .ofNat (leAt 4 d (j * p.dsz + 0x60)),
    .ofNat (leAt 4 d (j * p.dsz + if p.signedFlag then 0x84 else 0x64))⟩

/-- The loop of `ReadInodes` from block `bi` on, with the inodes and the blocks read so far. -/
def readInodesFrom : ℕ → ℕ → List Inode → ℕ → List Inode × ℕ
  | 0, _, ino, reads => (ino, reads)
  | n + 1, bi, ino, reads =>
    if ino.length < p.nd.toNat then
      let blk := p.read ((1 + .ofNat bi) * p.bs.toUInt64)
      readInodesFrom n (bi + 1)
        (ino ++ (List.range (min p.per (p.nd.toNat - ino.length))).map (p.inodeAt blk)) (reads + 1)
    else (ino, reads)

def readInodes : List Inode × ℕ := p.readInodesFrom (if p.ndb < 1 then 1 else p.ndb).toNat 0 [] 0

/-! ## Entries -/

structure Entry where
  ch : UInt32
  ty : UInt32
  nl : UInt32
  es : UInt32
  name : List UInt8
  named : Bool

def entryAt (d : ℕ → UInt8) (o : ℕ) : Entry :=
  let nl := UInt32.ofNat (leAt 4 d (o + 8))
  { ch := .ofNat (leAt 4 d o)
    ty := .ofNat (leAt 4 d (o + 4))
    nl := nl
    es := .ofNat (leAt 4 d (o + 12))
    name := (List.range nl.toNat).map fun k => d (o + 16 + k)
    named := 0 < nl ∧ nl < 256 ∧ o + 16 + nl.toNat ≤ p.bs.toNat }

/-- The entries of a block from `o` on. Each is behind the one before, so `fuel` need not exceed the block size. -/
def scan (d : ℕ → UInt8) : ℕ → ℕ → List Entry
  | 0, _ => []
  | fuel + 1, o =>
    if o + 17 < p.bs.toNat then
      let e := p.entryAt d o
      if e.es = 0 then [] else e :: scan d fuel (o + e.es.toNat)
    else []

def blockEntries (n : Inode) (bb : ℕ) : List Entry :=
  p.scan (p.read ((n.start + .ofNat bb).toUInt64 * p.bs.toUInt64)) p.bs.toNat 0

/-- The entry that `FindChildDir` looks for. -/
def isChild (ino : List Inode) (name : List UInt8) (e : Entry) : Bool :=
  e.ty = 3 && e.named && e.name = name && e.ch.toNat < ino.length

/-- The loop of `FindChildDir` over the blocks, with the blocks read so far. -/
def findInBlocks (ino : List Inode) (n : Inode) (name : List UInt8) : List ℕ → ℕ → Option ℕ × ℕ
  | [], reads => (none, reads)
  | bb :: bbs, reads =>
    match (p.blockEntries n bb).find? (isChild ino name) with
    | some e => (some e.ch.toNat, reads + 1)
    | none => findInBlocks ino n name bbs (reads + 1)

def findChildDir (ino : List Inode) (dirInode : ℕ) (name : List UInt8) : Option ℕ × ℕ :=
  match ino[dirInode]? with
  | none => (none, 0)
  | some n => p.findInBlocks ino n name (List.range n.blocks.toNat) 0

/-! ## The walk -/

structure Node where
  size : UInt64
  startBlock : UInt32
  deriving DecidableEq

abbrev Files := List (List UInt8 × Node)

def assign (files : Files) (path : List UInt8) (node : Node) : Files :=
  if path ∈ files.map Prod.fst then files.map fun f => if f.1 = path then (path, node) else f
  else files ++ [(path, node)]

/-- An entry where `Walk` goes down. -/
def descends (e : Entry) : Bool := e.named && e.ty = 3 && e.name ≠ [46] && e.name ≠ [46, 46]

def visit (ino : List Inode) (walk : ℕ → List UInt8 → Files → Option (Files × ℕ)) (pre : List UInt8)
    (acc : Files × ℕ) (e : Entry) : Option (Files × ℕ) :=
  if descends e then (walk e.ch.toNat (pre ++ 47 :: e.name) acc.1).map fun r => (r.1, acc.2 + 1 + r.2)
  else
    match ino[e.ch.toNat]? with
    | none => some (acc.1, acc.2 + 1)
    | some n =>
      if e.named ∧ e.ty = 2 then some (assign acc.1 (pre ++ 47 :: e.name) ⟨n.size, n.start⟩, acc.2 + 1)
      else some (acc.1, acc.2 + 1)

def dirEntries (n : Inode) : List Entry := (List.range n.blocks.toNat).flatMap (p.blockEntries n)

/-- `Walk`, down to a depth. -/
def walk (ino : List Inode) : ℕ → ℕ → List UInt8 → Files → Option (Files × ℕ)
  | 0, _, _, _ => none
  | depth + 1, i, pre, files =>
    match ino[i]? with
    | none => some (files, 1)
    | some n => (p.dirEntries n).foldlM (visit ino (walk ino depth) pre) (files, 1 + n.blocks.toNat)

def uroot : List UInt8 := [117, 114, 111, 111, 116]

/-- The directory where `Build` begins to walk. -/
def root : ℕ := (p.findChildDir p.readInodes.1 0 uroot).1.getD 0

/-- What `Build` lists, with its steps. -/
def build (depth : ℕ) : Option (Files × ℕ) :=
  let (ino, reads) := p.readInodes
  if ino = [] then some ([], reads)
  else (p.walk ino depth p.root [] []).map fun r =>
    (r.1, reads + ino.length + (p.findChildDir ino 0 uroot).2 + r.2)

end Pfs

end Prosperity.Formats.PfsTree
