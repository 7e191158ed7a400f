import Mathlib.Data.List.DropRight
import Prosperity.Formats.ArchiveIndex
import Prosperity.Foundations.SeparatedPaths

/-!
# The directories of an archive

The entries of an archive have whole paths. A directory that they all share is taken off. A file is looked up by its
path, and the children of a directory are collected from the paths of all files on the first listing.

Keys are compared without case, and names are as stored. A C string ends at its first zero byte. The order of the
children is that of a hash map, and is of no meaning here.
-/

namespace Prosperity.Formats.ArchiveTree

def kSlash : UInt8 := 47

def foldChar (c : UInt8) : UInt8 := if 65 ≤ c ∧ c ≤ 90 then c + 32 else c

def foldCase (s : List UInt8) : List UInt8 := s.map foldChar

/-- The characters of a C string. -/
def cstr (s : List UInt8) : List UInt8 := s.takeWhile (· ≠ 0)

def findSlash (s : List UInt8) (pos : ℕ) : Option ℕ := ((s.drop pos).findIdx? (· == kSlash)).map (pos + ·)

/-! ## The wrapper -/

/-- Whether all paths begin like the first one up to `next`, and go on. -/
def shared (entries : List ArchiveIndex.ArchiveEntry) (first : List UInt8) (next : ℕ) : Bool :=
  entries.all fun e => next < e.path.length ∧ e.path.take next = first.take next

/-- The loop of `CommonWrapperPrefix` with `n` turns left. -/
def wrapperFrom (entries : List ArchiveIndex.ArchiveEntry) (first : List UInt8) : ℕ → ℕ → ℕ
  | 0, pre => pre
  | n + 1, pre =>
    match findSlash first pre with
    | none => pre
    | some slash => if shared entries first (slash + 1) then wrapperFrom entries first n (slash + 1) else pre

def commonWrapperPrefix : List ArchiveIndex.ArchiveEntry → ℕ
  | [] => 0
  | first :: rest => wrapperFrom (first :: rest) first.path 4 0

def guestPath (strip : ℕ) (e : ArchiveIndex.ArchiveEntry) : List UInt8 := kSlash :: e.path.drop strip

/-! ## The tables -/

structure Node where
  size : UInt64
  index : ℕ
  deriving DecidableEq

structure ArchiveFilesystem where
  ok : Bool
  files : List (List UInt8 × Node)
  guestPaths : List (List UInt8)

/-- A child of a directory, by the path of the directory and the name, and whether it is a directory. -/
abbrev Seen := List ((List UInt8 × List UInt8) × Bool)

/-- A file is registered under its parent, and every ancestor under its own. Each of the at most `fuel` turns is at
another slash. -/
def register (p : List UInt8) : ℕ → ℕ → Seen → Seen
  | 0, _, seen => seen
  | fuel + 1, pos, seen =>
    let parent := foldCase (p.take (pos + 1))
    match findSlash p (pos + 1) with
    | none => EmplacedMap.emplace seen ((parent, p.drop (pos + 1)), false)
    | some slash =>
      let name := (p.drop (pos + 1)).take (slash - pos - 1)
      register p fuel slash (EmplacedMap.emplace seen ((parent, name), true))

namespace ArchiveFilesystem

def mount (entries : List ArchiveIndex.ArchiveEntry) : ArchiveFilesystem :=
  let strip := commonWrapperPrefix entries
  -- `emplace` leaves a file that is there already, so of two paths that are equal but for case the first one is kept.
  ⟨!entries.isEmpty,
    (entries.zipIdx.map fun e => (foldCase (guestPath strip e.1), ⟨e.1.size, e.2⟩)).foldl EmplacedMap.emplace [],
    entries.map (guestPath strip)⟩

variable (fs : ArchiveFilesystem)

def find (rel : List UInt8) : Option Node := if fs.ok then fs.files.lookup (foldCase (cstr rel)) else none

/-- `BuildDirs`. -/
def seen : Seen := fs.guestPaths.foldl (fun seen p => register p p.length 0 seen) []

/-- The key of the directory that `List` looks up. -/
def dirKey (rel : List UInt8) : List UInt8 :=
  -- All slashes at the end are dropped, and one is put back.
  let pre := rel.rdropWhile (· == kSlash) ++ [kSlash]
  foldCase (if pre.head? = some kSlash then pre else kSlash :: pre)

/-- `List`: the children, of which there are none where it returns `false`. -/
def list (rel : List UInt8) : List (List UInt8 × Bool) :=
  if fs.ok then (fs.seen.filter fun c => c.1.1 = dirKey (cstr rel)).map fun c => (c.1.2, c.2) else []

def paths : List (List UInt8) := fs.guestPaths

end ArchiveFilesystem

end Prosperity.Formats.ArchiveTree
