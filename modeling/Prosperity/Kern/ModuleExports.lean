import Prosperity.Foundations.CheckedBuffers

/-!
# The exports of a module

A module has a table of symbols, a table of strings with their names, and a hash table that chains the symbols of a
bucket. An export is looked up by its NID, in a scan or through an index that the first lookup builds, or by a full
name through the hash table.

A string is given by the memory from its first byte on. A read behind the end of a table is a fault, and so is a
division by zero.
-/

namespace Prosperity.Kern.ModuleExports

/-- A string of C, without its terminator. -/
structure CString where
  bytes : List UInt8
  noNul : 0 ∉ bytes

/-- The memory of the string. -/
def CString.chars (s : CString) : ℕ → UInt8 := fun k => s.bytes.getD k 0

/-! ## NIDs -/

def kBase64Lookup : List UInt8 :=
  List.map (fun c : Char => .ofNat c.toNat)
   ['A', 'B', 'C', 'D', 'E', 'F', 'G', 'H', 'I', 'J', 'K', 'L', 'M', 'N', 'O', 'P',
    'Q', 'R', 'S', 'T', 'U', 'V', 'W', 'X', 'Y', 'Z', 'a', 'b', 'c', 'd', 'e', 'f',
    'g', 'h', 'i', 'j', 'k', 'l', 'm', 'n', 'o', 'p', 'q', 'r', 's', 't', 'u', 'v',
    'w', 'x', 'y', 'z', '0', '1', '2', '3', '4', '5', '6', '7', '8', '9', '+', '-']

/-- `kIndex`, `none` where it is `0xff`. -/
def kIndex (c : UInt8) : Option UInt64 := (kBase64Lookup.idxOf? c).map .ofNat

/-- The loop of `Decode`. -/
def decodeFrom (subset : ℕ → UInt8) : ℕ → ℕ → UInt64 → Option UInt64
  | 0, _, out => some out
  | n + 1, i, out =>
    match kIndex (subset i) with
    | none => none
    | some offset =>
      decodeFrom subset n (i + 1) (if i < 10 then out <<< 6 ||| offset else out <<< 4 ||| offset >>> 2)

/-- `Decode` into a zero. -/
def decode (subset : ℕ → UInt8) (len : ℕ) : Option UInt64 := decodeFrom subset len 0 0

/-! ## Tables -/

structure ElfSym where
  stName : UInt32
  stValue : UInt64
  deriving DecidableEq

/-- `hashes_`: the two counts are the lengths. -/
structure HashTable where
  bucket : List UInt32
  chain : List UInt32
  nbucketFits : bucket.length < 2 ^ 32
  nchainFits : chain.length < 2 ^ 32

def HashTable.nbucket (t : HashTable) : UInt32 := .ofNat t.bucket.length

def HashTable.nchain (t : HashTable) : UInt32 := .ofNat t.chain.length

structure Module where
  /-- `info_.base`. -/
  base : UInt64
  symbols : List ElfSym
  strtab : ℕ → UInt8
  hashes : Option HashTable
  /-- `export_index_`, `none` until it is built. -/
  exportIndex : Option (List (UInt64 × UInt64))

namespace Module

def name (m : Module) (s : ElfSym) : ℕ → UInt8 := fun k => m.strtab (s.stName.toNat + k)

def getAddressNptr (m : Module) (dist : UInt64) : UInt64 := m.base + dist

/-! ## By NID -/

/-- The loop of `GetSymbol`. -/
def getSymbolFrom (m : Module) (nid : UInt64) : List ElfSym → UInt64
  | [] => 0
  | s :: l =>
    if s.stValue = 0 then m.getSymbolFrom nid l
    else
      match decode (m.name s) 11 with
      | none => 0
      | some hid => if nid = hid then m.getAddressNptr s.stValue else m.getSymbolFrom nid l

def getSymbol (m : Module) (nid : UInt64) : UInt64 := m.getSymbolFrom nid m.symbols

/-- `emplace`: an entry that is there stays. -/
def emplace (index : List (UInt64 × UInt64)) (hid value : UInt64) : List (UInt64 × UInt64) :=
  match index.lookup hid with
  | some _ => index
  | none => index ++ [(hid, value)]

def indexSymbol (m : Module) (index : List (UInt64 × UInt64)) (s : ElfSym) : List (UInt64 × UInt64) :=
  if s.stValue = 0 then index
  else
    match decode (m.name s) 11 with
    | none => index
    | some hid => emplace index hid s.stValue

/-- The first part of `GetExport`: the index is built where there is a symbol. -/
def withIndex (m : Module) : Module :=
  match m.exportIndex with
  | some _ => m
  | none => if m.symbols = [] then m else { m with exportIndex := some (m.symbols.foldl m.indexSymbol []) }

def getExport (m : Module) (nid : UInt64) : UInt64 × Module :=
  match (m.withIndex.exportIndex.getD []).lookup nid with
  | none => (0, m.withIndex)
  | some value => (m.getAddressNptr value, m.withIndex)

/-! ## By full name -/

def elfHash (name : CString) : UInt32 :=
  name.bytes.foldl (fun h c =>
    let h := (h <<< 4) + c.toUInt32
    let g := h &&& 0xF0000000
    let h := if g ≠ 0 then h ^^^ (g >>> 24) else h
    h &&& ~~~g) 0

/-- `strncmp(p, q, n) == 0`. -/
def strncmp : ℕ → (ℕ → UInt8) → (ℕ → UInt8) → Bool
  | 0, _, _ => true
  | n + 1, p, q => p 0 == q 0 && (p 0 == 0 || strncmp n (fun k => p (k + 1)) fun k => q (k + 1))

/-- The test of the walk for a symbol: it is defined, and agrees in 11 characters. -/
def hit (m : Module) (name : CString) (s : ElfSym) : Bool :=
  s.stValue ≠ 0 && strncmp 11 (m.name s) name.chars

/-- The loop of `GetSymbolFullName`, `none` where it takes more than `fuel` turns. -/
def walk (m : Module) (t : HashTable) (name : CString) : ℕ → UInt32 → Option (Except Fault UInt64)
  | 0, _ => none
  | fuel + 1, i =>
    if i = 0 then some (.ok 0)
    else if t.nchain < i then some (.ok 0)
    else
      match m.symbols[i.toNat]? with
      | none => some (.error .read)
      | some s =>
        if m.hit name s then some (.ok (m.getAddressNptr s.stValue))
        else
          match t.chain[i.toNat]? with
          | none => some (.error .read)
          | some j => m.walk t name fuel j

def getSymbolFullName (m : Module) (name : CString) (fuel : ℕ) : Option (Except Fault UInt64) :=
  match m.hashes with
  | none => some (.ok 0)
  | some t =>
    if t.nbucket = 0 then some (.error .divide)
    else
      match t.bucket[(elfHash name % t.nbucket).toNat]? with
      | none => some (.error .read)
      | some i => m.walk t name fuel i

end Module

end Prosperity.Kern.ModuleExports
