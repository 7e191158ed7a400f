import Prosperity.Foundations.BlockReads
import Prosperity.Foundations.SeekableFile

/-!
# The read chain of a PKG

A source reads a range from the source below it: from the host file at a base, at an offset, decrypted by sectors, or
inflated by blocks whose places are in a table. A source is opened on any bytes.

The decryption of a whole sector and the inflation of a whole block are parameters. A run stops where a number is
divided by zero, a difference is below zero, a table is left, or a read does not take place where it is asked for.
-/

namespace Prosperity.Formats.PkgSources

open BlockReads (readBlocks)

inductive Fault where
  | divide
  /-- A sum from 2^64 on, or a difference below zero. -/
  | wrap
  /-- An index behind the end of the table. -/
  | index
  | seek
  deriving DecidableEq

/-- `uncompress` to `n` bytes: the block if it is whole, else what is left of the block before. -/
structure Zlib where
  inflate : List UInt8 → (n : ℕ) → Option (Vector UInt8 n)
  left : List UInt8 → List UInt8 → ℕ → UInt8

/-- The fields of a `PfscSource`. A block size of zero leaves the table empty. -/
structure Pfsc where
  bs : UInt64
  n : ℕ
  map : List UInt64
  fits : bs ≠ 0 → map.length = n + 1 ∧ n * bs.toNat < 2 ^ 64 ∧ n + 1 < 2 ^ 64

inductive Source where
  | raw (base : UInt64)
  | sub (inner : Source) (off : UInt64)
  | xts (inner : Source) (decrypt : UInt64 → List UInt8 → ℕ → UInt8) (skip : UInt32)
  | pfsc (inner : Source) (p : Pfsc)

/-- A regular file of the inner image. -/
structure Node where
  size : UInt64
  startBlock : UInt32

def rd64 (bytes : List UInt8) (off : ℕ) : UInt64 := .ofNat (leAt 8 (bytes.getD · 0) off)

namespace Source

variable (file : HostFile) (z : Zlib)

def rawByte (pos : ℕ) : UInt8 := if pos < file.size then file.byte pos else 0

/-- A turn of `XtsSource::Read`: the sector. -/
def fetchSector (below : ℕ → ℕ → Except Fault (List UInt8)) (decrypt : UInt64 → List UInt8 → ℕ → UInt8)
    (skip : UInt32) (si : ℕ) (_ : Unit) : Except Fault (Option (List UInt8 × Unit)) := do
  let sector ← below (si * 0x1000) 0x1000
  return some (if skip.toNat ≤ si then (List.range 0x1000).map (decrypt (.ofNat si) sector) else sector, ())

def unpack (bs : ℕ) (comp block : List UInt8) : List UInt8 :=
  if comp.length = bs then comp
  else
    match z.inflate comp bs with
    | some out => out.toList
    | none => (List.range bs).map (z.left comp block)

/-- A turn of `PfscSource::Read`: the block, which is zeros from the end of the table on. -/
def fetchBlock (below : ℕ → ℕ → Except Fault (List UInt8)) (p : Pfsc) (bi : ℕ) (block : List UInt8) :
    Except Fault (Option (List UInt8 × List UInt8)) :=
  -- `bi + 1 > n_` in 64 bits: the sum is zero at the last offset of all, with blocks of one byte.
  if 2 ^ 64 ≤ bi + 1 then .error .index
  else if p.n < bi + 1 then .ok none
  else
    match p.map[bi]?, p.map[bi + 1]? with
    | some a, some b =>
      if b < a then .error .wrap
      else do
        let comp ← below a.toNat (b.toNat - a.toNat)
        return some (unpack z p.bs.toNat comp block, unpack z p.bs.toNat comp block)
    | _, _ => .error .index

def read : Source → ℕ → ℕ → Except Fault (List UInt8)
  | raw base, off, len =>
    if len ≠ 0 ∧ 2 ^ 63 ≤ base.toNat + off then .error .seek
    else .ok ((List.range len).map fun k => rawByte file (base.toNat + off + k))
  | sub inner o, off, len =>
    if len ≠ 0 ∧ 2 ^ 64 ≤ o.toNat + off then .error .wrap else read inner (o.toNat + off) len
  | xts inner decrypt skip, off, len =>
    if len ≠ 0 ∧ 2 ^ 64 ≤ off + len then .error .wrap
    else readBlocks 0x1000 0 (fetchSector (read inner) decrypt skip) len off len ()
  | pfsc inner p, off, len =>
    if len ≠ 0 ∧ p.bs = 0 then .error .divide
    else readBlocks p.bs.toNat 0 (fetchBlock z (read inner) p) len off len (List.replicate p.bs.toNat 0)

/-- The constructor of `PfscSource`. -/
def openPfsc (inner : Source) : Except Fault Pfsc := do
  let h ← inner.read file z 0 0x30
  let bs := rd64 h 0x10
  let bo := rd64 h 0x18
  let dl := rd64 h 0x28
  if hbs : bs = 0 then return ⟨bs, 0, [], fun hne => absurd hbs hne⟩
  else
    let n := (dl / bs).toNat
    if hn : 2 ^ 64 ≤ (n + 1) * 8 then .error .index
    else
      let raw ← inner.read file z bo.toNat ((n + 1) * 8)
      return ⟨bs, n, (List.range (n + 1)).map fun i => rd64 raw (i * 8), fun _ =>
        ⟨by rw [List.length_map, List.length_range],
          (Nat.div_mul_le_self dl.toNat bs.toNat).trans_lt dl.toNat_lt, by omega⟩⟩

/-- `ReadNode`: what is returned, and the bytes. -/
def readNode (inner : Source) (innerBs : UInt32) (n : Node) (off len : Int64) : Except Fault (ℤ × List UInt8) :=
  if off < 0 ∨ len < 0 then .ok (-1, [])
  else if n.size.toNat ≤ off.toInt.toNat then .ok (0, [])
  else
    let take := min len.toInt.toNat (n.size.toNat - off.toInt.toNat)
    let innerOff := n.startBlock.toNat * innerBs.toNat + off.toInt.toNat
    if take ≠ 0 ∧ 2 ^ 64 ≤ innerOff then .error .wrap
    else do
      let buf ← inner.read file z innerOff take
      return (take, buf)

end Source

end Prosperity.Formats.PkgSources
