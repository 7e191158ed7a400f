import Prosperity.Foundations.CheckedBuffers

/-!
# Fake-signed SELF files

A fake SELF wraps a plain ELF file: a header, a table of segments, the ELF header with its program headers, and
the segments. The loader rebuilds the ELF file. The header and the program headers keep their place, and a block
segment goes to the file offset of the program header that its flags name.

Sums of offsets and sizes are of 64 bits.
-/

namespace Prosperity.Formats.Fself

def kSelfMagic : UInt32 := 0x1D3D154F

def kSelfMagicPs5 : UInt32 := 0xEEF51454

def kElfMagic : UInt32 := 0x464C457F

/-- `SF_BFLG`: a block segment. -/
def kSfBflg : UInt64 := 0x800

def isSelfMagic (magic : UInt32) : Bool := magic == kSelfMagic || magic == kSelfMagicPs5

/-- `sizeof(SELFHeader)`, where the segment table begins. -/
def kSelfHeaderSize : UInt64 := 32

/-- `sizeof(SELFSegmentTable)`. -/
def kSegmentSize : UInt64 := 32

/-- `sizeof(ELFHeader)`. -/
def kElfHeaderSize : UInt64 := 64

structure Headers where
  numSegments : UInt16
  phoff : UInt64
  phentsize : UInt16
  phnum : UInt16

namespace Headers

def elfOff (h : Headers) : UInt64 := kSelfHeaderSize + h.numSegments.toUInt64 * kSegmentSize

def hdrEnd (h : Headers) : UInt64 := h.phoff + h.phnum.toUInt64 * h.phentsize.toUInt64

/-- `phdr`: where a program header is. -/
def phdr (h : Headers) (i : ℕ) : UInt64 := h.elfOff + h.phoff + .ofNat i * h.phentsize.toUInt64

end Headers

/-- The checks in front of the layout, `none` where one fails. -/
def headers (data : Buffer) : Except Fault (Option Headers) := do
  if data.size < kSelfHeaderSize then return none
  if ¬isSelfMagic (← data.readU32 0) then return none
  let numSegments ← data.readU16 24
  let elfOff := Headers.elfOff ⟨numSegments, 0, 0, 0⟩
  if data.size < elfOff + kElfHeaderSize then return none
  if (← data.readU32 elfOff) ≠ kElfMagic then return none
  let h : Headers :=
    ⟨numSegments, ← data.readU64 (elfOff + 0x20), ← data.readU16 (elfOff + 0x36), ← data.readU16 (elfOff + 0x38)⟩
  if data.size < elfOff + h.hdrEnd then return none
  return some h

/-- `ELFPgHeader::offset`. -/
def phdrOffset (data : Buffer) (h : Headers) (i : ℕ) : Except Fault UInt64 := data.readU64 (h.phdr i + 8)

/-- `ELFPgHeader::filesz`. -/
def phdrFilesz (data : Buffer) (h : Headers) (i : ℕ) : Except Fault UInt64 := data.readU64 (h.phdr i + 0x20)

/-- `SELFSegmentTable`, up to the memory size. -/
structure Segment where
  flags : UInt64
  offset : UInt64
  fileSize : UInt64

def Segment.idx (s : Segment) : ℕ := (s.flags >>> 20 &&& 0xFFF).toNat

def Segment.taken (s : Segment) (phnum : UInt16) (size : UInt64) : Bool :=
  s.flags &&& kSfBflg ≠ 0 ∧ s.idx < phnum.toNat ∧ s.offset + s.fileSize ≤ size

def segment (data : Buffer) (i : ℕ) : Except Fault Segment := do
  let pos := kSelfHeaderSize + .ofNat i * kSegmentSize
  return ⟨← data.readU64 pos, ← data.readU64 (pos + 8), ← data.readU64 (pos + 16)⟩

def phdrExtent (data : Buffer) (h : Headers) (total : UInt64) (i : ℕ) : Except Fault UInt64 := do
  return max total ((← phdrOffset data h i) + (← phdrFilesz data h i))

def segmentExtent (data : Buffer) (h : Headers) (total : UInt64) (i : ℕ) : Except Fault UInt64 := do
  let s ← segment data i
  if s.taken h.phnum data.size then return max total ((← phdrOffset data h s.idx) + s.fileSize)
  else return total

def copySegment (data : Buffer) (h : Headers) (out : List UInt8) (i : ℕ) : Except Fault (List UInt8) := do
  let s ← segment data i
  if s.taken h.phnum data.size then
    let bytes ← data.read s.offset s.fileSize.toNat
    store out (← phdrOffset data h s.idx) bytes
  else return out

/-- `FselfToElf` behind its checks. -/
def rebuild (data : Buffer) (h : Headers) : Except Fault (List UInt8) := do
  let total ← (List.range h.phnum.toNat).foldlM (phdrExtent data h) h.hdrEnd
  let total ← (List.range h.numSegments.toNat).foldlM (segmentExtent data h) total
  let out ← store (List.replicate total.toNat 0) 0 (← data.read h.elfOff h.hdrEnd.toNat)
  (List.range h.numSegments.toNat).foldlM (copySegment data h) out

def fselfToElf (data : Buffer) : Except Fault (List UInt8) := do
  match ← headers data with
  | none => return []
  | some h => rebuild data h

end Prosperity.Formats.Fself
