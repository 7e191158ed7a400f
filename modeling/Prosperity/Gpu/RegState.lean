import Mathlib.Logic.Function.Basic
import Prosperity.Foundations.AccessLog

/-!
# How a register write reaches the register file

Four kinds of packets program registers. `SetRegs` and `WriteDataRegs` carry the values themselves, `LoadRegImage`
takes them from a register shadow in guest memory, and `LoadRegBlock` from a block of pairs there. What a decoder
reads through a pointer is a function of the index, so that a read past the end can be seen.
-/

namespace Prosperity.Gpu.RegState

/-- The register spaces. -/
inductive RegBase
  | config
  | sh
  | context
  | uConfig
deriving DecidableEq

def RegBase.value : RegBase → UInt32
  | config => 0x2000
  | sh => 0x2C00
  | context => 0xA000
  | uConfig => 0xC000

def kRegFileSize : UInt32 := 0xD000

def kRegSpaceSize : UInt32 := 0x400

def kRegSelectorMask : UInt32 := 0x70000000

def mmCB_TARGET_MASK : ℕ := 0xA08E

def mmCB_BLEND0_CONTROL : ℕ := 0xA1E0

def mmCB_COLOR0_BASE : ℕ := 0xA318

def mmCB_COLOR0_INFO : ℕ := 0xA31C

def mmCB_COLOR0_ATTRIB2 : ℕ := 0xA3B0

def regSpaceLimit (base : UInt32) : UInt32 :=
  if base + kRegSpaceSize ≤ kRegFileSize then base + kRegSpaceSize else kRegFileSize

/-- Bit 28 of an offset dword: the entry is no plain pair. -/
def typeOne (tag : UInt32) : Bool := tag &&& 0x10000000 != 0

def plainOffset (tag : UInt32) : UInt32 := tag &&& ~~~kRegSelectorMask

structure Guest where
  /-- The dword at an address. -/
  mem : ℕ → UInt32
  isReadableRangeCached : ℕ → ℕ → Bool
  pools : List (ℕ × ℕ)
  noBlendState : Bool
  traceRegImagePrefixDwords : ℕ

def Guest.isGpuAddress (g : Guest) (address : ℕ) : Bool :=
  (0x1000000000 ≤ address && address < 0x10000000000) || g.pools.any fun pool => pool.1 ≤ address && address < pool.2

def isGuestAddress (address : ℕ) : Bool := 0x10000 ≤ address && address < 0x1000000000000

/-- The registers, and the context block before this one. No block has more pairs than 14 bits count, so the sum
of two counts does not wrap. -/
structure CpState where
  regs : ℕ → UInt32
  prevAddr : ℕ
  prevPairs : ℕ

/-- The pointer that a dword is read through. -/
inductive Source
  | body
  | image
  | previous
deriving DecidableEq

inductive RegAccess
  | read (source : Source) (index : ℕ)
  | write (reg : ℕ) (value : UInt32)
deriving DecidableEq

abbrev Decode := Logged CpState RegAccess

def fetch (source : Source) (dwords : ℕ → UInt32) (index : ℕ) : Decode UInt32 :=
  Logged.access (.read source index) fun s => (dwords index, s)

def store (reg : ℕ) (value : UInt32) : Decode PUnit :=
  Logged.access (.write reg value) fun s => (⟨⟩, { s with regs := Function.update s.regs reg value })

def Guest.at (g : Guest) (address index : ℕ) : UInt32 := g.mem (address + 4 * index)

/-! ## Values in the packet -/

def setRegs (base : RegBase) (body : ℕ → UInt32) (count : UInt32) : Decode PUnit :=
  if count < 1 then pure ⟨⟩
  else do
    let offset ← fetch .body body 0
    let first := base.value + plainOffset offset
    let limit := regSpaceLimit base.value
    (List.range (count.toNat - 1)).forM fun i => do
      let value ← fetch .body body (i + 1)
      let reg := first + UInt32.ofNat i
      if reg < limit then store reg.toNat value else pure ⟨⟩

def writeDataRegs (body : ℕ → UInt32) (count : UInt32) : Decode PUnit := do
  let offset ← fetch .body body 1
  let control ← fetch .body body 0
  let first := plainOffset offset
  let oneAddr := control >>> 16 &&& 1 != 0
  (List.range (count - 3).toNat).forM fun i => do
    let reg := if oneAddr then first else first + UInt32.ofNat i
    if reg ≥ kRegFileSize then pure ⟨⟩
    else do
      let value ← fetch .body body (3 + UInt32.ofNat i).toNat
      store reg.toNat value

/-! ## A register shadow -/

/-- Where the ranges of a `LOAD_*_REG` packet lie in its body. -/
def rangeIndices (count : ℕ) : List ℕ := (List.range ((count - 2) / 2)).map fun t => 2 + 2 * t

def fetchRange (body : ℕ → UInt32) (i : ℕ) : Decode (ℕ × ℕ) := do
  let off ← fetch .body body i
  let num ← fetch .body body (i + 1)
  pure ((off &&& 0xFFFF).toNat, min (num &&& 0xFFFF).toNat 0x2000)

def sourceDwords (base limit : ℕ) (body : ℕ → UInt32) : List ℕ → ℕ → Decode ℕ
  | [], n => pure n
  | i :: is, n => do
    let (off, num) ← fetchRange body i
    sourceDwords base limit body is (if base + off < limit then max n (off + min num (limit - base - off)) else n)

/-- Whether a range holds a dword that is not zero. -/
def anyShadowValue (base limit : ℕ) (body src : ℕ → UInt32) (is : List ℕ) : Decode Bool :=
  is.anyM fun i => do
    let (off, num) ← fetchRange body i
    (List.range num).anyM fun j =>
      if base + off + j < limit then do
        let value ← fetch .image src (off + j)
        pure (value != 0)
      else pure false

def storeRanges (base limit : ℕ) (body src : ℕ → UInt32) (is : List ℕ) : Decode PUnit :=
  is.forM fun i => do
    let (off, num) ← fetchRange body i
    ((List.range num).takeWhile fun j => base + off + j < limit).forM fun j => do
      let value ← fetch .image src (off + j)
      store (base + off + j) value

def imageAddress (body : ℕ → UInt32) : ℕ := (body 1 &&& 0xFFFF).toNat <<< 32 ||| (body 0).toNat

def loadRegImage (g : Guest) (base : RegBase) (body : ℕ → UInt32) (count : UInt32) : Decode PUnit :=
  if count < 4 then pure ⟨⟩
  else do
    let _ ← fetch .body body 1
    let _ ← fetch .body body 0
    let image := imageAddress body
    if !g.isGpuAddress image then pure ⟨⟩
    else do
      let first := base.value.toNat
      let limit := (regSpaceLimit base.value).toNat
      let dwords ← sourceDwords first limit body (rangeIndices count.toNat) g.traceRegImagePrefixDwords
      if dwords = 0 ∨ g.isReadableRangeCached image (dwords * 4) = false then pure ⟨⟩
      else do
        -- a shadow of zeros has nothing to restore
        let anyValue ← anyShadowValue first limit body (g.at image) (rangeIndices count.toNat)
        if !anyValue then pure ⟨⟩ else storeRanges first limit body (g.at image) (rangeIndices count.toNat)

/-! ## A block of pairs -/

structure BlendObject where
  present : Bool
  hasMask : Bool
  applied : Bool

def isBlendTag (tag : UInt32) (k : ℕ) : Bool := typeOne tag && plainOffset tag == UInt32.ofNat (k + 1)

def endsWithBlendArray (p : ℕ → UInt32) (numPairs : ℕ) : Decode Bool :=
  (List.range 15).allM fun k => do
    let tag ← fetch .image p ((numPairs - 20 + k) * 2)
    pure (isBlendTag tag k)

/-- The mask and the control word of a blend object, `pairs - 23` and `pairs - 24` in what `q` points to. -/
def applyBlend (source : Source) (q : ℕ → UInt32) (pairs : ℕ) : Decode PUnit := do
  let tag ← fetch source q ((pairs - 24) * 2)
  let control ← if typeOne tag then fetch source q ((pairs - 24) * 2 + 1) else pure 0
  store mmCB_BLEND0_CONTROL control
  let mask ← fetch source q ((pairs - 23) * 2 + 1)
  store mmCB_TARGET_MASK mask

def joinBlend (g : Guest) (prevAddr prevPairs numPairs : ℕ) : Decode Bool :=
  let joined := prevPairs + numPairs
  let q := g.at prevAddr
  if 24 ≤ joined ∧ joined - 24 < prevPairs ∧ g.isReadableRangeCached prevAddr (prevPairs * 2 * 4) = true then do
    let tag ← fetch .previous q ((joined - 23) * 2)
    Logged.runIf (typeOne tag) (applyBlend .previous q joined)
    pure (typeOne tag)
  else pure false

def readBlendObject (g : Guest) (base : RegBase) (address : ℕ) (numPairs : ℕ) : Decode BlendObject := do
  let p := g.at address
  let prevPairs ← Logged.look CpState.prevPairs
  let prevAddr ← Logged.look CpState.prevAddr
  let context := !g.noBlendState && base == .context
  let arrayOnly ← Logged.guarded (context && 21 ≤ numPairs && numPairs < 24 && prevPairs != 0)
    (endsWithBlendArray p numPairs)
  let present ← Logged.guarded (context && 24 ≤ numPairs) (endsWithBlendArray p numPairs)
  let hasMask ← Logged.guarded present (do
    let tag ← fetch .image p ((numPairs - 23) * 2)
    pure (typeOne tag))
  Logged.runIf hasMask (applyBlend .image p numPairs)
  let joinedApplied ← Logged.guarded arrayOnly (joinBlend g prevAddr prevPairs numPairs)
  Logged.runIf (base == .context)
    (Logged.change fun s => { s with prevAddr := address, prevPairs := numPairs })
  pure ⟨present, hasMask, hasMask || joinedApplied⟩

/-- The loop of `AnchorColorTarget`. -/
def anchorFrom (g : Guest) (p : ℕ → UInt32) (blendApplied : Bool) : List ℕ → Decode Bool
  | [] => pure false
  | k :: ks => do
    let color ← fetch .image p (k * 2 + 1)
    let rt := color.toNat <<< 8
    let info ← fetch .image p ((k + 2) * 2 + 1)
    let fmt := info >>> 2 &&& 0x1F
    let attrib2 ← fetch .image p ((k + 14) * 2 + 1)
    let w := (attrib2 >>> 14 &&& 0x3FFF) + 1
    let h := (attrib2 &&& 0x3FFF) + 1
    if fmt = 0 ∨ fmt > 22 ∨ g.isGpuAddress rt = false ∨ g.isReadableRangeCached rt 0x1000 = false ∨
        w < 16 ∨ h < 16 ∨ w > 8192 ∨ h > 8192 then
      anchorFrom g p blendApplied ks
    else do
      store mmCB_COLOR0_BASE color
      store mmCB_COLOR0_INFO info
      store mmCB_COLOR0_ATTRIB2 attrib2
      let mask ← Logged.look fun s => s.regs mmCB_TARGET_MASK
      Logged.runIf (!blendApplied && mask &&& 0xF == 0) (store mmCB_TARGET_MASK (mask ||| 0xF))
      pure true

def anchorColorTarget (g : Guest) (base : RegBase) (p : ℕ → UInt32) (numPairs : ℕ) (blendApplied : Bool) :
    Decode Bool :=
  if base ≠ .context ∨ numPairs < 15 then pure false
  else do
    let tag ← fetch .image p 0
    if !typeOne tag then pure false else anchorFrom g p blendApplied (List.range (numPairs - 14))

def blockAddress (body : ℕ → UInt32) : ℕ := (body 1 &&& 0xFFFF).toNat <<< 32 ||| (body 0 &&& 0xFFFFFFFC).toNat

def blockPairs (body : ℕ → UInt32) : ℕ := (body 3 &&& 0x3FFF).toNat

/-- The part of `LoadRegBlock` behind its checks. -/
def applyBlock (g : Guest) (base : RegBase) (address numPairs : ℕ) : Decode PUnit := do
  let p := g.at address
  let limit := regSpaceLimit base.value
  let blend ← readBlendObject g base address numPairs
  let boundRt ← anchorColorTarget g base p numPairs blend.applied
  Logged.runIf (blend.present && !blend.hasMask && !boundRt) (do
    store mmCB_BLEND0_CONTROL 0
    store mmCB_TARGET_MASK 0)
  (List.range numPairs).forM fun i => do
    let tag ← fetch .image p (i * 2)
    if base = .context ∧ typeOne tag = true then pure ⟨⟩
    else do
      let value ← fetch .image p (i * 2 + 1)
      let reg := base.value + plainOffset tag
      if reg < limit then store reg.toNat value else pure ⟨⟩

def loadRegBlock (g : Guest) (base : RegBase) (body : ℕ → UInt32) (count : UInt32) : Decode PUnit :=
  if count < 4 then pure ⟨⟩
  else do
    let _ ← fetch .body body 1
    let _ ← fetch .body body 0
    if !isGuestAddress (blockAddress body) then pure ⟨⟩
    else do
      let _ ← fetch .body body 3
      if blockPairs body = 0 then pure ⟨⟩
      else if !g.isReadableRangeCached (blockAddress body) (blockPairs body * 2 * 4) then pure ⟨⟩
      else applyBlock g base (blockAddress body) (blockPairs body)

end Prosperity.Gpu.RegState
