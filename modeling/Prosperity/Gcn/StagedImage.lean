import Prosperity.Gcn.TextureLayout

/-!
# Staged compute images

A compute image whose texels a shader cannot read where the guest has them is staged: its texels are
detiled into a linear layout, which the shader addresses in dwords. The layout is built from what the
host decodes of the descriptor, and the address is computed by the shader from the descriptor itself.

The words of a descriptor are those of a T#, which the two generations lay out differently. The
shader's values are 32-bit words, with the operations that its code is emitted with; whether an address
is one of the guest's is a parameter.
-/

namespace Prosperity.Gcn

/-! ## The descriptor -/

/-- `TImage`: what of a descriptor the layout of the image depends on. -/
structure TImage where
  base : ℕ
  width : ℕ
  height : ℕ
  pitch : ℕ
  depth : ℕ
  layers : ℕ
  mipLevels : ℕ
  dfmt : ℕ
  nfmt : ℕ
  type : ℕ
  tilingIdx : ℕ
  pow2Pad : Bool
  is3d : Bool
  valid : Bool

/-- `(p[i] >> shift) & mask`. -/
def word (d : ℕ → UInt32) (i shift mask : ℕ) : ℕ := ((d i).toNat >>> shift) &&& mask

def maxLevels (extent : ℕ) : ℕ := Nat.log2 extent + 1

def nextPow2 (v : ℕ) : ℕ := bitCeil v

/-- `DecodeTImage`; `guest` is `GuestRange`. -/
def gcnTImage (guest : ℕ → Bool) (d : ℕ → UInt32) : TImage :=
  let base := ((word d 1 0 0x3F <<< 32) ||| (d 0).toNat) <<< 8
  let width := word d 2 0 0x3FFF + 1
  let baseMip := word d 3 12 0xF
  let lastMip := word d 3 16 0xF
  let mipLevels := lastMip + 1
  let viewMips := if baseMip ≤ lastMip then lastMip - baseMip + 1 else 0
  let pow2Pad := word d 3 25 1 ≠ 0
  let type := word d 3 28 0xF
  let pitch := word d 4 13 0x3FFF + 1
  let pitch := if pitch < width then width else pitch
  let arrayed := type = 13 ∨ type = 12 ∨ type = 11
  let layers :=
    if arrayed then
      let layers := word d 4 0 0x1FFF + 1
      let layers := if type = 11 then layers * 6 else layers
      if pow2Pad then nextPow2 layers else layers
    else 1
  let baseArray := if arrayed then word d 5 0 0x1FFF else 0
  let lastArray := word d 5 13 0x1FFF
  let viewLayers :=
    if arrayed then
      if baseArray < layers ∧ baseArray ≤ lastArray then
        min lastArray (layers - 1) - baseArray + 1
      else 0
    else 1
  let height := if type = 8 ∨ type = 12 then 1 else word d 2 14 0x3FFF + 1
  let is3d := type = 10
  let depth :=
    if is3d then
      let depth := word d 4 0 0x1FFF + 1
      if pow2Pad then nextPow2 depth else depth
    else 1
  let supportedType := 8 ≤ type ∧ type ≤ 13
  let validView := ¬arrayed ∨ (baseArray < layers ∧ 0 < viewLayers)
  let validMips := 0 < viewMips ∧ mipLevels ≤ maxLevels (max width height)
  let valid3d := ¬is3d ∨ (depth ≤ 2048 ∧ mipLevels = 1)
  { base, width, height, pitch, depth, layers, mipLevels
    dfmt := word d 1 20 0x3F
    nfmt := word d 1 26 0xF
    type
    tilingIdx := word d 3 20 0x1F
    pow2Pad
    is3d
    valid := guest base ∧ supportedType ∧ width ≤ 8192 ∧ height ≤ 8192 ∧ layers ≤ 8192 ∧
      validView ∧ validMips ∧ valid3d }

def gfx10ImgFormat : ℕ → ℕ × ℕ
  | 1 => (1, 0)
  | 2 => (1, 1)
  | 5 => (1, 4)
  | 6 => (1, 5)
  | 7 => (2, 0)
  | 11 => (2, 4)
  | 13 => (2, 7)
  | 14 => (3, 0)
  | 18 => (3, 4)
  | 20 => (4, 4)
  | 21 => (4, 5)
  | 22 => (4, 7)
  | 23 => (5, 0)
  | 27 => (5, 4)
  | 28 => (5, 5)
  | 29 => (5, 7)
  | 36 => (6, 7)
  | 44 => (8, 0)
  | 50 => (9, 0)
  | 56 => (10, 0)
  | 57 => (10, 1)
  | 60 => (10, 4)
  | 61 => (10, 5)
  | 62 => (11, 4)
  | 63 => (11, 5)
  | 64 => (11, 7)
  | 65 => (12, 0)
  | 69 => (12, 4)
  | 70 => (12, 5)
  | 71 => (12, 7)
  | 74 => (13, 7)
  | 75 => (14, 4)
  | 76 => (14, 5)
  | 77 => (14, 7)
  | 130 => (10, 9)
  | 169 => (35, 0)
  | 170 => (35, 9)
  | 171 => (36, 0)
  | 172 => (36, 9)
  | 173 => (37, 0)
  | 174 => (37, 9)
  | 175 => (38, 0)
  | 176 => (38, 1)
  | 177 => (39, 0)
  | 178 => (39, 1)
  | 179 => (40, 0)
  | 180 => (40, 1)
  | 181 => (41, 0)
  | 182 => (41, 9)
  | _ => (0, 0)

/-- `rdna::DecodeTImage` of eight words; `guest` is `InGuest`. -/
def rdnaTImage (guest : ℕ → Bool) (d : ℕ → UInt32) : TImage :=
  let base := ((d 0).toNat ||| (word d 1 0 0xFF <<< 32)) <<< 8
  let width := (word d 1 30 0x3 ||| (word d 2 0 0xFFF <<< 2)) + 1
  let height := word d 2 14 0x3FFF + 1
  let baseMip := word d 3 12 0xF
  let lastLevel := word d 3 16 0xF
  let swMode := word d 3 20 0x1F
  let type := word d 3 28 0xF
  let depth := word d 4 0 0x1FFF
  let baseArray := word d 4 16 0x1FFF
  let maxMip := word d 5 4 0xF
  let arrayed := type = 11 ∨ type = 12 ∨ type = 13
  let volumetric := type = 10
  let layers := if arrayed ∨ volumetric then depth + 1 else 1
  let layers := if type = 11 then max layers 6 else layers
  let mipLevels := maxMip + 1
  let viewMips := max (lastLevel + 1 - baseMip) 1
  let (dfmt, nfmt) := gfx10ImgFormat (word d 1 20 0x1FF)
  let validArray := ¬arrayed ∨ baseArray ≤ depth
  let validMips := baseMip ≤ lastLevel ∧ lastLevel < maxLevels (max width height) ∧
    baseMip + viewMips ≤ mipLevels
  let validWord4 := (d 4).toNat &&& 0xe000c000 = 0
  { base, width, height, pitch := width
    depth := if volumetric then depth + 1 else 1
    layers, mipLevels, dfmt, nfmt, type
    tilingIdx := kGfx10TilingBase + swMode
    pow2Pad := false
    is3d := volumetric
    valid := guest base ∧ dfmt ≠ 0 ∧ width ≤ 16384 ∧ height ≤ 16384 ∧ layers ≤ 16384 ∧
      validArray ∧ validMips ∧ validWord4 }

/-! ## The resource -/

/-- `ComputeInfo::Res` of an image that is staged. -/
structure CsImage where
  width : ℕ
  height : ℕ
  pitch : ℕ
  layers : ℕ
  mipLevels : ℕ
  tilingIdx : ℕ
  pow2Pad : Bool
  elemBytes : ℕ
  stageElemBytes : ℕ
  dfmt : ℕ
  size : ℕ
  guestSize : ℕ
  deriving DecidableEq

def stageTiling (tilingIdx : ℕ) : ℕ := if tilingIdx = 31 then 31 else 8

def gcnElemBytes (dfmt nfmt : ℕ) : Option (ℕ × ℕ) :=
  let r8 := dfmt = 1 ∧ (nfmt = 0 ∨ nfmt = 4)
  let rgba8 := dfmt = 10 ∧ (nfmt = 0 ∨ nfmt = 4)
  let r32 := dfmt = 4 ∧ (nfmt = 4 ∨ nfmt = 5 ∨ nfmt = 7)
  let rg16f := dfmt = 5 ∧ nfmt = 7
  let r16f := dfmt = 2 ∧ nfmt = 7
  let rg8 := dfmt = 3 ∧ nfmt = 0
  let rgba16f := dfmt = 12 ∧ nfmt = 7
  let r11g11b10f := dfmt = 6 ∧ nfmt = 7
  let block64 := (dfmt = 11 ∨ dfmt = 12) ∧ (nfmt = 4 ∨ nfmt = 5)
  let block128 := dfmt = 14 ∧ (nfmt = 4 ∨ nfmt = 5)
  let supportedFormat := r8 ∨ rgba8 ∨ r32 ∨ rg16f ∨ r16f ∨ rg8 ∨ rgba16f ∨ r11g11b10f ∨ block64 ∨
    block128
  let elem := if rgba16f ∨ block64 then 8 else if block128 then 16 else if r16f ∨ rg8 then 2
    else if r8 then 1 else 4
  if supportedFormat then some (elem, if r11g11b10f then 16 else max elem 4) else none

/-- `ResolveImageResource` of the PS4: `none` where the image is refused, replaced by zeros or used
where it is. -/
def gcnResolve (guest : ℕ → Bool) (d : ℕ → UInt32) : Option CsImage :=
  let t := gcnTImage guest d
  let layers := if t.is3d then t.depth else t.layers
  if ¬(8 ≤ t.type ∧ t.type ≤ 13) then none
  else
    match gcnElemBytes t.dfmt t.nfmt with
    | none => none
    | some (elem, stageElem) =>
      if ¬t.valid then none
      else
        match buildTextureLayout32 t.width t.height t.pitch layers t.mipLevels t.tilingIdx t.pow2Pad
          elem with
        | none => none
        | some layout =>
          if tilingIsLinear t.tilingIdx ∧ elem = stageElem then none
          else
            (buildTextureLayout32 t.width t.height t.pitch layers t.mipLevels
              (stageTiling t.tilingIdx) t.pow2Pad stageElem).map fun linear =>
                ⟨t.width, t.height, t.pitch, layers, t.mipLevels, t.tilingIdx, t.pow2Pad, elem,
                  stageElem, t.dfmt, linear.size, layout.size⟩

/-- The descriptor with `LAST_LEVEL` brought down to `BASE_LEVEL`, for plain loads and stores. -/
def baseMipView (d : ℕ → UInt32) : ℕ → UInt32 := fun i =>
  let baseMip := (d 3 >>> 12) &&& (15 : UInt32)
  let lastMip := (d 3 >>> 16) &&& (15 : UInt32)
  if i = 3 ∧ baseMip ≤ lastMip then (d 3 &&& ~~~(0xf0000 : UInt32)) ||| (baseMip <<< 16)
  else d i

def inBlocks (compressed : Bool) (extent : ℕ) : ℕ := if compressed then (extent + 3) / 4 else extent

/-- The same for the PS5 side, which also stages blocks that are not written, and then says so;
`blocksFit` says whether their levels can be. -/
def rdnaElemBytes (written blocksFit : Bool) (dfmt nfmt : ℕ) : Option (ℕ × ℕ × Bool) :=
  let r8 := dfmt = 1 ∧ (nfmt = 0 ∨ nfmt = 4)
  let rgba8 := dfmt = 10 ∧ (nfmt = 0 ∨ nfmt = 4 ∨ nfmt = 5 ∨ (nfmt = 9 ∧ ¬written))
  let r32 := dfmt = 4 ∧ (nfmt = 4 ∨ nfmt = 5 ∨ nfmt = 7)
  let rg16f := dfmt = 5 ∧ nfmt = 7
  let rg16i := dfmt = 5 ∧ (nfmt = 4 ∨ nfmt = 5)
  let r16 := dfmt = 2 ∧ (nfmt = 0 ∨ nfmt = 7)
  let rg8 := dfmt = 3 ∧ (nfmt = 0 ∨ nfmt = 4)
  let rgba16 := dfmt = 12 ∧ (nfmt = 0 ∨ nfmt = 4 ∨ nfmt = 5 ∨ nfmt = 7)
  let r11g11b10f := dfmt = 6 ∧ nfmt = 7
  let rg32 := dfmt = 11 ∧ (nfmt = 4 ∨ nfmt = 5 ∨ nfmt = 7)
  let block128 := dfmt = 14 ∧ (nfmt = 4 ∨ nfmt = 5 ∨ nfmt = 7)
  let bc1 := dfmt = 35 ∧ (nfmt = 0 ∨ nfmt = 9) ∧ ¬written ∧ blocksFit
  let bc6 := dfmt = 40 ∧ (nfmt = 0 ∨ nfmt = 1) ∧ ¬written ∧ blocksFit
  let elem := if block128 ∨ bc6 then 16 else if rgba16 ∨ rg32 ∨ bc1 then 8
    else if r16 ∨ rg8 then 2 else if r8 then 1 else 4
  let supportedFormat := r8 ∨ rgba8 ∨ r32 ∨ rg16f ∨ rg16i ∨ r16 ∨ rg8 ∨ rgba16 ∨ r11g11b10f ∨
    rg32 ∨ block128 ∨ bc1 ∨ bc6
  if supportedFormat then
    some (elem, if r11g11b10f ∨ bc6 then 16 else if bc1 then 4 else max elem 4, bc1 ∨ bc6)
  else none

def blocksFit (t : TImage) : Bool :=
  t.type ≠ 10 ∧ (t.mipLevels = 1 ∨ (t.width &&& (t.width - 1) = 0 ∧ t.height &&& (t.height - 1) = 0))

/-- `ResolveImageResource` of the PS5: `none` where the image is refused or replaced by zeros. -/
def rdnaResolve (guest : ℕ → Bool) (written baseMipOnly : Bool) (d : ℕ → UInt32) : Option CsImage :=
  let t := rdnaTImage guest (if baseMipOnly then baseMipView d else d)
  if ¬(8 ≤ t.type ∧ t.type ≤ 13) then none
  else
    match rdnaElemBytes written (blocksFit t) t.dfmt t.nfmt with
    | none => none
    | some (elem, stageElem, compressed) =>
      if validTileMode (effectiveTileMode t.tilingIdx) = false ∨ ¬t.valid then none
      else
        match buildTextureLayout32 (inBlocks compressed t.width) (inBlocks compressed t.height)
          (inBlocks compressed t.pitch) t.layers t.mipLevels t.tilingIdx t.pow2Pad elem with
        | none => none
        | some layout =>
          (buildTextureLayout32 t.width t.height t.pitch t.layers t.mipLevels 8 t.pow2Pad
            stageElem).map fun linear =>
              ⟨t.width, t.height, t.pitch, t.layers, t.mipLevels, t.tilingIdx, t.pow2Pad, elem,
                stageElem, t.dfmt, linear.size, layout.size⟩

def resolve (rdna : Bool) (guest : ℕ → Bool) (written baseMipOnly : Bool) (d : ℕ → UInt32) : Option CsImage :=
  if rdna then rdnaResolve guest written baseMipOnly d else gcnResolve guest d

/-- `BuildCsImageLayouts`: the layout in guest memory and the staged one. -/
def buildCsImageLayouts (res : CsImage) : Option (TextureLayout32 × TextureLayout32) :=
  let compressed : Bool := res.dfmt = 35 ∨ res.dfmt = 40
  match
    buildTextureLayout32 (inBlocks compressed res.width) (inBlocks compressed res.height)
      (inBlocks compressed res.pitch) res.layers res.mipLevels res.tilingIdx res.pow2Pad
      res.elemBytes,
    buildTextureLayout32 res.width res.height res.pitch res.layers res.mipLevels
      (stageTiling res.tilingIdx) res.pow2Pad res.stageElemBytes with
  | some tiled, some linear =>
    if tiled.size = res.guestSize ∧ linear.size = res.size then some (tiled, linear) else none
  | _, _ => none

def texelOffset (t : TextureLayout32) (mip layer x y : ℕ) : ℕ :=
  let level := t.mip mip
  level.offset + layer * level.pitch * level.storedHeight * t.elemBytes +
    y * (level.pitch * t.elemBytes) + x * t.elemBytes

/-! ## The shader -/

namespace Staged

/-- `Shr`: the distance is taken modulo 32. -/
def shr (a s : UInt32) : UInt32 := a >>> (s &&& 31)

def max1 (value : UInt32) : UInt32 := max value 1

def bitCeil (value : UInt32) : UInt32 :=
  let v := max1 value - 1
  let v := v ||| shr v 1
  let v := v ||| shr v 2
  let v := v ||| shr v 4
  let v := v ||| shr v 8
  let v := v ||| shr v 16
  v + 1

/-- One step of the padding of `LinearMipPitch`. -/
def padAligned (height aligned : UInt32) : UInt32 :=
  if (aligned * height) &&& 63 = 0 then aligned else aligned + 16

def linearMipPitch (basePitch height mip : UInt32) (linearGeneral pow2Pad : Bool) : UInt32 :=
  let raw := max1 (shr basePitch mip)
  let raw := if pow2Pad then bitCeil raw else raw
  let aligned := (raw + 15) &&& ~~~15
  let aligned := padAligned height (padAligned height (padAligned height aligned))
  if linearGeneral then raw else aligned

def storedHeight (baseHeight mip : UInt32) (pow2Pad : Bool) : UInt32 :=
  let height := max1 (shr baseHeight mip)
  if pow2Pad then bitCeil height else height

/-- `MipChainOffset`: the loop over the levels below. -/
def mipChainOffset (basePitch baseHeight layers physicalMip : UInt32) (linearGeneral pow2Pad : Bool) : UInt32 :=
  (List.range (min physicalMip 16).toNat).foldl
    (fun acc level =>
      let level := UInt32.ofNat level
      let levelStored := storedHeight baseHeight level pow2Pad
      let levelPitch := linearMipPitch basePitch levelStored level linearGeneral pow2Pad
      acc + levelPitch * levelStored * layers) 0

variable (rdna : Bool) (d : ℕ → UInt32)

def field (i : ℕ) (shift mask : UInt32) : UInt32 := shr (d i) shift &&& mask

def baseWidth : UInt32 :=
  if rdna then (field d 1 30 0x3 ||| (field d 2 0 0xFFF <<< 2)) + 1 else field d 2 0 0x3FFF + 1

def baseHeight : UInt32 := field d 2 14 0x3FFF + 1

def basePitch : UInt32 := if rdna then baseWidth rdna d else field d 4 13 0x3FFF + 1

def imageType : UInt32 := field d 3 28 0xF

def is1d : Bool := imageType d = 8 ∨ imageType d = 12

def is3d : Bool := imageType d = 10

def hasSlices : Bool := imageType d = 13 ∨ imageType d = 12 ∨ imageType d = 11 ∨ is3d d

def descriptorLayers : UInt32 :=
  let rawLayers := field d 4 0 0x1FFF + 1
  if rdna ∧ imageType d = 11 then max rawLayers 6 else rawLayers

def linearGeneral : Bool := ¬rdna ∧ field d 3 20 0x1F = 31

def pow2Pad : Bool := ¬rdna ∧ field d 3 25 1 ≠ 0

def layers : UInt32 :=
  let padded := if pow2Pad rdna d then bitCeil (descriptorLayers rdna d) else descriptorLayers rdna d
  if hasSlices d then padded else 1

structure Format where
  gfmt : UInt32
  dfmt : UInt32
  nfmt : UInt32

def format : Format := ⟨field d 1 20 0x1FF, field d 1 20 0x3F, field d 1 26 0xF⟩

section Formats

variable (f : Format)

def isInt : Bool := f.nfmt = 4 ∨ f.nfmt = 5

def isRgba16 : Bool :=
  if rdna then f.gfmt ∈ [65, 71] else f.dfmt = 12 ∧ (f.nfmt = 0 ∨ f.nfmt = 7)

def isR11g11b10f : Bool := if rdna then f.gfmt ∈ [36] else f.dfmt = 6 ∧ f.nfmt = 7

def isRgba16u : Bool := if rdna then f.gfmt ∈ [69, 70] else f.dfmt = 12 ∧ isInt f

def isRg32Raw : Bool := if rdna then f.gfmt ∈ [62, 63, 64] else f.dfmt = 11 ∧ isInt f

def isRgba32Raw : Bool :=
  if rdna then f.gfmt ∈ [75, 76, 77, 179, 180] else f.dfmt = 14 ∧ isInt f

end Formats

def texelIdx (physicalMip physicalLayer x y : UInt32) : UInt32 :=
  let storedHeight := storedHeight (baseHeight d) physicalMip (pow2Pad rdna d)
  let pitch := linearMipPitch (basePitch rdna d) storedHeight physicalMip (linearGeneral rdna d)
    (pow2Pad rdna d)
  let layer := if hasSlices d then physicalLayer else 0
  let y := if is1d d then 0 else y
  let mipOff := mipChainOffset (basePitch rdna d) (baseHeight d) (layers rdna d) physicalMip
    (linearGeneral rdna d) (pow2Pad rdna d)
  let layerOff := layer * (pitch * storedHeight)
  mipOff + (layerOff + (y * pitch + x))

def dwordIdx (physicalMip physicalLayer x y : UInt32) : UInt32 :=
  let texelIdx := texelIdx rdna d physicalMip physicalLayer x y
  let f := format d
  let dwordIdx := if isRgba16 rdna f then texelIdx * 2 else texelIdx
  let dwordIdx := if isR11g11b10f rdna f then texelIdx * 4 else dwordIdx
  let dwordIdx := if isRgba16u rdna f ∨ isRg32Raw rdna f then texelIdx * 2 else dwordIdx
  if isRgba32Raw rdna f then texelIdx * 4 else dwordIdx

end Staged

end Prosperity.Gcn
