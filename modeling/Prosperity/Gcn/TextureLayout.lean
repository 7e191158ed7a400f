import Mathlib.Algebra.Group.Nat.Defs
import Prosperity.Foundations.Digits
import Prosperity.Gcn.TileModes

/-!
# Texture layouts

`BuildTextureLayout32` sizes the levels of a mip chain, with all their array layers, and places
them in the memory of a surface. A linear layout, of mode 8 or 31, has its levels one right behind
the other: the sizes of mode 8 are whole multiples of the alignment.
-/

namespace Prosperity.Gcn

/-! ## Definitions -/

structure TextureMipLayout32 where
  offset : ℕ := 0
  size : ℕ := 0
  width : ℕ := 0
  height : ℕ := 0
  pitch : ℕ := 0
  storedHeight : ℕ := 0
  thickness : ℕ := 1
  macroTiled : Bool := false
  mipTailX : ℕ := 0
  mipTailY : ℕ := 0
  deriving DecidableEq

structure TextureLayout32 where
  mips : List TextureMipLayout32
  size : ℕ
  mipLevels : ℕ
  layers : ℕ
  tilingIdx : ℕ
  elemBytes : ℕ
  layerStride : ℕ
  deriving DecidableEq

def shiftCeil (value shift : ℕ) : ℕ :=
  (value >>> shift) + if value &&& (1 <<< shift - 1) ≠ 0 then 1 else 0

def bitCeil (value : ℕ) : ℕ :=
  if value ≤ 1 then 1
  else
    let v := value - 1
    let v := v ||| v >>> 1
    let v := v ||| v >>> 2
    let v := v ||| v >>> 4
    let v := v ||| v >>> 8
    let v := v ||| v >>> 16
    v + 1

/-! ### gfx10 -/

section Gfx10

variable (width height pitch mipLevels swMode elem : ℕ)

def gfx10LinearLevel (mip : ℕ) : TextureMipLayout32 :=
  let pitchAlign := if swMode = 0 then 256 / elem else 1
  let rawPitch := if mipLevels > 1 then shiftCeil width mip else max width pitch
  let height' := max (height >>> mip) 1
  let pitch' := alignUp rawPitch pitchAlign
  let storedHeight := if mipLevels > 1 then shiftCeil height mip else height'
  { width := max (width >>> mip) 1, height := height', pitch := pitch', storedHeight,
    size := pitch' * storedHeight * elem }

variable (blockW blockH : ℕ)

def gfx10BlockLevel (mip : ℕ) : TextureMipLayout32 :=
  let pitch' := alignUp (shiftCeil width mip) blockW
  let storedHeight := alignUp (shiftCeil height mip) blockH
  { width := max (width >>> mip) 1, height := max (height >>> mip) 1, pitch := pitch',
    storedHeight, size := pitch' * storedHeight * elem }

/-- `tail_w` and `tail_h`, halved down to the micro tile. -/
def tailExtent (first micro : ℕ) : ℕ → ℕ
  | 0 => first
  | t + 1 => max (tailExtent first micro t >>> 1) micro

def tailBits (tailOffset first : ℕ) : ℕ :=
  (List.range 6).foldl (fun v i => v ||| ((tailOffset >>> (first + 2 * i)) &&& 1) <<< i) 0

/-- The offset that places level `t` of a tail of at most `maxInTail` levels. -/
def tailOffset (maxInTail t : ℕ) : ℕ :=
  let order := maxInTail - 1 - t
  if order > 6 then 16 <<< order else order <<< 8

/-- A level of the mip tail, which is the `t`-th one there. -/
def gfx10TailLevel (maxInTail t mip : ℕ) : TextureMipLayout32 :=
  let micro := gfx10MicroShape elem
  let tailW := tailExtent (blockW / 2) micro.1 t
  let tailH := tailExtent blockH micro.2 t
  { width := max (width >>> mip) 1, height := max (height >>> mip) 1, pitch := tailW,
    storedHeight := tailH, size := tailW * tailH * elem,
    mipTailX := tailBits (tailOffset maxInTail t) 9 * micro.1,
    mipTailY := tailBits (tailOffset maxInTail t) 8 * micro.2 }

def gfx10FirstTail (blkLog2 maxInTail : ℕ) : ℕ :=
  if blkLog2 > 8 ∧ mipLevels > 1 then
    ((List.range mipLevels).find? fun mip =>
      shiftCeil width mip ≤ blockW / 2 && shiftCeil height mip ≤ blockH && mipLevels - mip ≤ maxInTail).getD mipLevels
  else mipLevels

end Gfx10

def placeDownwards (start : ℕ) : List TextureMipLayout32 → List TextureMipLayout32 × ℕ
  | [] => ([], start)
  | level :: levels =>
    let (placed, chain) := placeDownwards start levels
    ({ level with offset := chain } :: placed, chain + level.size)

/-- `BuildGfx10Layout`, `none` where it returns false. -/
def buildGfx10Layout (width height pitch layers mipLevels swMode elem : ℕ) : Option TextureLayout32 :=
  let mode := gfx10ModeOf swMode
  if mode.set = .kG10_None then none
  else
    let (mips, chain) :=
      if mode.set = .kG10_Linear then
        placeDownwards 0
          ((List.range mipLevels).map (gfx10LinearLevel width height pitch mipLevels swMode elem))
      else
        let (blockW, blockH) := gfx10BlockDim mode.blkLog2 (gfx10ElemLog2 elem)
        let maxInTail := if mode.blkLog2 > 8 then mode.blkLog2 - 4 else 0
        let firstTail :=
          gfx10FirstTail width height mipLevels blockW blockH mode.blkLog2 maxInTail
        let (placed, chain) :=
          placeDownwards (if firstTail < mipLevels then 1 <<< mode.blkLog2 else 0)
            ((List.range firstTail).map (gfx10BlockLevel width height elem blockW blockH))
        (placed ++ (List.range (mipLevels - firstTail)).map fun t =>
          gfx10TailLevel width height elem blockW blockH maxInTail t (firstTail + t), chain)
    let size := chain * layers
    if size = 0 then none
    else
      some { mips, size, mipLevels, layers, tilingIdx := kGfx10TilingBase + swMode,
             elemBytes := elem, layerStride := chain }

/-! ### Liverpool, and the gfx10 standard modes -/

def padPitch : ℕ → ℕ → ℕ → ℕ
  | 0, pitch, _ => pitch
  | turns + 1, pitch, storedHeight =>
    if pitch * storedHeight % 64 ≠ 0 then padPitch turns (pitch + 16) storedHeight else pitch

structure LevelShape where
  pitch : ℕ
  storedHeight : ℕ
  macroTiled : Bool
  baseAlign : ℕ

def levelShape (tilingIdx elem : ℕ) (macroTile : Option Macro2D) (mip rawPitch storageHeight : ℕ) : LevelShape :=
  if tilingIsGfx10Std tilingIdx then
    let bw := (gfx10MicroShape elem).1 * gfx10BlockTiles tilingIdx
    let bh := (gfx10MicroShape elem).2 * gfx10BlockTiles tilingIdx
    ⟨alignUp rawPitch bw, alignUp storageHeight bh, false, bw * bh * elem⟩
  else if tilingIdx = 31 then ⟨rawPitch, storageHeight, false, 1⟩
  else if tilingIdx = 8 then
    ⟨padPitch 4 (alignUp rawPitch 16) storageHeight, storageHeight, false, 256⟩
  else
    match macroTile with
    | some c =>
      if mip > 0 ∧ (rawPitch < c.macroPitch ∨ storageHeight < c.macroHeight) then
        ⟨alignUp rawPitch kMicroW, alignUp storageHeight kMicroH, false, 256⟩
      else ⟨alignUp rawPitch c.macroPitch, alignUp storageHeight c.macroHeight, true, c.baseAlign⟩
    | none => ⟨alignUp rawPitch kMicroW, alignUp storageHeight kMicroH, false, 256⟩

/-- `raw_pitch` of a level. -/
def rawPitch (width pitch : ℕ) (pow2Pad : Bool) (mip : ℕ) : ℕ :=
  let raw := max (max (pitch >>> mip) 1) (max (width >>> mip) 1)
  if pow2Pad then bitCeil raw else raw

/-- `storage_height` of a level. -/
def storageHeight (height : ℕ) (pow2Pad : Bool) (mip : ℕ) : ℕ :=
  let height' := max (height >>> mip) 1
  if pow2Pad then bitCeil height' else height'

/-- A level of a shape that begins behind `end_`, `none` where the loop returns false. -/
def placeLevel (width height layers thickness elem : ℕ) (shape : LevelShape) (end_ : ℕ) : Option TextureMipLayout32 :=
  let storedLayers := alignUp layers thickness
  let offset := alignUp end_ shape.baseAlign
  let size := shape.pitch * shape.storedHeight * storedLayers * elem
  if size = 0 ∨ offset > 2 ^ 64 - 1 - size then none
  else
    some { offset, size, width, height, pitch := shape.pitch, storedHeight := shape.storedHeight,
           thickness, macroTiled := shape.macroTiled }

def layoutLevel (width height pitch layers tilingIdx elem : ℕ) (pow2Pad : Bool)
    (macroTile : Option Macro2D) (mip end_ : ℕ) : Option TextureMipLayout32 :=
  placeLevel (max (width >>> mip) 1) (max (height >>> mip) 1) layers
    (tileThickness (arrayModeOf tilingIdx)) elem
    (levelShape tilingIdx elem macroTile mip (rawPitch width pitch pow2Pad mip)
      (storageHeight height pow2Pad mip)) end_

/-- Places `n` levels from `mip` on, each behind the one before, and gives the end. -/
def placeUpwards (level : ℕ → ℕ → Option TextureMipLayout32) : ℕ → ℕ → ℕ → Option (List TextureMipLayout32 × ℕ)
  | 0, _, end_ => some ([], end_)
  | n + 1, mip, end_ =>
    (level mip end_).bind fun first =>
      (placeUpwards level n (mip + 1) (first.offset + first.size)).map fun rest =>
        (first :: rest.1, rest.2)

/-- `BuildTextureLayout32`, `none` where it returns false. -/
def buildTextureLayout32 (width height pitch layers mipLevels tilingIdx : ℕ) (pow2Pad : Bool)
    (elemBytes : ℕ) : Option TextureLayout32 :=
  if width = 0 ∨ height = 0 ∨ layers = 0 ∨ mipLevels = 0 ∨ mipLevels > 16 ∨ width > 16384 ∨
      height > 16384 ∨ pitch > 16384 ∨ layers > 8192 ∨ validTileMode tilingIdx = false then none
  else if elemBytes ≠ 1 ∧ elemBytes ≠ 2 ∧ elemBytes ≠ 4 ∧ elemBytes ≠ 8 ∧ elemBytes ≠ 16 then none
  else
    let idx := effectiveTileMode tilingIdx
    if tilingIsGfx10 idx then
      buildGfx10Layout width height pitch layers mipLevels (idx - kGfx10TilingBase) elemBytes
    else
      let am := arrayModeOf idx
      let macroTile := configureMacro2D idx am (microModeOf idx) elemBytes
      if isMacroTiled am ∧ macroTile = none then none
      else
        (placeUpwards (layoutLevel width height pitch layers idx elemBytes pow2Pad
            (if isMacroTiled am then macroTile else none)) mipLevels 0 0).bind fun (mips, size) =>
          if size = 0 then none
          else some ⟨mips, size, mipLevels, layers, idx, elemBytes, 0⟩

/-- `out.mips[mip]`; the levels that are not there are zero. -/
def TextureLayout32.mip (t : TextureLayout32) (k : ℕ) : TextureMipLayout32 := t.mips.getD k {}

/-! ## The loop of mode 8 -/

/-- One turn of the loop. -/
def padStep (storedHeight pitch : ℕ) : ℕ :=
  if pitch * storedHeight % 64 ≠ 0 then pitch + 16 else pitch

theorem padPitch_succ (turns pitch storedHeight : ℕ) : padPitch (turns + 1) pitch storedHeight =
    padPitch turns (padStep storedHeight pitch) storedHeight := by
  rw [padPitch, padStep]
  split_ifs with hmod
  · rfl
  · induction turns with
    | zero => rfl
    | succ turns ih => rw [padPitch, if_neg hmod]

theorem exists_mul_mod_four : ∀ a < 4, ∀ b < 4,
    a * b % 4 = 0 ∨ (a + 1) % 4 * b % 4 = 0 ∨ (a + 2) % 4 * b % 4 = 0 ∨ (a + 3) % 4 * b % 4 = 0 := by
  decide

/-- **The loop ends** after at most three turns: one of four multiples of 16 in a row gives a product
that is a multiple of 64. -/
theorem padPitch_mod (k storedHeight : ℕ) : padPitch 3 (16 * k) storedHeight * storedHeight % 64 = 0 := by
  have hmod : ∀ j : ℕ, 16 * j * storedHeight % 64 = 16 * (j % 4 * (storedHeight % 4) % 4) := by
    intro j
    rw [Nat.mul_assoc, ← Nat.mul_mod]
    omega
  have htable := exists_mul_mod_four (k % 4) (Nat.mod_lt _ (by decide)) (storedHeight % 4)
    (Nat.mod_lt _ (by decide))
  have h0 := hmod k
  have h1 := hmod (k + 1)
  have h2 := hmod (k + 2)
  have h3 := hmod (k + 3)
  rw [Nat.mul_add] at h1 h2 h3
  rw [← Nat.mod_add_mod] at h1 h2 h3
  simp only [padPitch]
  split_ifs with hk hk1 hk2
  · -- The first three are none, and so it is the fourth.
    have e1 : 16 * k + 16 = 16 * k + 16 * 1 := rfl
    have e2 : 16 * k + 16 + 16 = 16 * k + 16 * 2 := rfl
    have e3 : 16 * k + 16 + 16 + 16 = 16 * k + 16 * 3 := rfl
    rw [h0] at hk
    rw [e1, h1] at hk1
    rw [e2, h2] at hk2
    rw [e3, h3]
    omega
  · exact not_not.mp hk2
  · exact not_not.mp hk1
  · exact not_not.mp hk

theorem padPitch_succ_last (turns pitch storedHeight : ℕ) : padPitch (turns + 1) pitch storedHeight =
      padStep storedHeight (padPitch turns pitch storedHeight) := by
  induction turns generalizing pitch with
  | zero => exact padPitch_succ 0 pitch storedHeight
  | succ turns ih => rw [padPitch_succ, ih, ← padPitch_succ]

theorem padPitch_four {pitch : ℕ} (h : 16 ∣ pitch) (storedHeight : ℕ) :
    padPitch 4 pitch storedHeight = padPitch 3 pitch storedHeight := by
  obtain ⟨k, rfl⟩ := h
  rw [padPitch_succ_last, padStep, if_neg (not_not.mpr (padPitch_mod k storedHeight))]

/-! ## Linear layouts -/

structure LinearImage where
  general : Bool
  pow2Pad : Bool
  width : ℕ
  height : ℕ
  pitch : ℕ
  layers : ℕ

namespace LinearImage

variable (s : LinearImage)

def rawPitch (mip : ℕ) : ℕ := Gcn.rawPitch s.width s.pitch s.pow2Pad mip

def storedHeight (mip : ℕ) : ℕ := storageHeight s.height s.pow2Pad mip

def pitchAt (mip : ℕ) : ℕ :=
  if s.general then s.rawPitch mip
  else padPitch 3 (alignUp (s.rawPitch mip) 16) (s.storedHeight mip)

def levelTexels (mip : ℕ) : ℕ := s.pitchAt mip * s.storedHeight mip * s.layers

def start (mip : ℕ) : ℕ := ((List.range mip).map s.levelTexels).sum

theorem start_succ (mip : ℕ) : s.start (mip + 1) = s.start mip + s.levelTexels mip := by
  simp [start, List.range_succ]

theorem start_mono {m n : ℕ} (h : m ≤ n) : s.start m ≤ s.start n := by
  induction n, h using Nat.le_induction with
  | base => exact Nat.le_refl _
  | succ n _ ih => exact Nat.le_trans ih (by rw [start_succ]; exact Nat.le_add_right _ _)

/-- The level of the layout, with elements of `elem` bytes. -/
def level (elem mip : ℕ) : TextureMipLayout32 where
  offset := s.start mip * elem
  size := s.levelTexels mip * elem
  width := max (s.width >>> mip) 1
  height := max (s.height >>> mip) 1
  pitch := s.pitchAt mip
  storedHeight := s.storedHeight mip

def tilingIdx : ℕ := if s.general then 31 else 8

end LinearImage

theorem alignUp_of_dvd {k v : ℕ} (h : 2 ^ k ∣ v) : alignUp v (2 ^ k) = v := by
  obtain ⟨q, rfl⟩ := h
  have hpos := Nat.two_pow_pos k
  rw [alignUp, andNot_two_pow]
  have hdiv : (2 ^ k * q + 2 ^ k - 1) / 2 ^ k = q := by
    rw [Nat.add_sub_assoc (Nat.succ_le_of_lt hpos), Nat.mul_add_div hpos,
      Nat.div_eq_of_lt (Nat.sub_lt hpos Nat.one_pos), Nat.add_zero]
  rw [hdiv]

theorem LinearImage.levelTexels_mod {s : LinearImage} (h : s.general = false) (mip : ℕ) : 64 ∣ s.levelTexels mip := by
  obtain ⟨k, hk⟩ : 16 ∣ alignUp (s.rawPitch mip) 16 := dvd_alignUp (k := 4) _
  have hpitch : s.pitchAt mip = padPitch 3 (16 * k) (s.storedHeight mip) := by
    rw [LinearImage.pitchAt, h, ← hk]
    rfl
  have hmod := padPitch_mod k (s.storedHeight mip)
  rw [← hpitch] at hmod
  exact Nat.dvd_mul_right_of_dvd (Nat.dvd_of_mod_eq_zero hmod) _

theorem LinearImage.start_mod {s : LinearImage} (h : s.general = false) (mip : ℕ) : 64 ∣ s.start mip := by
  induction mip with
  | zero => exact Nat.dvd_zero _
  | succ mip ih =>
    rw [start_succ]
    exact Nat.dvd_add ih (levelTexels_mod h mip)

theorem LinearImage.levelShape_eq (s : LinearImage) (elem mip : ℕ) :
    levelShape s.tilingIdx elem none mip (s.rawPitch mip) (s.storedHeight mip) =
      ⟨s.pitchAt mip, s.storedHeight mip, false, if s.general then 1 else 256⟩ := by
  cases hgeneral : s.general with
  | true =>
    have htiling : s.tilingIdx = 31 := by rw [tilingIdx, hgeneral]; rfl
    have hshape : ∀ p h, levelShape 31 elem none mip p h = ⟨p, h, false, 1⟩ := fun _ _ => rfl
    rw [htiling, hshape, pitchAt, hgeneral]
    rfl
  | false =>
    have htiling : s.tilingIdx = 8 := by rw [tilingIdx, hgeneral]; rfl
    have hshape : ∀ p h, levelShape 8 elem none mip p h = ⟨padPitch 4 (alignUp p 16) h, h, false, 256⟩ := fun _ _ => rfl
    have hdvd : 16 ∣ alignUp (s.rawPitch mip) 16 := dvd_alignUp (k := 4) _
    rw [htiling, hshape, pitchAt, hgeneral, padPitch_four hdvd]
    rfl

theorem LinearImage.alignUp_start {s : LinearImage} {elem : ℕ} (helem : 4 ∣ elem) (mip : ℕ) :
    alignUp (s.start mip * elem) (if s.general then 1 else 256) = s.start mip * elem := by
  cases hgeneral : s.general with
  | true => exact alignUp_of_dvd (k := 0) (Nat.one_dvd _)
  | false =>
    have hdvd : 64 * 4 ∣ s.start mip * elem := Nat.mul_dvd_mul (start_mod hgeneral mip) helem
    exact alignUp_of_dvd (k := 8) hdvd

/-- **A level of a linear layout** that begins where the levels before it end. -/
theorem LinearImage.layoutLevel_eq {s : LinearImage} {elem mip : ℕ} (helem : 4 ∣ elem) {v : TextureMipLayout32}
    (h : layoutLevel s.width s.height s.pitch s.layers s.tilingIdx elem s.pow2Pad none mip
      (s.start mip * elem) = some v) : v = s.level elem mip := by
  have hthick : tileThickness (arrayModeOf s.tilingIdx) = 1 := by
    rw [tilingIdx]
    split_ifs
    · rfl
    · rfl
  have hlayers : alignUp s.layers 1 = s.layers := alignUp_of_dvd (k := 0) (Nat.one_dvd _)
  have hshape := s.levelShape_eq elem mip
  rw [rawPitch, storedHeight] at hshape
  rw [layoutLevel, hshape, hthick, placeLevel] at h
  dsimp only at h
  rw [hlayers, alignUp_start helem] at h
  split_ifs at h
  obtain rfl := Option.some.inj h
  rfl

theorem LinearImage.placeUpwards_eq {s : LinearImage} {elem : ℕ} (helem : 4 ∣ elem) {n mip : ℕ}
    {r : List TextureMipLayout32 × ℕ}
    (h : placeUpwards (layoutLevel s.width s.height s.pitch s.layers s.tilingIdx elem s.pow2Pad none)
      n mip (s.start mip * elem) = some r) :
    r = ((List.range' mip n).map (s.level elem), s.start (mip + n) * elem) := by
  induction n generalizing mip r with
  | zero =>
    obtain rfl := Option.some.inj h
    rfl
  | succ n ih =>
    obtain ⟨first, hfirst, h⟩ := Option.bind_eq_some_iff.mp h
    obtain ⟨rest, hrest, rfl⟩ := Option.map_eq_some_iff.mp h
    obtain rfl := layoutLevel_eq helem hfirst
    have hend : (s.level elem mip).offset + (s.level elem mip).size = s.start (mip + 1) * elem := by
      rw [start_succ, Nat.add_mul]
      rfl
    rw [hend] at hrest
    rw [ih hrest, List.range'_succ, List.map_cons, Nat.add_right_comm, Nat.add_assoc mip]

/-- **A linear layout** has the levels of its image, one right behind the other. -/
theorem buildTextureLayout32_linear {s : LinearImage} {mipLevels elem : ℕ} {t : TextureLayout32} (helem : 4 ∣ elem)
    (h : buildTextureLayout32 s.width s.height s.pitch s.layers mipLevels s.tilingIdx s.pow2Pad elem = some t) :
    t = ⟨(List.range mipLevels).map (s.level elem), s.start mipLevels * elem, mipLevels, s.layers,
        s.tilingIdx, elem, 0⟩ ∧ mipLevels ≤ 16 ∧ 0 < s.width ∧ s.width ≤ 16384 ∧ 0 < s.height ∧ s.height ≤ 16384 ∧
        s.pitch ≤ 16384 ∧ s.layers ≤ 8192 := by
  have htiling : effectiveTileMode s.tilingIdx = s.tilingIdx ∧ tilingIsGfx10 s.tilingIdx = false ∧
      isMacroTiled (arrayModeOf s.tilingIdx) = false := by
    rw [LinearImage.tilingIdx]
    split_ifs
    · decide
    · decide
  obtain ⟨heffective, hgfx10, hmacro⟩ := htiling
  unfold buildTextureLayout32 at h
  split at h
  · cases h
  rename_i hbounds
  split at h
  · cases h
  dsimp only at h
  rw [heffective, hgfx10, hmacro] at h
  simp only [Bool.false_eq_true, if_false, false_and] at h
  obtain ⟨⟨mips, size⟩, hplaced, h⟩ := Option.bind_eq_some_iff.mp h
  dsimp only at h
  have hzero : s.start 0 * elem = 0 := Nat.zero_mul _
  have hchain : placeUpwards (layoutLevel s.width s.height s.pitch s.layers s.tilingIdx elem
      s.pow2Pad none) mipLevels 0 (s.start 0 * elem) = some (mips, size) := by
    rw [hzero]
    exact hplaced
  obtain ⟨rfl, rfl⟩ := Prod.mk.inj (s.placeUpwards_eq helem hchain)
  split_ifs at h
  obtain rfl := Option.some.inj h
  refine ⟨?_, by omega⟩
  rw [Nat.zero_add, List.range_eq_range']

end Prosperity.Gcn
