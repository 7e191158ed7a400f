import Mathlib.Tactic.Ring
import Prosperity.Gcn.StagedImage

/-!
# Addresses of staged images

The shader computes the pitch and the height of a level with 32-bit operations and a padding of three
steps, the host with loops on larger numbers. Both give the pitch and the height of the same linear
image, and so the same addresses, if the descriptor describes the same image to both: its pitch covers
its width, an image of one dimension has no height, and a cube map has one level.
-/

namespace Prosperity.Gcn

/-! ## The smearing of bits -/

/-- The bits of a number below its highest one, all set. -/
def smear (v : ℕ) : ℕ :=
  let v := v ||| v >>> 1
  let v := v ||| v >>> 2
  let v := v ||| v >>> 4
  let v := v ||| v >>> 8
  v ||| v >>> 16

theorem bitCeil_eq (v : ℕ) : bitCeil v = smear (max v 1 - 1) + 1 := by
  rcases Nat.lt_or_ge 1 v with hv | hv
  · rw [bitCeil, if_neg (Nat.not_le.mpr hv), Nat.max_eq_left (Nat.le_of_lt hv)]
    rfl
  · rw [bitCeil, if_pos hv, Nat.max_eq_right hv]
    rfl

theorem or_shiftRight_lt {v k : ℕ} (h : v < 2 ^ k) (s : ℕ) : v ||| v >>> s < 2 ^ k :=
  Nat.or_lt_two_pow h (Nat.lt_of_le_of_lt (Nat.shiftRight_le v s) h)

theorem smear_lt {v k : ℕ} (h : v < 2 ^ k) : smear v < 2 ^ k :=
  or_shiftRight_lt (or_shiftRight_lt (or_shiftRight_lt (or_shiftRight_lt (or_shiftRight_lt h _) _) _)
    _) _

theorem le_smear (v : ℕ) : v ≤ smear v := by
  unfold smear
  dsimp only
  refine Nat.le_trans ?_ Nat.left_le_or
  refine Nat.le_trans ?_ Nat.left_le_or
  refine Nat.le_trans ?_ Nat.left_le_or
  refine Nat.le_trans ?_ Nat.left_le_or
  exact Nat.left_le_or

theorem le_bitCeil (v : ℕ) : v ≤ bitCeil v := by
  have hsmear := le_smear (max v 1 - 1)
  rw [bitCeil_eq]
  omega

theorem bitCeil_le {v k : ℕ} (h : v ≤ 2 ^ k) : bitCeil v ≤ 2 ^ k := by
  have hpos := Nat.two_pow_pos k
  have hlt : max v 1 - 1 < 2 ^ k := by omega
  rw [bitCeil_eq]
  exact smear_lt hlt

/-! ## The operations -/

namespace Staged

theorem toNat_shr (u s : UInt32) : (shr u s).toNat = u.toNat >>> (s.toNat % 32) := by
  have h31 : (31 : UInt32).toNat = 2 ^ 5 - 1 := rfl
  rw [shr, UInt32.toNat_shiftRight, UInt32.toNat_and, h31, Nat.and_two_pow_sub_one_eq_mod]
  congr 1
  exact Nat.mod_mod _ _

theorem toNat_max (a b : UInt32) : (max a b).toNat = max a.toNat b.toNat := by
  change (if a ≤ b then b else a).toNat = _
  split_ifs with h
  · exact (Nat.max_eq_right (UInt32.le_iff_toNat_le.mp h)).symm
  · rw [UInt32.le_iff_toNat_le] at h
    omega

theorem toNat_max1 (u : UInt32) : (max1 u).toNat = max u.toNat 1 := toNat_max u 1

theorem toNat_smeared (u : UInt32) : (let v := u ||| shr u 1
      let v := v ||| shr v 2
      let v := v ||| shr v 4
      let v := v ||| shr v 8
      v ||| shr v 16).toNat = smear u.toNat := by
  simp only [UInt32.toNat_or, toNat_shr]
  rfl

theorem toNat_bitCeil {u : UInt32} (h : u.toNat ≤ 2 ^ 31) : (bitCeil u).toNat = Gcn.bitCeil u.toNat := by
  have hone : (1 : UInt32) ≤ max1 u := by
    rw [UInt32.le_iff_toNat_le, toNat_max1]
    exact Nat.le_max_right _ _
  have hv : (max1 u - 1).toNat = max u.toNat 1 - 1 := by
    rw [UInt32.toNat_sub_of_le _ _ hone, toNat_max1]
    rfl
  have hlt : max u.toNat 1 - 1 < 2 ^ 31 := by omega
  have hsmear := smear_lt hlt
  have hsum := toNat_smeared (max1 u - 1)
  rw [hv] at hsum
  rw [bitCeil_eq, ← hsum, bitCeil, UInt32.toNat_add]
  rw [← hsum] at hsmear
  refine Nat.mod_eq_of_lt (Nat.lt_of_lt_of_le (Nat.add_lt_add_right hsmear _) ?_)
  decide

theorem and_not (x m : UInt32) : x &&& ~~~m = x ^^^ (x &&& m) := by
  apply UInt32.toBitVec_inj.mp
  ext i
  simp only [UInt32.toBitVec_and, UInt32.toBitVec_not, UInt32.toBitVec_xor, BitVec.getElem_and,
    BitVec.getElem_not, BitVec.getElem_xor]
  cases x.toBitVec[i] <;> simp

theorem toNat_align {u : UInt32} (h : u.toNat ≤ 2 ^ 31) : ((u + 15) &&& ~~~15).toNat = alignUp u.toNat 16 := by
  rw [and_not, UInt32.toNat_xor, UInt32.toNat_and, UInt32.toNat_add]
  have h15 : (15 : UInt32).toNat = 15 := rfl
  rw [h15, Nat.mod_eq_of_lt (by omega)]
  rfl

theorem toNat_padAligned {height aligned : UInt32} (h : aligned.toNat + 16 < 2 ^ 32) :
    (padAligned height aligned).toNat = padStep height.toNat aligned.toNat := by
  have hok : (aligned * height) &&& 63 = 0 ↔ aligned.toNat * height.toNat % 64 = 0 := by
    have h63 : (63 : UInt32).toNat = 2 ^ 6 - 1 := rfl
    rw [← UInt32.toNat_inj, UInt32.toNat_and, h63, Nat.and_two_pow_sub_one_eq_mod, UInt32.toNat_mul,
      Nat.mod_mod_of_dvd _ (by decide)]
    rfl
  rw [padAligned, padStep]
  by_cases hmod : aligned.toNat * height.toNat % 64 = 0
  · rw [if_pos (hok.mpr hmod), if_neg (not_not.mpr hmod)]
  · rw [if_neg fun hz => hmod (hok.mp hz), if_pos hmod, UInt32.toNat_add]
    exact Nat.mod_eq_of_lt h

theorem padStep_le (storedHeight pitch : ℕ) : padStep storedHeight pitch ≤ pitch + 16 := by
  rw [padStep]
  split_ifs
  · exact Nat.le_refl _
  · exact Nat.le_add_right _ _

theorem toNat_padAligned_three {height aligned : UInt32} (h : aligned.toNat ≤ 2 ^ 31) :
    (padAligned height (padAligned height (padAligned height aligned))).toNat =
      padPitch 3 aligned.toNat height.toNat := by
  have h1 : (padAligned height aligned).toNat = padStep height.toNat aligned.toNat :=
    toNat_padAligned (by omega)
  have hle1 := padStep_le height.toNat aligned.toNat
  have h2 : (padAligned height (padAligned height aligned)).toNat =
      padStep height.toNat (padStep height.toNat aligned.toNat) := by
    rw [toNat_padAligned (by omega), h1]
  have hle2 := padStep_le height.toNat (padStep height.toNat aligned.toNat)
  rw [toNat_padAligned (by omega), h2, padPitch_succ_last, padPitch_succ_last, padPitch_succ_last]
  rfl

/-! ## The levels -/

structure Covers (s : LinearImage) (basePitch baseHeight : UInt32) : Prop where
  pitch : basePitch.toNat = s.pitch
  height : baseHeight.toNat = s.height
  width_le : s.width ≤ s.pitch
  pitch_le : s.pitch ≤ 16384
  height_le : s.height ≤ 16384

variable {s : LinearImage} {basePitch baseHeight : UInt32} {k : ℕ}

theorem toNat_ofNat_level (hk : k < 16) : (UInt32.ofNat k).toNat % 32 = k := by
  rw [UInt32.toNat_ofNat', Nat.mod_eq_of_lt (by omega), Nat.mod_eq_of_lt (by omega)]

theorem toNat_storedHeight (h : Covers s basePitch baseHeight) (hk : k < 16) :
    (storedHeight baseHeight (.ofNat k) s.pow2Pad).toNat = s.storedHeight k := by
  have hheight : (max1 (shr baseHeight (.ofNat k))).toNat = max (s.height >>> k) 1 := by
    rw [toNat_max1, toNat_shr, toNat_ofNat_level hk, h.height]
  have hle : s.height >>> k ≤ s.height := Nat.shiftRight_le _ _
  have hmax := h.height_le
  rw [storedHeight, LinearImage.storedHeight, storageHeight]
  cases s.pow2Pad with
  | true =>
    rw [if_pos rfl, if_pos rfl, toNat_bitCeil (by omega), hheight]
  | false => exact hheight

theorem rawPitch_eq (h : Covers s basePitch baseHeight) (k : ℕ) :
    s.rawPitch k = if s.pow2Pad then Gcn.bitCeil (max (s.pitch >>> k) 1) else max (s.pitch >>> k) 1 := by
  have hle : s.width >>> k ≤ s.pitch >>> k := shiftRight_mono h.width_le k
  have hmax : max (max (s.pitch >>> k) 1) (max (s.width >>> k) 1) = max (s.pitch >>> k) 1 := by
    omega
  rw [LinearImage.rawPitch, Gcn.rawPitch, hmax]

theorem rawPitch_le (h : Covers s basePitch baseHeight) (k : ℕ) : s.rawPitch k ≤ 2 ^ 14 := by
  have hle : s.pitch >>> k ≤ s.pitch := Nat.shiftRight_le _ _
  have hmax := h.pitch_le
  have hraw : max (s.pitch >>> k) 1 ≤ 2 ^ 14 := by omega
  rw [rawPitch_eq h]
  split_ifs
  · exact bitCeil_le hraw
  · exact hraw

/-- **The pitch** that the shader computes for a level is the one of the layout. -/
theorem toNat_linearMipPitch (h : Covers s basePitch baseHeight) (hk : k < 16) :
    (linearMipPitch basePitch (storedHeight baseHeight (.ofNat k) s.pow2Pad) (.ofNat k) s.general
      s.pow2Pad).toNat = s.pitchAt k := by
  have hshift : (max1 (shr basePitch (.ofNat k))).toNat = max (s.pitch >>> k) 1 := by
    rw [toNat_max1, toNat_shr, toNat_ofNat_level hk, h.pitch]
  have hle : s.pitch >>> k ≤ s.pitch := Nat.shiftRight_le _ _
  have hmax := h.pitch_le
  have hraw : (if s.pow2Pad = true then bitCeil (max1 (shr basePitch (.ofNat k)))
      else max1 (shr basePitch (.ofNat k))).toNat = s.rawPitch k := by
    rw [rawPitch_eq h]
    cases s.pow2Pad with
    | true => rw [if_pos rfl, if_pos rfl, toNat_bitCeil (by omega), hshift]
    | false => exact hshift
  have hbound := rawPitch_le h k
  rw [linearMipPitch, LinearImage.pitchAt]
  cases s.general with
  | true => exact hraw
  | false =>
    have halign := toNat_align (u := if s.pow2Pad = true then
      bitCeil (max1 (shr basePitch (.ofNat k))) else max1 (shr basePitch (.ofNat k))) (by omega)
    rw [hraw] at halign
    have hstored := toNat_storedHeight h hk
    have hup : alignUp (s.rawPitch k) 16 ≤ 2 ^ 31 := by
      have hround : alignUp (s.rawPitch k) 16 = 2 ^ 4 * ((s.rawPitch k + 15) / 2 ^ 4) :=
        andNot_two_pow _ 4
      omega
    simp only [Bool.false_eq_true, if_false]
    rw [toNat_padAligned_three (by omega), halign, hstored]

/-- **The offset of a level** that the shader sums up is where the level begins. -/
theorem mipChainOffset_eq (h : Covers s basePitch baseHeight) {layers : UInt32}
    (hlayers : layers.toNat = s.layers) (hk : k ≤ 16) :
    mipChainOffset basePitch baseHeight layers (.ofNat k) s.general s.pow2Pad = .ofNat (s.start k) := by
  have hmin : (min (UInt32.ofNat k) 16).toNat = k := by
    have hle : UInt32.ofNat k ≤ 16 := by
      rw [UInt32.le_iff_toNat_le, UInt32.toNat_ofNat', Nat.mod_eq_of_lt (by omega)]
      exact hk
    change (if UInt32.ofNat k ≤ 16 then UInt32.ofNat k else 16).toNat = k
    rw [if_pos hle, UInt32.toNat_ofNat', Nat.mod_eq_of_lt (by omega)]
  rw [mipChainOffset, hmin]
  clear hmin
  induction k with
  | zero => rfl
  | succ k ih =>
    have hlt : k < 16 := by omega
    rw [List.range_succ, List.foldl_append, ih (by omega), List.foldl_cons, List.foldl_nil,
      LinearImage.start_succ, UInt32.ofNat_add, LinearImage.levelTexels, UInt32.ofNat_mul,
      UInt32.ofNat_mul, ← hlayers, ← toNat_linearMipPitch h hlt, ← toNat_storedHeight h hlt]
    simp only [UInt32.ofNat_toNat]

/-! ## Dwords of a texel -/

variable (rdna : Bool) (d : ℕ → UInt32)

/-- The dwords that a staged texel takes. -/
def scale (f : Format) : ℕ :=
  if isRgba32Raw rdna f then 4
  else if isRgba16u rdna f ∨ isRg32Raw rdna f then 2
  else if isR11g11b10f rdna f then 4
  else if isRgba16 rdna f then 2
  else 1

theorem scale_pos (f : Format) : 0 < scale rdna f := by
  rw [scale]
  split_ifs <;> decide

theorem dwordIdx_eq (mip layer x y : UInt32) : dwordIdx rdna d mip layer x y =
    texelIdx rdna d mip layer x y * .ofNat (scale rdna (format d)) := by
  rw [dwordIdx, scale]
  split_ifs
  · rfl
  · rfl
  · rfl
  · rfl
  · exact (UInt32.mul_one _).symm

theorem toNat_field {i : ℕ} {shift mask : UInt32} (h : shift.toNat < 32) :
    (field d i shift mask).toNat = word d i shift.toNat mask.toNat := by
  rw [field, UInt32.toNat_and, toNat_shr, Nat.mod_eq_of_lt h]
  rfl

theorem field_eq_iff {i : ℕ} {shift mask v : UInt32} (h : shift.toNat < 32) :
    field d i shift mask = v ↔ word d i shift.toNat mask.toNat = v.toNat := by
  rw [← UInt32.toNat_inj, toNat_field d h]

theorem word_lt (i shift k : ℕ) : word d i shift (2 ^ k - 1) < 2 ^ k := by
  rw [word, Nat.and_two_pow_sub_one_eq_mod]
  exact Nat.mod_lt _ (Nat.two_pow_pos k)

theorem format_of_gcnElemBytes {dfmt nfmt : ℕ} {e : ℕ × ℕ} (h : e ∈ gcnElemBytes dfmt nfmt) : dfmt < 15 ∧ nfmt < 8 := by
  by_contra hout
  have hnone : gcnElemBytes dfmt nfmt = none := if_neg (by omega)
  rw [hnone] at h
  cases h

theorem gcnElemBytes_scale : ∀ dfmt < 2 ^ 6, ∀ nfmt < 2 ^ 4, ∀ e ∈ gcnElemBytes dfmt nfmt,
    e.2 = 4 * scale false ⟨0, .ofNat dfmt, .ofNat nfmt⟩ := by
  have hall : ∀ dfmt < 15, ∀ nfmt < 8, ∀ e ∈ gcnElemBytes dfmt nfmt,
      e.2 = 4 * scale false ⟨0, .ofNat dfmt, .ofNat nfmt⟩ := by decide +kernel
  intro dfmt _ nfmt _ e he
  obtain ⟨hdfmt, hnfmt⟩ := format_of_gcnElemBytes he
  exact hall dfmt hdfmt nfmt hnfmt e he

theorem rdnaElemBytes_scale : ∀ gfmt < 2 ^ 9, ∀ written fit : Bool,
    ∀ e ∈ rdnaElemBytes written fit (gfx10ImgFormat gfmt).1 (gfx10ImgFormat gfmt).2,
      e.2.1 = 4 * scale true ⟨.ofNat gfmt, 0, 0⟩ := by
  intro gfmt _
  unfold gfx10ImgFormat
  -- the formats the table has, and the others, which no image has
  split
  all_goals first | decide | simp [rdnaElemBytes]

/-- The descriptor describes one image to the host and to the shader. -/
def Matching : Prop :=
  rdna = true ∨ (word d 2 0 0x3FFF ≤ word d 4 13 0x3FFF ∧
      (word d 3 28 0xF = 8 ∨ word d 3 28 0xF = 12 → word d 2 14 0x3FFF = 0) ∧
        (word d 3 28 0xF = 11 → word d 3 16 0xF = 0))

end Staged

open Staged

/-- What the shader's view of the descriptor has in common with the resource. -/
structure Described (rdna : Bool) (d : ℕ → UInt32) (res : CsImage) : Prop where
  pitch : (basePitch rdna d).toNat = res.pitch
  height : (baseHeight d).toNat = res.height
  width_le : res.width ≤ res.pitch
  layers : res.mipLevels = 1 ∨ (layers rdna d).toNat = res.layers
  slices : hasSlices d = false → res.layers = 1
  general : linearGeneral rdna d = decide (res.tilingIdx = 31)
  pow2Pad : pow2Pad rdna d = res.pow2Pad
  scale : res.stageElemBytes = 4 * scale rdna (format d)

variable {guest : ℕ → Bool} {d : ℕ → UInt32} {res : CsImage}

theorem toNat_field_succ {i k : ℕ} {shift mask : UInt32} (h : shift.toNat < 32)
    (hmask : mask.toNat = 2 ^ k - 1) (hk : k < 32) :
    (field d i shift mask + 1).toNat = word d i shift.toNat (2 ^ k - 1) + 1 := by
  have hlt := word_lt d i shift.toNat k
  have hpow : 2 ^ k ≤ 2 ^ 31 := Nat.pow_le_pow_right (by decide) (by omega)
  rw [UInt32.toNat_add, toNat_field d h, hmask]
  exact Nat.mod_eq_of_lt (by
    change _ + 1 < 2 ^ 32
    omega)

theorem pow2Pad_gcn : pow2Pad false d = decide (word d 3 25 1 ≠ 0) := by
  have hfield : field d 3 25 1 ≠ 0 ↔ word d 3 25 1 ≠ 0 := not_congr (field_eq_iff d (by decide))
  rw [pow2Pad]
  exact decide_eq_decide.mpr ⟨fun h => hfield.mp h.2, fun h => ⟨by decide, hfield.mpr h⟩⟩

theorem linearGeneral_gcn : linearGeneral false d = decide (word d 3 20 0x1F = 31) := by
  have hfield : field d 3 20 0x1F = 31 ↔ word d 3 20 0x1F = 31 := field_eq_iff d (by decide)
  rw [linearGeneral]
  exact decide_eq_decide.mpr ⟨fun h => hfield.mp h.2, fun h => ⟨by decide, hfield.mpr h⟩⟩

theorem imageType_eq_iff (v : UInt32) : imageType d = v ↔ word d 3 28 0xF = v.toNat :=
  field_eq_iff d (by decide)

theorem hasSlices_eq : hasSlices d = decide (word d 3 28 0xF = 13 ∨ word d 3 28 0xF = 12 ∨
    word d 3 28 0xF = 11 ∨ word d 3 28 0xF = 10) := by
  rw [hasSlices, is3d]
  refine decide_eq_decide.mpr ?_
  rw [decide_eq_true_iff]
  simp only [imageType_eq_iff]
  rfl

theorem toNat_layers_gcn : (layers false d).toNat = if hasSlices d then
      if word d 3 25 1 ≠ 0 then nextPow2 (word d 4 0 0x1FFF + 1) else word d 4 0 0x1FFF + 1 else 1 := by
  have hraw : (descriptorLayers false d).toNat = word d 4 0 0x1FFF + 1 :=
    toNat_field_succ (k := 13) (by decide) rfl (by decide)
  have hlt : word d 4 0 0x1FFF < 2 ^ 13 := word_lt d 4 0 13
  rw [layers, pow2Pad_gcn]
  simp only [decide_eq_true_eq]
  split_ifs with hslices hpow
  · rw [toNat_bitCeil (by omega), hraw]
    rfl
  · exact hraw
  · rfl

theorem layers_gcn {t : TImage} (ht : t = gcnTImage guest d) :
    (t.type ≠ 11 → (layers false d).toNat = if t.is3d then t.depth else t.layers) ∧
      (hasSlices d = false → (if t.is3d then t.depth else t.layers) = 1) := by
  subst ht
  rw [toNat_layers_gcn, hasSlices_eq]
  simp only [gcnTImage, decide_eq_true_eq, decide_eq_false_iff_not]
  generalize word d 3 28 0xF = type
  generalize word d 4 0 0x1FFF = last
  generalize word d 3 25 1 = pad
  constructor
  · intro hne
    split_ifs <;> first | rfl | omega
  · intro hnone
    rw [if_neg (by omega), if_neg (by omega)]

theorem scale_gcn {elem stageElem : ℕ} {t : TImage} (ht : t = gcnTImage guest d)
    (h : gcnElemBytes t.dfmt t.nfmt = some (elem, stageElem)) : stageElem = 4 * scale false (format d) := by
  subst ht
  have hscale := gcnElemBytes_scale (word d 1 20 0x3F) (word_lt d 1 20 6) (word d 1 26 0xF)
    (word_lt d 1 26 4) (elem, stageElem) h
  have hdfmt : UInt32.ofNat (word d 1 20 0x3F) = field d 1 20 0x3F := by
    rw [← UInt32.ofNat_toNat (x := field d 1 20 0x3F), toNat_field d (by decide)]
    rfl
  have hnfmt : UInt32.ofNat (word d 1 26 0xF) = field d 1 26 0xF := by
    rw [← UInt32.ofNat_toNat (x := field d 1 26 0xF), toNat_field d (by decide)]
    rfl
  rw [hdfmt, hnfmt] at hscale
  exact hscale

theorem described_gcn (h : gcnResolve guest d = some res) (hmatch : Matching false d) : Described false d res := by
  obtain hrdna | ⟨hpitch, hflat, hcube⟩ := hmatch
  · cases hrdna
  have hheight : (baseHeight d).toNat = word d 2 14 0x3FFF + 1 :=
    toNat_field_succ (k := 14) (by decide) rfl (by decide)
  have hbase : (basePitch false d).toNat = word d 4 13 0x3FFF + 1 :=
    toNat_field_succ (k := 14) (by decide) rfl (by decide)
  have hcovers : ¬word d 4 13 0x3FFF + 1 < word d 2 0 0x3FFF + 1 := by omega
  have hlayers := layers_gcn (t := gcnTImage guest d) rfl
  unfold gcnResolve at h
  dsimp only at h
  split at h
  · cases h
  split at h
  · cases h
  case h_2 elem stageElem helem =>
    split at h
    · cases h
    split at h
    · cases h
    split at h
    · cases h
    obtain ⟨linear, -, rfl⟩ := Option.map_eq_some_iff.mp h
    refine ⟨?_, ?_, ?_, ?_, hlayers.2, linearGeneral_gcn, pow2Pad_gcn, scale_gcn rfl helem⟩
    · rw [hbase]
      exact (if_neg hcovers).symm
    · rw [hheight]
      change _ = if word d 3 28 0xF = 8 ∨ word d 3 28 0xF = 12 then 1 else word d 2 14 0x3FFF + 1
      split_ifs with htype
      · rw [hflat htype]
      · rfl
    · change word d 2 0 0x3FFF + 1 ≤ if word d 4 13 0x3FFF + 1 < word d 2 0 0x3FFF + 1 then
        word d 2 0 0x3FFF + 1 else word d 4 13 0x3FFF + 1
      rw [if_neg hcovers]
      omega
    · by_cases htype : (gcnTImage guest d).type = 11
      · refine .inl ?_
        change word d 3 16 0xF + 1 = 1
        rw [hcube htype]
      · exact .inr (hlayers.1 htype)

/-! ### The PS5 side -/

theorem baseMipView_shiftRight (i : ℕ) {shift : ℕ} (hshift : i = 3 → 20 ≤ shift) :
    (baseMipView d i).toNat >>> shift = (d i).toNat >>> shift := by
  rw [baseMipView]
  split_ifs with h
  · obtain ⟨rfl, -⟩ := h
    obtain ⟨k, rfl⟩ := Nat.exists_eq_add_of_le (hshift rfl)
    have hmask : (0xf0000 : UInt32).toNat >>> 20 = 0 := by decide
    have hbase : ((d 3 >>> 12 &&& (15 : UInt32)) <<< 16).toNat >>> 20 = 0 := by
      have hle : (d 3 >>> 12 &&& (15 : UInt32)).toNat ≤ 15 := by
        rw [UInt32.toNat_and]
        exact Nat.and_le_right
      rw [UInt32.toNat_shiftLeft, Nat.shiftLeft_eq, Nat.shiftRight_eq_div_pow]
      have h16 : (16 : UInt32).toNat % 32 = 16 := rfl
      rw [h16]
      omega
    rw [and_not, UInt32.toNat_or, UInt32.toNat_xor, UInt32.toNat_and, Nat.shiftRight_add,
      Nat.shiftRight_or_distrib, Nat.shiftRight_xor_distrib, Nat.shiftRight_and_distrib, hmask, hbase,
      Nat.and_zero, Nat.xor_zero, Nat.or_zero, ← Nat.shiftRight_add]
  · rfl

/-- The descriptor that the PS5 side decodes. -/
def viewed (baseMipOnly : Bool) (d : ℕ → UInt32) : ℕ → UInt32 :=
  if baseMipOnly then baseMipView d else d

theorem word_viewed (baseMipOnly : Bool) (i shift mask : ℕ) (h : i = 3 → 20 ≤ shift) :
    word (viewed baseMipOnly d) i shift mask = word d i shift mask := by
  rw [viewed]
  split_ifs
  · rw [word, baseMipView_shiftRight i h]
    rfl
  · rfl

theorem toNat_baseWidth_rdna : (baseWidth true d).toNat = (word d 1 30 0x3 ||| (word d 2 0 0xFFF <<< 2)) + 1 := by
  have hlow : word d 1 30 0x3 < 2 ^ 14 := Nat.lt_of_lt_of_le (word_lt d 1 30 2) (by decide)
  have hhigh : word d 2 0 0xFFF < 2 ^ 12 := word_lt d 2 0 12
  have hshift : word d 2 0 0xFFF <<< 2 < 2 ^ 14 := by
    rw [Nat.shiftLeft_eq]
    omega
  have hor := Nat.or_lt_two_pow hlow hshift
  have hfield : (field d 2 0 0xFFF <<< 2).toNat = word d 2 0 0xFFF <<< 2 := by
    rw [UInt32.toNat_shiftLeft, toNat_field d (by decide)]
    exact Nat.mod_eq_of_lt (Nat.lt_of_lt_of_le hshift (by decide))
  rw [baseWidth, if_pos rfl, UInt32.toNat_add, UInt32.toNat_or, toNat_field d (by decide), hfield]
  refine Nat.mod_eq_of_lt ?_
  change (word d 1 30 0x3 ||| (word d 2 0 0xFFF <<< 2)) + 1 < 2 ^ 32
  omega

theorem toNat_layers_rdna {t : TImage} {baseMipOnly : Bool} (ht : t = rdnaTImage guest (viewed baseMipOnly d)) :
    (layers true d).toNat = t.layers ∧ (hasSlices d = false → t.layers = 1) := by
  have hraw : (field d 4 0 0x1FFF + 1).toNat = word d 4 0 0x1FFF + 1 :=
    toNat_field_succ (k := 13) (by decide) rfl (by decide)
  have htype : imageType d = 11 ↔ word d 3 28 0xF = 11 := imageType_eq_iff 11
  have hlayers : (descriptorLayers true d).toNat =
      if word d 3 28 0xF = 11 then max (word d 4 0 0x1FFF + 1) 6 else word d 4 0 0x1FFF + 1 := by
    rw [descriptorLayers]
    by_cases hcube : word d 3 28 0xF = 11
    · rw [if_pos ⟨rfl, htype.mpr hcube⟩, if_pos hcube, toNat_max, hraw]
      rfl
    · rw [if_neg fun h => hcube (htype.mp h.2), if_neg hcube, hraw]
  have hpad : pow2Pad true d = false := rfl
  have hl : t.layers = if word d 3 28 0xF = 11 then
      max (if (word d 3 28 0xF = 11 ∨ word d 3 28 0xF = 12 ∨ word d 3 28 0xF = 13) ∨
        word d 3 28 0xF = 10 then word d 4 0 0x1FFF + 1 else 1) 6
      else if (word d 3 28 0xF = 11 ∨ word d 3 28 0xF = 12 ∨ word d 3 28 0xF = 13) ∨
        word d 3 28 0xF = 10 then word d 4 0 0x1FFF + 1 else 1 := by
    rw [ht, ← word_viewed (d := d) baseMipOnly 3 28 0xF (fun _ => by decide),
      ← word_viewed (d := d) baseMipOnly 4 0 0x1FFF (fun h => by cases h)]
    rfl
  rw [layers, hpad, hasSlices_eq, hl]
  generalize word d 3 28 0xF = type at hlayers
  constructor
  · simp only [Bool.false_eq_true, if_false, decide_eq_true_eq]
    split_ifs at hlayers ⊢ <;> first | rfl | omega
  · intro hnone
    rw [decide_eq_false_iff_not] at hnone
    rw [if_neg (by omega), if_neg (by omega)]

theorem scale_rdna {written fit : Bool} {e : ℕ × ℕ × Bool} {t : TImage} {baseMipOnly : Bool}
    (ht : t = rdnaTImage guest (viewed baseMipOnly d)) (h : rdnaElemBytes written fit t.dfmt t.nfmt = some e) :
    e.2.1 = 4 * scale true (format d) := by
  have hword := word_viewed (d := d) baseMipOnly 1 20 0x1FF (fun h => by cases h)
  have hdfmt : t.dfmt = (gfx10ImgFormat (word d 1 20 0x1FF)).1 := by
    rw [ht, ← hword]
    rfl
  have hnfmt : t.nfmt = (gfx10ImgFormat (word d 1 20 0x1FF)).2 := by
    rw [ht, ← hword]
    rfl
  rw [hdfmt, hnfmt] at h
  have hscale := rdnaElemBytes_scale (word d 1 20 0x1FF) (word_lt d 1 20 9) written fit e h
  have hgfmt : UInt32.ofNat (word d 1 20 0x1FF) = field d 1 20 0x1FF := by
    rw [← UInt32.ofNat_toNat (x := field d 1 20 0x1FF), toNat_field d (by decide)]
    rfl
  rw [hgfmt] at hscale
  exact hscale

theorem described_rdna {written baseMipOnly : Bool}
    (h : rdnaResolve guest written baseMipOnly d = some res) : Described true d res := by
  have hlow := word_viewed (d := d) baseMipOnly 1 30 0x3 fun h => by cases h
  have hhigh := word_viewed (d := d) baseMipOnly 2 0 0xFFF fun h => by cases h
  have hrows := word_viewed (d := d) baseMipOnly 2 14 0x3FFF fun h => by cases h
  have hheight : (baseHeight d).toNat = word d 2 14 0x3FFF + 1 :=
    toNat_field_succ (k := 14) (by decide) rfl (by decide)
  have hlayers := toNat_layers_rdna (t := rdnaTImage guest (viewed baseMipOnly d)) rfl
  unfold rdnaResolve at h
  rw [← viewed] at h
  dsimp only at h
  split at h
  · cases h
  split at h
  · cases h
  case h_2 e elem stageElem compressed helem =>
    split at h
    · cases h
    case isFalse hvalid =>
      split at h
      · cases h
      obtain ⟨linear, -, rfl⟩ := Option.map_eq_some_iff.mp h
      refine ⟨?_, ?_, Nat.le_refl _, .inr hlayers.1, hlayers.2, ?_, rfl, scale_rdna rfl helem⟩
      · rw [basePitch, if_pos rfl, toNat_baseWidth_rdna, ← hlow, ← hhigh]
        rfl
      · rw [hheight, ← hrows]
        rfl
      · have hbase : kGfx10TilingBase = 256 := rfl
        have htiling : kGfx10TilingBase + word (viewed baseMipOnly d) 3 20 0x1F ≠ 31 := by omega
        exact (decide_eq_false htiling).symm

theorem described {rdna written baseMipOnly : Bool}
    (h : resolve rdna guest written baseMipOnly d = some res) (hmatch : Matching rdna d) : Described rdna d res := by
  rw [resolve] at h
  cases rdna with
  | true => exact described_rdna h
  | false => exact described_gcn h hmatch

/-! ## Texels -/

structure Texel where
  mip : ℕ
  layer : ℕ
  x : ℕ
  y : ℕ
  deriving DecidableEq

structure InRange (t : TextureLayout32) (d : ℕ → UInt32) (c : Texel) : Prop where
  mip : c.mip < t.mipLevels
  layer : c.layer < t.layers
  x : c.x < (t.mip c.mip).width
  y : c.y < (t.mip c.mip).height
  row : is1d d = true → c.y = 0

namespace LinearImage

variable (s : LinearImage)

def index (c : Texel) : ℕ :=
  s.start c.mip + (c.layer * (s.pitchAt c.mip * s.storedHeight c.mip) + (c.y * s.pitchAt c.mip + c.x))

structure Has (c : Texel) : Prop where
  layer : c.layer < s.layers
  x : c.x < s.pitchAt c.mip
  y : c.y < s.storedHeight c.mip

variable {s}

theorem le_padPitch (turns pitch storedHeight : ℕ) : pitch ≤ padPitch turns pitch storedHeight := by
  induction turns with
  | zero => exact Nat.le_refl _
  | succ turns ih =>
    refine Nat.le_trans ih ?_
    rw [padPitch_succ_last, padStep]
    split_ifs
    · exact Nat.le_add_right _ _
    · exact Nat.le_refl _

theorem width_le_pitchAt (mip : ℕ) : max (s.width >>> mip) 1 ≤ s.pitchAt mip := by
  have hraw : max (s.width >>> mip) 1 ≤ s.rawPitch mip := by
    have hmax : max (s.width >>> mip) 1 ≤ max (max (s.pitch >>> mip) 1) (max (s.width >>> mip) 1) :=
      Nat.le_max_right _ _
    rw [rawPitch, Gcn.rawPitch]
    split_ifs
    · exact Nat.le_trans hmax (le_bitCeil _)
    · exact hmax
  rw [pitchAt]
  split_ifs
  · exact hraw
  · exact Nat.le_trans hraw (Nat.le_trans (le_alignUp (k := 4) _) (le_padPitch _ _ _))

theorem height_le_storedHeight (mip : ℕ) : max (s.height >>> mip) 1 ≤ s.storedHeight mip := by
  rw [storedHeight, storageHeight]
  split_ifs
  · exact le_bitCeil _
  · exact Nat.le_refl _

variable {c c' : Texel}

theorem Has.row_lt (h : s.Has c) : c.y * s.pitchAt c.mip + c.x < s.pitchAt c.mip * s.storedHeight c.mip := by
  rw [Nat.mul_comm (s.pitchAt c.mip)]
  exact digits_lt h.y h.x

theorem Has.index_lt (h : s.Has c) : s.index c < s.start (c.mip + 1) := by
  rw [index, start_succ, levelTexels, Nat.mul_comm _ s.layers]
  exact Nat.add_lt_add_left (digits_lt h.layer h.row_lt) _

theorem mip_le_of_index_eq (h' : s.Has c') (heq : s.index c = s.index c') : c.mip ≤ c'.mip := by
  -- A level begins where the one before it ends.
  by_contra hlt
  have hmono : s.start (c'.mip + 1) ≤ s.start c.mip := s.start_mono (Nat.not_le.mp hlt)
  have hle : s.start c.mip ≤ s.index c := Nat.le_add_right _ _
  have hend := h'.index_lt
  omega

/-- **No two texels** have one index. -/
theorem Has.index_inj (h : s.Has c) (h' : s.Has c') (heq : s.index c = s.index c') : c = c' := by
  have hmip : c.mip = c'.mip :=
    Nat.le_antisymm (mip_le_of_index_eq h' heq) (mip_le_of_index_eq h heq.symm)
  have hrow := h.row_lt
  have hx := h.x
  rw [index, index, hmip] at heq
  rw [hmip] at hrow hx
  obtain ⟨hlayer, hrows⟩ := digits_injective hrow h'.row_lt (Nat.add_left_cancel heq)
  obtain ⟨hy, hx'⟩ := digits_injective hx h'.x hrows
  cases c
  cases c'
  cases hmip
  cases hlayer
  cases hy
  cases hx'
  rfl

end LinearImage

def stagedImage (res : CsImage) : LinearImage :=
  ⟨res.tilingIdx = 31, res.pow2Pad, res.width, res.height, res.pitch, res.layers⟩

variable {t tiled linear : TextureLayout32} {c c' : Texel}

/-- **The staged layout** is that of the staged image. -/
theorem staged_layout (hscale : 4 ∣ res.stageElemBytes) (h : buildCsImageLayouts res = some (tiled, linear)) :
    linear = ⟨(List.range res.mipLevels).map ((stagedImage res).level res.stageElemBytes),
        (stagedImage res).start res.mipLevels * res.stageElemBytes, res.mipLevels, res.layers,
        (stagedImage res).tilingIdx, res.stageElemBytes, 0⟩ ∧
      res.mipLevels ≤ 16 ∧ 0 < res.width ∧ res.width ≤ 16384 ∧ 0 < res.height ∧
        res.height ≤ 16384 ∧ res.pitch ≤ 16384 ∧ res.layers ≤ 8192 := by
  have htiling : stageTiling res.tilingIdx = (stagedImage res).tilingIdx := by
    rw [stageTiling, LinearImage.tilingIdx]
    exact if_congr (by simp [stagedImage]) rfl rfl
  unfold buildCsImageLayouts at h
  dsimp only at h
  split at h
  case h_1 tiled' linear' htiled hlinear =>
    split_ifs at h with hsizes
    cases h
    rw [htiling] at hlinear
    exact buildTextureLayout32_linear hscale hlinear
  case h_2 => cases h

structure Lays (s : LinearImage) (mipLevels : ℕ) (t : TextureLayout32) : Prop where
  mips : t.mips = (List.range mipLevels).map (s.level t.elemBytes)
  count : t.mipLevels = mipLevels
  layers : t.layers = s.layers
  size : t.size = s.start mipLevels * t.elemBytes

variable {s : LinearImage} {mipLevels : ℕ}

theorem Lays.mip_eq (h : Lays s mipLevels t) {mip : ℕ} (hmip : mip < mipLevels) :
    t.mip mip = s.level t.elemBytes mip := by
  rw [TextureLayout32.mip, h.mips, List.getD_eq_getElem?_getD, List.getElem?_map, List.getElem?_range hmip]
  rfl

theorem Lays.has (h : Lays s mipLevels t) (hc : InRange t d c) : s.Has c := by
  have hmip : c.mip < mipLevels := h.count ▸ hc.mip
  have hx := hc.x
  have hy := hc.y
  rw [h.mip_eq hmip] at hx hy
  exact ⟨h.layers ▸ hc.layer, Nat.lt_of_lt_of_le hx (LinearImage.width_le_pitchAt _),
    Nat.lt_of_lt_of_le hy (LinearImage.height_le_storedHeight _)⟩

theorem Lays.texelOffset_eq (h : Lays s mipLevels t) (hmip : c.mip < mipLevels) :
    texelOffset t c.mip c.layer c.x c.y = s.index c * t.elemBytes := by
  rw [texelOffset, h.mip_eq hmip, LinearImage.index]
  change s.start c.mip * t.elemBytes + c.layer * s.pitchAt c.mip * s.storedHeight c.mip * t.elemBytes +
    c.y * (s.pitchAt c.mip * t.elemBytes) + c.x * t.elemBytes = _
  ring

theorem Lays.disjoint (h : Lays s mipLevels t) (hc : InRange t d c) (hc' : InRange t d c') (hne : c ≠ c') :
    texelOffset t c.mip c.layer c.x c.y + t.elemBytes ≤ texelOffset t c'.mip c'.layer c'.x c'.y ∨
      texelOffset t c'.mip c'.layer c'.x c'.y + t.elemBytes ≤ texelOffset t c.mip c.layer c.x c.y := by
  rw [h.texelOffset_eq (h.count ▸ hc.mip), h.texelOffset_eq (h.count ▸ hc'.mip), ← Nat.succ_mul, ← Nat.succ_mul]
  have hindex : s.index c ≠ s.index c' := fun heq =>
    hne ((h.has hc).index_inj (h.has hc') heq)
  rcases Nat.lt_or_gt_of_ne hindex with hlt | hlt
  · exact .inl (Nat.mul_le_mul_right _ hlt)
  · exact .inr (Nat.mul_le_mul_right _ hlt)

/-- **The index** that the shader computes is that of the texel. -/
theorem texelIdx_eq {rdna : Bool} (hcovers : Covers s (basePitch rdna d) (baseHeight d))
    (hlayers : c.mip = 0 ∨ (layers rdna d).toNat = s.layers) (hmip : c.mip < 16)
    (hgeneral : linearGeneral rdna d = s.general) (hpad : pow2Pad rdna d = s.pow2Pad)
    (hslices : hasSlices d = false → c.layer = 0) (hrow : is1d d = true → c.y = 0) :
    texelIdx rdna d (.ofNat c.mip) (.ofNat c.layer) (.ofNat c.x) (.ofNat c.y) = .ofNat (s.index c) := by
  have hlayer : (if hasSlices d = true then UInt32.ofNat c.layer else 0) = .ofNat c.layer := by
    split_ifs with h
    · rfl
    · rw [hslices (Bool.not_eq_true _ ▸ h)]
      rfl
  have hy : (if is1d d = true then 0 else UInt32.ofNat c.y) = .ofNat c.y := by
    split_ifs with h
    · rw [hrow h]
      rfl
    · rfl
  have hoff : mipChainOffset (basePitch rdna d) (baseHeight d) (layers rdna d) (.ofNat c.mip)
      s.general s.pow2Pad = .ofNat (s.start c.mip) := by
    rcases hlayers with hzero | hlayers
    · rw [hzero]
      rfl
    · exact mipChainOffset_eq hcovers hlayers (Nat.le_of_lt hmip)
  rw [texelIdx, hlayer, hy, hgeneral, hpad, hoff, LinearImage.index]
  simp only [UInt32.ofNat_add, UInt32.ofNat_mul, ← toNat_linearMipPitch hcovers hmip,
    ← toNat_storedHeight hcovers hmip, UInt32.ofNat_toNat]

/-- **The addresses agree**: a shader finds the texels of a staged image where they are, if the
descriptor describes one image to both sides, and no two texels share a byte. -/
theorem staged_addresses_agree {rdna written baseMipOnly : Bool}
    (hres : resolve rdna guest written baseMipOnly d = some res)
    (hlayouts : buildCsImageLayouts res = some (tiled, linear)) (hsize : linear.size ≤ 2 ^ 34)
    (hmatch : Matching rdna d) :
    (∀ c, InRange linear d c → 4 * (dwordIdx rdna d (.ofNat c.mip) (.ofNat c.layer) (.ofNat c.x) (.ofNat c.y)).toNat =
        texelOffset linear c.mip c.layer c.x c.y) ∧ ∀ c c', InRange linear d c → InRange linear d c' → c ≠ c' →
        texelOffset linear c.mip c.layer c.x c.y + linear.elemBytes ≤ texelOffset linear c'.mip c'.layer c'.x c'.y ∨
          texelOffset linear c'.mip c'.layer c'.x c'.y + linear.elemBytes ≤
            texelOffset linear c.mip c.layer c.x c.y := by
  have hdesc := described hres hmatch
  have hscale := hdesc.scale
  obtain ⟨hlinear, hmips, -, -, -, hheight, hpitch, -⟩ :=
    staged_layout (Dvd.intro _ hscale.symm) hlayouts
  have hlays : Lays (stagedImage res) res.mipLevels linear := by
    subst hlinear
    exact ⟨rfl, rfl, rfl, rfl⟩
  have helem : linear.elemBytes = 4 * Staged.scale rdna (format d) := by
    rw [hlinear, ← hscale]
  have hcovers : Covers (stagedImage res) (basePitch rdna d) (baseHeight d) :=
    ⟨hdesc.pitch, hdesc.height, hdesc.width_le, hpitch, hheight⟩
  constructor
  · intro c hc
    have hmip : c.mip < res.mipLevels := hlays.count ▸ hc.mip
    have hhas := hlays.has hc
    have hlayers : c.mip = 0 ∨ (layers rdna d).toNat = (stagedImage res).layers := by
      rcases hdesc.layers with hone | hlayers
      · exact .inl (by omega)
      · exact .inr hlayers
    have hslices : hasSlices d = false → c.layer = 0 := by
      intro hnone
      have hlt : c.layer < res.layers := hhas.layer
      have hone := hdesc.slices hnone
      omega
    have hidx := texelIdx_eq hcovers hlayers (by omega) hdesc.general hdesc.pow2Pad hslices hc.row
    -- The dwords of the texel are inside the layout, so their index does not wrap around.
    have hbound : (stagedImage res).index c * Staged.scale rdna (format d) < 2 ^ 32 := by
      have hlt : (stagedImage res).index c < (stagedImage res).start res.mipLevels :=
        Nat.lt_of_lt_of_le hhas.index_lt (LinearImage.start_mono _ hmip)
      have hmul := Nat.mul_lt_mul_of_pos_right hlt (scale_pos rdna (format d))
      have htotal : linear.size =
          4 * ((stagedImage res).start res.mipLevels * Staged.scale rdna (format d)) := by
        rw [hlays.size, helem]
        ring
      omega
    rw [hlays.texelOffset_eq hmip, helem, dwordIdx_eq, hidx, ← UInt32.ofNat_mul, UInt32.toNat_ofNat',
      Nat.mod_eq_of_lt hbound]
    ring
  · intro c c' hc hc'
    exact hlays.disjoint hc hc'

theorem exists_layouts (d : ℕ → UInt32) (c : Texel) (res : CsImage)
    (size mipLevels layers width height offset : ℕ) (hc : c.mip = 1)
    (h : (buildCsImageLayouts res).map (fun t => (t.2.size, t.2.mipLevels, t.2.layers,
      (t.2.mip 1).width, (t.2.mip 1).height, texelOffset t.2 c.mip c.layer c.x c.y)) =
        some (size, mipLevels, layers, width, height, offset))
    (hrange : 1 < mipLevels ∧ c.layer < layers ∧ c.x < width ∧ c.y < height ∧ (is1d d = true → c.y = 0)) :
    ∃ tiled linear, buildCsImageLayouts res = some (tiled, linear) ∧ linear.size = size ∧
      InRange linear d c ∧ texelOffset linear c.mip c.layer c.x c.y = offset := by
  obtain ⟨⟨tiled, linear⟩, hbuilt, heq⟩ := Option.map_eq_some_iff.mp h
  simp only [Prod.mk.injEq] at heq
  obtain ⟨hsize, hmips, hlayers, hwidth, hheight, hoffset⟩ := heq
  obtain ⟨h1, h2, h3, h4, h5⟩ := hrange
  exact ⟨tiled, linear, hbuilt, hsize, ⟨by omega, by omega, by rw [hc]; omega, by rw [hc]; omega, h5⟩,
    hoffset⟩

/-- An 8-bit image of 32 by 16 texels with two levels. -/
theorem staged_addresses_agree_r8 : let d : ℕ → UInt32 := fun i => [0, 0x100000, 0x3C01F, 0x90810000, 0x3E000].getD i 0
    4 * (dwordIdx false d 1 0 5 3).toNat = 4 * (32 * 16) + 4 * (3 * 16 + 5) := by
  intro d
  have hres : resolve false (fun _ => true) false false d =
      some ⟨32, 16, 32, 1, 2, 8, false, 1, 4, 1, 2560, 640⟩ := by decide +kernel
  obtain ⟨tiled, linear, hbuilt, hsize, hrange, hoffset⟩ :=
    exists_layouts d ⟨1, 0, 5, 3⟩ ⟨32, 16, 32, 1, 2, 8, false, 1, 4, 1, 2560, 640⟩ 2560 2 1 16 8 2260
      rfl (by decide +kernel) (by decide +kernel)
  have hmatch : Matching false d := by
    refine .inr ⟨?_, ?_, ?_⟩ <;> decide +kernel
  exact ((staged_addresses_agree hres hbuilt (hsize ▸ by decide) hmatch).1 _ hrange).trans hoffset

/-- The second level of a cube map is behind six faces, and the shader looks for it behind one. -/
theorem staged_addresses_differ : ¬∀ (rdna : Bool) (guest : ℕ → Bool) (written baseMipOnly : Bool)
    (d : ℕ → UInt32) (res : CsImage) (tiled linear : TextureLayout32),
    resolve rdna guest written baseMipOnly d = some res →
    buildCsImageLayouts res = some (tiled, linear) → linear.size ≤ 2 ^ 34 →
    ∀ c, InRange linear d c → 4 * (dwordIdx rdna d (.ofNat c.mip) (.ofNat c.layer) (.ofNat c.x) (.ofNat c.y)).toNat =
        texelOffset linear c.mip c.layer c.x c.y := by
  intro hall
  let d : ℕ → UInt32 := fun i => [0, 0x100000, 0x3C00F, 0xB0810000, 0x1E000].getD i 0
  have hres : resolve false (fun _ => true) false false d =
      some ⟨16, 16, 16, 6, 2, 8, false, 1, 4, 1, 9216, 2304⟩ := by decide +kernel
  obtain ⟨tiled, linear, hbuilt, hsize, hrange, hoffset⟩ :=
    exists_layouts d ⟨1, 0, 0, 0⟩ ⟨16, 16, 16, 6, 2, 8, false, 1, 4, 1, 9216, 2304⟩ 9216 2 6 8 8 6144
      rfl (by decide +kernel) (by decide +kernel)
  have hagree := hall _ _ _ _ d _ _ _ hres hbuilt (hsize ▸ by decide) _ hrange
  have hdword : (dwordIdx false d 1 0 0 0).toNat = 256 := by decide +kernel
  rw [hoffset] at hagree
  change 4 * (dwordIdx false d 1 0 0 0).toNat = 6144 at hagree
  rw [hdword] at hagree
  cases hagree

end Prosperity.Gcn
