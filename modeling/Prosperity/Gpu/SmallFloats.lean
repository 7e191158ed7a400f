import Mathlib.Algebra.Order.Ring.Rat
import Mathlib.Data.Nat.Bitwise
import Mathlib.Tactic.NormNum
import Mathlib.Tactic.Positivity
import Prosperity.Foundations.FloatCodes

/-!
# Packing small floats

`PackUnsignedFloat` packs a 32-bit float into an unsigned float of eleven or ten bits, with five bits of
exponent, by arithmetic on the bits; `UnpackUnsignedFloat` goes back. Values are the rational numbers of the bit
patterns.
-/

namespace Prosperity.Gpu

open FloatCodes

/-! ## The code -/

def floatProduct (n exponent : ℕ) : ℕ :=
  if n = 0 then 0 else (exponent + n.log2) <<< 23 ||| (n - 2 ^ n.log2) <<< (23 - n.log2)

/-- `UnpackUnsignedFloat`: the bits of the float. -/
def unpackUnsignedFloat (mantissaBits value : ℕ) : ℕ :=
  let mantissa := value &&& (1 <<< mantissaBits - 1)
  let exponent := (value >>> mantissaBits) &&& 0x1F
  if exponent = 0 then floatProduct mantissa (127 - 14 - mantissaBits)
  else if exponent = 0x1F then if mantissa ≠ 0 then 0x7FC00000 else 0x7F800000
  else (exponent + 112) <<< 23 ||| mantissa <<< (23 - mantissaBits)

/-- The code of infinity. -/
def packedInf (mantissaBits : ℕ) : ℕ := 0x1F <<< mantissaBits

def exp32 (bits : ℕ) : ℕ := (bits >>> 23) &&& 0xFF

def mant23 (bits : ℕ) : ℕ := bits &&& 0x7FFFFF

/-- What is packed of a positive float, before it is clamped. -/
def roundedCode (mantissaBits bits : ℕ) : ℕ :=
  let drop := 23 - mantissaBits
  if 112 < exp32 bits then (((exp32 bits - 112) <<< 23 ||| mant23 bits) + 1 <<< (drop - 1)) >>> drop
  else
    -- a denormal of the target: the implicit bit joins the shifted mantissa
    let shift := drop + 113 - if exp32 bits ≠ 0 then exp32 bits else 1
    let m := if exp32 bits ≠ 0 then mant23 bits ||| 0x800000 else mant23 bits
    if shift < 32 then (m + 1 <<< (shift - 1)) >>> shift else 0

def packUnsignedFloat (mantissaBits bits : ℕ) : ℕ :=
  let inf := packedInf mantissaBits
  if exp32 bits = 0xFF then if mant23 bits ≠ 0 then inf ||| 1 else if bits >>> 31 ≠ 0 then 0 else inf
  else if bits >>> 31 ≠ 0 then 0
  else if 112 < exp32 bits then min (roundedCode mantissaBits bits) inf
  else roundedCode mantissaBits bits

/-! ## What the bits stand for -/

inductive PackedFloat where
  | uf11
  | uf10

def PackedFloat.mantissaBits : PackedFloat → ℕ
  | uf11 => 6
  | uf10 => 5

def floatValue (bits : ℕ) : ℚ := magnitude 23 (bits % 2 ^ 31) / 2 ^ 149

def packedValue (mantissaBits c : ℕ) : ℚ := magnitude mantissaBits c / 2 ^ (14 + mantissaBits)

def IsNan (bits : BitVec 32) : Prop := exp32 bits.toNat = 0xFF ∧ mant23 bits.toNat ≠ 0

def IsNegative (bits : BitVec 32) : Prop := bits.toNat >>> 31 ≠ 0

/-- Neither an infinity nor a NaN. -/
def IsFinite (bits : BitVec 32) : Prop := exp32 bits.toNat ≠ 0xFF

/-- The codes behind that of infinity. -/
def IsPackedNan (mantissaBits c : ℕ) : Prop := packedInf mantissaBits < c ∧ c < 2 ^ (mantissaBits + 5)

def overflowValue (mantissaBits : ℕ) : ℚ :=
  (packedValue mantissaBits (packedInf mantissaBits - 1) + packedValue mantissaBits (packedInf mantissaBits)) / 2

structure Packs (mantissaBits : ℕ) : Prop where
  nan : ∀ f : BitVec 32, IsNan f → IsPackedNan mantissaBits (packUnsignedFloat mantissaBits f.toNat)
  negative : ∀ f : BitVec 32, ¬IsNan f → IsNegative f → packUnsignedFloat mantissaBits f.toNat = 0
  nearest : ∀ f : BitVec 32, IsFinite f → ¬IsNegative f → floatValue f.toNat < overflowValue mantissaBits →
    NearestAway (packedValue mantissaBits) (packedInf mantissaBits) (floatValue f.toNat)
      (packUnsignedFloat mantissaBits f.toNat)
  overflow : ∀ f : BitVec 32, ¬IsNan f → ¬IsNegative f →
    (IsFinite f → overflowValue mantissaBits ≤ floatValue f.toNat) →
    packUnsignedFloat mantissaBits f.toNat = packedInf mantissaBits
  monotone : ∀ f g : BitVec 32, IsFinite f → IsFinite g → ¬IsNegative f → ¬IsNegative g →
    floatValue f.toNat ≤ floatValue g.toNat →
    packUnsignedFloat mantissaBits f.toNat ≤ packUnsignedFloat mantissaBits g.toNat
  roundTrip : ∀ v < 2 ^ (mantissaBits + 5), ¬IsPackedNan mantissaBits v →
    packUnsignedFloat mantissaBits (unpackUnsignedFloat mantissaBits v) = v

/-! ## Rounding -/

section Rounding

variable {mantissaBits d n a c t : ℕ}

theorem rounded_spec (a t : ℕ) : (∀ b, b + 1 = (a + 1 <<< t) >>> (t + 1) → b * 2 ^ (t + 1) + 2 ^ t ≤ a) ∧
      a < (a + 1 <<< t) >>> (t + 1) * 2 ^ (t + 1) + 2 ^ t := by
  rw [Nat.shiftRight_eq_div_pow, Nat.one_shiftLeft]
  have hunit : 2 ^ (t + 1) = 2 * 2 ^ t := Nat.pow_succ'
  have hle := Nat.div_mul_le_self (a + 2 ^ t) (2 ^ (t + 1))
  have hlt := Nat.lt_div_mul_add (Nat.two_pow_pos (t + 1)) (a := a + 2 ^ t)
  refine ⟨fun b hb => ?_, by omega⟩
  rw [← hb, Nat.add_mul] at hle
  omega

theorem exp32_eq (n : ℕ) : exp32 n = n / 2 ^ 23 % 2 ^ 8 := by
  rw [exp32, Nat.shiftRight_eq_div_pow]
  exact Nat.and_two_pow_sub_one_eq_mod _ 8

theorem mant23_eq (n : ℕ) : mant23 n = n % 2 ^ 23 := Nat.and_two_pow_sub_one_eq_mod n 23

theorem exp32_of_lt (h : n < 2 ^ 31) : exp32 n = n / 2 ^ 23 := by
  rw [exp32_eq]
  omega

theorem rebased_eq (h : n < 2 ^ 31) (he : 112 < exp32 n) : (exp32 n - 112) <<< 23 ||| mant23 n = n - 112 * 2 ^ 23 := by
  rw [mant23_eq, Nat.shiftLeft_eq, exp32_of_lt h] at *
  rw [← Nat.shiftLeft_eq, ← Nat.shiftLeft_add_eq_or_of_lt (Nat.mod_lt _ (by decide)), Nat.shiftLeft_eq]
  omega

theorem or_implicit_bit (n : ℕ) : mant23 n ||| 0x800000 = 2 ^ 23 + n % 2 ^ 23 := by
  have hbit := Nat.shiftLeft_add_eq_or_of_lt (Nat.mod_lt n (by decide : 0 < 2 ^ 23)) 1
  rw [Nat.shiftLeft_eq, Nat.one_mul] at hbit
  rw [mant23_eq, Nat.lor_comm, hbit]

theorem magnitude_significand (h : n < 2 ^ 31) :
    magnitude 23 n = (if exp32 n ≠ 0 then mant23 n ||| 0x800000 else mant23 n) *
      2 ^ ((if exp32 n ≠ 0 then exp32 n else 1) - 1) := by
  rw [exp32_of_lt h, or_implicit_bit, mant23_eq, magnitude]
  by_cases hzero : n / 2 ^ 23 = 0
  · rw [if_pos hzero, if_neg (not_not_intro hzero), if_neg (not_not_intro hzero), Nat.sub_self, Nat.pow_zero,
      Nat.mul_one]
    omega
  · rw [if_neg hzero, if_pos hzero, if_pos hzero]

theorem roundedCode_normal (hd : mantissaBits + (d + 1) = 23) (h : n < 2 ^ 31) (he : 112 < exp32 n) :
    (∀ b, b + 1 = roundedCode mantissaBits n → 2 ^ 112 * magnitude 23 (b * 2 ^ (d + 1) + 2 ^ d) ≤ magnitude 23 n) ∧
      magnitude 23 n < 2 ^ 112 * magnitude 23 (roundedCode mantissaBits n * 2 ^ (d + 1) + 2 ^ d) := by
  have hdrop : 23 - mantissaBits = d + 1 := by omega
  have hge : 2 ^ 23 ≤ n - 112 * 2 ^ 23 := by
    rw [exp32_of_lt h] at he
    omega
  have hscale : magnitude 23 n = 2 ^ 112 * magnitude 23 (n - 112 * 2 ^ 23) := by
    rw [← magnitude_scale hge, Nat.add_sub_cancel' (by omega)]
  have hcode : roundedCode mantissaBits n = (n - 112 * 2 ^ 23 + 1 <<< d) >>> (d + 1) := by
    rw [roundedCode, if_pos he, rebased_eq h he, hdrop, Nat.add_sub_cancel]
  obtain ⟨hlow, hhigh⟩ := rounded_spec (n - 112 * 2 ^ 23) d
  rw [hcode, hscale]
  refine ⟨fun b hb => ?_, ?_⟩
  · exact Nat.mul_le_mul_left _ ((magnitude_strictMono 23).monotone (hlow b hb))
  · exact Nat.mul_lt_mul_of_pos_left (magnitude_strictMono 23 hhigh) (Nat.two_pow_pos 112)

theorem roundedCode_denormal (hd : mantissaBits + (d + 1) = 23) (h : n < 2 ^ 31) (he : exp32 n ≤ 112) :
    roundedCode mantissaBits n ≤ 2 ^ mantissaBits ∧
    (∀ b, b + 1 = roundedCode mantissaBits n → 2 ^ 112 * magnitude 23 (b * 2 ^ (d + 1) + 2 ^ d) ≤ magnitude 23 n) ∧
      magnitude 23 n < 2 ^ 112 * magnitude 23 (roundedCode mantissaBits n * 2 ^ (d + 1) + 2 ^ d) := by
  have hdrop : 23 - mantissaBits = d + 1 := by omega
  have hhalf : 2 ^ (d + 1) = 2 * 2 ^ d := Nat.pow_succ'
  have htop : 2 ^ 23 = 2 ^ mantissaBits * 2 ^ (d + 1) := by rw [← Nat.pow_add, hd]
  rw [magnitude_significand h, roundedCode, if_neg (Nat.not_lt.mpr he), hdrop]
  have hm : (if exp32 n ≠ 0 then mant23 n ||| 0x800000 else mant23 n) < 2 ^ 24 := by
    rw [or_implicit_bit, mant23_eq]
    split <;> omega
  have hexp : 0 < (if exp32 n ≠ 0 then exp32 n else 1) ∧ (if exp32 n ≠ 0 then exp32 n else 1) ≤ 112 := by
    split <;> omega
  generalize (if exp32 n ≠ 0 then mant23 n ||| 0x800000 else mant23 n) = m at hm ⊢
  generalize (if exp32 n ≠ 0 then exp32 n else 1) = e at hexp ⊢
  -- the shift that the code makes, whose rounding unit is that of the denormals
  obtain ⟨t, ht⟩ : ∃ t, d + 1 + 113 - e = t + 1 := ⟨d + 113 - e, by omega⟩
  have hunit : 2 ^ t * 2 ^ (e - 1) = 2 ^ 112 * 2 ^ d := by
    rw [← Nat.pow_add, ← Nat.pow_add]
    congr 1
    omega
  dsimp only
  rw [ht, Nat.add_sub_cancel]
  split
  · -- the significand is rounded at the unit of the target
    obtain ⟨hlow, hhigh⟩ := rounded_spec m t
    generalize (m + 1 <<< t) >>> (t + 1) = c at hlow hhigh ⊢
    have hc : c ≤ 2 ^ mantissaBits := by
      have hpos := Nat.two_pow_pos mantissaBits
      have hpos' := Nat.two_pow_pos t
      by_contra hlarge
      obtain ⟨b, rfl⟩ : ∃ b, c = b + 1 := ⟨c - 1, by omega⟩
      have hb := hlow b rfl
      have hmul : 2 ^ mantissaBits * 2 ^ (t + 1) ≤ b * 2 ^ (t + 1) := Nat.mul_le_mul_right _ (by omega)
      have hpow : 2 ^ 24 ≤ 2 ^ mantissaBits * 2 ^ (t + 1) := by
        rw [← Nat.pow_add]
        exact Nat.pow_le_pow_right Nat.two_pos (by omega)
      omega
    have hcode : ∀ b ≤ 2 ^ mantissaBits, 2 ^ 112 * magnitude 23 (b * 2 ^ (d + 1) + 2 ^ d) =
        (b * 2 ^ (t + 1) + 2 ^ t) * 2 ^ (e - 1) := by
      intro b hb
      have hle : b * 2 ^ (d + 1) ≤ 2 ^ 23 := htop ▸ Nat.mul_le_mul_right _ hb
      have hd' : 2 ^ d ≤ 2 ^ 23 := Nat.pow_le_pow_right Nat.two_pos (by omega)
      rw [magnitude_of_le (by omega)]
      calc 2 ^ 112 * (b * 2 ^ (d + 1) + 2 ^ d) = (2 * b + 1) * (2 ^ 112 * 2 ^ d) := by ring
        _ = (2 * b + 1) * (2 ^ t * 2 ^ (e - 1)) := by rw [hunit]
        _ = (b * 2 ^ (t + 1) + 2 ^ t) * 2 ^ (e - 1) := by ring
    refine ⟨hc, fun b hb => ?_, ?_⟩
    · rw [hcode b (by omega)]
      exact Nat.mul_le_mul_right _ (hlow b hb)
    · rw [hcode c hc]
      exact Nat.mul_lt_mul_of_pos_right hhigh (Nat.two_pow_pos _)
  · -- less than half of the smallest value
    refine ⟨Nat.zero_le _, fun b hb => absurd hb (Nat.succ_ne_zero b), ?_⟩
    have hd' : 2 ^ d ≤ 2 ^ 23 := Nat.pow_le_pow_right Nat.two_pos (by omega)
    have ht' : 2 ^ 24 ≤ 2 ^ t := Nat.pow_le_pow_right Nat.two_pos (by omega)
    rw [Nat.zero_mul, Nat.zero_add, magnitude_of_le (by omega), ← hunit]
    exact Nat.mul_lt_mul_of_pos_right (Nat.lt_of_lt_of_le hm ht') (Nat.two_pow_pos _)

end Rounding

/-! ## The values -/

section Values

variable {mantissaBits d n c : ℕ}

theorem packedValue_eq (hd : mantissaBits + (d + 1) = 23) (c : ℕ) :
    packedValue mantissaBits c = ((2 ^ 112 * magnitude 23 (c * 2 ^ (d + 1)) : ℕ) : ℚ) / 2 ^ 149 := by
  have hshift := magnitude_shift mantissaBits (d + 1) c
  rw [hd] at hshift
  have hpow : (2 : ℚ) ^ 149 = 2 ^ 112 * 2 ^ (d + 1) * 2 ^ (14 + mantissaBits) := by
    rw [← pow_add, ← pow_add]
    congr 1
    omega
  rw [packedValue, hshift, hpow, div_eq_div_iff (by positivity) (by positivity)]
  push_cast
  ring

theorem packedValue_strictMono (mantissaBits : ℕ) : StrictMono (packedValue mantissaBits) := by
  intro a b hab
  have hlt : (magnitude mantissaBits a : ℚ) < magnitude mantissaBits b :=
    Nat.cast_lt.mpr (magnitude_strictMono mantissaBits hab)
  exact div_lt_div_of_pos_right hlt (by positivity)

/-- **Before it is clamped, a packed value is between the middles around the value.** -/
theorem between_roundedCode (hd : mantissaBits + (d + 1) = 23) (h : n < 2 ^ 31) :
    Between (packedValue mantissaBits) (floatValue n) (roundedCode mantissaBits n) := by
  obtain ⟨hlow, hhigh⟩ : (∀ b, b + 1 = roundedCode mantissaBits n →
      2 ^ 112 * magnitude 23 (b * 2 ^ (d + 1) + 2 ^ d) ≤ magnitude 23 n) ∧
        magnitude 23 n < 2 ^ 112 * magnitude 23 (roundedCode mantissaBits n * 2 ^ (d + 1) + 2 ^ d) := by
    rcases Nat.lt_or_ge 112 (exp32 n) with he | he
    · exact roundedCode_normal hd h he
    · exact (roundedCode_denormal hd h he).2
  -- the bit behind the last one kept is the middle of two neighbouring codes
  have hmiddle : ∀ b, packedValue mantissaBits b + packedValue mantissaBits (b + 1) =
      2 * (((2 ^ 112 * magnitude 23 (b * 2 ^ (d + 1) + 2 ^ d) : ℕ) : ℚ) / 2 ^ 149) := by
    intro b
    have hsum := magnitude_middle mantissaBits d b
    rw [hd] at hsum
    have hsum' : ((magnitude 23 (b * 2 ^ (d + 1)) : ℚ) + magnitude 23 ((b + 1) * 2 ^ (d + 1))) =
        2 * magnitude 23 (b * 2 ^ (d + 1) + 2 ^ d) := by exact_mod_cast hsum
    rw [packedValue_eq hd, packedValue_eq hd]
    push_cast
    rw [← add_div, ← mul_add, hsum']
    ring
  have hvalue : floatValue n = (magnitude 23 n : ℚ) / 2 ^ 149 := by rw [floatValue, Nat.mod_eq_of_lt h]
  constructor
  · intro b hb
    rw [← hb, hmiddle, hvalue]
    have hcast : ((2 ^ 112 * magnitude 23 (b * 2 ^ (d + 1) + 2 ^ d) : ℕ) : ℚ) ≤ magnitude 23 n :=
      Nat.cast_le.mpr (hlow b hb)
    have hdiv := div_le_div_of_nonneg_right hcast (by positivity : (0 : ℚ) ≤ 2 ^ 149)
    linarith
  · rw [hmiddle, hvalue]
    have hcast : (magnitude 23 n : ℚ) <
        ((2 ^ 112 * magnitude 23 (roundedCode mantissaBits n * 2 ^ (d + 1) + 2 ^ d) : ℕ) : ℚ) := Nat.cast_lt.mpr hhigh
    have hdiv := div_lt_div_of_pos_right hcast (by positivity : (0 : ℚ) < 2 ^ 149)
    linarith

theorem packedInf_eq (mantissaBits : ℕ) : packedInf mantissaBits = 31 * 2 ^ mantissaBits := Nat.shiftLeft_eq 31 _

theorem packedInf_pos (mantissaBits : ℕ) : 0 < packedInf mantissaBits := by
  rw [packedInf_eq]
  exact Nat.mul_pos (by decide) (Nat.two_pow_pos _)

theorem packUnsignedFloat_of_finite (hd : mantissaBits + (d + 1) = 23) (h : n < 2 ^ 31) (hfinite : exp32 n ≠ 0xFF) :
    packUnsignedFloat mantissaBits n = min (roundedCode mantissaBits n) (packedInf mantissaBits) := by
  have hsign : n >>> 31 = 0 := by rw [Nat.shiftRight_eq_div_pow, Nat.div_eq_of_lt h]
  rw [packUnsignedFloat, if_neg hfinite, if_neg (not_not_intro hsign)]
  split
  · rfl
  · rename_i he
    have hle := (roundedCode_denormal hd h (Nat.le_of_not_lt he)).1
    rw [Nat.min_eq_left]
    rw [packedInf_eq]
    omega

theorem roundedCode_lt_iff (hd : mantissaBits + (d + 1) = 23) (h : n < 2 ^ 31) :
    roundedCode mantissaBits n < packedInf mantissaBits ↔ floatValue n < overflowValue mantissaBits := by
  have hbetween := between_roundedCode hd h
  have hmono := (packedValue_strictMono mantissaBits).monotone
  have hpos := packedInf_pos mantissaBits
  rw [overflowValue]
  constructor
  · intro hlt
    have hhigh := hbetween.high
    have hself := hmono (Nat.le_sub_one_of_lt hlt)
    have hnext := hmono (Nat.succ_le_of_lt hlt)
    rw [Nat.succ_eq_add_one] at hnext
    linarith
  · intro hlt
    by_contra hge
    obtain ⟨b, hb⟩ : ∃ b, b + 1 = roundedCode mantissaBits n := ⟨roundedCode mantissaBits n - 1, by omega⟩
    have hlow := hbetween.low b hb
    have hunder := hmono (by omega : packedInf mantissaBits - 1 ≤ b)
    have hself := hmono (Nat.le_of_not_lt hge)
    linarith

end Values

/-! ## Unpacking -/

section Unpacking

variable {mantissaBits d v m e : ℕ}

theorem significand_lt (hzero : m ≠ 0) (hm : m < 2 ^ 23) :
    2 ^ m.log2 * 2 ^ (23 - m.log2) = 2 ^ 23 ∧ (m - 2 ^ m.log2) * 2 ^ (23 - m.log2) < 2 ^ 23 := by
  have hhigh : m < 2 ^ (m.log2 + 1) := Nat.lt_log2_self
  have hlog : m.log2 < 23 := (Nat.log2_lt hzero).mpr hm
  have hpow : 2 ^ m.log2 * 2 ^ (23 - m.log2) = 2 ^ 23 := by
    rw [← Nat.pow_add]
    congr 1
    omega
  refine ⟨hpow, ?_⟩
  rw [← hpow]
  refine Nat.mul_lt_mul_of_pos_right ?_ (Nat.two_pow_pos _)
  rw [Nat.pow_succ] at hhigh
  omega

/-- **The product is exact.** -/
theorem magnitude_floatProduct (hm : m < 2 ^ 23) (he : 0 < e) : magnitude 23 (floatProduct m e) = m * 2 ^ (e + 22) := by
  rw [floatProduct]
  split
  · rename_i hzero
    rw [hzero, Nat.zero_mul]
    rfl
  · rename_i hzero
    have hlow : 2 ^ m.log2 ≤ m := Nat.log2_self_le hzero
    have hlog : m.log2 < 23 := (Nat.log2_lt hzero).mpr hm
    obtain ⟨hpow, hfits⟩ := significand_lt hzero hm
    obtain ⟨j, hj⟩ : ∃ j, e + m.log2 = j + 1 := ⟨e + m.log2 - 1, by omega⟩
    rw [Nat.shiftLeft_eq (m - 2 ^ m.log2), ← Nat.shiftLeft_add_eq_or_of_lt hfits, Nat.shiftLeft_eq, hj,
      magnitude_of_exponent hfits, ← hpow, ← Nat.add_mul, Nat.add_sub_cancel' hlow, Nat.mul_assoc, ← Nat.pow_add]
    congr 2
    omega

theorem floatProduct_lt (hm : m < 2 ^ 23) (he : e ≤ 200) : floatProduct m e < 0xFF * 2 ^ 23 := by
  rw [floatProduct]
  split
  · decide
  · rename_i hzero
    have hlog : m.log2 < 23 := (Nat.log2_lt hzero).mpr hm
    have hfits := (significand_lt hzero hm).2
    rw [Nat.shiftLeft_eq (m - 2 ^ m.log2), ← Nat.shiftLeft_add_eq_or_of_lt hfits, Nat.shiftLeft_eq]
    omega

/-- **What is unpacked of a finite value has the same value.** -/
theorem unpackUnsignedFloat_spec (hd : mantissaBits + (d + 1) = 23) (hv : v < packedInf mantissaBits) :
    unpackUnsignedFloat mantissaBits v < 0xFF * 2 ^ 23 ∧
      magnitude 23 (unpackUnsignedFloat mantissaBits v) = 2 ^ 112 * magnitude 23 (v * 2 ^ (d + 1)) := by
  have hpos := Nat.two_pow_pos mantissaBits
  have htop : 2 ^ mantissaBits * 2 ^ (d + 1) = 2 ^ 23 := by rw [← Nat.pow_add, hd]
  have hmant : v &&& (1 <<< mantissaBits - 1) = v % 2 ^ mantissaBits := by
    rw [Nat.one_shiftLeft, Nat.and_two_pow_sub_one_eq_mod]
  have hquot : v / 2 ^ mantissaBits < 31 := by
    rw [Nat.div_lt_iff_lt_mul hpos, ← packedInf_eq]
    exact hv
  have hexp : (v >>> mantissaBits) &&& 0x1F = v / 2 ^ mantissaBits := by
    rw [Nat.shiftRight_eq_div_pow]
    exact (Nat.and_two_pow_sub_one_eq_mod _ 5).trans (Nat.mod_eq_of_lt (by omega))
  have hmod := Nat.mod_lt v hpos
  have hfits : v % 2 ^ mantissaBits * 2 ^ (d + 1) < 2 ^ 23 := by
    rw [← htop]
    exact Nat.mul_lt_mul_of_pos_right hmod (Nat.two_pow_pos _)
  have hdrop : 23 - mantissaBits = d + 1 := by omega
  have hdiv : v / 2 ^ mantissaBits * 2 ^ 23 + v % 2 ^ mantissaBits * 2 ^ (d + 1) = v * 2 ^ (d + 1) := by
    rw [← htop, ← Nat.mul_assoc, ← Nat.add_mul, Nat.div_add_mod']
  simp only [unpackUnsignedFloat, hmant, hexp]
  by_cases hzero : v / 2 ^ mantissaBits = 0
  · -- a denormal
    rw [hzero, Nat.zero_mul, Nat.zero_add] at hdiv
    have hlt : v % 2 ^ mantissaBits < 2 ^ 23 :=
      Nat.lt_of_lt_of_le hmod (Nat.pow_le_pow_right Nat.two_pos (by omega))
    rw [if_pos hzero]
    refine ⟨floatProduct_lt hlt (by omega), ?_⟩
    rw [magnitude_floatProduct hlt (by omega), ← hdiv, magnitude_of_lt hfits, Nat.mul_left_comm, ← Nat.pow_add]
    congr 2
    omega
  · -- the exponent is moved from one bias to the other
    rw [if_neg hzero, if_neg (by omega), hdrop, Nat.shiftLeft_eq (v % 2 ^ mantissaBits),
      ← Nat.shiftLeft_add_eq_or_of_lt hfits, Nat.shiftLeft_eq]
    refine ⟨by omega, ?_⟩
    have hge : 2 ^ 23 ≤ v * 2 ^ (d + 1) := by omega
    have hsum : (v / 2 ^ mantissaBits + 112) * 2 ^ 23 + v % 2 ^ mantissaBits * 2 ^ (d + 1) =
        112 * 2 ^ 23 + v * 2 ^ (d + 1) := by
      rw [Nat.add_mul, Nat.add_right_comm, hdiv, Nat.add_comm]
    rw [hsum, magnitude_scale hge]

end Unpacking

/-! ## What packing does -/

section Packing

variable {mantissaBits d n : ℕ}

theorem isFinite_lt {f : BitVec 32} (hfinite : IsFinite f) (hsign : ¬IsNegative f) : f.toNat < 0xFF * 2 ^ 23 := by
  have hf := f.isLt
  rw [IsNegative, not_not, Nat.shiftRight_eq_div_pow] at hsign
  rw [IsFinite, exp32_eq] at hfinite
  omega

theorem isPackedNan_or_one (hmant : 0 < mantissaBits) : IsPackedNan mantissaBits (packedInf mantissaBits ||| 1) := by
  have hone : 1 < 2 ^ mantissaBits := Nat.one_lt_two_pow (by omega)
  have hor : packedInf mantissaBits ||| 1 = packedInf mantissaBits + 1 :=
    (Nat.shiftLeft_add_eq_or_of_lt hone 31).symm
  have hpow : 2 ^ (mantissaBits + 5) = 2 ^ mantissaBits * 2 ^ 5 := Nat.pow_add ..
  rw [IsPackedNan, hor, hpow, packedInf_eq]
  omega

/-- **Packing, for any width of the mantissa.** -/
theorem packs_of_width (hd : mantissaBits + (d + 1) = 23) (hmant : 0 < mantissaBits) : Packs mantissaBits := by
  have hfinite : ∀ f : BitVec 32, IsFinite f → ¬IsNegative f → f.toNat < 2 ^ 31 ∧
      packUnsignedFloat mantissaBits f.toNat = min (roundedCode mantissaBits f.toNat) (packedInf mantissaBits) := by
    intro f hf hsign
    have hlt := isFinite_lt hf hsign
    have hlt' : f.toNat < 2 ^ 31 := Nat.lt_trans hlt (by decide)
    exact ⟨hlt', packUnsignedFloat_of_finite hd hlt' hf⟩
  constructor
  case nan =>
    intro f hnan
    rw [packUnsignedFloat, if_pos hnan.1, if_pos hnan.2]
    exact isPackedNan_or_one hmant
  case negative =>
    intro f hnan hsign
    rw [packUnsignedFloat]
    by_cases hexp : exp32 f.toNat = 0xFF
    · rw [if_pos hexp, if_neg fun hm => hnan ⟨hexp, hm⟩]
      exact if_pos hsign
    · rw [if_neg hexp]
      exact if_pos hsign
  case nearest =>
    intro f hf hsign hlt
    obtain ⟨hf', hpack⟩ := hfinite f hf hsign
    have hcode := (roundedCode_lt_iff hd hf').mpr hlt
    rw [hpack, Nat.min_eq_left (Nat.le_of_lt hcode)]
    exact nearestAway_of_middles (packedValue_strictMono _) (between_roundedCode hd hf') hcode
  case overflow =>
    intro f hnan hsign hover
    by_cases hf : IsFinite f
    · obtain ⟨hf', hpack⟩ := hfinite f hf hsign
      have hcode := mt (roundedCode_lt_iff hd hf').mp (not_lt.mpr (hover hf))
      rw [hpack, Nat.min_eq_right (Nat.le_of_not_lt hcode)]
    · rw [IsFinite, not_not] at hf
      rw [packUnsignedFloat, if_pos hf, if_neg fun hm => hnan ⟨hf, hm⟩]
      exact if_neg hsign
  case monotone =>
    intro f g hf hg hsign hsign' hle
    obtain ⟨hf', hpack⟩ := hfinite f hf hsign
    obtain ⟨hg', hpack'⟩ := hfinite g hg hsign'
    rw [hpack, hpack']
    have hcode := (between_roundedCode hd hf').le (packedValue_strictMono _) (between_roundedCode hd hg') hle
    exact Nat.le_min.mpr ⟨Nat.le_trans (Nat.min_le_left _ _) hcode, Nat.min_le_right _ _⟩
  case roundTrip =>
    intro v hv hnan
    rcases Nat.lt_or_eq_of_le (Nat.le_of_not_lt fun hlt => hnan ⟨hlt, hv⟩) with hlt | rfl
    · obtain ⟨hn, hmag⟩ := unpackUnsignedFloat_spec hd hlt
      have hn' : unpackUnsignedFloat mantissaBits v < 2 ^ 31 := Nat.lt_trans hn (by decide)
      have hexp : exp32 (unpackUnsignedFloat mantissaBits v) ≠ 0xFF := by
        rw [exp32_of_lt hn']
        omega
      -- the value is that of the code, and no other code is as near
      have hvalue : floatValue (unpackUnsignedFloat mantissaBits v) = packedValue mantissaBits v := by
        rw [floatValue, Nat.mod_eq_of_lt hn', hmag, packedValue_eq hd]
      have hbetween := between_roundedCode hd hn'
      have hself := between_self (packedValue_strictMono mantissaBits) v
      have hle := hbetween.le (packedValue_strictMono _) hself (le_of_eq hvalue)
      have hge := hself.le (packedValue_strictMono _) hbetween (le_of_eq hvalue.symm)
      rw [packUnsignedFloat_of_finite hd hn' hexp, Nat.le_antisymm hle hge, Nat.min_eq_left (Nat.le_of_lt hlt)]
    · -- the code of infinity
      have hpos := Nat.two_pow_pos mantissaBits
      have hmant' : packedInf mantissaBits &&& (1 <<< mantissaBits - 1) = 0 := by
        rw [Nat.one_shiftLeft, Nat.and_two_pow_sub_one_eq_mod, packedInf_eq, Nat.mul_mod_left]
      have hexp : (packedInf mantissaBits >>> mantissaBits) &&& 0x1F = 0x1F := by
        rw [packedInf_eq, Nat.shiftRight_eq_div_pow, Nat.mul_div_cancel _ hpos]
        rfl
      have hunpack : unpackUnsignedFloat mantissaBits (packedInf mantissaBits) = 0x7F800000 := by
        simp only [unpackUnsignedFloat, hmant', hexp]
        rfl
      rw [hunpack]
      rfl

/-- **Packing rounds to the nearest**, ties away from zero, in both formats. -/
theorem packUnsignedFloat_packs (format : PackedFloat) : Packs format.mantissaBits := by
  cases format with
  | uf11 => exact @packs_of_width 6 16 rfl (by decide)
  | uf10 => exact @packs_of_width 5 17 rfl (by decide)

theorem beyond_largest_not_infinity : ¬∀ (format : PackedFloat) (f : BitVec 32), IsFinite f → ¬IsNegative f →
      packedValue format.mantissaBits (packedInf format.mantissaBits - 1) < floatValue f.toNat →
      packUnsignedFloat format.mantissaBits f.toNat = packedInf format.mantissaBits := by
  intro h
  have hvalue : packedValue 6 (packedInf 6 - 1) < floatValue 0x477E0100 := by
    have hlargest : magnitude 6 (packedInf 6 - 1) = 127 * 2 ^ 29 := rfl
    have hfloat : magnitude 23 (0x477E0100 % 2 ^ 31) = 16646400 * 2 ^ 141 := rfl
    rw [packedValue, floatValue, hlargest, hfloat]
    norm_num
  exact absurd (h .uf11 0x477E0100#32 (by unfold IsFinite; decide) (by unfold IsNegative; decide) hvalue) (by decide)

end Packing

end Prosperity.Gpu
