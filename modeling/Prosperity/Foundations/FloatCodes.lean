import Mathlib.Algebra.Order.Field.Basic
import Mathlib.Algebra.Order.Ring.Nat
import Mathlib.Order.Monotone.Basic
import Mathlib.Tactic.Linarith
import Mathlib.Tactic.Ring

/-!
# Codes of binary floating-point formats

In a format without signs a code is an exponent above a mantissa, and the codes with exponent zero are
subnormal. In units of the smallest one the magnitudes of the codes are integers, which grow with the code and
are affine on each binade, its two ends included. So the middle of two neighbours of a short format is a code of
any longer one, and rounding a code by its low bits rounds its value to the nearest, ties away from zero.
-/

namespace Prosperity.FloatCodes

/-! ## Magnitudes -/

/-- The value of a code in units of the smallest one. -/
def magnitude (mant c : ℕ) : ℕ :=
  if c / 2 ^ mant = 0 then c else (2 ^ mant + c % 2 ^ mant) * 2 ^ (c / 2 ^ mant - 1)

variable {mant c d n r e : ℕ}

theorem magnitude_of_lt (h : c < 2 ^ mant) : magnitude mant c = c := if_pos (Nat.div_eq_of_lt h)

theorem magnitude_of_exponent (h : r < 2 ^ mant) (e : ℕ) :
    magnitude mant ((e + 1) * 2 ^ mant + r) = (2 ^ mant + r) * 2 ^ e := by
  have hpos := Nat.two_pow_pos mant
  have hdiv : ((e + 1) * 2 ^ mant + r) / 2 ^ mant = e + 1 := by
    rw [Nat.mul_comm, Nat.mul_add_div hpos, Nat.div_eq_of_lt h, Nat.add_zero]
  have hmod : ((e + 1) * 2 ^ mant + r) % 2 ^ mant = r := by
    rw [Nat.mul_comm, Nat.mul_add_mod, Nat.mod_eq_of_lt h]
  rw [magnitude, hdiv, if_neg (Nat.succ_ne_zero e), hmod, Nat.add_sub_cancel]

theorem magnitude_binade (h : r ≤ 2 ^ mant) (e : ℕ) :
    magnitude mant ((e + 1) * 2 ^ mant + r) = (2 ^ mant + r) * 2 ^ e := by
  rcases Nat.lt_or_eq_of_le h with hlt | rfl
  · exact magnitude_of_exponent hlt e
  · have hnext : (e + 1) * 2 ^ mant + 2 ^ mant = (e + 1 + 1) * 2 ^ mant + 0 := by ring
    rw [hnext, magnitude_of_exponent (Nat.two_pow_pos mant)]
    ring

theorem magnitude_of_le (h : c ≤ 2 * 2 ^ mant) : magnitude mant c = c := by
  rcases Nat.lt_or_ge c (2 ^ mant) with hlt | hge
  · exact magnitude_of_lt hlt
  · have hone := @magnitude_binade mant (c - 2 ^ mant) (by omega) 0
    rwa [Nat.zero_add, Nat.one_mul, Nat.pow_zero, Nat.mul_one, Nat.add_sub_cancel' hge] at hone

theorem magnitude_scale (h : 2 ^ mant ≤ c) (j : ℕ) : magnitude mant (j * 2 ^ mant + c) = 2 ^ j * magnitude mant c := by
  obtain ⟨e, r, hr, rfl⟩ : ∃ e r, r < 2 ^ mant ∧ c = (e + 1) * 2 ^ mant + r := by
    refine ⟨c / 2 ^ mant - 1, c % 2 ^ mant, Nat.mod_lt c (Nat.two_pow_pos mant), ?_⟩
    rw [Nat.sub_add_cancel (Nat.div_pos h (Nat.two_pow_pos mant)), Nat.div_add_mod']
  have hsum : j * 2 ^ mant + ((e + 1) * 2 ^ mant + r) = (j + e + 1) * 2 ^ mant + r := by ring
  rw [hsum, magnitude_of_exponent hr, magnitude_of_exponent hr]
  ring

/-- **Magnitudes are affine on a binade** and its upper end. -/
theorem magnitude_affine (mant k : ℕ) :
    ∃ base slope, 0 < slope ∧ ∀ r ≤ 2 ^ mant, magnitude mant (k * 2 ^ mant + r) = base + slope * r := by
  cases k with
  | zero =>
    refine ⟨0, 1, Nat.one_pos, fun r hr => ?_⟩
    rw [Nat.zero_mul, Nat.zero_add, magnitude_of_le (Nat.le_trans hr (Nat.le_mul_of_pos_left _ Nat.two_pos)),
      Nat.one_mul, Nat.zero_add]
  | succ e =>
    refine ⟨2 ^ mant * 2 ^ e, 2 ^ e, Nat.two_pow_pos e, fun r hr => ?_⟩
    rw [magnitude_binade hr]
    ring

/-- **Larger codes have larger values.** -/
theorem magnitude_strictMono (mant : ℕ) : StrictMono (magnitude mant) := by
  refine strictMono_nat_of_lt_succ fun c => ?_
  obtain ⟨base, slope, hslope, haffine⟩ := magnitude_affine mant (c / 2 ^ mant)
  have hmod := Nat.mod_lt c (Nat.two_pow_pos mant)
  have hc := haffine (c % 2 ^ mant) (Nat.le_of_lt hmod)
  have hnext := haffine (c % 2 ^ mant + 1) hmod
  rw [Nat.div_add_mod'] at hc
  rw [← Nat.add_assoc, Nat.div_add_mod'] at hnext
  rw [hc, hnext]
  exact Nat.add_lt_add_left (Nat.mul_lt_mul_of_pos_left (Nat.lt_succ_self _) hslope) base

/-- **A short mantissa is a long one with zeros behind it.** -/
theorem magnitude_shift (mant d c : ℕ) : magnitude (mant + d) (c * 2 ^ d) = magnitude mant c * 2 ^ d := by
  have hdiv : c * 2 ^ d / 2 ^ (mant + d) = c / 2 ^ mant := by
    rw [Nat.pow_add, Nat.mul_div_mul_right _ _ (Nat.two_pow_pos d)]
  have hmod : c * 2 ^ d % 2 ^ (mant + d) = c % 2 ^ mant * 2 ^ d := by
    rw [Nat.pow_add, Nat.mul_mod_mul_right]
  rw [magnitude, magnitude, hdiv, hmod]
  split
  · rfl
  · ring

/-- **The middle between neighbours** of a short format is a code of a long one. -/
theorem magnitude_middle (mant d c : ℕ) :
    magnitude (mant + (d + 1)) (c * 2 ^ (d + 1)) + magnitude (mant + (d + 1)) ((c + 1) * 2 ^ (d + 1)) =
      2 * magnitude (mant + (d + 1)) (c * 2 ^ (d + 1) + 2 ^ d) := by
  obtain ⟨base, slope, -, haffine⟩ := magnitude_affine (mant + (d + 1)) (c / 2 ^ mant)
  have hmod := Nat.mod_lt c (Nat.two_pow_pos mant)
  have hpow : 2 ^ (mant + (d + 1)) = 2 ^ mant * 2 ^ (d + 1) := Nat.pow_add ..
  have hend : (c % 2 ^ mant + 1) * 2 ^ (d + 1) ≤ 2 ^ (mant + (d + 1)) := by
    rw [hpow]
    exact Nat.mul_le_mul_right _ hmod
  have hhalf : 2 ^ (d + 1) = 2 * 2 ^ d := Nat.pow_succ'
  have hcode : c * 2 ^ (d + 1) = c / 2 ^ mant * 2 ^ (mant + (d + 1)) + c % 2 ^ mant * 2 ^ (d + 1) := by
    rw [hpow, ← Nat.mul_assoc, ← Nat.add_mul, Nat.div_add_mod']
  have hnext : (c + 1) * 2 ^ (d + 1) =
      c / 2 ^ mant * 2 ^ (mant + (d + 1)) + (c % 2 ^ mant + 1) * 2 ^ (d + 1) := by
    rw [Nat.add_mul c, hcode, Nat.add_mul (c % 2 ^ mant), Nat.add_assoc]
  rw [hnext, hcode, Nat.add_assoc, haffine _ hend, haffine _ (by rw [Nat.add_mul] at hend; omega),
    haffine _ (by rw [Nat.add_mul] at hend; omega), Nat.add_mul, hhalf]
  ring

/-! ## The nearest code -/

section Nearest

variable {α : Type*} [Field α] [LinearOrder α] [IsStrictOrderedRing α] {v : ℕ → α} {top : ℕ} {x y : α}

/-- Among the codes below `top` the value of `c` is the nearest to `x`, and on a tie the larger one. -/
structure NearestAway (v : ℕ → α) (top : ℕ) (x : α) (c : ℕ) : Prop where
  lt : c < top
  nearest : ∀ d < top, |v c - x| ≤ |v d - x|
  away : ∀ d < top, |v c - x| = |v d - x| → d ≤ c

/-- The value is not below the middle under the code, and below the one above it. -/
structure Between (v : ℕ → α) (x : α) (c : ℕ) : Prop where
  low : ∀ b, b + 1 = c → v b + v c ≤ 2 * x
  high : 2 * x < v c + v (c + 1)

/-- **Between the middles around a value no other one is nearer.** -/
theorem nearestAway_of_middles (hv : StrictMono v) (h : Between v x c) (hlt : c < top) : NearestAway v top x c := by
  -- below the middle of `b` and `c` nothing is nearer than `c`, a tie included
  have hbelow : ∀ d, d < c → |v c - x| ≤ |v d - x| := by
    intro d hd
    obtain ⟨b, rfl⟩ : ∃ b, c = b + 1 := ⟨c - 1, by omega⟩
    have hlow := h.low b rfl
    have hdb : v d ≤ v b := hv.monotone (Nat.le_of_lt_succ hd)
    have hbc : v b < v (b + 1) := hv (Nat.lt_succ_self b)
    have hneg : |v d - x| = x - v d := by
      rw [abs_sub_comm, abs_of_nonneg]
      linarith
    rw [hneg, abs_le]
    constructor <;> linarith
  -- the middle above is not reached, so there is no tie with a larger code
  have habove : ∀ d, c < d → |v c - x| < |v d - x| := by
    intro d hd
    have hdc : v (c + 1) ≤ v d := hv.monotone hd
    have hcc : v c < v (c + 1) := hv (Nat.lt_succ_self c)
    have hhigh := h.high
    refine lt_of_lt_of_le ?_ (le_abs_self _)
    rw [abs_lt]
    constructor <;> linarith
  refine ⟨hlt, fun d _ => ?_, fun d _ htie => ?_⟩
  · rcases Nat.lt_trichotomy d c with hd | rfl | hd
    · exact hbelow d hd
    · exact le_refl _
    · exact (habove d hd).le
  · by_contra hd
    exact absurd htie (habove d (Nat.lt_of_not_le hd)).ne

theorem Between.le (hv : StrictMono v) (h : Between v x c) (h' : Between v y d) (hxy : x ≤ y) : c ≤ d := by
  by_contra hdc
  obtain ⟨b, rfl⟩ : ∃ b, c = b + 1 := ⟨c - 1, by omega⟩
  have hlow := h.low b rfl
  have hhigh := h'.high
  have hd : v d ≤ v b := hv.monotone (by omega)
  have hd' : v (d + 1) ≤ v (b + 1) := hv.monotone (by omega)
  linarith

theorem between_self (hv : StrictMono v) (c : ℕ) : Between v (v c) c where
  low b hb := by
    have hlt : v b < v c := hv (hb ▸ Nat.lt_succ_self b)
    linarith
  high := by
    have hlt : v c < v (c + 1) := hv (Nat.lt_succ_self c)
    linarith

end Nearest

end Prosperity.FloatCodes
