import Mathlib.Data.Nat.Bitwise

/-!
# Addresses made of digits

An address that is not swizzled is a number in mixed radix: the index of a block times the size
of the block, and a position in the block. This module has what is needed to read such a number
back, and to round an address to a block.
-/

namespace Prosperity

section Digits

variable {a b r s n : ℕ}

/-- **Two digits can be read back.** -/
theorem digits_injective (hr : r < n) (hs : s < n) (h : a * n + r = b * n + s) : a = b ∧ r = s := by
  have hdiv := congrArg (· / n) h
  have hmod := congrArg (· % n) h
  simp only [Nat.mul_add_mod_of_lt hr, Nat.mul_add_mod_of_lt hs] at hmod
  simp only [Nat.mul_comm _ n, Nat.mul_add_div (Nat.zero_lt_of_lt hr), Nat.div_eq_of_lt hr, Nat.div_eq_of_lt hs] at hdiv
  exact ⟨hdiv, hmod⟩

theorem digits_lt (ha : a < b) (hr : r < n) : a * n + r < b * n := by
  calc a * n + r < a * n + n := Nat.add_lt_add_left hr _
    _ = (a + 1) * n := (Nat.succ_mul a n).symm
    _ ≤ b * n := Nat.mul_le_mul_right n ha

theorem or_shiftLeft {k : ℕ} (hr : r < 2 ^ k) : r ||| a <<< k = a * 2 ^ k + r := by
  rw [Nat.or_comm, ← Nat.shiftLeft_add_eq_or_of_lt hr, Nat.shiftLeft_eq]

theorem or_shiftLeft_injective {k : ℕ} (hr : r < 2 ^ k) (hs : s < 2 ^ k)
    (h : r ||| a <<< k = s ||| b <<< k) : a = b ∧ r = s := by
  rw [or_shiftLeft hr, or_shiftLeft hs] at h
  exact digits_injective hr hs h

theorem or_shiftLeft_lt {k m : ℕ} (hr : r < 2 ^ k) (ha : a < 2 ^ m) : r ||| a <<< k < 2 ^ (m + k) := by
  rw [or_shiftLeft hr, Nat.pow_add]
  exact digits_lt ha hr

theorem shiftRight_mono (h : a ≤ b) (k : ℕ) : a >>> k ≤ b >>> k := by
  rw [Nat.shiftRight_eq_div_pow, Nat.shiftRight_eq_div_pow]
  exact Nat.div_le_div_right h

end Digits

section Align

def andNot (x m : ℕ) : ℕ := x ^^^ (x &&& m)

def alignUp (value align : ℕ) : ℕ := andNot (value + align - 1) (align - 1)

theorem andNot_two_pow (x k : ℕ) : andNot x (2 ^ k - 1) = 2 ^ k * (x / 2 ^ k) := by
  apply Nat.eq_of_testBit_eq
  intro i
  rw [andNot, Nat.and_two_pow_sub_one_eq_mod, Nat.testBit_xor, Nat.testBit_mod_two_pow,
    Nat.testBit_two_pow_mul, Nat.testBit_div_two_pow]
  rcases Nat.lt_or_ge i k with hi | hi
  · simp [hi]
  · simp [hi, Nat.not_lt.mpr hi]

variable {k : ℕ}

theorem dvd_alignUp (v : ℕ) : 2 ^ k ∣ alignUp v (2 ^ k) := by
  rw [alignUp, andNot_two_pow]
  exact Nat.dvd_mul_right _ _

theorem le_alignUp (v : ℕ) : v ≤ alignUp v (2 ^ k) := by
  rw [alignUp, andNot_two_pow]
  have hpos := Nat.two_pow_pos k
  have hdiv := Nat.div_add_mod (v + 2 ^ k - 1) (2 ^ k)
  have hmod := Nat.mod_lt (v + 2 ^ k - 1) hpos
  omega

theorem alignUp_le {v y : ℕ} (hy : 2 ^ k ∣ y) (hvy : v ≤ y) : alignUp v (2 ^ k) ≤ y := by
  rw [alignUp, andNot_two_pow]
  obtain ⟨n, rfl⟩ := hy
  have hpos := Nat.two_pow_pos k
  refine Nat.mul_le_mul_left _ (Nat.lt_succ_iff.mp ?_)
  rw [Nat.div_lt_iff_lt_mul hpos, Nat.succ_mul, Nat.mul_comm n]
  omega

end Align

end Prosperity
