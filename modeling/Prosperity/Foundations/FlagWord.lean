import Mathlib.Data.BitVec
import Mathlib.Algebra.Order.Group.Nat

/-!
# Words of flags above a counter

A lock word packs a few flag bits above a counter, `f ++ r`. Masking acts on both parts alone,
and counting up or down acts on the counter alone as long as it stays in range.
-/

namespace Prosperity

variable {k n : ℕ}

theorem toNat_append_eq (f : BitVec k) (r : BitVec n) : (f ++ r).toNat = f.toNat * 2 ^ n + r.toNat := by
  rw [BitVec.toNat_append, ← Nat.shiftLeft_add_eq_or_of_lt r.isLt, Nat.shiftLeft_eq]

theorem exists_append (w : BitVec (k + n)) : ∃ (f : BitVec k) (r : BitVec n), w = f ++ r := by
  refine ⟨BitVec.ofNat k (w.toNat / 2 ^ n), BitVec.ofNat n w.toNat, ?_⟩
  have hlt : w.toNat / 2 ^ n < 2 ^ k := by
    rw [Nat.div_lt_iff_lt_mul (Nat.two_pow_pos n), ← Nat.pow_add]
    exact w.isLt
  apply BitVec.eq_of_toNat_eq
  rw [toNat_append_eq, BitVec.toNat_ofNat, BitVec.toNat_ofNat, Nat.mod_eq_of_lt hlt, Nat.div_add_mod']

theorem append_eq_append_iff {f f' : BitVec k} {r r' : BitVec n} : f ++ r = f' ++ r' ↔ f = f' ∧ r = r' := by
  constructor
  · intro h
    have hnat := congrArg BitVec.toNat h
    rw [toNat_append_eq, toNat_append_eq] at hnat
    have hr : r.toNat = r'.toNat := by
      have hmod := congrArg (· % 2 ^ n) hnat
      simpa [Nat.add_mod, Nat.mod_eq_of_lt r.isLt, Nat.mod_eq_of_lt r'.isLt] using hmod
    rw [hr] at hnat
    have hf : f.toNat = f'.toNat :=
      Nat.eq_of_mul_eq_mul_right (Nat.two_pow_pos n) (Nat.add_right_cancel hnat)
    exact ⟨BitVec.eq_of_toNat_eq hf, BitVec.eq_of_toNat_eq hr⟩
  · rintro ⟨rfl, rfl⟩
    rfl

theorem append_add_one {f : BitVec k} {r : BitVec n} (h : r.toNat + 1 < 2 ^ n) :
    (f ++ r) + BitVec.ofNat (k + n) 1 = f ++ (r + BitVec.ofNat n 1) := by
  apply BitVec.eq_of_toNat_eq
  have hone : 1 < 2 ^ n := by omega
  have hflags : f.toNat * 2 ^ n + 2 ^ n ≤ 2 ^ (k + n) := by
    rw [Nat.pow_add, ← Nat.succ_mul]
    exact Nat.mul_le_mul_right _ f.isLt
  rw [BitVec.toNat_add, toNat_append_eq, toNat_append_eq, BitVec.toNat_add, BitVec.toNat_ofNat,
    BitVec.toNat_ofNat, Nat.mod_eq_of_lt hone, Nat.mod_eq_of_lt h,
    Nat.mod_eq_of_lt (by omega : 1 < 2 ^ (k + n)), Nat.mod_eq_of_lt (by omega), Nat.add_assoc]

theorem append_sub_one {f : BitVec k} {r : BitVec n} (h : 0 < r.toNat) :
    (f ++ r) - BitVec.ofNat (k + n) 1 = f ++ (r - BitVec.ofNat n 1) := by
  have hone : 1 < 2 ^ n := lt_of_le_of_lt h r.isLt
  have hr : (r - BitVec.ofNat n 1).toNat = r.toNat - 1 := by
    have hlt := r.isLt
    rw [BitVec.toNat_sub, BitVec.toNat_ofNat, Nat.mod_eq_of_lt hone,
      show 2 ^ n - 1 + r.toNat = r.toNat - 1 + 2 ^ n by omega, Nat.add_mod_right,
      Nat.mod_eq_of_lt (by omega)]
  -- counting the right-hand side up again gives the left-hand side
  have hup := append_add_one (f := f) (r := r - BitVec.ofNat n 1) (by
    rw [hr]
    have := r.isLt
    omega)
  rw [BitVec.sub_add_cancel] at hup
  rw [← hup, BitVec.add_sub_cancel]

end Prosperity
