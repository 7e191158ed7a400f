import Mathlib.Data.EReal.Operations
import Mathlib.Tactic.IntervalCases
import Prosperity.Foundations.FloatCodes
import Prosperity.Gcn.WideIntegers

/-!
# 64-bit compares out of dword pairs

The translator compares integers and doubles of 64 bits on their halves. The doubles are ordered by a key: the
negative ones are complemented and the others gain the sign bit. A compare opcode picks a predicate, whose
number has one bit for every relation two operands can stand in.
-/

namespace Prosperity.WideCompares

open Prosperity.FloatCodes (magnitude magnitude_strictMono)
open Prosperity.WideIntegers

/-! ## The expressions -/

def slt32 (a b : UInt32) : Bool := a.toInt32 < b.toInt32

def u64Eq (a b : Dword2) : Bool := a.lo == b.lo && a.hi == b.hi

def u64Lt (a b : Dword2) : Bool := a.hi < b.hi || (a.hi == b.hi && a.lo < b.lo)

def i64Lt (a b : Dword2) : Bool := slt32 a.hi b.hi || (a.hi == b.hi && a.lo < b.lo)

def int64Predicate (lo : ℕ) (isSigned : Bool) (a b : Dword2) : Option Bool :=
  let lt x y := if isSigned then i64Lt x y else u64Lt x y
  match lo with
  | 0 => some false
  | 1 => some (lt a b)
  | 2 => some (u64Eq a b)
  | 3 => some (lt a b || u64Eq a b)
  | 4 => some (lt b a)
  | 5 => some !u64Eq a b
  | 6 => some !lt a b
  | 7 => some true
  | _ => none

def f64IsNan (x : Dword2) : Bool :=
  (x.hi &&& 0x7ff00000) == 0x7ff00000 && ((x.hi &&& 0x000fffff) != 0 || x.lo != 0)

def f64IsZero (x : Dword2) : Bool := (x.hi &&& 0x7fffffff) == 0 && x.lo == 0

def f64OrderKey (x : Dword2) : Dword2 :=
  let neg := (x.hi &&& 0x80000000) != 0
  ⟨if neg then ~~~x.lo else x.lo, if neg then ~~~x.hi else x.hi ^^^ 0x80000000⟩

def f64Eq (a b : Dword2) : Bool :=
  !(f64IsNan a || f64IsNan b) && (u64Eq a b || (f64IsZero a && f64IsZero b))

/-- The key ranks `-0.0` below `+0.0`, so equal zeroes are excluded. -/
def f64Lt (a b : Dword2) : Bool :=
  !(f64IsNan a || f64IsNan b) && (u64Lt (f64OrderKey a) (f64OrderKey b) && !(f64IsZero a && f64IsZero b))

def float64Predicate (lo : ℕ) (a b : Dword2) : Option Bool :=
  let nan := f64IsNan a || f64IsNan b
  match lo with
  | 0 => some false
  | 1 => some (f64Lt a b)
  | 2 => some (f64Eq a b)
  | 3 => some (f64Lt a b || f64Eq a b)
  | 4 => some (f64Lt b a)
  | 5 => some (!nan && !f64Eq a b)
  | 6 => some (f64Lt b a || f64Eq a b)
  | 7 => some !nan
  | 8 => some nan
  | 9 => some (nan || f64Lt a b)
  | 10 => some (nan || f64Eq a b)
  | 11 => some (nan || (f64Lt a b || f64Eq a b))
  | 12 => some (nan || f64Lt b a)
  | 13 => some !f64Eq a b
  | 14 => some (nan || (f64Lt b a || f64Eq a b))
  | 15 => some true
  | _ => none

/-! ## What the operands stand for -/

variable {a b x : Dword2}

def infinityCode : ℕ := 0x7FF * 2 ^ 52

def IsNan (x : Dword2) : Prop := infinityCode < x.toNat % 2 ^ 63

noncomputable def codeValue (c : ℕ) : EReal :=
  if c = infinityCode then ⊤ else (((magnitude 52 c / 2 ^ 1074 : ℚ) : ℝ) : EReal)

noncomputable def doubleValue (x : Dword2) : EReal :=
  if 2 ^ 63 ≤ x.toNat then -codeValue (x.toNat % 2 ^ 63) else codeValue (x.toNat % 2 ^ 63)

/-- How two operands compare. -/
inductive Relation
  | less
  | equal
  | greater
  | unordered
  deriving DecidableEq

def Relation.meets (r : Relation) (lo : ℕ) : Bool :=
  match r with
  | .less => lo.testBit 0
  | .equal => lo.testBit 1
  | .greater => lo.testBit 2
  | .unordered => lo.testBit 3

section

open Classical

variable {α : Type*} [LinearOrder α]

/-- The relation of two values of an order, where `nan` says that there are none. -/
noncomputable def relation (nan : Prop) (x y : α) : Relation :=
  if nan then .unordered else if x < y then .less else if x = y then .equal else .greater

end

/-! ## Lexicographic compares -/

theorem u64Eq_eq (a b : Dword2) : u64Eq a b = decide (a.toNat = b.toNat) := by
  have ha := a.lo.toNat_lt
  have hb := b.lo.toNat_lt
  rw [u64Eq, Bool.eq_iff_iff, Bool.and_eq_true, beq_iff_eq, beq_iff_eq, decide_eq_true_iff,
    ← UInt32.toNat_inj, ← UInt32.toNat_inj, Dword2.toNat, Dword2.toNat]
  omega

theorem u64Lt_eq (a b : Dword2) : u64Lt a b = decide (a.toNat < b.toNat) := by
  have ha := a.lo.toNat_lt
  have hb := b.lo.toNat_lt
  rw [u64Lt, Bool.eq_iff_iff, Bool.or_eq_true, Bool.and_eq_true, decide_eq_true_iff, beq_iff_eq,
    decide_eq_true_iff, decide_eq_true_iff, UInt32.lt_iff_toNat_lt, UInt32.lt_iff_toNat_lt,
    ← UInt32.toNat_inj, Dword2.toNat, Dword2.toNat]
  omega

theorem i64Lt_eq (a b : Dword2) : i64Lt a b = decide (a.toInt < b.toInt) := by
  have ha := a.lo.toNat_lt
  have hb := b.lo.toNat_lt
  have hslt : slt32 a.hi b.hi = true ↔ signed a.hi < signed b.hi := by
    rw [slt32, decide_eq_true_iff, Int32.lt_iff_toInt_lt]
    rfl
  have heq : a.hi = b.hi ↔ signed a.hi = signed b.hi := by
    have hahi := a.hi.toNat_lt
    have hbhi := b.hi.toNat_lt
    rw [signed_eq, signed_eq, ← UInt32.toNat_inj]
    split_ifs <;> omega
  rw [i64Lt, Bool.eq_iff_iff, Bool.or_eq_true, Bool.and_eq_true, hslt, beq_iff_eq, heq, decide_eq_true_iff,
    decide_eq_true_iff, UInt32.lt_iff_toNat_lt, toInt_eq, toInt_eq]
  omega

/-! ## The order of doubles -/

theorem f64IsNan_iff : f64IsNan x = true ↔ IsNan x := by
  have hlo := x.lo.toNat_lt
  rw [f64IsNan, Bool.and_eq_true, Bool.or_eq_true, beq_iff_eq, bne_iff_ne, bne_iff_ne, ne_eq, ne_eq,
    ← UInt32.toNat_inj, ← UInt32.toNat_inj, ← UInt32.toNat_inj,
    Words.toNat_and_field x.hi (k := 11) (s := 20) rfl, Words.toNat_and32 x.hi (k := 20) rfl, IsNan,
    infinityCode, Dword2.toNat]
  simp only [UInt32.toNat_ofNat]
  omega

theorem f64IsZero_iff : f64IsZero x = true ↔ x.toNat % 2 ^ 63 = 0 := by
  have hlo := x.lo.toNat_lt
  rw [f64IsZero, Bool.and_eq_true, beq_iff_eq, beq_iff_eq, ← UInt32.toNat_inj, ← UInt32.toNat_inj,
    Words.toNat_and32 x.hi (k := 31) rfl, Dword2.toNat, UInt32.toNat_zero]
  omega

theorem xor_two_pow {n k : ℕ} (h : n < 2 ^ k) : n ^^^ 2 ^ k = n + 2 ^ k := by
  have hdiv : (n ^^^ 2 ^ k) / 2 ^ k = 1 := by
    rw [Nat.xor_div_two_pow, Nat.div_eq_of_lt h, Nat.div_self (Nat.two_pow_pos k), Nat.zero_xor]
  have hmod : (n ^^^ 2 ^ k) % 2 ^ k = n := by
    rw [Nat.xor_mod_two_pow, Nat.mod_eq_of_lt h, Nat.mod_self, Nat.xor_zero]
  rw [← Nat.div_add_mod (n ^^^ 2 ^ k) (2 ^ k), hdiv, hmod, Nat.mul_one, Nat.add_comm]

/-- The key complements the negative patterns and moves the others above them. -/
theorem toNat_f64OrderKey (x : Dword2) : (f64OrderKey x).toNat =
    if 2 ^ 63 ≤ x.toNat then 2 ^ 64 - 1 - x.toNat else x.toNat + 2 ^ 63 := by
  have hlo := x.lo.toNat_lt
  have hhi := x.hi.toNat_lt
  have hneg : ((x.hi &&& 0x80000000) != 0) = true ↔ 2 ^ 31 ≤ x.hi.toNat := by
    rw [bne_iff_ne, ne_eq, ← UInt32.toNat_inj, UInt32.toNat_and]
    exact Words.and_two_pow_ne_zero hhi
  have hsign : 2 ^ 63 ≤ x.toNat ↔ 2 ^ 31 ≤ x.hi.toNat := by
    rw [Dword2.toNat]
    omega
  rw [f64OrderKey, Dword2.toNat]
  simp only [hneg, hsign]
  split
  · rw [UInt32.toNat_not, UInt32.toNat_not, Dword2.toNat]
    simp only [UInt32.size]
    omega
  · rename_i hpos
    have hxor : (x.hi ^^^ 0x80000000).toNat = x.hi.toNat + 2 ^ 31 := by
      rw [UInt32.toNat_xor]
      exact xor_two_pow (Nat.lt_of_not_le hpos)
    rw [hxor, Dword2.toNat]
    omega

theorem codeValue_lt {c d : ℕ} (hd : d ≤ infinityCode) (h : c < d) : codeValue c < codeValue d := by
  rw [codeValue, codeValue, if_neg (Nat.ne_of_lt (Nat.lt_of_lt_of_le h hd))]
  split
  · exact EReal.coe_lt_top _
  · rw [EReal.coe_lt_coe_iff, Rat.cast_lt]
    have hlt : (magnitude 52 c : ℚ) < magnitude 52 d := Nat.cast_lt.mpr (magnitude_strictMono 52 h)
    exact div_lt_div_of_pos_right hlt (by positivity)

theorem codeValue_zero : codeValue 0 = 0 := by
  rw [codeValue, if_neg (by decide), FloatCodes.magnitude_of_lt (Nat.two_pow_pos 52)]
  simp

theorem codeValue_lt_iff {c d : ℕ} (hc : c ≤ infinityCode) (hd : d ≤ infinityCode) :
    codeValue c < codeValue d ↔ c < d := by
  refine ⟨fun h => ?_, codeValue_lt hd⟩
  by_contra hge
  rcases Nat.lt_or_eq_of_le (Nat.le_of_not_lt hge) with hlt | rfl
  · exact lt_asymm h (codeValue_lt hc hlt)
  · exact lt_irrefl _ h

theorem codeValue_nonneg {c : ℕ} (hc : c ≤ infinityCode) : 0 ≤ codeValue c := by
  rw [← codeValue_zero]
  rcases Nat.eq_zero_or_pos c with rfl | hpos
  · exact le_refl _
  · exact le_of_lt (codeValue_lt hc hpos)

/-- The sign and the magnitude order the doubles as their values do; both zeroes are one value. -/
theorem doubleValue_lt_iff (ha : ¬IsNan a) (hb : ¬IsNan b) : doubleValue a < doubleValue b ↔
    (f64OrderKey a).toNat < (f64OrderKey b).toNat ∧ ¬(a.toNat % 2 ^ 63 = 0 ∧ b.toNat % 2 ^ 63 = 0) := by
  have hca := Nat.le_of_not_lt ha
  have hcb := Nat.le_of_not_lt hb
  have hwa := a.toNat_lt
  have hwb := b.toNat_lt
  have hpos {c : ℕ} (hc : c ≤ infinityCode) : 0 < codeValue c ↔ 0 < c := by
    rw [← codeValue_zero]
    exact codeValue_lt_iff (Nat.zero_le _) hc
  rw [doubleValue, doubleValue, toNat_f64OrderKey, toNat_f64OrderKey]
  split <;> split
  · -- both are negative: the magnitudes stand the other way round
    rw [EReal.neg_lt_neg_iff, codeValue_lt_iff hcb hca]
    omega
  · -- a negative value is below the others, unless both are a zero
    have hiff : -codeValue (a.toNat % 2 ^ 63) < codeValue (b.toNat % 2 ^ 63) ↔
        0 < a.toNat % 2 ^ 63 ∨ 0 < b.toNat % 2 ^ 63 := by
      rw [← hpos hca, ← hpos hcb]
      constructor
      · intro h
        by_contra hnone
        obtain ⟨hza, hzb⟩ := not_or.mp hnone
        have hza := le_antisymm (not_lt.mp hza) (codeValue_nonneg hca)
        have hzb := le_antisymm (not_lt.mp hzb) (codeValue_nonneg hcb)
        rw [hza, hzb, neg_zero] at h
        exact lt_irrefl _ h
      · rintro (h | h)
        · exact lt_of_lt_of_le (EReal.neg_lt_zero.mpr h) (codeValue_nonneg hcb)
        · exact lt_of_le_of_lt (EReal.neg_le_zero.mpr (codeValue_nonneg hca)) h
    rw [hiff]
    omega
  · have hge : ¬codeValue (a.toNat % 2 ^ 63) < -codeValue (b.toNat % 2 ^ 63) := by
      apply not_lt_of_ge
      exact le_trans (EReal.neg_le_zero.mpr (codeValue_nonneg hcb)) (codeValue_nonneg hca)
    rw [iff_false_left hge]
    omega
  · rw [codeValue_lt_iff hca hcb]
    omega

theorem nan_iff : (!(f64IsNan a || f64IsNan b)) = true ↔ ¬(IsNan a ∨ IsNan b) := by
  rw [Bool.not_eq_true', ← Bool.not_eq_true, Bool.or_eq_true, f64IsNan_iff, f64IsNan_iff]

theorem f64Lt_iff : f64Lt a b = true ↔ ¬(IsNan a ∨ IsNan b) ∧ doubleValue a < doubleValue b := by
  rw [f64Lt, Bool.and_eq_true, nan_iff, u64Lt_eq]
  apply and_congr_right
  intro hnan
  obtain ⟨ha, hb⟩ := not_or.mp hnan
  rw [doubleValue_lt_iff ha hb, ← f64IsZero_iff, ← f64IsZero_iff]
  cases f64IsZero a <;> cases f64IsZero b <;> simp

theorem f64Eq_iff : f64Eq a b = true ↔ ¬(IsNan a ∨ IsNan b) ∧ doubleValue a = doubleValue b := by
  rw [f64Eq, Bool.and_eq_true, nan_iff, u64Eq_eq, Bool.or_eq_true, Bool.and_eq_true, f64IsZero_iff, f64IsZero_iff,
    decide_eq_true_iff]
  apply and_congr_right
  intro hnan
  obtain ⟨ha, hb⟩ := not_or.mp hnan
  have hwa := a.toNat_lt
  have hwb := b.toNat_lt
  -- two values are equal where none is below the other
  rw [@eq_iff_le_not_lt _ _ (doubleValue a), ← not_lt, doubleValue_lt_iff ha hb, doubleValue_lt_iff hb ha, toNat_f64OrderKey,
    toNat_f64OrderKey]
  split_ifs <;> omega

/-! ## The predicates -/

section

variable {α : Type*} [LinearOrder α] {nan : Prop} {x y : α}

theorem relation_eq_unordered : relation nan x y = .unordered ↔ nan := by
  rw [relation]
  split_ifs <;> simp_all

theorem relation_eq_less : relation nan x y = .less ↔ ¬nan ∧ x < y := by
  rw [relation]
  split_ifs <;> simp_all

theorem relation_eq_equal : relation nan x y = .equal ↔ ¬nan ∧ x = y := by
  rw [relation]
  split_ifs with hnan hlt
  · simp [hnan]
  · simp [ne_of_lt hlt]
  · simp_all
  · simp_all

theorem relation_eq_greater : relation nan x y = .greater ↔ ¬nan ∧ y < x := by
  rw [relation]
  split_ifs with hnan hlt heq
  · simp [hnan]
  · simp [le_of_lt hlt]
  · simp [heq]
  · simp [hnan, lt_of_le_of_ne (not_lt.mp hlt) (Ne.symm heq)]

end

theorem float64Predicate_eq (a b : Dword2) {lo : ℕ} (h : lo < 16) : float64Predicate lo a b =
    some ((relation (IsNan a ∨ IsNan b) (doubleValue a) (doubleValue b)).meets lo) := by
  have hnan : (f64IsNan a || f64IsNan b) = decide (relation (IsNan a ∨ IsNan b) (doubleValue a)
      (doubleValue b) = .unordered) := by
    rw [Bool.eq_iff_iff, decide_eq_true_iff, relation_eq_unordered, Bool.or_eq_true, f64IsNan_iff, f64IsNan_iff]
  have hlt : f64Lt a b = decide (relation (IsNan a ∨ IsNan b) (doubleValue a) (doubleValue b) = .less) := by
    rw [Bool.eq_iff_iff, decide_eq_true_iff, relation_eq_less, f64Lt_iff]
  have hgt : f64Lt b a = decide (relation (IsNan a ∨ IsNan b) (doubleValue a) (doubleValue b) = .greater) := by
    rw [Bool.eq_iff_iff, decide_eq_true_iff, relation_eq_greater, f64Lt_iff, or_comm]
  have heq : f64Eq a b = decide (relation (IsNan a ∨ IsNan b) (doubleValue a) (doubleValue b) = .equal) := by
    rw [Bool.eq_iff_iff, decide_eq_true_iff, relation_eq_equal, f64Eq_iff]
  simp only [float64Predicate, hnan, hlt, hgt, heq]
  generalize relation (IsNan a ∨ IsNan b) (doubleValue a) (doubleValue b) = r
  cases r <;> interval_cases lo <;> rfl

theorem int64Predicate_eq (isSigned : Bool) (a b : Dword2) {lo : ℕ} (h : lo < 8) :
    int64Predicate lo isSigned a b = some ((if isSigned then relation False a.toInt b.toInt
      else relation False a.toNat b.toNat).meets lo) := by
  have hrel {α : Type} [LinearOrder α] (v : Dword2 → α) (lt : Dword2 → Dword2 → Bool)
      (hlt : ∀ x y, lt x y = decide (v x < v y)) (heq : a.toNat = b.toNat ↔ v a = v b) :
      lt a b = decide (relation False (v a) (v b) = .less) ∧ lt b a = decide (relation False (v a) (v b) = .greater) ∧
        u64Eq a b = decide (relation False (v a) (v b) = .equal) := by
    rw [hlt, hlt, u64Eq_eq, decide_eq_decide, decide_eq_decide, decide_eq_decide, relation_eq_less,
      relation_eq_greater, relation_eq_equal, heq]
    simp
  have hint : a.toNat = b.toNat ↔ a.toInt = b.toInt := by
    have ha := a.toNat_lt
    have hb := b.toNat_lt
    rw [Dword2.toInt, Dword2.toInt]
    split_ifs <;> omega
  have hno {α : Type} [LinearOrder α] (x y : α) : relation False x y ≠ .unordered :=
    mt relation_eq_unordered.mp id
  cases isSigned with
  | false =>
    obtain ⟨hlt, hgt, heq⟩ := hrel Dword2.toNat u64Lt u64Lt_eq Iff.rfl
    have hr := hno a.toNat b.toNat
    simp only [int64Predicate, Bool.false_eq_true, if_false, hlt, hgt, heq]
    generalize relation False a.toNat b.toNat = r at hr
    cases r <;> interval_cases lo <;> first | rfl | exact absurd rfl hr
  | true =>
    obtain ⟨hlt, hgt, heq⟩ := hrel Dword2.toInt i64Lt i64Lt_eq hint
    have hr := hno a.toInt b.toInt
    simp only [int64Predicate, if_true, hlt, hgt, heq]
    generalize relation False a.toInt b.toInt = r at hr
    cases r <;> interval_cases lo <;> first | rfl | exact absurd rfl hr

/-- **Every predicate of 64 bits is the one of the values**: the float predicates hold in the relations of their
number, one half of the numbers negates the other half, and the integer predicates are those of the signed and
the unsigned integers. -/
theorem wide_predicates_exact (a b : Dword2) : (∀ lo : Fin 16, float64Predicate lo a b =
      some ((relation (IsNan a ∨ IsNan b) (doubleValue a) (doubleValue b)).meets lo)) ∧
      (∀ lo : Fin 16, float64Predicate (15 - lo) a b = (float64Predicate lo a b).map (!·)) ∧
      (∀ lo : Fin 8, int64Predicate lo false a b = some ((relation False a.toNat b.toNat).meets lo)) ∧
      ∀ lo : Fin 8, int64Predicate lo true a b = some ((relation False a.toInt b.toInt).meets lo) := by
  refine ⟨fun lo => float64Predicate_eq a b lo.isLt, fun ⟨lo, h⟩ => ?_, fun lo => ?_, fun lo => ?_⟩
  · rw [float64Predicate_eq a b h, float64Predicate_eq a b (by omega : 15 - lo < 16), Option.map_some]
    generalize relation (IsNan a ∨ IsNan b) (doubleValue a) (doubleValue b) = r
    cases r <;> interval_cases lo <;> rfl
  · rw [int64Predicate_eq false a b lo.isLt, if_neg Bool.false_ne_true]
  · rw [int64Predicate_eq true a b lo.isLt, if_pos rfl]

end Prosperity.WideCompares
