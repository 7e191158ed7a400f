import Mathlib.Algebra.Order.Ring.Int
import Mathlib.Data.Int.ModEq
import Mathlib.Data.List.Find
import Mathlib.Tactic.Linarith
import Mathlib.Tactic.LinearCombination
import Mathlib.Tactic.Positivity
import Mathlib.Tactic.Ring
import Prosperity.Foundations.Words

/-!
# 64-bit integers out of dword pairs

The translator has no 64-bit integers. It shifts, masks and adds dwords, with shift amounts the target takes
modulo 32, and selects where an amount or a width reaches into the other half.
-/

namespace Prosperity.WideIntegers

structure Dword2 where
  lo : UInt32
  hi : UInt32

def Dword2.toNat (x : Dword2) : ℕ := x.hi.toNat * 2 ^ 32 + x.lo.toNat

def Dword2.toInt (x : Dword2) : ℤ := (x.toNat : ℤ) - if 2 ^ 63 ≤ x.toNat then 2 ^ 64 else 0

/-- The halves of a number, taken modulo `2 ^ 64`. -/
def halves (n : ℕ) : Dword2 := ⟨.ofNat n, .ofNat (n / 2 ^ 32)⟩

def intHalves (z : ℤ) : Dword2 := halves (z % 2 ^ 64).toNat

/-! ## The expressions -/

def shl (a s : UInt32) : UInt32 := a <<< (s &&& 31)

def shr (a s : UInt32) : UInt32 := a >>> (s &&& 31)

def sar (a s : UInt32) : UInt32 := (a.toInt32 >>> (s &&& 31).toInt32).toUInt32

def ofBool (b : Bool) : UInt32 := if b then 1 else 0

structure CarryResult where
  value : UInt32
  flag : UInt32

def iAddCarry (a b : UInt32) : CarryResult := ⟨a + b, .ofNat ((a.toNat + b.toNat) / 2 ^ 32)⟩

def iSubBorrow (a b : UInt32) : CarryResult := ⟨a - b, ofBool (a < b)⟩

def addCarry (a b : UInt32) (carry : Option UInt32) : CarryResult :=
  let p := iAddCarry a b
  match carry with
  | none => p
  | some c =>
    let q := iAddCarry p.value (c &&& 1)
    ⟨q.value, p.flag ||| q.flag⟩

def subBorrow (a b : UInt32) (borrow : Option UInt32) : CarryResult :=
  let p := iSubBorrow a b
  match borrow with
  | none => p
  | some c =>
    let q := iSubBorrow p.value (c &&& 1)
    ⟨q.value, p.flag ||| q.flag⟩

/-- The lowest bit that is set, of the first `width`. -/
def lowestSet (width n : ℕ) : Option ℕ := (List.range width).find? n.testBit

def bitOrNone (i : Option ℕ) : UInt32 := i.elim 0xFFFFFFFF .ofNat

def findILsb (x : UInt32) : UInt32 := bitOrNone (lowestSet 32 x.toNat)

def highestSet (n : ℕ) : Option ℕ := if n = 0 then none else some n.log2

def findUMsb (x : UInt32) : UInt32 := bitOrNone (highestSet x.toNat)

def firstSet64 (x : Dword2) : UInt32 :=
  let l := findILsb x.lo
  let h := findILsb x.hi
  if l = 0xFFFFFFFF then if h = 0xFFFFFFFF then 0xFFFFFFFF else h + 32 else l

def leadingZeros64 (x : Dword2) : UInt32 :=
  let fromLo := if x.lo = 0 then 0xFFFFFFFF else 63 - findUMsb x.lo
  if x.hi = 0 then fromLo else 31 - findUMsb x.hi

/-- `kind` is 0 for a left shift, 1 for a logical and 2 for an arithmetic right shift. -/
def shift64 (kind : ℕ) (x : Dword2) (b : UInt32) : Dword2 :=
  let n := b &&& 63
  let nLo := n &&& 31
  let inv := (32 - nLo) &&& 31
  if kind = 0 then
    let cross := if n = 0 then 0 else shr x.lo inv
    ⟨if 32 ≤ n then 0 else shl x.lo nLo, if 32 ≤ n then shl x.lo nLo else shl x.hi nLo ||| cross⟩
  else
    let cross := if n = 0 then 0 else shl x.hi inv
    let hiShift := if kind = 1 then shr x.hi nLo else sar x.hi nLo
    ⟨if 32 ≤ n then hiShift else shr x.lo nLo ||| cross,
      if 32 ≤ n then if kind = 1 then 0 else sar x.hi 31 else hiShift⟩

/-- The source writes the shift out once more. -/
def bfm64 (a b : UInt32) : Dword2 :=
  let width := a &&& 63
  let wide := decide (32 ≤ width)
  shift64 0 ⟨if wide then 0xFFFFFFFF else shl 1 (width &&& 31) - 1,
    if wide then shl 1 ((width - 32) &&& 31) - 1 else 0⟩ b

/-- Likewise. -/
def bfe64 (x : Dword2) (b : UInt32) : Dword2 :=
  let off := b &&& 63
  let width := min (shr b 16 &&& 0x7F) (64 - off)
  let sh := shift64 1 x b
  let lowPart := shl 1 (width &&& 31) - 1
  let hiWidth := if 32 ≤ width then width - 32 else 0
  let hiPart := shl 1 (hiWidth &&& 31) - 1
  ⟨sh.lo &&& (if 32 ≤ width then 0xFFFFFFFF else lowPart),
    sh.hi &&& (if 64 ≤ width then 0xFFFFFFFF else if 32 ≤ width then hiPart else 0)⟩

def bitset64 (clear : Bool) (a : UInt32) (d : Dword2) : Dword2 :=
  let n := a &&& 63
  let bit := shl 1 (n &&& 31)
  let loBit := if 32 ≤ n then 0 else bit
  let hiBit := if 32 ≤ n then bit else 0
  ⟨if clear then d.lo &&& ~~~loBit else d.lo ||| loBit, if clear then d.hi &&& ~~~hiBit else d.hi ||| hiBit⟩

def uMulExtended (a b : UInt32) : Dword2 := halves (a.toNat * b.toNat)

def sMulExtended (a b : UInt32) : Dword2 := intHalves (a.toInt32.toInt * b.toInt32.toInt)

def mad64 (sgn : Bool) (a b : UInt32) (c : Dword2) : Dword2 × UInt32 :=
  let p := if sgn then sMulExtended a b else uMulExtended a b
  let lo := addCarry p.lo c.lo none
  let hi := addCarry p.hi c.hi (some lo.flag)
  let bit64 := if sgn then hi.flag ^^^ (shr p.hi 31 ^^^ shr c.hi 31) else hi.flag
  (⟨lo.value, hi.value⟩, bit64 &&& 1)

/-! ## The opcodes -/

/-- The dwords and the flag an instruction writes: SCC, or the carry of a vector instruction. -/
structure Written where
  lo : UInt32
  hi : Option UInt32
  flag : Option UInt32

/-- Both halves, and whether they are not zero. -/
def wide (r : Dword2) : Written := ⟨r.lo, some r.hi, some (ofBool ((r.lo ||| r.hi) != 0))⟩

/-- The halves with no flag. -/
def pair (r : Dword2) : Option Written := some ⟨r.lo, some r.hi, none⟩

/-- `d` is what the destination held. -/
def emitSop1 (op : ℕ) (a d : Dword2) : Option Written :=
  match op with
  | 0x12 => some ⟨firstSet64 ⟨~~~a.lo, ~~~a.hi⟩, none, none⟩  -- s_ff0_i32_b64
  | 0x14 => some ⟨firstSet64 a, none, none⟩  -- s_ff1_i32_b64
  | 0x16 => some ⟨leadingZeros64 a, none, none⟩  -- s_flbit_i32_b64
  | 0x1c | 0x1e =>  -- s_bitset0_b64, s_bitset1_b64
    pair (bitset64 (op == 0x1c) a.lo d)
  | _ => none

def emitSop2 (op : ℕ) (a b : Dword2) (scc : UInt32) : Option Written :=
  match op with
  | 0x00 =>  -- s_add_u32
    let c := addCarry a.lo b.lo none
    some ⟨c.value, none, some (ofBool (c.flag != 0))⟩
  | 0x01 =>  -- s_sub_u32
    let c := subBorrow a.lo b.lo none
    some ⟨c.value, none, some (ofBool (c.flag != 0))⟩
  | 0x04 =>  -- s_addc_u32
    let c := addCarry a.lo b.lo (some scc)
    some ⟨c.value, none, some (ofBool (c.flag != 0))⟩
  | 0x05 =>  -- s_subb_u32
    let c := subBorrow a.lo b.lo (some scc)
    some ⟨c.value, none, some (ofBool (c.flag != 0))⟩
  | 0x1f => some (wide (shift64 0 a b.lo))  -- s_lshl_b64
  | 0x21 => some (wide (shift64 1 a b.lo))  -- s_lshr_b64
  | 0x23 => some (wide (shift64 2 a b.lo))  -- s_ashr_i64
  | 0x25 => pair (bfm64 a.lo b.lo)  -- s_bfm_b64
  | 0x29 => some (wide (bfe64 a b.lo))  -- s_bfe_u64
  | _ => none

/-- The vector shifts repeat the scalar one. -/
def emitVop3 (op : ℕ) (a : Dword2) (b : UInt32) (c : Dword2) : Option Written :=
  match op with
  | 0x161 | 0x162 | 0x163 =>  -- v_lshl_b64, v_lshr_b64, v_ashr_i64
    pair (shift64 (op - 0x161) a b)
  | 0x176 | 0x177 =>  -- v_mad_u64_u32, v_mad_i64_i32
    let r := mad64 (op == 0x177) a.lo b c
    some ⟨r.1.lo, some r.1.hi, some r.2⟩
  | _ => none

def chain (first next : ℕ) (scc : UInt32) : List (UInt32 × UInt32) → Option (List UInt32 × UInt32)
  | [] => some ([], scc)
  | (a, b) :: rest =>
    match emitSop2 first ⟨a, 0⟩ ⟨b, 0⟩ scc with
    | some ⟨v, _, some flag⟩ => (chain next next flag rest).map fun (vs, out) => (v :: vs, out)
    | _ => none

/-! ## Halves -/

variable {x : Dword2} {a b : UInt32}

theorem Dword2.toNat_lt (x : Dword2) : x.toNat < 2 ^ 64 := by
  have hlo := x.lo.toNat_lt
  have hhi := x.hi.toNat_lt
  rw [Dword2.toNat]
  omega

theorem Dword2.ext_toNat {x y : Dword2} (h : x.toNat = y.toNat) : x = y := by
  rw [Dword2.toNat, Dword2.toNat] at h
  obtain ⟨hhi, hlo⟩ := digits_injective x.lo.toNat_lt y.lo.toNat_lt h
  rw [show x = ⟨x.lo, x.hi⟩ from rfl, UInt32.toNat_inj.mp hlo, UInt32.toNat_inj.mp hhi]

theorem toNat_halves (n : ℕ) : (halves n).toNat = n % 2 ^ 64 := by
  rw [halves, Dword2.toNat, UInt32.toNat_ofNat', UInt32.toNat_ofNat']
  omega

theorem halves_eq (n : ℕ) : halves n = intHalves n := by
  have hmod : ((n : ℤ) % 2 ^ 64).toNat = n % 2 ^ 64 := by omega
  rw [intHalves, hmod]
  apply Dword2.ext_toNat
  rw [toNat_halves, toNat_halves, Nat.mod_mod]

/-- A pair is the halves of the number that both of its dwords agree with. -/
theorem eq_intHalves {z : ℤ} (hlo : (x.lo.toNat : ℤ) = z % 2 ^ 32) (hhi : (x.hi.toNat : ℤ) = z / 2 ^ 32 % 2 ^ 32) :
    x = intHalves z := by
  apply Dword2.ext_toNat
  rw [intHalves, toNat_halves, Dword2.toNat]
  omega

theorem eq_halves {n : ℕ} (hlo : x.lo.toNat = n % 2 ^ 32) (hhi : x.hi.toNat = n / 2 ^ 32 % 2 ^ 32) : x = halves n := by
  apply Dword2.ext_toNat
  rw [toNat_halves, Dword2.toNat]
  omega

theorem or_ne_zero (x : Dword2) : ((x.lo ||| x.hi) != 0) = decide (x.toNat ≠ 0) := by
  rw [Bool.eq_iff_iff, bne_iff_ne, decide_eq_true_iff, ne_eq, ← UInt32.toNat_inj, UInt32.toNat_or, Dword2.toNat,
    UInt32.toNat_zero, Nat.or_eq_zero_iff]
  omega

theorem wide_eq (x : Dword2) : wide x = ⟨x.lo, some x.hi, some (ofBool (x.toNat ≠ 0))⟩ := by
  rw [wide, or_ne_zero]

/-! ## Shifts -/

theorem toNat_shl (a s : UInt32) : (shl a s).toNat = a.toNat * 2 ^ (s.toNat % 32) % 2 ^ 32 := by
  rw [shl, Words.shl32_eq, UInt32.toNat_ofNat']

theorem toNat_shr (a s : UInt32) : (shr a s).toNat = a.toNat / 2 ^ (s.toNat % 32) := Words.toNat_shr32 a s

def signed (a : UInt32) : ℤ := a.toInt32.toInt

theorem toNat_ofInt (z : ℤ) : ((Int32.ofInt z).toUInt32.toNat : ℤ) = z % 2 ^ 32 := by
  show ((BitVec.ofInt 32 z).toNat : ℤ) = _
  rw [BitVec.toNat_ofInt, Int.toNat_of_nonneg (Int.emod_nonneg _ (by decide))]
  rfl

theorem toNat_sar (a s : UInt32) : ((sar a s).toNat : ℤ) = signed a / 2 ^ (s.toNat % 32) % 2 ^ 32 := by
  rw [sar, Words.sar32_eq, toNat_ofInt]
  rfl

theorem signed_eq (a : UInt32) : signed a = (a.toNat : ℤ) - if 2 ^ 31 ≤ a.toNat then 2 ^ 32 else 0 := by
  show a.toBitVec.toInt = _
  rw [BitVec.toInt_eq_toNat_cond]
  have ha := a.toNat_lt
  split <;> split <;> simp_all <;> omega

theorem toInt_eq (x : Dword2) : x.toInt = signed x.hi * 2 ^ 32 + x.lo.toNat := by
  have hlo := x.lo.toNat_lt
  rw [Dword2.toInt, Dword2.toNat, signed_eq]
  split <;> split <;> omega

theorem toNat_n (b : UInt32) : (b &&& 63).toNat = b.toNat % 64 := Words.toNat_and32 b (k := 6) rfl

theorem toNat_nLo (b : UInt32) : (b &&& 63 &&& 31).toNat = b.toNat % 32 := by
  rw [Words.toNat_amount32, toNat_n]
  omega

theorem toNat_inv (h : b.toNat % 32 ≠ 0) : ((32 - (b &&& 63 &&& 31)) &&& 31).toNat = 32 - b.toNat % 32 := by
  have hle : (b &&& 63 &&& 31) ≤ 32 := by
    rw [UInt32.le_iff_toNat_le, toNat_nLo]
    exact Nat.le_of_lt (Nat.mod_lt _ (by decide))
  rw [Words.toNat_amount32, UInt32.toNat_sub_of_le _ _ hle, toNat_nLo]
  show (32 - b.toNat % 32) % 32 = _
  omega

theorem le_n_iff (b : UInt32) : 32 ≤ (b &&& 63) ↔ 32 ≤ b.toNat % 64 := by
  rw [UInt32.le_iff_toNat_le, toNat_n]
  rfl

theorem n_eq_zero_iff (b : UInt32) : b &&& 63 = 0 ↔ b.toNat % 64 = 0 := by
  rw [← UInt32.toNat_inj, toNat_n]
  rfl

/-- The bits that cross over fill the place a shift by `n` left empty. -/
theorem or_cross {h l n : ℕ} (hn : n ≤ 32) (hl : l < 2 ^ 32) :
    (h * 2 ^ n % 2 ^ 32) ||| (l / 2 ^ (32 - n)) = (h * 2 ^ n + l / 2 ^ (32 - n)) % 2 ^ 32 := by
  have hpow : 2 ^ 32 = 2 ^ (32 - n) * 2 ^ n := by rw [← Nat.pow_add, Nat.sub_add_cancel hn]
  have hlt : l / 2 ^ (32 - n) < 2 ^ n := by
    apply Nat.div_lt_of_lt_mul
    rwa [← hpow]
  have hmod : h * 2 ^ n % 2 ^ 32 = (h % 2 ^ (32 - n)) * 2 ^ n := by rw [hpow, Nat.mul_mod_mul_right]
  have hsum : (h % 2 ^ (32 - n)) * 2 ^ n + l / 2 ^ (32 - n) < 2 ^ 32 := by
    rw [hpow]
    exact digits_lt (Nat.mod_lt _ (Nat.two_pow_pos _)) hlt
  have hquot : l / 2 ^ (32 - n) < 2 ^ 32 := Nat.lt_of_le_of_lt (Nat.div_le_self _ _) hl
  rw [Nat.add_mod, Nat.mod_eq_of_lt hquot, hmod, Nat.mod_eq_of_lt hsum, ← Nat.shiftLeft_eq,
    Nat.shiftLeft_add_eq_or_of_lt hlt]

/-- The cross term of the source: nothing for a shift by nothing. -/
theorem toNat_cross (h l : UInt32) {b : UInt32} (hlt : b.toNat % 64 < 32) :
    (shl h (b &&& 63 &&& 31) ||| if b &&& 63 = 0 then 0 else shr l ((32 - (b &&& 63 &&& 31)) &&& 31)).toNat =
      (h.toNat * 2 ^ (b.toNat % 64) + l.toNat / 2 ^ (32 - b.toNat % 64)) % 2 ^ 32 := by
  have heq : b.toNat % 32 = b.toNat % 64 := by omega
  have hl := l.toNat_lt
  rw [UInt32.toNat_or, toNat_shl, toNat_nLo, Nat.mod_mod, heq]
  split
  · rename_i hzero
    rw [(n_eq_zero_iff b).mp hzero, UInt32.toNat_zero, Nat.or_zero]
    omega
  · rename_i hzero
    have hne : b.toNat % 32 ≠ 0 := fun h => hzero ((n_eq_zero_iff b).mpr (heq ▸ h))
    rw [toNat_shr, toNat_inv hne, Nat.mod_eq_of_lt (by omega : 32 - b.toNat % 32 < 32), heq,
      or_cross (Nat.le_of_lt hlt) hl]

/-- The other direction: the cross term comes from above. -/
theorem toNat_cross_right (h l : UInt32) {b : UInt32} (hlt : b.toNat % 64 < 32) :
    (shr l (b &&& 63 &&& 31) ||| if b &&& 63 = 0 then 0 else shl h ((32 - (b &&& 63 &&& 31)) &&& 31)).toNat =
      (h.toNat * 2 ^ (32 - b.toNat % 64) + l.toNat / 2 ^ (b.toNat % 64)) % 2 ^ 32 := by
  have heq : b.toNat % 32 = b.toNat % 64 := by omega
  have hl := l.toNat_lt
  rw [UInt32.toNat_or, toNat_shr, toNat_nLo, Nat.mod_mod, heq]
  split
  · rename_i hzero
    rw [(n_eq_zero_iff b).mp hzero, UInt32.toNat_zero, Nat.or_zero]
    omega
  · rename_i hzero
    have hne : b.toNat % 32 ≠ 0 := fun h => hzero ((n_eq_zero_iff b).mpr (heq ▸ h))
    have hcross := or_cross (h := h.toNat) (Nat.sub_le 32 (b.toNat % 64)) hl
    rw [Nat.sub_sub_self (Nat.le_of_lt hlt)] at hcross
    rw [toNat_shl, toNat_inv hne, Nat.mod_eq_of_lt (by omega : 32 - b.toNat % 32 < 32), heq, Nat.or_comm, hcross]

theorem shiftLeft64_eq (x : Dword2) (b : UInt32) : shift64 0 x b = halves (x.toNat * 2 ^ (b.toNat % 64)) := by
  rw [shift64, if_pos rfl]
  simp only [le_n_iff]
  by_cases hge : 32 ≤ b.toNat % 64
  · -- the low half crosses over as a whole
    have hpow : x.toNat * 2 ^ (b.toNat % 64) = (x.hi.toNat * 2 ^ (b.toNat % 32)) * 2 ^ 64 +
        (x.lo.toNat * 2 ^ (b.toNat % 32)) * 2 ^ 32 := by
      rw [Dword2.toNat, show b.toNat % 64 = b.toNat % 32 + 32 by omega, Nat.pow_add]
      ring
    simp only [if_pos hge]
    apply eq_halves
    · rw [hpow, UInt32.toNat_zero]
      omega
    · rw [hpow, toNat_shl, toNat_nLo, Nat.mod_mod]
      omega
  · have hlt := Nat.lt_of_not_le hge
    have hsum : x.toNat * 2 ^ (b.toNat % 64) =
        x.hi.toNat * 2 ^ (b.toNat % 64) * 2 ^ 32 + x.lo.toNat * 2 ^ (b.toNat % 64) := by
      rw [Dword2.toNat]
      ring
    simp only [if_neg hge]
    apply eq_halves
    · rw [hsum, toNat_shl, toNat_nLo, Nat.mod_mod, show b.toNat % 32 = b.toNat % 64 by omega]
      omega
    · have hpow : 2 ^ 32 = 2 ^ (32 - b.toNat % 64) * 2 ^ (b.toNat % 64) := by
        rw [← Nat.pow_add, Nat.sub_add_cancel (Nat.le_of_lt hlt)]
      have hdiv : x.lo.toNat * 2 ^ (b.toNat % 64) / 2 ^ 32 = x.lo.toNat / 2 ^ (32 - b.toNat % 64) := by
        rw [hpow, Nat.mul_div_mul_right _ _ (Nat.two_pow_pos _)]
      rw [toNat_cross x.hi x.lo hlt, hsum, Nat.add_comm (_ * 2 ^ 32), Nat.add_mul_div_right _ _ (by decide),
        hdiv, Nat.add_comm]

/-- The quotient of a pair whose high half stands for `h`. -/
theorem shiftRight_pair (h : ℤ) (l : ℕ) {n : ℕ} (hn : n ≤ 32) :
    (h * 2 ^ 32 + l) / 2 ^ n = h * 2 ^ (32 - n) + (l / 2 ^ n : ℕ) := by
  have hpow : (2 : ℤ) ^ 32 = 2 ^ (32 - n) * 2 ^ n := by rw [← pow_add, Nat.sub_add_cancel hn]
  rw [hpow, ← mul_assoc, Int.add_comm, Int.add_mul_ediv_right _ _ (pow_ne_zero n two_ne_zero), Int.add_comm]
  push_cast
  rfl

/-- Both right shifts: the high half stands for `h`, signed or not. -/
theorem shiftRight_eq {h : ℤ} {hiShift top : UInt32} (hh : h % 2 ^ 32 = x.hi.toNat)
    (hshift : (hiShift.toNat : ℤ) = h / 2 ^ (b.toNat % 32) % 2 ^ 32)
    (htop : 32 ≤ b.toNat % 64 → (top.toNat : ℤ) = h / 2 ^ (b.toNat % 64) % 2 ^ 32) :
    (⟨if 32 ≤ b &&& 63 then hiShift else shr x.lo (b &&& 63 &&& 31) ||| if b &&& 63 = 0 then 0
        else shl x.hi ((32 - (b &&& 63 &&& 31)) &&& 31), if 32 ≤ b &&& 63 then top else hiShift⟩ : Dword2) =
      intHalves ((h * 2 ^ 32 + x.lo.toNat) / 2 ^ (b.toNat % 64)) := by
  have hlo := x.lo.toNat_lt
  have hhigh : (h * 2 ^ 32 + x.lo.toNat) / 2 ^ 32 = h := by omega
  have htwice (k : ℕ) : (h * 2 ^ 32 + x.lo.toNat) / 2 ^ k / 2 ^ 32 = h / 2 ^ k := by
    rw [Int.ediv_ediv_of_nonneg (by positivity), mul_comm ((2 : ℤ) ^ k), ← Int.ediv_ediv_of_nonneg (by decide), hhigh]
  simp only [le_n_iff]
  by_cases hge : 32 ≤ b.toNat % 64
  · have hquot : (h * 2 ^ 32 + x.lo.toNat) / 2 ^ (b.toNat % 64) = h / 2 ^ (b.toNat % 32) := by
      rw [show b.toNat % 64 = 32 + b.toNat % 32 by omega, pow_add, ← Int.ediv_ediv_of_nonneg (by decide), hhigh]
    simp only [if_pos hge]
    apply eq_intHalves
    · rw [hquot]
      exact hshift
    · rw [htwice]
      exact htop hge
  · have hlt := Nat.lt_of_not_le hge
    simp only [if_neg hge]
    apply eq_intHalves
    · rw [toNat_cross_right x.hi x.lo hlt, shiftRight_pair h _ (Nat.le_of_lt hlt)]
      push_cast
      rw [← hh]
      -- the high half counts modulo a dword
      exact ((Int.mod_modEq h _).mul_right _).add_right _
    · rw [htwice, ← show b.toNat % 32 = b.toNat % 64 by omega]
      exact hshift

theorem shiftRight64_eq (x : Dword2) (b : UInt32) : shift64 1 x b = halves (x.toNat / 2 ^ (b.toNat % 64)) := by
  have hhi := x.hi.toNat_lt
  rw [halves_eq, shift64, if_neg (by decide), Dword2.toNat]
  simp only [if_pos]
  push_cast
  apply shiftRight_eq
  · omega
  · rw [toNat_shr, toNat_nLo, Nat.mod_mod]
    have hlt : x.hi.toNat / 2 ^ (b.toNat % 32) < 2 ^ 32 := Nat.lt_of_le_of_lt (Nat.div_le_self _ _) hhi
    rw [← Nat.mod_eq_of_lt hlt]
    push_cast
    rfl
  · intro hge
    have hzero : x.hi.toNat / 2 ^ (b.toNat % 64) = 0 :=
      Nat.div_eq_of_lt (Nat.lt_of_lt_of_le hhi (Nat.pow_le_pow_right (by decide) hge))
    have hcast : (x.hi.toNat : ℤ) / 2 ^ (b.toNat % 64) = (x.hi.toNat / 2 ^ (b.toNat % 64) : ℕ) := by
      push_cast
      rfl
    rw [hcast, hzero]
    rfl

theorem shiftArith64_eq (x : Dword2) (b : UInt32) : shift64 2 x b = intHalves (x.toInt / 2 ^ (b.toNat % 64)) := by
  have hhi := x.hi.toNat_lt
  rw [shift64, if_neg (by decide), toInt_eq]
  simp only [if_neg (by decide : ¬2 = 1)]
  apply shiftRight_eq
  · rw [signed_eq]
    split <;> omega
  · rw [toNat_sar, toNat_nLo, Nat.mod_mod]
  · intro hge
    -- from 31 on only the sign is left
    have hsign (k : ℕ) (hk : 31 ≤ k) : signed x.hi / 2 ^ k = if 2 ^ 31 ≤ x.hi.toNat then -1 else 0 := by
      have hpow : (2 : ℤ) ^ 31 ≤ 2 ^ k := pow_le_pow_right₀ (by decide) hk
      rw [signed_eq]
      split
      · apply Int.ediv_eq_neg_one_of_neg_of_le <;> omega
      · apply Int.ediv_eq_zero_of_lt <;> omega
    rw [toNat_sar, show (31 : UInt32).toNat % 32 = 31 from rfl, hsign 31 (Nat.le_refl _), hsign _ (by omega)]

/-! ## Masks and fields -/

theorem toNat_ones (s : UInt32) : (shl 1 s - 1).toNat = 2 ^ (s.toNat % 32) - 1 := by
  rw [shl, Words.toNat_mask32, Words.toNat_amount32]
  rw [Words.toNat_amount32]
  exact Nat.mod_lt _ (by decide)

theorem toNat_rest {w : UInt32} (hle : 32 ≤ w.toNat) (hlt : w.toNat < 64) : (w - 32).toNat % 32 = w.toNat - 32 := by
  rw [UInt32.toNat_sub_of_le]
  · show (w.toNat - 32) % 32 = _
    omega
  · rwa [UInt32.le_iff_toNat_le]

theorem bfm64_eq (a b : UInt32) : bfm64 a b = halves ((2 ^ (a.toNat % 64) - 1) * 2 ^ (b.toNat % 64)) := by
  rw [bfm64, shiftLeft64_eq]
  congr 2
  simp only [decide_eq_true_iff, le_n_iff]
  rw [Dword2.toNat]
  split
  · rename_i hge
    have hlt : a.toNat % 64 < 64 := Nat.mod_lt _ (by decide)
    rw [toNat_ones, Words.toNat_amount32, Nat.mod_mod, toNat_rest (by rwa [toNat_n]) (by rwa [toNat_n]), toNat_n]
    have hpow : 2 ^ (a.toNat % 64) = 2 ^ (a.toNat % 64 - 32) * 2 ^ 32 := by
      rw [← Nat.pow_add, Nat.sub_add_cancel hge]
    have hpos := Nat.two_pow_pos (a.toNat % 64 - 32)
    rw [hpow]
    show (2 ^ (a.toNat % 64 - 32) - 1) * 2 ^ 32 + (2 ^ 32 - 1) = _
    omega
  · rename_i hlt
    rw [toNat_ones, toNat_nLo, Nat.mod_mod, UInt32.toNat_zero, show a.toNat % 32 = a.toNat % 64 by omega]
    omega

/-- A pair under a mask of `w` bits. -/
theorem mask_pair {w : UInt32} (hw : w.toNat ≤ 64) (x : Dword2) :
    (⟨x.lo &&& (if 32 ≤ w then 0xFFFFFFFF else shl 1 (w &&& 31) - 1), x.hi &&& (if 64 ≤ w then 0xFFFFFFFF
        else if 32 ≤ w then shl 1 ((if 32 ≤ w then w - 32 else 0) &&& 31) - 1 else 0)⟩ : Dword2) =
      halves (x.toNat % 2 ^ w.toNat) := by
  have hlo := x.lo.toNat_lt
  have hhi := x.hi.toNat_lt
  have hfull (y : UInt32) : (y &&& 0xFFFFFFFF).toNat = y.toNat := by
    rw [Words.toNat_and32 y (k := 32) rfl, Nat.mod_eq_of_lt y.toNat_lt]
  have hone (y s : UInt32) : (y &&& (shl 1 s - 1)).toNat = y.toNat % 2 ^ (s.toNat % 32) :=
    Words.toNat_and32 y (toNat_ones s)
  simp only [UInt32.le_iff_toNat_le]
  have h32 : (32 : UInt32).toNat = 32 := rfl
  have h64 : (64 : UInt32).toNat = 64 := rfl
  rw [h32, h64]
  rcases Nat.lt_or_ge w.toNat 32 with hlt | hge
  · -- the mask ends in the low half
    have hdvd : 2 ^ w.toNat ∣ 2 ^ 32 := Nat.pow_dvd_pow 2 (Nat.le_of_lt hlt)
    have hlow : x.toNat % 2 ^ w.toNat = x.lo.toNat % 2 ^ w.toNat := by
      obtain ⟨k, hk⟩ := hdvd
      rw [Dword2.toNat, hk, Nat.mul_left_comm, Nat.mul_add_mod]
    have hsmall : x.lo.toNat % 2 ^ w.toNat < 2 ^ 32 := Nat.lt_of_le_of_lt (Nat.mod_le _ _) hlo
    simp only [if_neg (by omega : ¬32 ≤ w.toNat), if_neg (by omega : ¬64 ≤ w.toNat), hlow]
    apply eq_halves
    · rw [hone, Words.toNat_amount32, Nat.mod_mod, Nat.mod_eq_of_lt hlt, Nat.mod_eq_of_lt hsmall]
    · rw [UInt32.and_zero, UInt32.toNat_zero, Nat.div_eq_of_lt hsmall, Nat.zero_mod]
  · have hpow : 2 ^ w.toNat = 2 ^ 32 * 2 ^ (w.toNat - 32) := by rw [← Nat.pow_add, Nat.add_sub_cancel' hge]
    have hlow : x.toNat % 2 ^ w.toNat % 2 ^ 32 = x.lo.toNat := by
      rw [hpow, Nat.mod_mul_right_mod, Dword2.toNat]
      omega
    have hhigh : x.toNat % 2 ^ w.toNat / 2 ^ 32 = x.hi.toNat % 2 ^ (w.toNat - 32) := by
      rw [hpow, Nat.mod_mul_right_div_self, Dword2.toNat]
      congr 1
      omega
    have hsmall : x.hi.toNat % 2 ^ (w.toNat - 32) < 2 ^ 32 := Nat.lt_of_le_of_lt (Nat.mod_le _ _) hhi
    simp only [if_pos hge]
    apply eq_halves
    · rw [hfull, hlow]
    · rw [hhigh, Nat.mod_eq_of_lt hsmall]
      split
      · rw [hfull, show w.toNat - 32 = 32 by omega, Nat.mod_eq_of_lt hhi]
      · rw [hone, Words.toNat_amount32, Nat.mod_mod, toNat_rest hge (by omega)]

theorem bfe64_eq (x : Dword2) (b : UInt32) :
    bfe64 x b = halves (x.toNat / 2 ^ (b.toNat % 64) % 2 ^ (b.toNat / 2 ^ 16 % 128)) := by
  have hoff := Nat.mod_lt b.toNat (by decide : 64 > 0)
  have hrest : (64 - (b &&& 63)).toNat = 64 - b.toNat % 64 := by
    rw [UInt32.toNat_sub_of_le, toNat_n]
    · rfl
    · rw [UInt32.le_iff_toNat_le, toNat_n]
      exact Nat.le_of_lt hoff
  have hfield : (shr b 16 &&& 0x7F).toNat = b.toNat / 2 ^ 16 % 128 := Words.toNat_width b
  have hwidth : (min (shr b 16 &&& 0x7F) (64 - (b &&& 63))).toNat =
      min (b.toNat / 2 ^ 16 % 128) (64 - b.toNat % 64) := by
    rw [← hfield, ← hrest]
    exact UInt32.toNat_min ..
  have hlt : x.toNat / 2 ^ (b.toNat % 64) < 2 ^ (64 - b.toNat % 64) := by
    apply Nat.div_lt_of_lt_mul
    rw [← Nat.pow_add, Nat.add_sub_cancel' (Nat.le_of_lt hoff)]
    exact x.toNat_lt
  have hx : x.toNat / 2 ^ (b.toNat % 64) < 2 ^ 64 := Nat.lt_of_le_of_lt (Nat.div_le_self _ _) x.toNat_lt
  rw [bfe64, shiftRight64_eq]
  rw [mask_pair (by rw [hwidth]; omega), toNat_halves, Nat.mod_eq_of_lt hx, hwidth]
  congr 1
  -- a field past the end is cut where the bits end
  rcases Nat.le_total (b.toNat / 2 ^ 16 % 128) (64 - b.toNat % 64) with hle | hle
  · rw [Nat.min_eq_left hle]
  · rw [Nat.min_eq_right hle, Nat.mod_eq_of_lt hlt,
      Nat.mod_eq_of_lt (Nat.lt_of_lt_of_le hlt (Nat.pow_le_pow_right (by decide) hle))]

/-! ## Bit counts and single bits -/

theorem lowestSet_lt {w n i : ℕ} (h : lowestSet w n = some i) : i < w :=
  List.mem_range.mp (List.mem_of_find?_eq_some h)

theorem bitOrNone_eq {o : Option ℕ} (h : ∀ i ∈ o, i < 32) : bitOrNone o = 0xFFFFFFFF ↔ o = none := by
  cases o with
  | none => exact ⟨fun _ => rfl, fun _ => rfl⟩
  | some i =>
    have hi := h i rfl
    rw [bitOrNone, Option.elim_some, ← UInt32.toNat_inj, UInt32.toNat_ofNat', Nat.mod_eq_of_lt (by omega)]
    exact iff_of_false (by rintro rfl; exact absurd hi (by decide)) (Option.some_ne_none i)

/-- The first 32 bits are those of the low half, and the others those of the high one. -/
theorem lowestSet_pair (x : Dword2) : lowestSet 64 x.toNat =
    (lowestSet 32 x.lo.toNat).or ((lowestSet 32 x.hi.toNat).map (32 + ·)) := by
  have hbit (i : ℕ) := Nat.testBit_two_pow_mul_add x.hi.toNat x.lo.toNat_lt i
  rw [lowestSet, show 64 = 32 + 32 from rfl, List.range_add, List.find?_append, List.find?_map, Dword2.toNat,
    Nat.mul_comm]
  congr 1
  · apply List.find?_congr
    intro i hi
    rw [hbit, if_pos (List.mem_range.mp hi)]
  · congr 1
    apply List.find?_congr
    intro i _
    rw [Function.comp, hbit, if_neg (Nat.not_lt.mpr (Nat.le_add_right 32 i)), Nat.add_sub_cancel_left]

theorem firstSet64_eq (x : Dword2) : firstSet64 x = bitOrNone (lowestSet 64 x.toNat) := by
  rw [firstSet64, lowestSet_pair]
  simp only [findILsb, bitOrNone_eq fun _ => lowestSet_lt]
  cases lowestSet 32 x.lo.toNat with
  | some i => rfl
  | none =>
    cases hh : lowestSet 32 x.hi.toNat with
    | none => rfl
    | some i =>
      show UInt32.ofNat i + 32 = .ofNat (32 + i)
      rw [Nat.add_comm, UInt32.ofNat_add]
      rfl

theorem leadingZeros64_eq (x : Dword2) : leadingZeros64 x = bitOrNone ((highestSet x.toNat).map (63 - ·)) := by
  have hlog (w : UInt32) (hw : w ≠ 0) : findUMsb w = .ofNat w.toNat.log2 ∧ w.toNat.log2 < 32 := by
    have hne : w.toNat ≠ 0 := fun h => hw (UInt32.toNat_inj.mp h)
    rw [findUMsb, highestSet, if_neg hne]
    exact ⟨rfl, (Nat.log2_lt hne).mpr w.toNat_lt⟩
  have hsub {k i : ℕ} (hi : i ≤ k) (hk : k < 64) : UInt32.ofNat k - .ofNat i = .ofNat (k - i) := by
    have hle : UInt32.ofNat i ≤ .ofNat k := by
      rw [UInt32.le_iff_toNat_le, UInt32.toNat_ofNat', UInt32.toNat_ofNat']
      omega
    rw [← UInt32.toNat_inj, UInt32.toNat_sub_of_le _ _ hle]
    simp only [UInt32.toNat_ofNat']
    omega
  rw [leadingZeros64]
  by_cases hhi : x.hi = 0
  · by_cases hlo : x.lo = 0
    · have hx : highestSet x.toNat = none := if_pos (by simp [Dword2.toNat, hhi, hlo])
      rw [if_pos hhi, if_pos hlo, hx]
      rfl
    · obtain ⟨hmsb, hlt⟩ := hlog x.lo hlo
      have hx : x.toNat = x.lo.toNat := by rw [Dword2.toNat, hhi, UInt32.toNat_zero, Nat.zero_mul, Nat.zero_add]
      have hne : x.lo.toNat ≠ 0 := fun h => hlo (UInt32.toNat_inj.mp h)
      rw [if_pos hhi, if_neg hlo, hmsb, hx, highestSet, if_neg hne]
      exact hsub (k := 63) (by omega) (by decide)
  · obtain ⟨hmsb, hlt⟩ := hlog x.hi hhi
    have hne : x.hi.toNat ≠ 0 := fun h => hhi (UInt32.toNat_inj.mp h)
    have hx : x.toNat ≠ 0 := by
      rw [Dword2.toNat]
      omega
    have hlog2 : x.toNat.log2 = x.hi.toNat.log2 + 32 := by
      have hself := (Nat.log2_eq_iff hne).mp rfl
      have hlo := x.lo.toNat_lt
      rw [Nat.log2_eq_iff hx, Dword2.toNat, Nat.add_right_comm, Nat.pow_add, Nat.pow_add 2 (_ + 1)]
      omega
    rw [if_neg hhi, hmsb, highestSet, if_neg hx, Option.map_some, hlog2,
      show 63 - (x.hi.toNat.log2 + 32) = 31 - x.hi.toNat.log2 by omega]
    exact hsub (k := 31) (by omega) (by decide)

/-- The two masks a bit number selects. -/
theorem toNat_bit (a : UInt32) :
    (if 32 ≤ a &&& 63 then 0 else shl 1 (a &&& 63 &&& 31)).toNat = 2 ^ (a.toNat % 64) % 2 ^ 32 ∧
      (if 32 ≤ a &&& 63 then shl 1 (a &&& 63 &&& 31) else 0).toNat = 2 ^ (a.toNat % 64) / 2 ^ 32 := by
  have hlt : 2 ^ (a.toNat % 32) < 2 ^ 32 := Nat.pow_lt_pow_right (by decide) (Nat.mod_lt _ (by decide))
  simp only [le_n_iff]
  by_cases hge : 32 ≤ a.toNat % 64
  · have hpow : 2 ^ (a.toNat % 64) = 2 ^ (a.toNat % 32) * 2 ^ 32 := by
      rw [← Nat.pow_add]
      congr 1
      omega
    rw [if_pos hge, if_pos hge, toNat_shl, toNat_nLo, Nat.mod_mod, hpow, UInt32.toNat_one, UInt32.toNat_zero]
    omega
  · rw [if_neg hge, if_neg hge, toNat_shl, toNat_nLo, Nat.mod_mod, show a.toNat % 64 = a.toNat % 32 by omega,
      UInt32.toNat_one, UInt32.toNat_zero, Nat.one_mul, Nat.mod_eq_of_lt hlt, Nat.div_eq_of_lt hlt]
    exact ⟨rfl, rfl⟩

theorem bitset64_eq (clear : Bool) (a : UInt32) (d : Dword2) : bitset64 clear a d = halves (if clear
    then d.toNat &&& (2 ^ 64 - 1 - 2 ^ (a.toNat % 64)) else d.toNat ||| 2 ^ (a.toNat % 64)) := by
  obtain ⟨hlo, hhi⟩ := toNat_bit a
  have hdlo : d.toNat % 2 ^ 32 = d.lo.toNat := by
    have hlt := d.lo.toNat_lt
    rw [Dword2.toNat]
    omega
  have hdhi : d.toNat / 2 ^ 32 = d.hi.toNat := by
    have hlt := d.lo.toNat_lt
    rw [Dword2.toNat]
    omega
  have hpow : 2 ^ (a.toNat % 64) < 2 ^ 64 := Nat.pow_lt_pow_right (by decide) (Nat.mod_lt _ (by decide))
  rw [bitset64]
  cases clear with
  | true =>
    simp only [if_true]
    apply eq_halves
    · rw [UInt32.toNat_and, UInt32.toNat_not, hlo, Nat.and_mod_two_pow, hdlo]
      congr 1
      simp only [UInt32.size]
      omega
    · rw [UInt32.toNat_and, UInt32.toNat_not, hhi, Nat.and_div_two_pow, hdhi, Nat.and_mod_two_pow,
        Nat.mod_eq_of_lt d.hi.toNat_lt]
      congr 1
      simp only [UInt32.size]
      omega
  | false =>
    simp only [Bool.false_eq_true, if_false]
    apply eq_halves
    · rw [UInt32.toNat_or, hlo, Nat.or_mod_two_pow, hdlo]
    · rw [UInt32.toNat_or, hhi, Nat.or_div_two_pow, hdhi, Nat.or_mod_two_pow, Nat.mod_eq_of_lt d.hi.toNat_lt]
      congr 1
      omega

/-! ## Carries -/

/-- A number of dwords, the lowest first. -/
def limbs : List UInt32 → ℕ
  | [] => 0
  | w :: ws => w.toNat + 2 ^ 32 * limbs ws

theorem toNat_ofBool (c : Bool) : (ofBool c).toNat = c.toNat := by
  cases c <;> rfl

theorem or_bits {c d : ℕ} (hc : c < 2) (hd : d < 2) (h : c + d < 2) : c ||| d = c + d := by
  have hcases : c = 0 ∨ d = 0 := by omega
  rcases hcases with rfl | rfl
  · rw [Nat.zero_or, Nat.zero_add]
  · rw [Nat.or_zero, Nat.add_zero]

theorem iAddCarry_spec (a b : UInt32) :
    (iAddCarry a b).value.toNat + 2 ^ 32 * (iAddCarry a b).flag.toNat = a.toNat + b.toNat ∧
      (iAddCarry a b).flag.toNat < 2 := by
  have ha := a.toNat_lt
  have hb := b.toNat_lt
  rw [iAddCarry, UInt32.toNat_add, UInt32.toNat_ofNat']
  omega

theorem iSubBorrow_spec (a b : UInt32) :
    (iSubBorrow a b).value.toNat + b.toNat = a.toNat + 2 ^ 32 * (iSubBorrow a b).flag.toNat ∧
      (iSubBorrow a b).flag.toNat < 2 := by
  have ha := a.toNat_lt
  have hb := b.toNat_lt
  rw [iSubBorrow, UInt32.toNat_sub, toNat_ofBool]
  by_cases h : a < b
  · rw [decide_eq_true h, Bool.toNat_true]
    rw [UInt32.lt_iff_toNat_lt] at h
    omega
  · rw [decide_eq_false h, Bool.toNat_false]
    rw [UInt32.lt_iff_toNat_lt] at h
    omega

def carryIn (carry : Option UInt32) : ℕ := carry.elim 0 (·.toNat % 2)

theorem addCarry_spec (a b : UInt32) (carry : Option UInt32) :
    (addCarry a b carry).value.toNat + 2 ^ 32 * (addCarry a b carry).flag.toNat =
      a.toNat + b.toNat + carryIn carry ∧ (addCarry a b carry).flag.toNat < 2 := by
  cases carry with
  | none => exact iAddCarry_spec a b
  | some c =>
    obtain ⟨hp, hpf⟩ := iAddCarry_spec a b
    obtain ⟨hq, hqf⟩ := iAddCarry_spec (iAddCarry a b).value (c &&& 1)
    rw [Words.toNat_and32 c (k := 1) rfl] at hq
    have ha := a.toNat_lt
    have hb := b.toNat_lt
    -- the second addition cannot carry after the first one has
    have hor := or_bits hpf hqf (by omega)
    simp only [addCarry, UInt32.toNat_or, carryIn, Option.elim_some]
    omega

theorem subBorrow_spec (a b : UInt32) (borrow : Option UInt32) :
    (subBorrow a b borrow).value.toNat + b.toNat + carryIn borrow =
      a.toNat + 2 ^ 32 * (subBorrow a b borrow).flag.toNat ∧ (subBorrow a b borrow).flag.toNat < 2 := by
  cases borrow with
  | none => exact iSubBorrow_spec a b
  | some c =>
    obtain ⟨hp, hpf⟩ := iSubBorrow_spec a b
    obtain ⟨hq, hqf⟩ := iSubBorrow_spec (iSubBorrow a b).value (c &&& 1)
    rw [Words.toNat_and32 c (k := 1) rfl] at hq
    have hb := b.toNat_lt
    have hv := (iSubBorrow (iSubBorrow a b).value (c &&& 1)).value.toNat_lt
    have hor := or_bits hpf hqf (by omega)
    simp only [subBorrow, UInt32.toNat_or, carryIn, Option.elim_some]
    omega

theorem ofBool_flag {f : UInt32} (h : f.toNat < 2) : (ofBool (f != 0)).toNat = f.toNat := by
  rw [toNat_ofBool]
  by_cases hf : f = 0
  · rw [hf]
    rfl
  · have hne : f.toNat ≠ 0 := fun hz => hf (UInt32.toNat_inj.mp hz)
    rw [bne_iff_ne.mpr hf, Bool.toNat_true]
    omega

/-- What a carry instruction writes, where `sign` is `1` for an addition and `-1` for a subtraction. -/
structure CarryStep (sign : ℤ) (a b : UInt32) (carry : ℕ) (w : Written) (flag : UInt32) : Prop where
  flag_eq : w.flag = some flag
  flag_lt : flag.toNat < 2
  value : (w.lo.toNat : ℤ) + sign * 2 ^ 32 * flag.toNat = a.toNat + sign * (b.toNat + carry)

theorem emitSop2_add (a b : Dword2) (scc : UInt32) (first : Bool) : ∃ w flag,
    emitSop2 (if first then 0x00 else 0x04) a b scc = some w ∧
      CarryStep 1 a.lo b.lo (if first then 0 else scc.toNat % 2) w flag := by
  obtain ⟨hvalue, hflag⟩ := addCarry_spec a.lo b.lo (if first then none else some scc)
  refine ⟨⟨(addCarry a.lo b.lo (if first then none else some scc)).value, none,
    some (ofBool ((addCarry a.lo b.lo (if first then none else some scc)).flag != 0))⟩, _, ?_, rfl, ?_, ?_⟩
  · cases first <;> rfl
  · rwa [ofBool_flag hflag]
  · rw [ofBool_flag hflag]
    cases first <;> simp only [carryIn, Option.elim, Bool.false_eq_true, if_false, if_true] at hvalue ⊢ <;> omega

theorem emitSop2_sub (a b : Dword2) (scc : UInt32) (first : Bool) : ∃ w flag,
    emitSop2 (if first then 0x01 else 0x05) a b scc = some w ∧
      CarryStep (-1) a.lo b.lo (if first then 0 else scc.toNat % 2) w flag := by
  obtain ⟨hvalue, hflag⟩ := subBorrow_spec a.lo b.lo (if first then none else some scc)
  refine ⟨⟨(subBorrow a.lo b.lo (if first then none else some scc)).value, none,
    some (ofBool ((subBorrow a.lo b.lo (if first then none else some scc)).flag != 0))⟩, _, ?_, rfl, ?_, ?_⟩
  · cases first <;> rfl
  · rwa [ofBool_flag hflag]
  · rw [ofBool_flag hflag]
    cases first <;> simp only [carryIn, Option.elim, Bool.false_eq_true, if_false, if_true] at hvalue ⊢ <;> omega

/-- **A chain writes the limbs of its sum**, and its last flag is the carry above them. -/
theorem chain_value {sign : ℤ} {op : Bool → ℕ}
    (hstep : ∀ (a b : Dword2) (scc : UInt32) (first : Bool), ∃ w flag, emitSop2 (op first) a b scc = some w ∧
      CarryStep sign a.lo b.lo (if first then 0 else scc.toNat % 2) w flag)
    (rest : List (UInt32 × UInt32)) (x : UInt32 × UInt32) (first : Bool) (scc : UInt32) :
    ∃ vs out, chain (op first) (op false) scc (x :: rest) = some (vs, out) ∧ vs.length = rest.length + 1 ∧
      out.toNat < 2 ∧ (limbs vs : ℤ) + sign * 2 ^ (32 * (rest.length + 1)) * out.toNat =
        limbs (x.1 :: rest.map Prod.fst) +
          sign * (limbs (x.2 :: rest.map Prod.snd) + (if first then 0 else scc.toNat % 2 : ℕ)) := by
  obtain ⟨⟨v, hi, _⟩, flag, hemit, rfl, hlt, hvalue⟩ := hstep ⟨x.1, 0⟩ ⟨x.2, 0⟩ scc first
  induction rest generalizing x first scc v flag hi with
  | nil =>
    refine ⟨[v], flag, ?_, rfl, hlt, ?_⟩
    · rw [chain, hemit]
      rfl
    · simp only [limbs, List.map_nil, List.length_nil, Nat.mul_zero, Nat.add_zero, Nat.zero_add, Nat.mul_one]
      exact hvalue
  | cons y ys ih =>
    obtain ⟨⟨v', hi', _⟩, flag', hemit', rfl, hlt', hvalue'⟩ := hstep ⟨y.1, 0⟩ ⟨y.2, 0⟩ flag false
    obtain ⟨vs, out, hchain, hlen, hout, hsum⟩ := ih y false flag v' hi' flag' hlt' hemit' hvalue'
    refine ⟨v :: vs, out, ?_, by rw [List.length_cons, hlen]; rfl, hout, ?_⟩
    · rw [chain, hemit]
      simp only [hchain, Option.map_some]
    · -- the flag of this limb is the carry of the next one
      rw [if_neg Bool.false_ne_true, Nat.mod_eq_of_lt hlt] at hsum
      simp only [limbs, List.map_cons, List.length_cons] at hsum hvalue ⊢
      push_cast at hsum hvalue ⊢
      rw [show (32 * (ys.length + 1 + 1)) = 32 + 32 * (ys.length + 1) by ring, pow_add]
      linear_combination 2 ^ 32 * hsum + hvalue

/-! ## Products -/

/-- The sum of a product and an addend, with the carry above its 64 bits. -/
theorem add_pair (p c : Dword2) :
    (⟨(addCarry p.lo c.lo none).value, (addCarry p.hi c.hi (some (addCarry p.lo c.lo none).flag)).value⟩ :
        Dword2).toNat + 2 ^ 64 * (addCarry p.hi c.hi (some (addCarry p.lo c.lo none).flag)).flag.toNat =
      p.toNat + c.toNat := by
  obtain ⟨hlo, hlof⟩ := addCarry_spec p.lo c.lo none
  obtain ⟨hhi, -⟩ := addCarry_spec p.hi c.hi (some (addCarry p.lo c.lo none).flag)
  simp only [carryIn, Option.elim_some, Option.elim_none] at hlo hhi
  simp only [Dword2.toNat]
  omega

theorem mad64_unsigned (a b : UInt32) (c : Dword2) : mad64 false a b c =
    (halves (a.toNat * b.toNat + c.toNat), .ofNat ((a.toNat * b.toNat + c.toNat) / 2 ^ 64)) := by
  have hsum := add_pair (uMulExtended a b) c
  obtain ⟨-, hflag⟩ := addCarry_spec (uMulExtended a b).hi c.hi
    (some (addCarry (uMulExtended a b).lo c.lo none).flag)
  have hprod : (uMulExtended a b).toNat = a.toNat * b.toNat := by
    rw [uMulExtended, toNat_halves, Nat.mod_eq_of_lt]
    show _ < 2 ^ 32 * 2 ^ 32
    exact Nat.mul_lt_mul'' a.toNat_lt b.toNat_lt
  rw [hprod] at hsum
  rw [mad64]
  simp only [Bool.false_eq_true, if_false]
  refine Prod.ext ?_ ?_
  · apply Dword2.ext_toNat
    rw [toNat_halves, ← hsum, Nat.add_mul_mod_self_left, Nat.mod_eq_of_lt (Dword2.toNat_lt _)]
  · rw [← UInt32.toNat_inj, Words.toNat_and32 _ (k := 1) rfl, UInt32.toNat_ofNat', ← hsum]
    have hlt := Dword2.toNat_lt ⟨(addCarry (uMulExtended a b).lo c.lo none).value,
      (addCarry (uMulExtended a b).hi c.hi (some (addCarry (uMulExtended a b).lo c.lo none).flag)).value⟩
    rw [Nat.add_mul_div_left _ _ (by decide), Nat.div_eq_of_lt hlt, Nat.zero_add]
    omega

/-- The highest bit of a dword is its sign. -/
theorem shr_31 (h : UInt32) : (shr h 31).toNat = if 2 ^ 31 ≤ h.toNat then 1 else 0 := by
  have hlt := h.toNat_lt
  rw [toNat_shr, show (31 : UInt32).toNat % 32 = 31 from rfl]
  split <;> omega

theorem mad64_signed (a b : UInt32) (c : Dword2) : mad64 true a b c = (intHalves (signed a * signed b + c.toInt),
      .ofNat ((signed a * signed b + c.toInt) % 2 ^ 65 / 2 ^ 64).toNat) := by
  have hsum := add_pair (sMulExtended a b) c
  obtain ⟨-, hflag⟩ := addCarry_spec (sMulExtended a b).hi c.hi
    (some (addCarry (sMulExtended a b).lo c.lo none).flag)
  have hprod : ((sMulExtended a b).toNat : ℤ) = signed a * signed b % 2 ^ 64 := by
    rw [sMulExtended, intHalves, toNat_halves]
    show _ = (a.toInt32.toInt * b.toInt32.toInt) % 2 ^ 64
    omega
  have hbound : -2 ^ 63 ≤ signed a * signed b ∧ signed a * signed b < 2 ^ 63 := by
    have hrange (w : UInt32) : -2 ^ 31 ≤ signed w ∧ signed w < 2 ^ 31 := by
      have hw := w.toNat_lt
      rw [signed_eq]
      split <;> omega
    obtain ⟨hal, hau⟩ := hrange a
    obtain ⟨hbl, hbu⟩ := hrange b
    constructor <;> nlinarith
  rw [mad64]
  simp only [if_true]
  generalize sMulExtended a b = p at hsum hflag hprod ⊢
  generalize hr : (⟨(addCarry p.lo c.lo none).value,
    (addCarry p.hi c.hi (some (addCarry p.lo c.lo none).flag)).value⟩ : Dword2) = r at hsum ⊢
  generalize (addCarry p.hi c.hi (some (addCarry p.lo c.lo none).flag)).flag = f at hsum hflag ⊢
  have hrlt := r.toNat_lt
  -- the result counts the signs of both addends as a bit above it
  have hp : (p.toNat : ℤ) = signed a * signed b + 2 ^ 64 * (shr p.hi 31).toNat := by
    have hlo := p.lo.toNat_lt
    rw [shr_31]
    rw [Dword2.toNat] at hprod ⊢
    split <;> omega
  have hc : (c.toNat : ℤ) = c.toInt + 2 ^ 64 * (shr c.hi 31).toNat := by
    have hlo := c.lo.toNat_lt
    rw [shr_31, Dword2.toInt, Dword2.toNat]
    split <;> split <;> omega
  have hbit (w : UInt32) : (shr w 31).toNat = 0 ∨ (shr w 31).toNat = 1 := by
    rw [shr_31]
    split <;> omega
  -- the carry and the signs that are left above the result
  have hsigned : signed a * signed b + c.toInt =
      r.toNat + 2 ^ 64 * (f.toNat - (shr p.hi 31).toNat - (shr c.hi 31).toNat : ℤ) := by
    omega
  rw [hsigned]
  have hlow (k : ℤ) : (r.toNat + 2 ^ 64 * k) % 2 ^ 64 = r.toNat := by omega
  have hhigh (k : ℤ) : (r.toNat + 2 ^ 64 * k) % 2 ^ 65 / 2 ^ 64 = k % 2 := by omega
  refine Prod.ext ?_ ?_
  · apply Dword2.ext_toNat
    rw [intHalves, toNat_halves, hlow, Int.toNat_natCast, Nat.mod_eq_of_lt hrlt]
  · rw [hhigh, ← UInt32.toNat_inj, Words.toNat_and32 _ (k := 1) rfl, UInt32.toNat_ofNat', UInt32.toNat_xor,
      UInt32.toNat_xor]
    have hf : f.toNat = 0 ∨ f.toNat = 1 := by omega
    rcases hf with hf | hf <;> rcases hbit p.hi with hsp | hsp <;> rcases hbit c.hi with hsc | hsc <;>
      rw [hf, hsp, hsc] <;> rfl

/-! ## The opcodes write their operations -/

/-- **The 64-bit opcodes are exact**: shifts, bit fields, bit counts and products write the halves of their
results for every amount and every width, SCC says whether a result is zero, the flag of a product is its bit 64,
and a chain of carry instructions adds or subtracts numbers of any length. -/
theorem wide_integers_exact (a b d : Dword2) (s scc : UInt32) :
    (emitSop2 0x1f a b scc = some (wide (halves (a.toNat * 2 ^ (b.lo.toNat % 64)))) ∧
      emitSop2 0x21 a b scc = some (wide (halves (a.toNat / 2 ^ (b.lo.toNat % 64)))) ∧
      emitSop2 0x23 a b scc = some (wide (intHalves (a.toInt / 2 ^ (b.lo.toNat % 64)))) ∧
      emitSop2 0x29 a b scc = some (wide (halves (a.toNat / 2 ^ (b.lo.toNat % 64) % 2 ^ (b.lo.toNat / 2 ^ 16 % 128)))) ∧
      (∀ r : Dword2, wide r = ⟨r.lo, some r.hi, some (ofBool (r.toNat ≠ 0))⟩) ∧
      emitSop2 0x25 a b scc = pair (halves ((2 ^ (a.lo.toNat % 64) - 1) * 2 ^ (b.lo.toNat % 64)))) ∧
    (emitSop1 0x12 a d = some ⟨bitOrNone (lowestSet 64 (2 ^ 64 - 1 - a.toNat)), none, none⟩ ∧
      emitSop1 0x14 a d = some ⟨bitOrNone (lowestSet 64 a.toNat), none, none⟩ ∧
      emitSop1 0x16 a d = some ⟨bitOrNone ((highestSet a.toNat).map (63 - ·)), none, none⟩ ∧
      emitSop1 0x1c a d = pair (halves (d.toNat &&& (2 ^ 64 - 1 - 2 ^ (a.lo.toNat % 64)))) ∧
      emitSop1 0x1e a d = pair (halves (d.toNat ||| 2 ^ (a.lo.toNat % 64)))) ∧
    (∀ (first : Bool) (x : UInt32 × UInt32) (rest : List (UInt32 × UInt32)), let as := limbs (x.1 :: rest.map Prod.fst)
      let bs := limbs (x.2 :: rest.map Prod.snd)
      let carry := if first then 0 else scc.toNat % 2
      let top := 2 ^ (32 * (rest.length + 1))
      (∃ vs out, chain (if first then 0x00 else 0x04) 0x04 scc (x :: rest) = some (vs, out) ∧
        vs.length = rest.length + 1 ∧ limbs vs + top * out.toNat = as + bs + carry) ∧
      ∃ vs out, chain (if first then 0x01 else 0x05) 0x05 scc (x :: rest) = some (vs, out) ∧
        vs.length = rest.length + 1 ∧ limbs vs + bs + carry = as + top * out.toNat) ∧
    (emitVop3 0x161 a s d = pair (halves (a.toNat * 2 ^ (s.toNat % 64))) ∧
      emitVop3 0x162 a s d = pair (halves (a.toNat / 2 ^ (s.toNat % 64))) ∧
      emitVop3 0x163 a s d = pair (intHalves (a.toInt / 2 ^ (s.toNat % 64))) ∧
      emitVop3 0x176 a s d = (let n := a.lo.toNat * s.toNat + d.toNat
        some ⟨(halves n).lo, some (halves n).hi, some (.ofNat (n / 2 ^ 64))⟩) ∧
      emitVop3 0x177 a s d = let z := signed a.lo * signed s + d.toInt
        some ⟨(intHalves z).lo, some (intHalves z).hi, some (.ofNat (z % 2 ^ 65 / 2 ^ 64).toNat)⟩) := by
  refine ⟨⟨?_, ?_, ?_, ?_, wide_eq, ?_⟩, ⟨?_, ?_, ?_, ?_, ?_⟩, ?_, ?_, ?_, ?_, ?_, ?_⟩
  · rw [emitSop2, shiftLeft64_eq]
  · rw [emitSop2, shiftRight64_eq]
  · rw [emitSop2, shiftArith64_eq]
  · rw [emitSop2, bfe64_eq]
  · rw [emitSop2, bfm64_eq]
  · have hnot : (⟨~~~a.lo, ~~~a.hi⟩ : Dword2).toNat = 2 ^ 64 - 1 - a.toNat := by
      have hlo := a.lo.toNat_lt
      have hhi := a.hi.toNat_lt
      rw [Dword2.toNat, Dword2.toNat, UInt32.toNat_not, UInt32.toNat_not]
      simp only [UInt32.size]
      omega
    rw [emitSop1, firstSet64_eq, hnot]
  · rw [emitSop1, firstSet64_eq]
  · rw [emitSop1, leadingZeros64_eq]
  · simp only [emitSop1, bitset64_eq, beq_self_eq_true, if_true]
  · simp only [emitSop1, bitset64_eq, show (0x1e == 0x1c) = false from rfl, Bool.false_eq_true, if_false]
  · intro first x rest
    obtain ⟨vs, out, hchain, hlen, -, hvalue⟩ :=
      @chain_value 1 (fun first => if first then 0x00 else 0x04) emitSop2_add rest x first scc
    obtain ⟨ws, out', hchain', hlen', -, hvalue'⟩ :=
      @chain_value (-1) (fun first => if first then 0x01 else 0x05) emitSop2_sub rest x first scc
    refine ⟨⟨vs, out, hchain, hlen, ?_⟩, ws, out', hchain', hlen', ?_⟩
    · zify
      push_cast at hvalue
      linear_combination hvalue
    · zify
      push_cast at hvalue'
      linear_combination hvalue'
  · simp only [emitVop3, Nat.sub_self, shiftLeft64_eq]
  · simp only [emitVop3, show 0x162 - 0x161 = 1 from rfl, shiftRight64_eq]
  · simp only [emitVop3, show 0x163 - 0x161 = 2 from rfl, shiftArith64_eq]
  · simp only [emitVop3, show (0x176 == 0x177) = false from rfl, mad64_unsigned]
  · simp only [emitVop3, beq_self_eq_true, mad64_signed]

end Prosperity.WideIntegers
