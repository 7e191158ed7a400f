import Mathlib.Data.Int.Notation
import Mathlib.Order.Basic

/-!
# Signed 32-bit integers with undefined overflow

`CInt` is the value range of a 32-bit `int`. Sums are partial: `add?` is `none` where the sum
leaves the range, the case the language leaves undefined.
-/

namespace Prosperity

/-- The integers a 32-bit `int` can hold. -/
def FitsInt (x : ℤ) : Prop := -2147483648 ≤ x ∧ x ≤ 2147483647

instance (x : ℤ) : Decidable (FitsInt x) := inferInstanceAs (Decidable (_ ∧ _))

/-- A 32-bit `int`. -/
abbrev CInt := {x : ℤ // FitsInt x}

namespace CInt

instance : Zero CInt := ⟨0, by decide⟩

instance : One CInt := ⟨1, by decide⟩

instance : LE CInt := ⟨fun a b => (a : ℤ) ≤ b⟩

instance : LT CInt := ⟨fun a b => (a : ℤ) < b⟩

instance : DecidableLE CInt := fun a b => inferInstanceAs (Decidable ((a : ℤ) ≤ b))

instance : DecidableLT CInt := fun a b => inferInstanceAs (Decidable ((a : ℤ) < b))

@[simp] theorem coe_zero : ((0 : CInt) : ℤ) = 0 := rfl

@[simp] theorem coe_one : ((1 : CInt) : ℤ) = 1 := rfl

/-- `INT_MAX`. -/
def max : CInt := ⟨0x7fffffff, by decide⟩

/-- The value as an `int`, where it fits. -/
def ofInt? (x : ℤ) : Option CInt := if h : FitsInt x then some ⟨x, h⟩ else none

/-- `a + b`, undefined on overflow. -/
def add? (a b : CInt) : Option CInt := ofInt? (a + b)

/-- `a - b`, undefined on overflow. -/
def sub? (a b : CInt) : Option CInt := ofInt? (a - b)

theorem ofInt?_of_fits {x : ℤ} (h : FitsInt x) : ofInt? x = some ⟨x, h⟩ := dif_pos h

theorem add?_of_fits {a b : CInt} (h : FitsInt ((a : ℤ) + b)) : add? a b = some ⟨a + b, h⟩ :=
  ofInt?_of_fits h

theorem sub?_of_fits {a b : CInt} (h : FitsInt ((a : ℤ) - b)) : sub? a b = some ⟨a - b, h⟩ :=
  ofInt?_of_fits h

end CInt

end Prosperity
