import Mathlib.Data.List.Basic
import Mathlib.Logic.Function.Basic

/-!
# Rings of slots

A ring of `n` slots holds the last entries of a growing list: the `i`-th entry is in slot
`i % n`. An entry is written before the list grows by it.
-/

namespace Prosperity

universe u

variable {α : Type u} {n lo : ℕ} {slots : ℕ → α} {l : List α} {a : α}

/-- The ring `slots` of `n` holds the entries of `l` from `lo` on. -/
def RingHolds (n : ℕ) (slots : ℕ → α) (l : List α) (lo : ℕ) : Prop :=
  ∀ i a, lo ≤ i → l[i]? = some a → slots (i % n) = a

theorem mod_ne_of_lt {i j : ℕ} (hlt : i < j) (hturn : j < i + n) : j % n ≠ i % n := by
  intro h
  have hzero := Nat.sub_mod_eq_zero_of_mod_eq h
  rw [Nat.mod_eq_of_lt (by omega)] at hzero
  omega

/-- **A slot is handed out again** only when its last entry is behind `lo`. -/
theorem slot_free {i j : ℕ} (hroom : j < lo + n) (hlt : i < j) (hslot : i % n = j % n) : i < lo := by
  by_contra hle
  exact mod_ne_of_lt hlt (by omega) hslot.symm

theorem RingHolds.mono {lo' : ℕ} (h : RingHolds n slots l lo) (hle : lo ≤ lo') : RingHolds n slots l lo' :=
  fun i a hi ha => h i a (Nat.le_trans hle hi) ha

theorem RingHolds.write (h : RingHolds n slots l lo) (hroom : l.length < lo + n) :
    RingHolds n (Function.update slots (l.length % n) a) l lo := by
  intro i b hi hb
  obtain ⟨hlt, -⟩ := List.getElem?_eq_some_iff.mp hb
  rw [Function.update_of_ne, h i b hi hb]
  exact fun hslot => mod_ne_of_lt hlt (by omega) hslot.symm

theorem RingHolds.push (h : RingHolds n slots l lo) (hslot : slots (l.length % n) = a) :
    RingHolds n slots (l ++ [a]) lo := by
  intro i b hi hb
  rw [List.getElem?_append] at hb
  split at hb
  · exact h i b hi hb
  · rename_i hge
    have hzero : i - l.length = 0 := by
      by_contra hne
      rw [List.getElem?_eq_none (by simp; omega)] at hb
      cases hb
    obtain rfl : i = l.length := by omega
    rw [hslot]
    simpa using hb

theorem slot_add {p k : ℕ} (h : p % n + k < n) : (p + k) % n = p % n + k := by
  rw [← Nat.mod_add_mod, Nat.mod_eq_of_lt h]

theorem RingHolds.append {block : List α} {slots' : ℕ → α} (h : RingHolds n slots l lo)
    (hroom : l.length + block.length ≤ lo + n) (hwrap : l.length % n + block.length ≤ n)
    (hblock : ∀ k a, block[k]? = some a → slots' (l.length % n + k) = a)
    (hrest : ∀ j, j < l.length % n ∨ l.length % n + block.length ≤ j → slots' j = slots j) :
    RingHolds n slots' (l ++ block) lo := by
  intro i a hi ha
  by_cases hlt : i < l.length
  · -- An entry from before: its slot is not one of the block's.
    rw [List.getElem?_append_left hlt] at ha
    rw [hrest, h i a hi ha]
    by_contra hin
    have hle : l.length % n ≤ i % n := by omega
    obtain ⟨k, hk⟩ := Nat.exists_eq_add_of_le hle
    have hslot : i % n = (l.length + k) % n := by rw [slot_add (by omega), hk]
    exact Nat.not_lt.mpr hi (slot_free (by omega) (by omega) hslot)
  · rw [List.getElem?_append_right (by omega)] at ha
    have hk := (List.getElem?_eq_some_iff.mp ha).1
    have hslot : (l.length + (i - l.length)) % n = l.length % n + (i - l.length) :=
      slot_add (by omega)
    rw [Nat.add_sub_cancel' (by omega)] at hslot
    rw [hslot]
    exact hblock _ a ha

theorem RingHolds.read (h : RingHolds n slots l lo) {i k : ℕ} (hi : lo ≤ i) (hlt : i + k < l.length)
    (hwrap : i % n + k < n) : some (slots (i % n + k)) = l[i + k]? := by
  rw [← slot_add hwrap, List.getElem?_eq_getElem hlt]
  exact congrArg some (h (i + k) _ (by omega) (List.getElem?_eq_getElem hlt))

theorem RingHolds.nil (n : ℕ) (slots : ℕ → α) (lo : ℕ) : RingHolds n slots [] lo := by
  intro i a _ ha
  cases ha

end Prosperity
