import Mathlib.Data.List.Basic

/-!
# Stamps of last writes

A walk over steps keeps for each place the number of the last step that wrote it, counted from one, and
zero for a place that no step has written. Places with the same stamp at two times have not been written
between them, so what only the writes change is the same.
-/

namespace Prosperity

variable {α : Type*} {writes : ℕ → ℕ → Bool} {k u v p : ℕ}

/-- The last step before `k` that writes the place `p`, plus one; zero where there is none. -/
def stamp (writes : ℕ → ℕ → Bool) : ℕ → ℕ → ℕ
  | 0, _ => 0
  | k + 1, p => if writes k p then k + 1 else stamp writes k p

theorem stamp_succ (k p : ℕ) : stamp writes (k + 1) p = if writes k p then k + 1 else stamp writes k p := rfl

theorem stamp_le (k p : ℕ) : stamp writes k p ≤ k := by
  induction k with
  | zero => exact Nat.le_refl _
  | succ k ih =>
    rw [stamp_succ]
    split
    · exact Nat.le_refl _
    · exact Nat.le_succ_of_le ih

theorem lt_stamp_of_written {j : ℕ} (hj : j < k) (h : writes j p = true) : j < stamp writes k p := by
  induction k with
  | zero => cases hj
  | succ k ih =>
    rw [stamp_succ]
    split
    · exact hj
    · rename_i hk
      rcases Nat.lt_or_eq_of_le (Nat.le_of_lt_succ hj) with hlt | rfl
      · exact ih hlt
      · exact absurd h hk

/-- **Between two times with the same stamp a place is not written.** -/
theorem not_written_of_stamp_eq (heq : stamp writes u p = stamp writes v p) {j : ℕ} (hu : u ≤ j) (hv : j < v) :
    writes j p = false := by
  by_contra h
  have hlast := lt_stamp_of_written hv (by simpa using h)
  have hfirst : stamp writes u p ≤ u := stamp_le u p
  omega

theorem eq_of_unwritten (value : ℕ → α) (huv : u ≤ v)
    (hkeep : ∀ j, u ≤ j → j < v → value (j + 1) = value j) : value u = value v := by
  obtain ⟨n, rfl⟩ := Nat.exists_eq_add_of_le huv
  induction n with
  | zero => rfl
  | succ n ih =>
    rw [← Nat.add_assoc, hkeep (u + n) (Nat.le_add_right u n) (Nat.lt_succ_self _)]
    exact ih (Nat.le_add_right u n) fun j hj hlt => hkeep j hj (Nat.lt_succ_of_lt hlt)

end Prosperity
