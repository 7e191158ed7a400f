import Mathlib.Algebra.BigOperators.Group.Finset.Piecewise
import Mathlib.Algebra.Order.BigOperators.Group.Finset
import Mathlib.Data.Fintype.BigOperators

/-!
# Counting over the threads of a system

A system of finitely many threads keeps one local state per thread. `total w f` adds the weight
`w` of every thread's local state, and `tally p f` counts the threads whose local state satisfies
`p`. A step changes one thread, so its effect on a total is that thread's alone.
-/

namespace Prosperity

variable {ι α : Type*} [Fintype ι]

/-- The weights of all threads, added. -/
def total (w : α → ℕ) (f : ι → α) : ℕ := ∑ t, w (f t)

/-- The number of threads whose local state satisfies `p`. -/
def tally (p : α → Bool) (f : ι → α) : ℕ := total (fun a => (p a).toNat) f

theorem le_total (w : α → ℕ) (f : ι → α) (t : ι) : w (f t) ≤ total w f :=
  Finset.single_le_sum (f := fun t => w (f t)) (fun _ _ => Nat.zero_le _) (Finset.mem_univ t)

theorem total_eq_zero_iff {w : α → ℕ} {f : ι → α} : total w f = 0 ↔ ∀ t, w (f t) = 0 := by
  simp [total]

theorem total_congr {w w' : α → ℕ} {f : ι → α} (h : ∀ t, w (f t) = w' (f t)) : total w f = total w' f :=
  Finset.sum_congr rfl fun t _ => h t

theorem total_add (w w' : α → ℕ) (f : ι → α) : total (fun a => w a + w' a) f = total w f + total w' f :=
  Finset.sum_add_distrib

theorem tally_eq_zero_iff {p : α → Bool} {f : ι → α} : tally p f = 0 ↔ ∀ t, p (f t) = false := by
  simp [tally, total_eq_zero_iff]

theorem tally_pos {p : α → Bool} {f : ι → α} {t : ι} (h : p (f t) = true) : 0 < tally p f := by
  have := le_total (fun a => (p a).toNat) f t
  simp only [h, Bool.toNat_true] at this
  exact this

theorem tally_le_tally {p : α → Bool} {f g : ι → α} (h : ∀ t, p (f t) = true → p (g t) = true) :
    tally p f ≤ tally p g := by
  have hle : ∀ t, (p (f t)).toNat ≤ (p (g t)).toNat := by
    intro t
    cases hf : p (f t)
    · exact Nat.zero_le _
    · rw [h t hf]
  exact Finset.sum_le_sum fun t _ => hle t

section Update

variable [DecidableEq ι]

theorem total_update (w : α → ℕ) (f : ι → α) (t : ι) (a : α) :
    total w (Function.update f t a) + w (f t) = total w f + w a := by
  have hsplit : ∀ g : ι → α, total w g = w (g t) + ∑ u ∈ Finset.univ.erase t, w (g u) :=
    fun g => (Finset.add_sum_erase _ (fun u => w (g u)) (Finset.mem_univ t)).symm
  have hrest : ∑ u ∈ Finset.univ.erase t, w (Function.update f t a u) = ∑ u ∈ Finset.univ.erase t, w (f u) :=
    Finset.sum_congr rfl fun u hu => by
      rw [Function.update_of_ne (Finset.ne_of_mem_erase hu)]
  rw [hsplit (Function.update f t a), hsplit f, hrest, Function.update_self]
  omega

theorem tally_update (p : α → Bool) (f : ι → α) (t : ι) (a : α) :
    tally p (Function.update f t a) + (p (f t)).toNat = tally p f + (p a).toNat :=
  total_update (fun a => (p a).toNat) f t a

theorem add_le_total (w : α → ℕ) (f : ι → α) {t u : ι} (h : t ≠ u) : w (f t) + w (f u) ≤ total w f := by
  have hsplit : total w f = w (f t) + ∑ v ∈ Finset.univ.erase t, w (f v) :=
    (Finset.add_sum_erase _ (fun v => w (f v)) (Finset.mem_univ t)).symm
  have hu : w (f u) ≤ ∑ v ∈ Finset.univ.erase t, w (f v) :=
    Finset.single_le_sum (f := fun v => w (f v)) (fun _ _ => Nat.zero_le _)
      (Finset.mem_erase.mpr ⟨h.symm, Finset.mem_univ u⟩)
  omega

end Update

end Prosperity
