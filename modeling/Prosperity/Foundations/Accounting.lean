import Mathlib.Algebra.Order.BigOperators.Group.Finset
import Mathlib.Data.Finset.Basic

/-!
# Accounts over distinct keys

Keys have weights, and an account adds the weight of every key of a list once, however often it
comes, up to a ceiling.
-/

namespace Prosperity

universe u

variable {ι : Type u} [DecidableEq ι]

def account (weight : ι → ℕ) (ceiling : ℕ) (acc : ℕ × List ι) (key : ι) : ℕ × List ι :=
  if key ∈ acc.2 then acc
  else (acc.1 + min (weight key) (ceiling - acc.1), key :: acc.2)

variable (weight weight' : ι → ℕ)

/-- **An account below its ceiling is the sum over the distinct keys.** -/
theorem accounted (ceiling : ℕ) (acc : ℕ × List ι) (keys : List ι) (hacc : acc.1 = ∑ k ∈ acc.2.toFinset, weight k)
    (hle : ∑ k ∈ acc.2.toFinset ∪ keys.toFinset, weight k ≤ ceiling) : (keys.foldl (account weight ceiling) acc).1 =
      ∑ k ∈ acc.2.toFinset ∪ keys.toFinset, weight k := by
  induction keys generalizing acc with
  | nil => simpa using hacc
  | cons key keys ih =>
    rw [List.foldl_cons]
    by_cases hkey : key ∈ acc.2
    · have hsame : acc.2.toFinset ∪ (key :: keys).toFinset = acc.2.toFinset ∪ keys.toFinset := by
        ext k
        simp only [Finset.mem_union, List.mem_toFinset, List.mem_cons]
        constructor
        · rintro (h | rfl | h)
          · exact .inl h
          · exact .inl hkey
          · exact .inr h
        · rintro (h | h)
          · exact .inl h
          · exact .inr (.inr h)
      rw [hsame] at hle ⊢
      rw [account, if_pos hkey]
      exact ih acc hacc hle
    · have hunion : (key :: acc.2).toFinset ∪ keys.toFinset =
          acc.2.toFinset ∪ (key :: keys).toFinset := by
        ext k
        simp only [Finset.mem_union, List.mem_toFinset, List.mem_cons]
        tauto
      have hsum : ∑ k ∈ (key :: acc.2).toFinset, weight k = acc.1 + weight key := by
        rw [List.toFinset_cons, Finset.sum_insert (by simpa using hkey), hacc, Nat.add_comm]
      -- the ceiling leaves room for the key
      have hroom : acc.1 + weight key ≤ ceiling := by
        rw [← hsum]
        refine Nat.le_trans (Finset.sum_le_sum_of_subset ?_) hle
        rw [← hunion]
        exact Finset.subset_union_left
      rw [account, if_neg hkey, Nat.min_eq_left (by omega), ← hunion]
      rw [← hunion] at hle
      exact ih _ hsum.symm hle

theorem sum_le_of_subset {keys keys' : Finset ι} (key : ι) (hsub : keys' ⊆ insert key keys)
    (hweight : ∀ k ∈ keys, k ≠ key → weight' k = weight k) :
    ∑ k ∈ keys', weight' k ≤ ∑ k ∈ keys.erase key, weight k + weight' key := by
  calc ∑ k ∈ keys', weight' k ≤ ∑ k ∈ insert key (keys.erase key), weight' k := by
        apply Finset.sum_le_sum_of_subset
        intro k hk
        rcases Finset.mem_insert.mp (hsub hk) with rfl | hk
        · exact Finset.mem_insert_self _ _
        · by_cases hne : k = key
          · exact hne ▸ Finset.mem_insert_self _ _
          · exact Finset.mem_insert_of_mem (Finset.mem_erase.mpr ⟨hne, hk⟩)
    _ = ∑ k ∈ keys.erase key, weight' k + weight' key := by
        rw [Finset.sum_insert (Finset.notMem_erase _ _), Nat.add_comm]
    _ = ∑ k ∈ keys.erase key, weight k + weight' key := by
        congr 1
        apply Finset.sum_congr rfl
        intro k hk
        obtain ⟨hne, hk⟩ := Finset.mem_erase.mp hk
        exact hweight k hk hne

theorem sum_erase_add {keys : Finset ι} {key : ι} (hkey : key ∈ keys) :
    ∑ k ∈ keys.erase key, weight k + weight key = ∑ k ∈ keys, weight k :=
  Finset.sum_erase_add _ _ hkey

theorem sum_erase_le (keys : Finset ι) (key : ι) : ∑ k ∈ keys.erase key, weight k ≤ ∑ k ∈ keys, weight k :=
  Finset.sum_le_sum_of_subset (Finset.erase_subset _ _)

end Prosperity
