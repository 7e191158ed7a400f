import Mathlib.Data.List.Basic
import Mathlib.Data.List.Induction

/-!
# The last of the largest candidates

A loop that keeps the best candidate so far, and replaces it by one at least as good, ends with
the last of the largest.
-/

namespace Prosperity

universe u

variable {α : Type u} (cand : α → Bool) (key : α → ℕ)

def lastMaxTurn (best : Option α) (x : α) : Option α :=
  if cand x && best.elim 0 key ≤ key x then some x else best

def lastMax (l : List α) : Option α := l.foldl (lastMaxTurn cand key) none

/-- `m` is a candidate in the list, none before it is larger, and all behind it are smaller. -/
def IsLastMax (l : List α) (m : α) : Prop :=
  ∃ before after, l = before ++ m :: after ∧ cand m = true ∧
    (∀ x ∈ before, cand x = true → key x ≤ key m) ∧ ∀ x ∈ after, cand x = true → key x < key m

theorem lastMax_concat (l : List α) (x : α) :
    lastMax cand key (l ++ [x]) = lastMaxTurn cand key (lastMax cand key l) x := by
  rw [lastMax, List.foldl_append]
  rfl

variable {cand key} {l : List α} {m : α}

theorem IsLastMax.mem (h : IsLastMax cand key l m) : m ∈ l := by
  obtain ⟨before, after, rfl, -⟩ := h
  simp

theorem IsLastMax.cand_eq (h : IsLastMax cand key l m) : cand m = true := h.choose_spec.choose_spec.2.1

theorem IsLastMax.le (h : IsLastMax cand key l m) {x : α} (hx : x ∈ l) (hc : cand x = true) : key x ≤ key m := by
  obtain ⟨before, after, rfl, -, hbefore, hafter⟩ := h
  rcases List.mem_append.mp hx with hx | hx
  · exact hbefore x hx hc
  · rcases List.mem_cons.mp hx with rfl | hx
    · exact Nat.le_refl _
    · exact Nat.le_of_lt (hafter x hx hc)

theorem IsLastMax.of_subset {cand' : α → Bool} (h : IsLastMax cand key l m)
    (hsub : ∀ x, cand' x = true → cand x = true) (hm : cand' m = true) : IsLastMax cand' key l m := by
  obtain ⟨before, after, hl, -, hbefore, hafter⟩ := h
  exact ⟨before, after, hl, hm, fun x hx hc => hbefore x hx (hsub x hc),
    fun x hx hc => hafter x hx (hsub x hc)⟩

variable (cand key) in
/-- **What the loop ends with**, by its last turn. -/
theorem lastMax_spec (l : List α) : (lastMax cand key l = none ∧ ∀ x ∈ l, cand x = false) ∨
      ∃ m, lastMax cand key l = some m ∧ IsLastMax cand key l m := by
  induction l using List.reverseRecOn with
  | nil => exact .inl ⟨rfl, nofun⟩
  | append_singleton l x ih =>
    rw [lastMax_concat]
    unfold lastMaxTurn
    cases hx : cand x with
    | false =>
      rw [Bool.false_and, if_neg (by decide)]
      rcases ih with ⟨hnone, hall⟩ | ⟨m, hm, hbest⟩
      · refine .inl ⟨hnone, fun y hy => ?_⟩
        rcases List.mem_append.mp hy with hy | hy
        · exact hall y hy
        · rw [List.mem_singleton.mp hy, hx]
      · obtain ⟨before, after, rfl, hc, hbefore, hafter⟩ := hbest
        refine .inr ⟨m, hm, before, after ++ [x], by simp, hc, hbefore, fun y hy hcy => ?_⟩
        rcases List.mem_append.mp hy with hy | hy
        · exact hafter y hy hcy
        · rw [List.mem_singleton.mp hy, hx] at hcy
          cases hcy
    | true =>
      rw [Bool.true_and]
      rcases ih with ⟨hnone, hall⟩ | ⟨m, hm, hbest⟩
      · -- the first candidate
        rw [hnone, if_pos (by simp)]
        refine .inr ⟨x, rfl, l, [], rfl, hx, fun y hy hcy => ?_, nofun⟩
        rw [hall y hy] at hcy
        cases hcy
      · rw [hm, Option.elim_some]
        by_cases hle : key m ≤ key x
        · rw [if_pos (decide_eq_true hle)]
          exact .inr ⟨x, rfl, l, [], rfl, hx, fun y hy hcy => Nat.le_trans (hbest.le hy hcy) hle, nofun⟩
        · rw [if_neg fun h => hle (of_decide_eq_true h)]
          obtain ⟨before, after, rfl, hc, hbefore, hafter⟩ := hbest
          refine .inr ⟨m, rfl, before, after ++ [x], by simp, hc, hbefore, fun y hy hcy => ?_⟩
          rcases List.mem_append.mp hy with hy | hy
          · exact hafter y hy hcy
          · rw [List.mem_singleton.mp hy]
            exact Nat.lt_of_not_le hle

theorem lastMax_eq_none_iff : lastMax cand key l = none ↔ ∀ x ∈ l, cand x = false := by
  constructor
  · intro h
    rcases lastMax_spec cand key l with ⟨-, hall⟩ | ⟨m, hm, -⟩
    · exact hall
    · rw [h] at hm
      cases hm
  · intro hall
    rcases lastMax_spec cand key l with ⟨hnone, -⟩ | ⟨m, -, hbest⟩
    · exact hnone
    · have hc := hbest.cand_eq
      rw [hall m hbest.mem] at hc
      cases hc

theorem IsLastMax.unique {m' : α} (h : IsLastMax cand key l m) (h' : IsLastMax cand key l m') : m = m' := by
  obtain ⟨before, after, hl, hc, hbefore, hafter⟩ := h
  obtain ⟨before', after', hl', hc', hbefore', hafter'⟩ := h'
  rw [hl] at hl'
  -- the one that stands first is not smaller, so that the other does not stand behind it
  rcases List.append_eq_append_iff.mp hl' with ⟨mid, hmid, hrest⟩ | ⟨mid, hmid, hrest⟩
  · cases mid with
    | nil => exact (List.cons.inj hrest).1
    | cons y ys =>
      obtain ⟨rfl, hys⟩ := List.cons.inj hrest
      have hle := hbefore' m (by rw [hmid]; simp) hc
      have hlt := hafter m' (by rw [hys]; simp) hc'
      omega
  · cases mid with
    | nil => exact (List.cons.inj hrest).1.symm
    | cons y ys =>
      obtain ⟨rfl, hys⟩ := List.cons.inj hrest
      have hle := hbefore m' (by rw [hmid]; simp) hc'
      have hlt := hafter' m (by rw [hys]; simp) hc
      omega

/-- **The loop computes the last of the largest candidates.** -/
theorem lastMax_eq_some_iff : lastMax cand key l = some m ↔ IsLastMax cand key l m := by
  constructor
  · intro h
    rcases lastMax_spec cand key l with ⟨hnone, -⟩ | ⟨m', hm', hbest⟩
    · rw [h] at hnone
      cases hnone
    · obtain rfl := Option.some.inj (h.symm.trans hm')
      exact hbest
  · intro h
    rcases lastMax_spec cand key l with ⟨-, hall⟩ | ⟨m', hm', hbest⟩
    · have hc := h.cand_eq
      rw [hall m h.mem] at hc
      cases hc
    · rw [hm', h.unique hbest]

theorem lastMax_eq_some_of_subset {cand' : α → Bool} (h : lastMax cand key l = some m)
    (hsub : ∀ x, cand' x = true → cand x = true) (hm : cand' m = true) : lastMax cand' key l = some m :=
  lastMax_eq_some_iff.mpr ((lastMax_eq_some_iff.mp h).of_subset hsub hm)

end Prosperity
