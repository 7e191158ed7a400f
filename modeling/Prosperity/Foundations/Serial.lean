import Mathlib.Data.List.Basic
import Mathlib.Data.List.Induction
import Mathlib.Data.List.Nodup

/-!
# Owners that run one after another

Owners act on a shared state, each action with the state that it saw. A history is isolated if the states
are those of some order in which each owner does all that it does before the next one begins.
-/

namespace Prosperity

structure SerialAction (σ : Type) where
  owner : ℕ
  effect : σ → σ
  saw : σ

variable {σ : Type}

def Saw : σ → List (SerialAction σ) → Prop
  | _, [] => True
  | s, a :: history => a.saw = s ∧ Saw (a.effect s) history

def leaves (s : σ) (history : List (SerialAction σ)) : σ := history.foldl (fun s a => a.effect s) s

def actionsOf (history : List (SerialAction σ)) (owner : ℕ) : List (SerialAction σ) :=
  history.filter fun a => a.owner = owner

/-- The states are those of an order of the owners. -/
def Isolated (s : σ) (history : List (SerialAction σ)) : Prop :=
  ∃ order : List ℕ, order.Nodup ∧ (∀ a ∈ history, a.owner ∈ order) ∧ Saw s (order.flatMap (actionsOf history))

theorem leaves_snoc (s : σ) (history : List (SerialAction σ)) (a : SerialAction σ) :
    leaves s (history ++ [a]) = a.effect (leaves s history) :=
  List.foldl_concat _ _ _ _

theorem saw_snoc {s : σ} {history : List (SerialAction σ)} {a : SerialAction σ} (h : Saw s history)
    (ha : a.saw = leaves s history) : Saw s (history ++ [a]) := by
  induction history generalizing s with
  | nil => exact ⟨ha, trivial⟩
  | cons b history ih => exact ⟨h.1, ih h.2 ha⟩

theorem Saw.of_append {s : σ} {before after : List (SerialAction σ)} (h : Saw s (before ++ after)) :
    Saw (leaves s before) after := by
  induction before generalizing s with
  | nil => exact h
  | cons a before ih => exact ih h.2

theorem actionsOf_snoc_self (history : List (SerialAction σ)) (a : SerialAction σ) :
    actionsOf (history ++ [a]) a.owner = actionsOf history a.owner ++ [a] := by
  have hself : List.filter (fun b : SerialAction σ => b.owner = a.owner) [a] = [a] :=
    List.filter_cons_of_pos (decide_eq_true rfl)
  rw [actionsOf, List.filter_append, hself]
  rfl

theorem actionsOf_snoc_of_ne (history : List (SerialAction σ)) {a : SerialAction σ} {owner : ℕ}
    (h : a.owner ≠ owner) : actionsOf (history ++ [a]) owner = actionsOf history owner := by
  rw [actionsOf, List.filter_append, List.filter_cons_of_neg (by rw [decide_eq_true_eq]; exact h),
    List.filter_nil, List.append_nil]
  rfl

theorem exists_order {history : List (SerialAction σ)} (h : history.Pairwise fun a b => a.owner ≤ b.owner) :
    ∃ order : List ℕ, order.Pairwise (· < ·) ∧ (∀ owner, owner ∈ order ↔ ∃ a ∈ history, a.owner = owner) ∧
      order.flatMap (actionsOf history) = history := by
  induction history using List.reverseRecOn with
  | nil => exact ⟨[], .nil, fun _ => ⟨fun h => absurd h List.not_mem_nil, fun ⟨_, h, _⟩ =>
      absurd h List.not_mem_nil⟩, rfl⟩
  | append_singleton history a ih =>
    obtain ⟨hbefore, -, hlast⟩ := List.pairwise_append.mp h
    obtain ⟨order, hsorted, hmem, heq⟩ := ih hbefore
    have hle : ∀ owner ∈ order, owner ≤ a.owner := by
      intro owner howner
      obtain ⟨b, hb, rfl⟩ := (hmem owner).mp howner
      exact hlast b hb a (List.mem_singleton_self a)
    have hkept : ∀ owners : List ℕ, a.owner ∉ owners →
        owners.flatMap (actionsOf (history ++ [a])) = owners.flatMap (actionsOf history) := by
      intro owners hnot
      refine List.flatMap_congr fun owner howner => actionsOf_snoc_of_ne history ?_
      rintro rfl
      exact hnot howner
    by_cases hin : a.owner ∈ order
    · -- the last owner goes on
      obtain ⟨before, rest, horder⟩ := List.append_of_mem hin
      have hrest : rest = [] := by
        refine List.eq_nil_iff_forall_not_mem.mpr fun owner howner => ?_
        rw [horder, List.pairwise_append, List.pairwise_cons] at hsorted
        have hlt := hsorted.2.1.1 owner howner
        have := hle owner (horder ▸ List.mem_append_right _ (List.mem_cons_of_mem _ howner))
        omega
      subst hrest
      subst horder
      have hnot : a.owner ∉ before := by
        intro hbefore'
        have := (List.pairwise_append.mp hsorted).2.2 _ hbefore' a.owner (List.mem_singleton_self _)
        omega
      refine ⟨before ++ [a.owner], hsorted, fun owner => ?_, ?_⟩
      · rw [hmem owner]
        constructor
        · rintro ⟨b, hb, rfl⟩
          exact ⟨b, List.mem_append_left _ hb, rfl⟩
        · rintro ⟨b, hb, rfl⟩
          obtain hb | hb := List.mem_append.mp hb
          · exact ⟨b, hb, rfl⟩
          · rw [List.mem_singleton.mp hb]
            exact (hmem a.owner).mp hin
      · rw [List.flatMap_append, List.flatMap_singleton] at heq ⊢
        rw [hkept before hnot, actionsOf_snoc_self, ← List.append_assoc, heq]
    · -- a new owner begins
      have hnone : actionsOf history a.owner = [] := by
        refine List.filter_eq_nil_iff.mpr fun b hb hb' => hin ?_
        exact (hmem a.owner).mpr ⟨b, hb, of_decide_eq_true hb'⟩
      refine ⟨order ++ [a.owner], ?_, fun owner => ?_, ?_⟩
      · refine List.pairwise_append.mpr ⟨hsorted, List.pairwise_singleton _ _, fun owner howner o ho => ?_⟩
        rw [List.mem_singleton.mp ho]
        refine Nat.lt_of_le_of_ne (hle owner howner) ?_
        rintro rfl
        exact hin howner
      · rw [List.mem_append, List.mem_singleton, hmem owner]
        constructor
        · rintro (⟨b, hb, rfl⟩ | rfl)
          · exact ⟨b, List.mem_append_left _ hb, rfl⟩
          · exact ⟨a, List.mem_append_right _ (List.mem_singleton_self a), rfl⟩
        · rintro ⟨b, hb, rfl⟩
          obtain hb | hb := List.mem_append.mp hb
          · exact .inl ⟨b, hb, rfl⟩
          · exact .inr (congrArg SerialAction.owner (List.mem_singleton.mp hb))
      · rw [List.flatMap_append, List.flatMap_singleton, hkept order hin, actionsOf_snoc_self, hnone, heq]
        rfl

/-- **A history whose owners do not come back is isolated.** -/
theorem isolated_of_sorted {s : σ} {history : List (SerialAction σ)} (h : Saw s history)
    (hsorted : history.Pairwise fun a b => a.owner ≤ b.owner) : Isolated s history := by
  obtain ⟨order, horder, hmem, heq⟩ := exists_order hsorted
  refine ⟨order, horder.imp fun hlt => Nat.ne_of_lt hlt, fun a ha => (hmem a.owner).mpr ⟨a, ha, rfl⟩, ?_⟩
  rw [heq]
  exact h

end Prosperity
