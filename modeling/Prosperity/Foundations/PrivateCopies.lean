import Mathlib.Data.List.Basic

/-!
# Private copies of a shared memory

A memory that several owners load from and store to, against one where each owner has a copy of
its own. The histories have the most recent access first.
-/

namespace Prosperity

universe u v w

variable {α : Type u} {β : Type v} {γ : Type w} [DecidableEq α] [DecidableEq β]

/-- An access to the memory: `stored` is `none` for a load. -/
structure Access (α : Type u) (β : Type v) (γ : Type w) where
  owner : α
  address : β
  stored : Option γ

def lastStored (a : β) : List (Access α β γ) → Option γ
  | [] => none
  | x :: history =>
    if x.address = a ∧ x.stored.isSome then x.stored else lastStored a history

def lastStoredBy (o : α) (a : β) : List (Access α β γ) → Option γ
  | [] => none
  | x :: history =>
    if x.owner = o ∧ x.address = a ∧ x.stored.isSome then x.stored else lastStoredBy o a history

theorem lastStored_eq_of_owner {o : α} {a : β} {history : List (Access α β γ)}
    (hown : ∀ x ∈ history, x.address = a → x.owner = o) : lastStored a history = lastStoredBy o a history := by
  induction history with
  | nil => rfl
  | cons x history ih =>
    have ih := ih fun y hy => hown y (List.mem_cons_of_mem x hy)
    rw [lastStored, lastStoredBy]
    by_cases ha : x.address = a
    · have ho := hown x List.mem_cons_self ha
      simp only [ha, ho, true_and, ih]
    · simp only [ha, false_and, and_false, if_false, ih]

/-- **Private copies are as good as the shared memory** for accesses that no two owners make to
the same address. -/
theorem lastStored_eq_lastStoredBy {history : List (Access α β γ)}
    (happart : ∀ x ∈ history, ∀ y ∈ history, x.address = y.address → x.owner = y.owner)
    {before after : List (Access α β γ)} {x : Access α β γ} (hx : history = after ++ x :: before) :
    lastStored x.address before = lastStoredBy x.owner x.address before := by
  apply lastStored_eq_of_owner
  intro y hy ha
  subst hx
  exact happart y (by simp [hy]) x (by simp) ha

end Prosperity
