import Mathlib.Data.List.Basic
import Mathlib.Order.Basic

/-!
# Passes run until nothing changes

A dataflow analysis folds a transfer function over a program and repeats the pass until the facts
stay as they are.
-/

namespace Prosperity

universe u v w

section Repetition

variable {α : Type u} [DecidableEq α] {f : α → α} {n : ℕ} {a : α}

/-- Applies `f` until it changes nothing, at most `n` times. -/
def untilStable (f : α → α) : ℕ → α → α
  | 0, a => a
  | n + 1, a => if f a = a then a else untilStable f n (f a)

/-- **The repetition ends** where every change makes the measure smaller. -/
theorem stable_untilStable {μ : α → ℕ} (hdrop : ∀ a, f a ≠ a → μ (f a) < μ a) (hn : μ a < n) :
    f (untilStable f n a) = untilStable f n a := by
  induction n generalizing a with
  | zero => exact absurd hn (Nat.not_lt_zero _)
  | succ n ih =>
    rw [untilStable]
    split
    · assumption
    · rename_i hchange
      apply ih
      have := hdrop a hchange
      omega

theorem untilStable_keeps {p : α → Prop} (hkeep : ∀ a, p a → p (f a)) (ha : p a) : p (untilStable f n a) := by
  induction n generalizing a with
  | zero => exact ha
  | succ n ih =>
    rw [untilStable]
    split
    · exact ha
    · exact ih (hkeep a ha)

end Repetition

section Pass

variable {σ : Type u} {α : Type v} {β : Type w} [PartialOrder β] {f : σ → α → σ} {g : σ → β}
  {s : σ} {l : List α}

theorem foldl_facts_le (hle : ∀ s a, g (f s a) ≤ g s) : g (l.foldl f s) ≤ g s := by
  induction l generalizing s with
  | nil => exact le_refl _
  | cons a l ih => exact le_trans ih (hle s a)

/-- **A pass that ends with the facts it began with** had them all the way. -/
theorem foldl_take_eq_of_foldl_eq (hle : ∀ s a, g (f s a) ≤ g s)
    (h : g (l.foldl f s) = g s) (k : ℕ) : g ((l.take k).foldl f s) = g s := by
  apply le_antisymm (foldl_facts_le hle)
  calc g s = g (((l.take k) ++ l.drop k).foldl f s) := by rw [List.take_append_drop, h]
    _ = g ((l.drop k).foldl f ((l.take k).foldl f s)) := by rw [List.foldl_append]
    _ ≤ g ((l.take k).foldl f s) := foldl_facts_le hle

end Pass

end Prosperity
