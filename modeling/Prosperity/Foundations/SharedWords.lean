import Mathlib.Algebra.Group.Nat.Defs
import Mathlib.Logic.Function.Basic

/-!
# Words that many lanes write

An array of words between two barriers: lanes store words or or bits into them, one after the other in some order.
Where the stores to a word agree, or are all by `or`, the order does not matter.
-/

namespace Prosperity

structure SharedWords where
  words : ℕ → ℕ
  written : ℕ → Bool

namespace SharedWords

def fresh (c : SharedWords) : SharedWords := { c with written := fun _ => false }

def store (c : SharedWords) (w v : ℕ) : SharedWords :=
  ⟨Function.update c.words w v, fun x => x = w || c.written x⟩

/-- An atomic `or`, which reads the word. -/
def orInto (c : SharedWords) (w v : ℕ) : SharedWords :=
  { c with words := Function.update c.words w (c.words w ||| v) }

def storeAll (lanes : List ℕ) (at_ v : ℕ → ℕ) (c : SharedWords) : SharedWords :=
  lanes.foldl (fun c l => c.store (at_ l) (v l)) c

def orAll (lanes : List ℕ) (at_ v : ℕ → ℕ) (c : SharedWords) : SharedWords :=
  lanes.foldl (fun c l => c.orInto (at_ l) (v l)) c

variable {c : SharedWords} {lanes : List ℕ} {at_ v : ℕ → ℕ} {x a i : ℕ}

theorem storeAll_other (h : ∀ l ∈ lanes, at_ l ≠ x) : (storeAll lanes at_ v c).words x = c.words x := by
  induction lanes generalizing c with
  | nil => rfl
  | cons l lanes ih =>
    refine (ih fun l' hl' => h l' (List.mem_cons_of_mem _ hl')).trans ?_
    exact Function.update_of_ne (Ne.symm (h l List.mem_cons_self)) _ _

/-- **The value of a word** that lanes store to, if they agree. -/
theorem storeAll_words (hagree : ∀ l ∈ lanes, at_ l = x → v l = a) (hsome : ∃ l ∈ lanes, at_ l = x) :
    (storeAll lanes at_ v c).words x = a := by
  induction lanes generalizing c with
  | nil =>
    obtain ⟨l, hl, -⟩ := hsome
    exact absurd hl List.not_mem_nil
  | cons l lanes ih =>
    have hagree' : ∀ l' ∈ lanes, at_ l' = x → v l' = a := fun l' hl' => hagree l' (List.mem_cons_of_mem _ hl')
    by_cases hlater : ∃ l' ∈ lanes, at_ l' = x
    · exact ih hagree' hlater
    · -- the last store to the word is that of the first lane
      have hnone : ∀ l' ∈ lanes, at_ l' ≠ x := fun l' hl' heq => hlater ⟨l', hl', heq⟩
      obtain ⟨l', hl', heq⟩ := hsome
      obtain rfl := (List.mem_cons.mp hl').resolve_right fun hmem => hnone l' hmem heq
      refine (storeAll_other hnone).trans ?_
      rw [← hagree l' List.mem_cons_self heq, ← heq]
      exact Function.update_self ..

theorem storeAll_written : (storeAll lanes at_ v c).written x = true ↔ c.written x = true ∨ ∃ l ∈ lanes, at_ l = x := by
  induction lanes generalizing c with
  | nil => simp [storeAll]
  | cons l lanes ih =>
    refine ih.trans ?_
    change (decide (x = at_ l) || c.written x) = true ∨ _ ↔ _
    simp only [Bool.or_eq_true, decide_eq_true_eq, List.mem_cons, exists_eq_or_imp]
    rw [or_comm (a := x = at_ l), or_assoc, eq_comm (a := x)]

theorem orAll_written : (orAll lanes at_ v c).written = c.written := by
  induction lanes generalizing c with
  | nil => rfl
  | cons l lanes ih => exact ih

/-- **The bits of a word** that lanes or into. -/
theorem orAll_testBit : ((orAll lanes at_ v c).words x).testBit i = true ↔
    (c.words x).testBit i = true ∨ ∃ l ∈ lanes, at_ l = x ∧ (v l).testBit i = true := by
  induction lanes generalizing c with
  | nil => simp [orAll]
  | cons l lanes ih =>
    refine ih.trans ?_
    by_cases hx : at_ l = x
    · have hword : (c.orInto (at_ l) (v l)).words x = c.words x ||| v l := by
        rw [← hx]
        exact Function.update_self ..
      rw [hword, Nat.testBit_or, Bool.or_eq_true]
      simp only [List.mem_cons, exists_eq_or_imp]
      simp only [hx, true_and, or_assoc]
    · have hword : (c.orInto (at_ l) (v l)).words x = c.words x := Function.update_of_ne (Ne.symm hx) _ _
      rw [hword]
      simp only [List.mem_cons, exists_eq_or_imp]
      simp only [hx, false_and, false_or]

end SharedWords

end Prosperity
