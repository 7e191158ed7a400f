import Mathlib.Data.List.Basic

/-!
# Worklists

A worklist marks what can be reached from a start: it takes an element, marks it unless it is
marked, and puts its successors on the list. An element whose successors are not known marks
everything and ends the search.
-/

namespace Prosperity

/-- Marks everything reachable from the list among the numbers below the length of `marks`.
Successors that are `none` are not known. -/
def explore (succ : ℕ → Option (List ℕ)) (marks : List Bool) : List ℕ → List Bool
  | [] => marks
  | b :: rest =>
    if _h : marks[b]? = some false then
      match succ b with
      | none => List.replicate marks.length true
      | some next => explore succ (marks.set b true) (next ++ rest)
    else explore succ marks rest
  termination_by work => (marks.count false, work.length)
  decreasing_by
  · apply Prod.Lex.left
    obtain ⟨hlt, hb⟩ := List.getElem?_eq_some_iff.mp _h
    have hpos : 0 < marks.count false := List.count_pos_iff.mpr (hb ▸ List.getElem_mem hlt)
    rw [List.count_set hlt, hb]
    simp only [beq_self_eq_true, if_true]
    exact Nat.sub_lt hpos Nat.one_pos
  · exact Prod.Lex.right _ (Nat.lt_succ_self _)

def Marked (marks : List Bool) (b : ℕ) : Prop := marks[b]? = some true

def MarksClosed (succ : ℕ → Option (List ℕ)) (marks : List Bool) : Prop :=
  ∀ b, Marked marks b → (∀ next, succ b = some next → ∀ s ∈ next, s < marks.length → Marked marks s) ∧
      (succ b = none → ∀ s < marks.length, Marked marks s)

section Explore

variable {succ : ℕ → Option (List ℕ)} {marks : List Bool} {work : List ℕ}

theorem marked_replicate {n b : ℕ} (h : b < n) : Marked (List.replicate n true) b := by
  simp [Marked, h]

theorem Marked.set {b c : ℕ} (h : Marked marks b) : Marked (marks.set c true) b := by
  unfold Marked at h ⊢
  rw [List.getElem?_set]
  split
  · rw [if_pos]
    subst b
    exact (List.getElem?_eq_some_iff.mp h).1
  · exact h

@[simp] theorem length_explore : (explore succ marks work).length = marks.length := by
  induction marks, work using explore.induct succ with
  | case1 => rw [explore]
  | case2 marks b rest h hnone => rw [explore, dif_pos h, hnone, List.length_replicate]
  | case3 marks b rest h next hsome ih => rw [explore, dif_pos h, hsome, ih, List.length_set]
  | case4 marks b rest h ih => rw [explore, dif_neg h, ih]

/-- **Nothing on the list is left out**, and no mark is taken back. -/
theorem marked_explore {b : ℕ} (h : Marked marks b ∨ b ∈ work ∧ b < marks.length) :
    Marked (explore succ marks work) b := by
  induction marks, work using explore.induct succ with
  | case1 marks =>
    rw [explore]
    rcases h with h | ⟨h, -⟩
    · exact h
    · cases h
  | case2 marks c rest hc hnone =>
    rw [explore, dif_pos hc, hnone]
    apply marked_replicate
    rcases h with h | ⟨-, h⟩
    · exact (List.getElem?_eq_some_iff.mp h).1
    · exact h
  | case3 marks c rest hc next hsome ih =>
    rw [explore, dif_pos hc, hsome]
    apply ih
    rcases h with h | ⟨h, hlt⟩
    · exact .inl h.set
    · rcases List.mem_cons.mp h with rfl | h
      · refine .inl ?_
        rw [Marked, List.getElem?_set_self hlt]
      · exact .inr ⟨List.mem_append_right _ h, by rwa [List.length_set]⟩
  | case4 marks c rest hc ih =>
    rw [explore, dif_neg hc]
    apply ih
    rcases h with h | ⟨h, hlt⟩
    · exact .inl h
    · rcases List.mem_cons.mp h with rfl | h
      · -- in range and not unmarked, so marked
        refine .inl ?_
        rw [List.getElem?_eq_getElem hlt, Option.some.injEq, Bool.not_eq_false] at hc
        rw [Marked, List.getElem?_eq_getElem hlt, hc]
      · exact .inr ⟨h, hlt⟩

def ClosedBut (succ : ℕ → Option (List ℕ)) (marks : List Bool) (work : List ℕ) : Prop :=
  ∀ b, Marked marks b → ∃ next, succ b = some next ∧ ∀ s ∈ next, s < marks.length → Marked marks s ∨ s ∈ work

theorem marksClosed_of_closedBut (h : ClosedBut succ marks []) : MarksClosed succ marks := by
  intro b hb
  obtain ⟨next, hnext, hall⟩ := h b hb
  refine ⟨fun next' hnext' s hs hlt => ?_, fun hnone => ?_⟩
  · obtain rfl := Option.some.inj (hnext.symm.trans hnext')
    exact (hall s hs hlt).resolve_right List.not_mem_nil
  · rw [hnext] at hnone
    cases hnone

/-- **The search ends with closed marks.** -/
theorem marksClosed_explore (h : ClosedBut succ marks work) : MarksClosed succ (explore succ marks work) := by
  induction marks, work using explore.induct succ with
  | case1 marks =>
    rw [explore]
    exact marksClosed_of_closedBut h
  | case2 marks c rest hc hnone =>
    rw [explore, dif_pos hc, hnone]
    have hall : ∀ s < (List.replicate marks.length true).length,
        Marked (List.replicate marks.length true) s := fun s hs => by
      rw [List.length_replicate] at hs
      exact marked_replicate hs
    exact fun b _ => ⟨fun _ _ s _ => hall s, fun _ => hall⟩
  | case3 marks c rest hc next hsome ih =>
    rw [explore, dif_pos hc, hsome]
    refine ih fun b hb => ?_
    by_cases hbc : b = c
    · -- the element just marked has its successors on the list
      subst hbc
      exact ⟨next, hsome, fun s hs _ => .inr (List.mem_append_left _ hs)⟩
    · have hold : Marked marks b := by
        rwa [Marked, List.getElem?_set_ne (Ne.symm hbc)] at hb
      obtain ⟨next', hnext', hall⟩ := h b hold
      refine ⟨next', hnext', fun s hs hlt => ?_⟩
      rw [List.length_set] at hlt
      rcases hall s hs hlt with hs | hs
      · exact .inl hs.set
      · rcases List.mem_cons.mp hs with rfl | hs
        · refine .inl ?_
          rw [Marked, List.getElem?_set_self hlt]
        · exact .inr (List.mem_append_right _ hs)
  | case4 marks c rest hc ih =>
    rw [explore, dif_neg hc]
    refine ih fun b hb => ?_
    obtain ⟨next, hnext, hall⟩ := h b hb
    refine ⟨next, hnext, fun s hs hlt => ?_⟩
    rcases hall s hs hlt with hs | hs
    · exact .inl hs
    · rcases List.mem_cons.mp hs with rfl | hs
      · rw [List.getElem?_eq_getElem hlt, Option.some.injEq, Bool.not_eq_false] at hc
        refine .inl ?_
        rw [Marked, List.getElem?_eq_getElem hlt, hc]
      · exact .inr hs

end Explore

end Prosperity
