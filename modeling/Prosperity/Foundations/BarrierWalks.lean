import Mathlib.Data.List.Basic

/-!
# Walks that place barriers

A walk over the items of a list keeps a state, and says of each item whether a barrier comes with it. If what an
item leaves in the state is kept until a barrier comes, and makes a later item ask for one, a barrier lies between
the two, behind the first and not behind the second.

Where the barriers are items of their own, a list is synchronised if no item finds a state that makes it ask.
-/

namespace Prosperity.BarrierWalk

variable {α σ : Type} (step : σ → α → σ × Bool)

def stateAfter (s : σ) (items : List α) : σ := items.foldl (fun s a => (step s a).1) s

/-- A barrier comes with the item at `k`. -/
def BarrierAt (s : σ) (items : List α) (k : ℕ) : Prop :=
  ∃ a, items[k]? = some a ∧ (step (stateAfter step s (items.take k)) a).2 = true

variable {step} {s : σ} {items : List α} {a b : α} {i j k : ℕ} {R : σ → Prop}

theorem stateAfter_succ (h : items[k]? = some a) :
    stateAfter step s (items.take (k + 1)) = (step (stateAfter step s (items.take k)) a).1 := by
  rw [List.take_add_one, h]
  exact List.foldl_concat _ _ _ _

/-- **A barrier lies between two items**: `R` is what the first leaves, which is kept until there is a barrier. -/
theorem exists_barrier (hij : i < j) (ha : items[i]? = some a) (hb : items[j]? = some b)
    (hleft : R (step (stateAfter step s (items.take i)) a).1)
    (hkeep : ∀ s a, R s → (step s a).2 = false → R (step s a).1) (hneed : ∀ s, R s → (step s b).2 = true) :
    ∃ k, i < k ∧ k ≤ j ∧ BarrierAt step s items k := by
  have hlen : j < items.length := (List.getElem?_eq_some_iff.mp hb).1
  -- up to an item there was a barrier, or what the first left is still there
  have hupto : ∀ m, i < m → m ≤ j → (∃ k, i < k ∧ k < m ∧ BarrierAt step s items k) ∨
      R (stateAfter step s (items.take m)) := by
    intro m him hmj
    induction m with
    | zero => exact absurd him (Nat.not_lt_zero i)
    | succ m ih =>
      have hm : items[m]? = some items[m] := List.getElem?_eq_getElem (by omega)
      rw [stateAfter_succ hm]
      rcases Nat.lt_or_eq_of_le (Nat.le_of_lt_succ him) with hlt | rfl
      · rcases ih hlt (Nat.le_of_succ_le hmj) with ⟨k, hik, hkm, hbar⟩ | hR
        · exact .inl ⟨k, hik, Nat.lt_succ_of_lt hkm, hbar⟩
        · by_cases hbar : (step (stateAfter step s (items.take m)) items[m]).2 = true
          · exact .inl ⟨m, hlt, Nat.lt_succ_self m, items[m], hm, hbar⟩
          · exact .inr (hkeep _ _ hR (Bool.eq_false_iff.mpr hbar))
      · obtain rfl := Option.some.inj (hm.symm.trans ha)
        exact .inr hleft
  rcases hupto j hij (Nat.le_refl j) with ⟨k, hik, hkj, hbar⟩ | hR
  · exact ⟨k, hik, Nat.le_of_lt hkj, hbar⟩
  · exact ⟨j, hij, Nat.le_refl j, b, hb, hneed _ hR⟩

/-! ## Barriers as items -/

section Synced

variable (next : σ → α → σ) (asks : σ → α → Prop)

/-- No item asks for a barrier. -/
def Synced : σ → List α → Prop
  | _, [] => True
  | s, a :: items => ¬asks s a ∧ Synced (next s a) items

variable {next asks} {bar : α → Prop} {before mid behind : List α}

theorem synced_append {items' : List α} :
    Synced next asks s (items ++ items') ↔ Synced next asks s items ∧ Synced next asks (items.foldl next s) items' := by
  induction items generalizing s with
  | nil => exact ⟨fun h => ⟨trivial, h⟩, fun h => h.2⟩
  | cons a items ih => exact (and_congr_right fun _ => ih).trans and_assoc.symm

theorem foldl_keeps (hkeep : ∀ s c, R s → ¬bar c → R (next s c)) (hR : R s) (hnone : ∀ c ∈ mid, ¬bar c) :
    R (mid.foldl next s) := by
  induction mid generalizing s with
  | nil => exact hR
  | cons c mid ih =>
    exact ih (hkeep s c hR (hnone c List.mem_cons_self)) fun d hd => hnone d (List.mem_cons_of_mem _ hd)

/-- **A barrier is an item between two items** of a synchronised list. -/
theorem Synced.exists_barrier (h : Synced next asks s (before ++ a :: (mid ++ b :: behind)))
    (hleft : ∀ s, R (next s a)) (hkeep : ∀ s c, R s → ¬bar c → R (next s c)) (hneed : ∀ s, R s → asks s b) :
    ∃ c ∈ mid, bar c := by
  by_contra hnone
  push Not at hnone
  obtain ⟨-, -, hmid⟩ := synced_append.mp h
  obtain ⟨-, hask, -⟩ := synced_append.mp hmid
  exact hask (hneed _ (foldl_keeps hkeep (hleft _) hnone))

end Synced

end Prosperity.BarrierWalk
