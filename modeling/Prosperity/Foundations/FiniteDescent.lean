import Mathlib.Data.Fintype.Card
import Mathlib.Data.Set.Finite.List
import Mathlib.Logic.Relation

/-!
# Descents in finite graphs

A recursion along the edges of a graph ends exactly if no descent from its root is infinite. Where the vertices are
finite in number, the descents are finite unless the root reaches a vertex that reaches itself.
-/

namespace Prosperity

open Relation

universe u

variable {α : Type u} {r : α → α → Prop} {a b : α}

/-- A vertex on a cycle can be reached. -/
def Looped (r : α → α → Prop) (a : α) : Prop := ∃ b, ReflTransGen r a b ∧ TransGen r b b

/-- Every descent has fewer than `n` vertices. -/
def Descends (r : α → α → Prop) : ℕ → α → Prop
  | 0, _ => False
  | n + 1, a => ∀ b, r a b → Descends r n b

theorem Descends.succ {n : ℕ} (h : Descends r n a) : Descends r (n + 1) a := by
  induction n generalizing a with
  | zero => exact h.elim
  | succ n ih => exact fun b hb => ih (h b hb)

theorem Descends.mono {n k : ℕ} (hle : n ≤ k) (h : Descends r n a) : Descends r k a := by
  induction hle with
  | refl => exact h
  | step _ ih => exact ih.succ

theorem Descends.of_transGen {n : ℕ} (h : Descends r (n + 1) a) (hab : TransGen r a b) : Descends r n b := by
  induction hab with
  | single hb => exact h _ hb
  | tail _ hb ih =>
    cases n with
    | zero => exact ih.elim
    | succ n => exact (ih _ hb).succ

theorem Descends.not_looped {n : ℕ} (h : Descends r n a) : ¬Looped r a := by
  rintro ⟨b, hab, hbb⟩
  obtain ⟨k, hk⟩ : ∃ k, Descends r k b := by
    rcases reflTransGen_iff_eq_or_transGen.mp hab with rfl | hab
    · exact ⟨n, h⟩
    · exact ⟨n, h.succ.of_transGen hab⟩
  induction k with
  | zero => exact hk
  | succ k ih => exact ih (hk.of_transGen hbb)

theorem exists_descends_of_acc (hfin : ∀ a, {b | r a b}.Finite) (h : Acc (fun b a => r a b) a) :
    ∃ n, Descends r n a := by
  induction h with
  | intro a _ ih =>
    choose! f hf using ih
    obtain ⟨n, hn⟩ := ((hfin a).image f).bddAbove
    exact ⟨n + 1, fun b hb => (hf b hb).mono (hn (Set.mem_image_of_mem f hb))⟩

theorem acc_of_not_looped (hfin : {b | ReflTransGen r a b}.Finite) (h : ¬Looped r a) : Acc (fun b a => r a b) a := by
  let s := {b // ReflTransGen r a b}
  have : Finite s := hfin
  let t : s → s → Prop := fun y x => TransGen r x.1 y.1
  have htrans : IsTrans s t := ⟨fun _ _ _ hxy hyz => hyz.trans hxy⟩
  have hirrefl : Std.Irrefl t := ⟨fun x hx => h ⟨x.1, x.2, hx⟩⟩
  have hwf : WellFounded t := Finite.wellFounded_of_trans_of_irrefl t
  have hacc : ∀ x : s, Acc (fun b a => r a b) x.1 := fun x => by
    induction x using hwf.induction with
    | h x ih => exact ⟨_, fun y hy => ih ⟨y, x.2.tail hy⟩ (TransGen.single hy)⟩
  exact hacc ⟨a, ReflTransGen.refl⟩

/-- **When descents are bounded.** -/
theorem exists_descends_iff (hfin : ∀ a, {b | r a b}.Finite) (hreach : {b | ReflTransGen r a b}.Finite) :
    (∃ n, Descends r n a) ↔ ¬Looped r a :=
  ⟨fun ⟨_, h⟩ => h.not_looped, fun h => exists_descends_of_acc hfin (acc_of_not_looped hreach h)⟩

theorem exists_bound {β γ : Type} [Finite β] [Finite γ] (f : γ → List β → ℕ) :
    ∃ bound : ℕ → ℕ, ∀ c l, f c l ≤ bound l.length := by
  have hbound : ∀ n, ∃ k, ∀ c, ∀ l : List β, l.length = n → f c l ≤ k := fun n => by
    obtain ⟨k, hk⟩ := ((Set.finite_univ.prod (List.finite_length_eq β n)).image fun x : γ × List β => f x.1 x.2).bddAbove
    exact ⟨k, fun c l hl => hk ⟨(c, l), ⟨Set.mem_univ c, hl⟩, rfl⟩⟩
  choose bound hbound using hbound
  exact ⟨bound, fun c l => hbound l.length c l rfl⟩

end Prosperity
