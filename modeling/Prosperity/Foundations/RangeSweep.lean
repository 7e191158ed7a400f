import Mathlib.Algebra.Order.Group.Nat
import Mathlib.Data.List.Pairwise
import Mathlib.Data.List.TakeWhile
import Mathlib.Data.List.Sort

/-!
# Sweeps over ranges

A list of ranges in the order of their starts is made into disjoint ranges by one pass that looks at the last
range of its output only: the next range is appended, joined to the last one, left out or cut where it is covered
already.
-/

namespace Prosperity

/-- From the first point to before the second. -/
abbrev Stretch : Type := ℕ × ℕ

def Stretch.Has (r : Stretch) (x : ℕ) : Prop := r.1 ≤ x ∧ x < r.2

/-- The point lies in one of the ranges. -/
def Spans (l : List Stretch) (x : ℕ) : Prop := ∃ r ∈ l, r.Has x

/-- Ranges in order, none empty, and none that begins before the one in front ends. -/
structure Laid (l : List Stretch) : Prop where
  order : l.Pairwise fun a b => a.2 ≤ b.1
  nonempty : ∀ r ∈ l, r.1 < r.2

/-- A sort. Elements that are neither below the other come in any order. -/
structure Sorter {α : Type*} (le : α → α → Prop) where
  sort : List α → List α
  perm : ∀ l, (sort l).Perm l
  sorted : ∀ l, (sort l).Pairwise le

def Sorter.insertion {α : Type*} (le : α → α → Prop) [DecidableRel le] (total : ∀ a b, le a b ∨ le b a)
    (trans : ∀ a b c, le a b → le b c → le a c) : Sorter le where
  sort l := l.insertionSort le
  perm l := List.perm_insertionSort le l
  sorted l := by
    have : Std.Total le := ⟨total⟩
    have : IsTrans α le := ⟨trans⟩
    exact List.pairwise_insertionSort le l

section Spans

variable {l m : List Stretch} {r : Stretch} {x : ℕ}

theorem spans_nil : ¬Spans [] x := by
  rintro ⟨r, hr, -⟩
  cases hr

theorem spans_append : Spans (l ++ m) x ↔ Spans l x ∨ Spans m x := by
  simp only [Spans, List.mem_append, or_and_right, exists_or]

theorem spans_cons : Spans (r :: l) x ↔ r.Has x ∨ Spans l x := by
  simp only [Spans, List.mem_cons, or_and_right, exists_or, exists_eq_left]

theorem spans_singleton : Spans [r] x ↔ r.Has x := by
  rw [spans_cons]
  exact or_iff_left spans_nil

theorem spans_perm (h : l.Perm m) : Spans l x ↔ Spans m x := by
  simp only [Spans, h.mem_iff]

end Spans

/-! ## The pass -/

/-- One turn with the range `r`: what the output becomes. -/
inductive Sweeps (r : Stretch) : List Stretch → List Stretch → Prop
  | push {out} : (∀ last ∈ out.getLast?, last.2 ≤ r.1) → Sweeps r out (out ++ [r])
  | extend {out last} : r.1 ≤ last.2 → Sweeps r (out ++ [last]) (out ++ [(last.1, max last.2 r.2)])
  | skip {out last} : r.2 ≤ last.2 → Sweeps r (out ++ [last]) (out ++ [last])
  | trim {out last} : r.1 < last.2 → last.2 < r.2 → Sweeps r (out ++ [last]) (out ++ [last, (last.2, r.2)])

/-- The output of a pass over `seen`. From the start of the last range seen it has no gap up to its end. -/
structure Swept (seen : List Stretch) (from_ : ℕ) (out : List Stretch) : Prop where
  laid : Laid out
  covers : ∀ x, Spans out x ↔ Spans seen x
  full : ∀ last ∈ out.getLast?, ∀ x, from_ ≤ x → x < last.2 → Spans out x

theorem Swept.nil : Swept [] 0 [] where
  laid := ⟨.nil, fun r hr => by cases hr⟩
  covers _ := Iff.rfl
  full last hlast := by cases hlast

section Turn

variable {seen out out' : List Stretch} {lo : ℕ} {r last : Stretch}

theorem laid_concat (h : Laid out) (hr : r.1 < r.2) (hlast : ∀ last ∈ out.getLast?, last.2 ≤ r.1) :
    Laid (out ++ [r]) where
  order := by
    refine List.pairwise_append.mpr ⟨h.order, List.pairwise_singleton _ _, fun a ha b hb => ?_⟩
    rw [List.mem_singleton.mp hb]
    rcases List.eq_nil_or_concat' out with rfl | ⟨front, last, rfl⟩
    · cases ha
    · have hend := hlast last (by simp)
      rcases List.mem_append.mp ha with ha' | ha'
      · have hbefore := (List.pairwise_append.mp h.order).2.2 a ha' last (List.mem_singleton_self _)
        have hne := h.nonempty last (List.mem_append_right _ (List.mem_singleton_self _))
        omega
      · rw [List.mem_singleton.mp ha']
        exact hend
  nonempty a ha := by
    rcases List.mem_append.mp ha with ha | ha
    · exact h.nonempty a ha
    · rw [List.mem_singleton.mp ha]
      exact hr

theorem Laid.extend (h : Laid (out ++ [last])) {stop : ℕ} (hle : last.2 ≤ stop) : Laid (out ++ [(last.1, stop)]) where
  order := by
    obtain ⟨hout, -, hcross⟩ := List.pairwise_append.mp h.order
    refine List.pairwise_append.mpr ⟨hout, List.pairwise_singleton _ _, fun a ha b hb => ?_⟩
    rw [List.mem_singleton.mp hb]
    exact hcross a ha last (List.mem_singleton_self _)
  nonempty a ha := by
    rcases List.mem_append.mp ha with ha | ha
    · exact h.nonempty a (List.mem_append_left _ ha)
    · rw [List.mem_singleton.mp ha]
      exact Nat.lt_of_lt_of_le (h.nonempty last (List.mem_append_right _ (List.mem_singleton_self _))) hle

/-- **One turn of a pass.** A range that begins no earlier than the one before it is covered behind the turn, and
nothing else is. -/
theorem Swept.turn (h : Swept seen lo out) (hlo : lo ≤ r.1) (hr : r.1 < r.2) (hturn : Sweeps r out out') :
    Swept (seen ++ [r]) r.1 out' := by
  have hseen : ∀ x, Spans (seen ++ [r]) x ↔ Spans out x ∨ r.Has x := fun x => by
    rw [spans_append, spans_singleton, h.covers]
  cases hturn with
  | push hlast =>
    refine ⟨laid_concat h.laid hr hlast, fun x => ?_, fun last hmem x hle hlt => ?_⟩
    · rw [hseen, spans_append, spans_singleton]
    · rw [List.getLast?_concat, Option.mem_some_iff] at hmem
      subst hmem
      exact spans_append.mpr (.inr (spans_singleton.mpr ⟨hle, hlt⟩))
  | @extend out last hmeet =>
    have hfull := h.full last (by simp)
    have hcovers : ∀ x, Spans (out ++ [(last.1, max last.2 r.2)]) x ↔ Spans (seen ++ [r]) x := fun x => by
      have hne := h.laid.nonempty last (List.mem_append_right _ (List.mem_singleton_self _))
      have hfull := hfull x
      rw [hseen]
      simp only [spans_append, spans_singleton, Stretch.Has] at hfull ⊢
      constructor
      · rintro (hout | ⟨hle, hlt⟩)
        · exact .inl (.inl hout)
        · by_cases hin : x < last.2
          · exact .inl (.inr ⟨hle, hin⟩)
          · exact .inr ⟨by omega, by omega⟩
      · rintro ((hout | hlast) | hr')
        · exact .inl hout
        · exact .inr ⟨hlast.1, by omega⟩
        · by_cases hin : x < last.2
          · exact (hfull (by omega) hin).imp_right fun hlast => ⟨hlast.1, by omega⟩
          · exact .inr ⟨by omega, by omega⟩
    refine ⟨h.laid.extend (Nat.le_max_left _ _), hcovers, fun end' hmem x hle hlt => ?_⟩
    rw [List.getLast?_concat, Option.mem_some_iff] at hmem
    subst hmem
    rw [hcovers, hseen]
    by_cases hin : x < last.2
    · exact .inl (hfull x (by omega) hin)
    · exact .inr ⟨hle, by dsimp only at hlt; omega⟩
  | @skip out last hinside =>
    have hfull := h.full last (by simp)
    refine ⟨h.laid, fun x => ?_, fun end' hmem x hle hlt => ?_⟩
    · rw [hseen]
      exact ⟨.inl, fun hx => hx.elim id fun hx => hfull x (by have := hx.1; omega) (by have := hx.2; omega)⟩
    · rw [List.getLast?_concat, Option.mem_some_iff] at hmem
      subst hmem
      exact hfull x (by omega) hlt
  | @trim out last hstart hstop =>
    have hfull := h.full last (by simp)
    have heq : out ++ [last, (last.2, r.2)] = (out ++ [last]) ++ [(last.2, r.2)] := by simp
    have hcovers : ∀ x, Spans ((out ++ [last]) ++ [(last.2, r.2)]) x ↔ Spans (seen ++ [r]) x := fun x => by
      rw [hseen, spans_append, spans_singleton]
      constructor
      · rintro (hout | ⟨hle, hlt⟩)
        · exact .inl hout
        · exact .inr ⟨by dsimp only at hle; omega, hlt⟩
      · rintro (hout | ⟨hle, hlt⟩)
        · exact .inl hout
        · by_cases hin : x < last.2
          · exact .inl (hfull x (by omega) hin)
          · exact .inr ⟨Nat.not_lt.mp hin, hlt⟩
    rw [heq]
    refine ⟨laid_concat h.laid hstop fun a ha => ?_, hcovers, fun end' hmem x hle hlt => ?_⟩
    · rw [List.getLast?_concat, Option.mem_some_iff] at ha
      rw [← ha]
    · rw [List.getLast?_concat, Option.mem_some_iff] at hmem
      subst hmem
      rw [hcovers, hseen]
      exact .inr ⟨hle, hlt⟩

end Turn

/-- **A whole pass** over ranges in the order of their starts. `lay` is its turn, on outputs of any kind. -/
theorem Swept.run {α β : Type*} (range : α → Stretch) (ranges : β → List Stretch) (lay : β → α → β)
    (hlay : ∀ out a, (range a).1 < (range a).2 → Sweeps (range a) (ranges out) (ranges (lay out a)))
    (l : List α) (hsorted : l.Pairwise fun a b => (range a).1 ≤ (range b).1)
    (hne : ∀ a ∈ l, (range a).1 < (range a).2) {seen : List Stretch} {lo : ℕ} {out : β}
    (h : Swept seen lo (ranges out)) (hlo : ∀ a ∈ l, lo ≤ (range a).1) :
    ∃ lo', Swept (seen ++ l.map range) lo' (ranges (l.foldl lay out)) := by
  induction l generalizing seen lo out with
  | nil => exact ⟨lo, by simpa using h⟩
  | cons a l ih =>
    obtain ⟨hfirst, hrest⟩ := List.pairwise_cons.mp hsorted
    have hturn := h.turn (hlo a List.mem_cons_self) (hne a List.mem_cons_self)
      (hlay out a (hne a List.mem_cons_self))
    obtain ⟨lo', hswept⟩ := ih hrest (fun b hb => hne b (List.mem_cons_of_mem _ hb)) hturn hfirst
    exact ⟨lo', by simpa using hswept⟩

/-! ## The search -/

/-- Whether laid ranges meet `[first, stop)`: the last range that begins at `first` or before, and the next one. -/
def overlaps (set : List Stretch) (first stop : ℕ) : Bool :=
  ((set.takeWhile (·.1 ≤ first)).getLast?.any fun r => r.2 > first) ||
    ((set.dropWhile (·.1 ≤ first)).head?.any fun r => r.1 < stop)

theorem Laid.append {l m : List Stretch} (h : Laid (l ++ m)) : Laid l ∧ Laid m :=
  ⟨⟨(List.pairwise_append.mp h.order).1, fun r hr => h.nonempty r (List.mem_append_left _ hr)⟩,
    ⟨(List.pairwise_append.mp h.order).2.1, fun r hr => h.nonempty r (List.mem_append_right _ hr)⟩⟩

/-- **The search** finds whether some point of an interval is covered. -/
theorem overlaps_iff {set : List Stretch} (h : Laid set) {first stop : ℕ} (hlt : first < stop) :
    overlaps set first stop = true ↔ ∃ x, first ≤ x ∧ x < stop ∧ Spans set x := by
  have hsplit := List.takeWhile_append_dropWhile (p := fun r : Stretch => decide (r.1 ≤ first)) (l := set)
  have hbefore : ∀ r ∈ set.takeWhile (·.1 ≤ first), r.1 ≤ first := fun r hr => by
    simpa using List.mem_takeWhile_imp hr
  have hlaid := h
  rw [← hsplit] at hlaid
  obtain ⟨hfront, hback⟩ := hlaid.append
  have hcovers : ∀ x, Spans set x ↔
      Spans (set.takeWhile (·.1 ≤ first)) x ∨ Spans (set.dropWhile (·.1 ≤ first)) x := fun x => by
    rw [← spans_append, hsplit]
  -- of the ranges in front only the last can reach over `first`, and there it covers `first`
  have hlast : ((set.takeWhile (·.1 ≤ first)).getLast?.any fun r => r.2 > first) = true ↔
      ∃ x, first ≤ x ∧ x < stop ∧ Spans (set.takeWhile (·.1 ≤ first)) x := by
    generalize set.takeWhile (·.1 ≤ first) = front at hbefore hfront ⊢
    rcases List.eq_nil_or_concat' front with rfl | ⟨front, last, rfl⟩
    · simp [spans_nil]
    · rw [List.getLast?_concat, Option.any_some, decide_eq_true_eq]
      constructor
      · intro hover
        exact ⟨first, Nat.le_refl _, hlt, last, List.mem_append_right _ (List.mem_singleton_self _),
          hbefore last (List.mem_append_right _ (List.mem_singleton_self _)), hover⟩
      · rintro ⟨x, hle, -, r, hr, -, hx⟩
        rcases List.mem_append.mp hr with hr' | hr'
        · have hend := (List.pairwise_append.mp hfront.order).2.2 r hr' last (List.mem_singleton_self _)
          have hstart := hbefore last (List.mem_append_right _ (List.mem_singleton_self _))
          omega
        · rw [← List.mem_singleton.mp hr']
          omega
  -- of those behind only the first can begin before `stop`
  have hnext : ((set.dropWhile (·.1 ≤ first)).head?.any fun r => r.1 < stop) = true ↔
      ∃ x, first ≤ x ∧ x < stop ∧ Spans (set.dropWhile (·.1 ≤ first)) x := by
    have hafter : ∀ r ∈ (set.dropWhile (·.1 ≤ first)).head?, first < r.1 := fun r hr => by
      have hnot := List.head?_dropWhile_not (p := fun r : Stretch => decide (r.1 ≤ first)) (l := set)
      rw [Option.mem_def] at hr
      rw [hr] at hnot
      simpa using hnot
    generalize set.dropWhile (·.1 ≤ first) = back at hafter hback ⊢
    cases back with
    | nil => simp [spans_nil]
    | cons next back =>
      have hstart := hafter next rfl
      rw [List.head?_cons, Option.any_some, decide_eq_true_eq]
      constructor
      · intro hin
        exact ⟨next.1, by omega, hin, next, List.mem_cons_self, Nat.le_refl _, hback.nonempty next List.mem_cons_self⟩
      · rintro ⟨x, -, hx, r, hr, hle, -⟩
        rcases List.mem_cons.mp hr with rfl | hr
        · omega
        · have hend := (List.pairwise_cons.mp hback.order).1 r hr
          have hne := hback.nonempty next List.mem_cons_self
          omega
  rw [overlaps, Bool.or_eq_true, hlast, hnext]
  simp only [hcovers, ← exists_or, and_or_left]

end Prosperity
