import Mathlib.Data.List.Basic
import Mathlib.Data.List.TakeWhile
import Mathlib.Order.Basic
import Mathlib.Tactic.Common

/-!
# Run maps of the write tracker

A run map is an ordered map from the first page of a run to the page after its last one. It is
modelled by the list of its entries in key order, and an iterator by the entries before it and the
entries from it on. Addresses are page numbers here: every key and value of the source is a
multiple of the page size.
-/

namespace Prosperity.Gpu

/-- A range of pages `[first, end)`. -/
abbrev Range : Type := ℕ × ℕ

def Covers (runs : List Range) (page : ℕ) : Prop := ∃ r ∈ runs, r.1 ≤ page ∧ page < r.2

instance (runs : List Range) (page : ℕ) : Decidable (Covers runs page) :=
  inferInstanceAs (Decidable (∃ r ∈ runs, r.1 ≤ page ∧ page < r.2))

@[simp] theorem not_covers_nil (page : ℕ) : ¬Covers [] page := by simp [Covers]

@[simp] theorem covers_cons {r : Range} {runs : List Range} {page : ℕ} :
    Covers (r :: runs) page ↔ (r.1 ≤ page ∧ page < r.2) ∨ Covers runs page := by
  simp [Covers]

@[simp] theorem covers_append {runs rest : List Range} {page : ℕ} :
    Covers (runs ++ rest) page ↔ Covers runs page ∨ Covers rest page := by
  simp [Covers, or_and_right, exists_or]

def Coalesced (runs : List Range) : Prop :=
  (∀ r ∈ runs, r.1 < r.2) ∧ runs.Pairwise fun r r' => r.2 < r'.1

theorem coalesced_nil : Coalesced [] := by simp [Coalesced]

theorem coalesced_cons {r : Range} {runs : List Range} :
    Coalesced (r :: runs) ↔ r.1 < r.2 ∧ (∀ r' ∈ runs, r.2 < r'.1) ∧ Coalesced runs := by
  simp only [Coalesced, List.mem_cons, forall_eq_or_imp, List.pairwise_cons]
  tauto

theorem coalesced_append {runs rest : List Range} : Coalesced (runs ++ rest) ↔
      Coalesced runs ∧ Coalesced rest ∧ ∀ r ∈ runs, ∀ r' ∈ rest, r.2 < r'.1 := by
  simp only [Coalesced, List.mem_append, List.pairwise_append]
  constructor
  · rintro ⟨hne, hl, hr, hlr⟩
    exact ⟨⟨fun r h => hne r (.inl h), hl⟩, ⟨fun r h => hne r (.inr h), hr⟩, hlr⟩
  · rintro ⟨⟨hne, hl⟩, ⟨hne', hr⟩, hlr⟩
    exact ⟨fun r h => h.elim (hne r) (hne' r), hl, hr, hlr⟩

/-! ### Iterators -/

/-- `upper_bound(first)`, then `--it` where the entry before it passes the test: the entries
before the iterator, and those from it on. -/
def seek (keep : Range → Bool) (runs : List Range) (first : ℕ) : List Range × List Range :=
  let before := runs.takeWhile fun r => r.1 ≤ first
  let rest := runs.dropWhile fun r => r.1 ≤ first
  match before.getLast? with
  | some r => if keep r then (before.dropLast, r :: rest) else (before, rest)
  | none => (before, rest)

theorem first_lt_of_mem_dropWhile {runs : List Range} (h : Coalesced runs) {first : ℕ} {r : Range}
    (hr : r ∈ runs.dropWhile fun r => r.1 ≤ first) : first < r.1 := by
  induction runs with
  | nil => simp at hr
  | cons x xs ih =>
    obtain ⟨hx, hgap, hxs⟩ := coalesced_cons.mp h
    by_cases hle : x.1 ≤ first
    · rw [List.dropWhile_cons_of_pos (by simpa using hle)] at hr
      exact ih hxs hr
    · rw [List.dropWhile_cons_of_neg (by simpa using hle)] at hr
      rcases List.mem_cons.mp hr with rfl | hr
      · omega
      · have := hgap r hr
        omega

theorem seek_spec (keep : Range → Bool) {runs : List Range} (h : Coalesced runs) (first : ℕ) :
    (seek keep runs first).1 ++ (seek keep runs first).2 = runs ∧
      (∀ r ∈ (seek keep runs first).1, r.2 < first ∨ keep r = false) ∧
      ∀ r ∈ (seek keep runs first).2, first < r.1 ∨ keep r = true := by
  have happ : (runs.takeWhile fun r => r.1 ≤ first) ++ (runs.dropWhile fun r => r.1 ≤ first) = runs :=
    List.takeWhile_append_dropWhile
  have hrest : ∀ r ∈ runs.dropWhile fun r => r.1 ≤ first, first < r.1 := fun r =>
    first_lt_of_mem_dropWhile h
  have hkey : ∀ r ∈ runs.takeWhile (fun r => r.1 ≤ first), r.1 ≤ first := fun r hr => by
    simpa using List.mem_takeWhile_imp hr
  simp only [seek]
  cases hlast : (runs.takeWhile fun r => r.1 ≤ first).getLast? with
  | none =>
    rw [List.getLast?_eq_none_iff] at hlast
    rw [hlast] at happ ⊢
    exact ⟨happ, by simp, fun r hr => .inl (hrest r hr)⟩
  | some r =>
    have hinit := List.dropLast_append_getLast? r (Option.mem_def.mpr hlast)
    rw [← hinit] at hkey happ
    -- the entries before the last one end before its key
    have hbefore : ∀ x ∈ (runs.takeWhile fun r => r.1 ≤ first).dropLast, x.2 < first := by
      intro x hx
      have hco := happ ▸ h
      rw [coalesced_append, coalesced_append] at hco
      have := hco.1.2.2 x hx r (List.mem_singleton_self r)
      have := hkey r (by simp)
      omega
    by_cases hk : keep r = true
    · dsimp only
      rw [if_pos hk]
      refine ⟨by simpa using happ, fun x hx => .inl (hbefore x hx), fun x hx => ?_⟩
      rcases List.mem_cons.mp hx with rfl | hx
      · exact .inr hk
      · exact .inl (hrest x hx)
    · dsimp only
      rw [if_neg hk]
      refine ⟨hinit ▸ happ, fun x hx => ?_, fun x hx => .inl (hrest x hx)⟩
      rw [← hinit] at hx
      rcases List.mem_append.mp hx with hx | hx
      · exact .inl (hbefore x hx)
      · rw [List.mem_singleton.mp hx]
        exact .inr (by simpa using hk)

/-! ### `InsertRun` -/

/-- The loop of `InsertRun` from the iterator on: the run grown by those it meets, `added` less
what they had covered, and the entries left. -/
def absorb : List Range → ℕ → ℕ → ℕ → Range × ℕ × List Range
  | [], first, end_, added => ((first, end_), added, [])
  | r :: rest, first, end_, added =>
    if r.1 ≤ end_ then
      let lo := max first r.1
      let hi := min end_ r.2
      absorb rest (min first r.1) (max end_ r.2) (if hi > lo then added - (hi - lo) else added)
    else ((first, end_), added, r :: rest)

/-- `InsertRun`: the map with `[first, end_)` added, and how much of it was new. -/
def insertRun (runs : List Range) (first end_ : ℕ) : List Range × ℕ :=
  let (before, rest) := seek (fun r => r.2 ≥ first) runs first
  let (run, added, rest) := absorb rest first end_ (end_ - first)
  (before ++ run :: rest, added)

theorem absorb_spec {rest : List Range} (h : Coalesced rest) {first end_ : ℕ} (hne : first < end_)
    (hends : ∀ r ∈ rest, first ≤ r.2) (added : ℕ) :
    Coalesced ((absorb rest first end_ added).1 :: (absorb rest first end_ added).2.2) ∧
      (∀ page, Covers ((absorb rest first end_ added).1 :: (absorb rest first end_ added).2.2) page ↔
        (first ≤ page ∧ page < end_) ∨ Covers rest page) ∧
      ∀ before : ℕ, before < first → (∀ r ∈ rest, before < r.1) → before < (absorb rest first end_ added).1.1 ∧
          ∀ r ∈ (absorb rest first end_ added).2.2, before < r.1 := by
  induction rest generalizing first end_ added with
  | nil =>
    refine ⟨?_, fun page => by simp [absorb], fun before hb _ => ⟨hb, by simp [absorb]⟩⟩
    exact coalesced_cons.mpr ⟨hne, by simp [absorb], coalesced_nil⟩
  | cons r rest ih =>
    obtain ⟨hr, hgap, hrest⟩ := coalesced_cons.mp h
    have hend := hends r List.mem_cons_self
    by_cases hle : r.1 ≤ end_
    · rw [absorb, if_pos hle]
      obtain ⟨hco, hcov, hbd⟩ := ih hrest
        (by omega : min first r.1 < max end_ r.2) (fun x hx => by have := hgap x hx; have := hrest.1 x hx; omega)
        (if min end_ r.2 > max first r.1 then added - (min end_ r.2 - max first r.1) else added)
      refine ⟨hco, fun page => ?_, fun before hb hall => ?_⟩
      · rw [hcov, covers_cons]
        -- the two ranges meet, so the larger one covers no page outside them
        have hunion : (min first r.1 ≤ page ∧ page < max end_ r.2) ↔
            (first ≤ page ∧ page < end_) ∨ (r.1 ≤ page ∧ page < r.2) := by omega
        rw [hunion, or_assoc]
      · exact hbd before (by have := hall r List.mem_cons_self; omega)
          fun x hx => hall x (List.mem_cons_of_mem _ hx)
    · rw [absorb, if_neg hle]
      refine ⟨?_, fun page => covers_cons, fun before hb hall => ⟨hb, hall⟩⟩
      refine coalesced_cons.mpr ⟨hne, fun x hx => ?_, h⟩
      dsimp only
      rcases List.mem_cons.mp hx with rfl | hx
      · omega
      · have := hgap x hx
        omega

section Insert

variable {runs : List Range} {first end_ : ℕ}

theorem insertRun_spec (h : Coalesced runs) (hne : first < end_) : Coalesced (insertRun runs first end_).1 ∧
      ∀ page, Covers (insertRun runs first end_).1 page ↔ (first ≤ page ∧ page < end_) ∨ Covers runs page := by
  obtain ⟨happ, hbefore, hfrom⟩ := seek_spec (fun r => r.2 ≥ first) h first
  simp only [insertRun]
  generalize seek (fun r => r.2 ≥ first) runs first = it at happ hbefore hfrom
  obtain ⟨before, rest⟩ := it
  dsimp only at happ hbefore hfrom ⊢
  obtain ⟨hb, hr, hbr⟩ := coalesced_append.mp (happ ▸ h)
  have hends : ∀ r ∈ rest, first ≤ r.2 := fun r hmem => by
    have := hr.1 r hmem
    rcases hfrom r hmem with hlt | hk
    · omega
    · simpa using hk
  have hbefore' : ∀ r ∈ before, r.2 < first := fun r hmem => by
    rcases hbefore r hmem with hlt | hk
    · exact hlt
    · simpa using hk
  obtain ⟨hco, hcov, hbd⟩ := absorb_spec hr hne hends (end_ - first)
  constructor
  · refine coalesced_append.mpr ⟨hb, hco, fun x hx y hy => ?_⟩
    obtain ⟨hrun, hleft⟩ := hbd x.2 (hbefore' x hx) (hbr x hx)
    rcases List.mem_cons.mp hy with rfl | hy
    · exact hrun
    · exact hleft y hy
  · intro page
    rw [covers_append, hcov, ← happ, covers_append]
    tauto

theorem Coalesced.insertRun (h : Coalesced runs) (hne : first < end_) :
    Coalesced (insertRun runs first end_).1 := (insertRun_spec h hne).1

/-- **`InsertRun` covers the union.** -/
theorem covers_insertRun (h : Coalesced runs) (hne : first < end_) (page : ℕ) :
    Covers (Gpu.insertRun runs first end_).1 page ↔
      (first ≤ page ∧ page < end_) ∨ Covers runs page := (insertRun_spec h hne).2 page

end Insert

/-! ### `EraseRun` -/

/-- What is left of a run before `first`. -/
def leftPiece (r : Range) (first : ℕ) : List Range := if r.1 < first then [(r.1, first)] else []

/-- The loop of `EraseRun` from the iterator on: the entries left, and how much was removed. -/
def cut : List Range → ℕ → ℕ → List Range × ℕ
  | [], _, _ => ([], 0)
  | r :: rest, first, end_ =>
    if r.1 < end_ then
      if r.2 ≤ first then
        let (left, removed) := cut rest first end_
        (r :: left, removed)
      else
        let here := min r.2 end_ - max r.1 first
        -- the entry behind the range is put back, and its key ends the loop
        if r.2 > end_ then (leftPiece r first ++ (end_, r.2) :: rest, here)
        else
          let (left, removed) := cut rest first end_
          (leftPiece r first ++ left, here + removed)
    else (r :: rest, 0)

/-- `EraseRun`: the map without `[first, end_)`, and how much of it was covered. -/
def eraseRun (runs : List Range) (first end_ : ℕ) : List Range × ℕ :=
  let (before, rest) := seek (fun _ => true) runs first
  let (left, removed) := cut rest first end_
  (before ++ left, removed)

theorem mem_leftPiece {r x : Range} {first : ℕ} : x ∈ leftPiece r first ↔ r.1 < first ∧ x = (r.1, first) := by
  unfold leftPiece
  split <;> simp [*]

theorem covers_leftPiece {r : Range} {first page : ℕ} :
    Covers (leftPiece r first) page ↔ r.1 ≤ page ∧ page < first := by
  unfold leftPiece
  split
  · simp
  · simp only [not_covers_nil, false_iff]
    omega

theorem cut_spec {rest : List Range} (h : Coalesced rest) {first end_ : ℕ} (hne : first < end_) :
    Coalesced (cut rest first end_).1 ∧ (∀ page, Covers (cut rest first end_).1 page ↔
        Covers rest page ∧ ¬(first ≤ page ∧ page < end_)) ∧
      ∀ before : ℕ, (∀ r ∈ rest, before < r.1) → ∀ r ∈ (cut rest first end_).1, before < r.1 := by
  induction rest with
  | nil => exact ⟨coalesced_nil, fun page => by simp [cut], fun before hall => by simp [cut]⟩
  | cons r rest ih =>
    obtain ⟨hr, hgap, hrest⟩ := coalesced_cons.mp h
    obtain ⟨hco, hcov, hbd⟩ := ih hrest
    -- the pages of the entries after `r` lie behind it
    have hbehind : ∀ page, Covers rest page → r.2 < page := fun page ⟨x, hx, hlo, _⟩ => by
      have := hgap x hx
      omega
    rw [cut]
    split
    · split
      · refine ⟨coalesced_cons.mpr ⟨hr, hbd r.2 hgap, hco⟩, fun page => ?_, fun before hall x hx => ?_⟩
        · rw [covers_cons, covers_cons, hcov]
          constructor
          · rintro (hin | ⟨hin, hout⟩)
            · exact ⟨.inl hin, by omega⟩
            · exact ⟨.inr hin, hout⟩
          · rintro ⟨hin | hin, hout⟩
            · exact .inl hin
            · exact .inr ⟨hin, hout⟩
        · rcases List.mem_cons.mp hx with rfl | hx
          · exact hall _ List.mem_cons_self
          · exact hbd before (fun y hy => hall y (List.mem_cons_of_mem _ hy)) x hx
      · split
        · refine ⟨coalesced_append.mpr ⟨?_, coalesced_cons.mpr ⟨by omega, hgap, hrest⟩, ?_⟩,
            fun page => ?_, fun before hall x hx => ?_⟩
          · unfold leftPiece
            split
            · exact coalesced_cons.mpr ⟨by assumption, by simp, coalesced_nil⟩
            · exact coalesced_nil
          · intro x hx y hy
            obtain ⟨_, rfl⟩ := mem_leftPiece.mp hx
            rcases List.mem_cons.mp hy with rfl | hy
            · exact hne
            · have := hgap y hy
              dsimp only
              omega
          · rw [covers_append, covers_leftPiece, covers_cons, covers_cons]
            have := hbehind page
            by_cases hin : Covers rest page
            · have := this hin
              simp only [hin, or_true, true_and, true_iff]
              omega
            · simp only [hin, or_false]
              omega
          · rcases List.mem_append.mp hx with hx | hx
            · obtain ⟨_, rfl⟩ := mem_leftPiece.mp hx
              exact hall r List.mem_cons_self
            · have := hall r List.mem_cons_self
              rcases List.mem_cons.mp hx with rfl | hx
              · dsimp only
                omega
              · exact hall x (List.mem_cons_of_mem _ hx)
        · refine ⟨coalesced_append.mpr ⟨?_, hco, ?_⟩, fun page => ?_, fun before hall x hx => ?_⟩
          · unfold leftPiece
            split
            · exact coalesced_cons.mpr ⟨by assumption, by simp, coalesced_nil⟩
            · exact coalesced_nil
          · intro x hx y hy
            obtain ⟨_, rfl⟩ := mem_leftPiece.mp hx
            have := hbd r.2 hgap y hy
            dsimp only
            omega
          · rw [covers_append, covers_leftPiece, covers_cons, hcov]
            constructor
            · rintro (hin | ⟨hin, hout⟩)
              · exact ⟨.inl (by omega), by omega⟩
              · exact ⟨.inr hin, hout⟩
            · rintro ⟨hin | hin, hout⟩
              · exact .inl (by omega)
              · exact .inr ⟨hin, hout⟩
          · rcases List.mem_append.mp hx with hx | hx
            · obtain ⟨_, rfl⟩ := mem_leftPiece.mp hx
              exact hall r List.mem_cons_self
            · exact hbd before (fun y hy => hall y (List.mem_cons_of_mem _ hy)) x hx
    · refine ⟨h, fun page => ?_, fun before hall => hall⟩
      constructor
      · intro hin
        refine ⟨hin, ?_⟩
        rcases covers_cons.mp hin with hin | hin
        · omega
        · have := hbehind page hin
          omega
      · exact And.left

section Erase

variable {runs : List Range} {first end_ : ℕ}

theorem eraseRun_spec (h : Coalesced runs) (hne : first < end_) : Coalesced (eraseRun runs first end_).1 ∧
      ∀ page, Covers (eraseRun runs first end_).1 page ↔ Covers runs page ∧ ¬(first ≤ page ∧ page < end_) := by
  obtain ⟨happ, hbefore, -⟩ := seek_spec (fun _ => true) h first
  simp only [eraseRun]
  generalize seek (fun _ => true) runs first = it at happ hbefore
  obtain ⟨before, rest⟩ := it
  dsimp only at happ hbefore ⊢
  obtain ⟨hb, hr, hbr⟩ := coalesced_append.mp (happ ▸ h)
  obtain ⟨hco, hcov, hbd⟩ := cut_spec hr hne
  constructor
  · exact coalesced_append.mpr ⟨hb, hco, fun x hx => hbd x.2 (hbr x hx)⟩
  · intro page
    rw [covers_append, hcov, ← happ, covers_append]
    -- the runs before the iterator end before the range
    have hout : Covers before page → ¬(first ≤ page ∧ page < end_) := by
      rintro ⟨x, hx, _, hlt⟩
      rcases hbefore x hx with hend | hk
      · omega
      · cases hk
    tauto

theorem Coalesced.eraseRun (h : Coalesced runs) (hne : first < end_) :
    Coalesced (eraseRun runs first end_).1 := (eraseRun_spec h hne).1

/-- **`EraseRun` covers the difference.** -/
theorem covers_eraseRun (h : Coalesced runs) (hne : first < end_) (page : ℕ) :
    Covers (Gpu.eraseRun runs first end_).1 page ↔
      Covers runs page ∧ ¬(first ≤ page ∧ page < end_) := (eraseRun_spec h hne).2 page

end Erase

end Prosperity.Gpu
