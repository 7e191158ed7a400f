import Mathlib.Algebra.Ring.Nat
import Mathlib.Order.Interval.Finset.Nat
import Prosperity.Gpu.RunMap

/-!
# What the operations of a run map count

`InsertRun` and `EraseRun` return how much they have changed, and the tracker adds these numbers
up. They are counted here against the finite set of what a map covers: what an insertion returns
is the part of the range that was not covered, what an erasure returns the part that was. `Gaps`
walks the same map and leaves it as it is.
-/

namespace Prosperity.Gpu

/-- The length of all runs together. -/
def totalLength (runs : List Range) : ℕ := (runs.map fun r => r.2 - r.1).sum

@[simp] theorem totalLength_nil : totalLength [] = 0 := rfl

@[simp] theorem totalLength_cons (r : Range) (runs : List Range) :
    totalLength (r :: runs) = r.2 - r.1 + totalLength runs := by
  simp [totalLength]

/-- What the runs cover. -/
def footprint (runs : List Range) : Finset ℕ := runs.foldr (fun r s => Finset.Ico r.1 r.2 ∪ s) ∅

@[simp] theorem footprint_nil : footprint [] = ∅ := rfl

@[simp] theorem footprint_cons (r : Range) (runs : List Range) :
    footprint (r :: runs) = Finset.Ico r.1 r.2 ∪ footprint runs := rfl

theorem mem_footprint {runs : List Range} {x : ℕ} : x ∈ footprint runs ↔ Covers runs x := by
  induction runs with
  | nil => simp
  | cons r runs ih => rw [footprint_cons, Finset.mem_union, Finset.mem_Ico, covers_cons, ih]

/-- Two parts of a range that do not meet. -/
theorem card_inter_cons {r : Range} {rest : List Range} (hbehind : ∀ x, Covers rest x → r.2 < x) (first end_ : ℕ) :
    (Finset.Ico first end_ ∩ footprint (r :: rest)).card =
      (min end_ r.2 - max first r.1) + (Finset.Ico first end_ ∩ footprint rest).card := by
  rw [footprint_cons, Finset.inter_union_distrib_left, Finset.card_union_of_disjoint, Finset.Ico_inter_Ico, Nat.card_Ico]
  refine Finset.disjoint_left.mpr fun x hx hx' => ?_
  have hlt := (Finset.mem_Ico.mp (Finset.mem_inter.mp hx).2).2
  have := hbehind x (mem_footprint.mp (Finset.mem_inter.mp hx').2)
  omega

theorem covers_behind {r : Range} {rest : List Range} (hgap : ∀ r' ∈ rest, r.2 < r'.1) (x : ℕ) (h : Covers rest x) : r.2 < x := by
  obtain ⟨r', hr', hlo, _⟩ := h
  have := hgap r' hr'
  omega

/-- Runs behind a range do not meet it. -/
theorem inter_behind {rest : List Range} {first end_ : ℕ} (hbehind : ∀ x, Covers rest x → end_ ≤ x) :
    Finset.Ico first end_ ∩ footprint rest = ∅ := by
  rw [← Finset.disjoint_iff_inter_eq_empty]
  refine Finset.disjoint_left.mpr fun x hx hx' => ?_
  have := hbehind x (mem_footprint.mp hx')
  have := (Finset.mem_Ico.mp hx).2
  omega

/-- Runs before a range do not meet it. -/
theorem covers_rest {before rest runs : List Range} (happ : before ++ rest = runs) {first x : ℕ}
    (hbefore : ∀ r ∈ before, r.2 ≤ first) (hx : first ≤ x) : Covers runs x ↔ Covers rest x := by
  rw [← happ, covers_append]
  refine or_iff_right fun ⟨r, hr, _, hlt⟩ => ?_
  have := hbefore r hr
  omega

/-- **The runs of a map are counted once.** -/
theorem card_footprint {runs : List Range} (h : Coalesced runs) : (footprint runs).card = totalLength runs := by
  induction runs with
  | nil => rfl
  | cons r rest ih =>
    obtain ⟨_, hgap, hrest⟩ := coalesced_cons.mp h
    rw [footprint_cons, Finset.card_union_of_disjoint, Nat.card_Ico, ih hrest, totalLength_cons]
    refine Finset.disjoint_left.mpr fun x hx hx' => ?_
    have := covers_behind hgap x (mem_footprint.mp hx')
    have := (Finset.mem_Ico.mp hx).2
    omega

/-! ### Insertion -/

/-- What `added` loses on the way is what was covered. -/
theorem absorb_added {rest : List Range} (h : Coalesced rest) {first end_ added : ℕ} (hne : first < end_)
    (hends : ∀ r ∈ rest, first ≤ r.2) (hadded : (Finset.Ico first end_ ∩ footprint rest).card ≤ added) :
    (absorb rest first end_ added).2.1 + (Finset.Ico first end_ ∩ footprint rest).card = added := by
  induction rest generalizing first end_ added with
  | nil => simp [absorb]
  | cons r rest ih =>
    obtain ⟨hr, hgap, hrest⟩ := coalesced_cons.mp h
    have hend := hends r List.mem_cons_self
    have hbehind := covers_behind hgap
    rw [card_inter_cons hbehind] at hadded ⊢
    by_cases hle : r.1 ≤ end_
    · rw [absorb, if_pos hle]
      -- the run grows by pages that no later run covers
      have hsame : Finset.Ico (min first r.1) (max end_ r.2) ∩ footprint rest =
          Finset.Ico first end_ ∩ footprint rest := by
        ext x
        simp only [Finset.mem_inter, Finset.mem_Ico, mem_footprint]
        refine and_congr_left fun hx => ?_
        have := hbehind x hx
        omega
      have hgrown : ∀ r' ∈ rest, min first r.1 ≤ r'.2 := fun r' hr' => by
        have := hgap r' hr'
        have := hrest.1 r' hr'
        omega
      have hcount := @ih hrest (min first r.1) (max end_ r.2)
        (if min end_ r.2 > max first r.1 then added - (min end_ r.2 - max first r.1) else added) (by omega) hgrown
      rw [hsame] at hcount
      have hcount := hcount (by split <;> omega)
      dsimp only
      split at hcount
      next hlt =>
        rw [if_pos hlt]
        omega
      next hlt =>
        rw [if_neg hlt]
        omega
    · rw [absorb, if_neg hle]
      rw [inter_behind fun x hx => by have := hbehind x hx; omega, Finset.card_empty]
      dsimp only
      omega

section

variable {runs : List Range} {first end_ : ℕ}

theorem footprint_insertRun (h : Coalesced runs) (hne : first < end_) :
    footprint (insertRun runs first end_).1 = Finset.Ico first end_ ∪ footprint runs := by
  ext x
  rw [mem_footprint, covers_insertRun h hne, Finset.mem_union, Finset.mem_Ico, mem_footprint]

theorem footprint_eraseRun (h : Coalesced runs) (hne : first < end_) :
    footprint (eraseRun runs first end_).1 = footprint runs \ Finset.Ico first end_ := by
  ext x
  rw [mem_footprint, covers_eraseRun h hne, Finset.mem_sdiff, Finset.mem_Ico, mem_footprint]

/-- **What `InsertRun` returns**: how much of the range was not covered. -/
theorem insertRun_added (h : Coalesced runs) (hne : first < end_) :
    (insertRun runs first end_).2 = (Finset.Ico first end_ \ footprint runs).card := by
  obtain ⟨happ, hbefore, hfrom⟩ := seek_spec (fun r => r.2 ≥ first) h first
  simp only [insertRun]
  generalize seek (fun r => r.2 ≥ first) runs first = it at happ hbefore hfrom
  obtain ⟨before, rest⟩ := it
  dsimp only at happ hbefore hfrom ⊢
  obtain ⟨_, hr, _⟩ := coalesced_append.mp (happ ▸ h)
  have hends : ∀ r ∈ rest, first ≤ r.2 := fun r hmem => by
    have := hr.1 r hmem
    rcases hfrom r hmem with hlt | hk
    · omega
    · simpa using hk
  -- the runs before the iterator do not meet the range
  have hrest : Finset.Ico first end_ ∩ footprint runs = Finset.Ico first end_ ∩ footprint rest := by
    ext x
    rw [Finset.mem_inter, Finset.mem_inter, mem_footprint, mem_footprint]
    exact and_congr_right fun hx => covers_rest happ (fun r hr => (by simpa using hbefore r hr : r.2 < first).le) (Finset.mem_Ico.mp hx).1
  have hcard := Finset.card_sdiff_add_card_inter (Finset.Ico first end_) (footprint runs)
  rw [Nat.card_Ico] at hcard
  have hadded := @absorb_added rest hr first end_ (end_ - first) hne hends (by rw [← hrest]; omega)
  rw [hrest] at hcard
  change (absorb rest first end_ (end_ - first)).2.1 = _
  omega

theorem totalLength_insertRun (h : Coalesced runs) (hne : first < end_) :
    totalLength (insertRun runs first end_).1 = totalLength runs + (insertRun runs first end_).2 := by
  rw [← card_footprint (h.insertRun hne), ← card_footprint h, footprint_insertRun h hne, insertRun_added h hne,
    ← Finset.sdiff_union_self_eq_union, Finset.card_union_of_disjoint Finset.sdiff_disjoint, Nat.add_comm]

end

/-! ### Erasure -/

theorem cut_removed {rest : List Range} (h : Coalesced rest) {first end_ : ℕ} (hne : first < end_) :
    (cut rest first end_).2 = (Finset.Ico first end_ ∩ footprint rest).card := by
  induction rest with
  | nil => simp [cut]
  | cons r rest ih =>
    obtain ⟨hr, hgap, hrest⟩ := coalesced_cons.mp h
    have hbehind := covers_behind hgap
    have hnone (hpast : end_ ≤ r.2) : Finset.Ico first end_ ∩ footprint rest = ∅ :=
      inter_behind fun x hx => hpast.trans (hbehind x hx).le
    rw [card_inter_cons hbehind, cut]
    split
    · split
      · rw [ih hrest]
        omega
      · split
        next hgt =>
          rw [hnone (by omega), Finset.card_empty]
          dsimp only
          omega
        next =>
          dsimp only
          rw [ih hrest]
          omega
    · rw [hnone (by omega), Finset.card_empty]
      omega

section

variable {runs : List Range} {first end_ : ℕ}

/-- **What `EraseRun` returns**: how much of the range was covered. -/
theorem eraseRun_removed (h : Coalesced runs) (hne : first < end_) :
    (eraseRun runs first end_).2 = (Finset.Ico first end_ ∩ footprint runs).card := by
  obtain ⟨happ, hbefore, -⟩ := seek_spec (fun _ => true) h first
  simp only [eraseRun]
  generalize seek (fun _ => true) runs first = it at happ hbefore
  obtain ⟨before, rest⟩ := it
  dsimp only at happ hbefore ⊢
  obtain ⟨_, hr, _⟩ := coalesced_append.mp (happ ▸ h)
  rw [cut_removed hr hne]
  congr 1
  ext x
  rw [Finset.mem_inter, Finset.mem_inter, mem_footprint, mem_footprint]
  refine and_congr_right fun hx => (covers_rest happ (fun r hr => ?_) (Finset.mem_Ico.mp hx).1).symm
  exact (by simpa using hbefore r hr : r.2 < first).le

theorem totalLength_eraseRun (h : Coalesced runs) (hne : first < end_) :
    totalLength (eraseRun runs first end_).1 = totalLength runs - (eraseRun runs first end_).2 := by
  rw [← card_footprint (h.eraseRun hne), ← card_footprint h, footprint_eraseRun h hne, eraseRun_removed h hne,
    Finset.card_sdiff, Finset.inter_comm]

end

/-! ### `Gaps` -/

/-- The loop of `Gaps` from the iterator on. -/
def gapsFrom : List Range → ℕ → ℕ → List Range
  | [], cursor, end_ => if cursor < end_ then [(cursor, end_)] else []
  | r :: rest, cursor, end_ =>
    if r.1 < end_ ∧ cursor < end_ then
      (if r.1 > cursor then [(cursor, r.1)] else []) ++ gapsFrom rest (max cursor r.2) end_
    else if cursor < end_ then [(cursor, end_)] else []

def gaps (runs : List Range) (first end_ : ℕ) : List Range :=
  gapsFrom (seek (fun r => r.2 > first) runs first).2 first end_

theorem gapsFrom_spec {rest : List Range} (h : Coalesced rest) {cursor end_ : ℕ} (hends : ∀ r ∈ rest, cursor < r.2) :
    Coalesced (gapsFrom rest cursor end_) ∧ (∀ g ∈ gapsFrom rest cursor end_, cursor ≤ g.1) ∧
      ∀ x, Covers (gapsFrom rest cursor end_) x ↔ (cursor ≤ x ∧ x < end_) ∧ ¬Covers rest x := by
  induction rest generalizing cursor with
  | nil =>
    rw [gapsFrom]
    split_ifs with hlt
    · exact ⟨coalesced_cons.mpr ⟨hlt, by simp, coalesced_nil⟩, by simp, by simp⟩
    · refine ⟨coalesced_nil, by simp, fun x => ?_⟩
      simp only [not_covers_nil, not_false_eq_true, and_true, false_iff]
      omega
  | cons r rest ih =>
    obtain ⟨hr, hgap, hrest⟩ := coalesced_cons.mp h
    have hend := hends r List.mem_cons_self
    have hmax : max cursor r.2 = r.2 := by omega
    obtain ⟨hco, hlo, hcov⟩ := @ih hrest r.2 fun r' hr' => by
      have := hgap r' hr'
      have := hrest.1 r' hr'
      omega
    have hbehind := covers_behind hgap
    rw [gapsFrom, hmax]
    split_ifs with hin hbefore hlt
    · refine ⟨coalesced_cons.mpr ⟨hbefore, fun g hg => ?_, hco⟩, fun g hg => ?_, fun x => ?_⟩
      · have := hlo g hg
        dsimp only
        omega
      · rcases List.mem_cons.mp hg with rfl | hg
        · exact le_rfl
        · have := hlo g hg
          omega
      · rw [List.cons_append, List.nil_append, covers_cons, covers_cons, hcov]
        have := hbehind x
        by_cases hx : Covers rest x
        · have := this hx
          simp only [hx, not_true, and_false, or_true, or_false, iff_false]
          omega
        · simp only [hx, not_false_eq_true, and_true, or_false]
          omega
    · refine ⟨hco, fun g hg => ?_, fun x => ?_⟩
      · have := hlo g hg
        omega
      · rw [List.nil_append, covers_cons, hcov]
        by_cases hx : Covers rest x
        · simp only [hx, not_true, and_false, or_true]
        · simp only [hx, not_false_eq_true, and_true, or_false]
          omega
    · refine ⟨coalesced_cons.mpr ⟨hlt, by simp, coalesced_nil⟩, by simp, fun x => ?_⟩
      rw [covers_cons, covers_cons]
      have := hbehind x
      by_cases hx : Covers rest x
      · have := this hx
        simp only [hx, not_covers_nil, or_true, not_true, and_false, or_false, iff_false]
        omega
      · simp only [hx, not_covers_nil, or_false]
        omega
    · refine ⟨coalesced_nil, by simp, fun x => ?_⟩
      simp only [not_covers_nil, false_iff]
      omega

/-- **What `Gaps` finds**: the complement in the range, in order. -/
theorem gaps_spec {runs : List Range} (h : Coalesced runs) (first end_ : ℕ) : Coalesced (gaps runs first end_) ∧
    ∀ x, Covers (gaps runs first end_) x ↔ (first ≤ x ∧ x < end_) ∧ ¬Covers runs x := by
  obtain ⟨happ, hbefore, hfrom⟩ := seek_spec (fun r => r.2 > first) h first
  rw [gaps]
  generalize seek (fun r => r.2 > first) runs first = it at happ hbefore hfrom
  obtain ⟨before, rest⟩ := it
  dsimp only at happ hbefore hfrom ⊢
  obtain ⟨_, hr, _⟩ := coalesced_append.mp (happ ▸ h)
  obtain ⟨hco, -, hcov⟩ := @gapsFrom_spec rest hr first end_ fun r hmem => by
    have := hr.1 r hmem
    rcases hfrom r hmem with hlt | hk
    · omega
    · simpa using hk
  refine ⟨hco, fun x => ?_⟩
  rw [hcov]
  refine and_congr_right fun hx => not_congr (covers_rest happ (fun r hr => ?_) hx.1).symm
  rcases hbefore r hr with hend | hk
  · exact hend.le
  · simpa using hk

end Prosperity.Gpu
