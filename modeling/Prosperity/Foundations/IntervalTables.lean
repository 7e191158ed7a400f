import Mathlib.Data.List.Basic
import Mathlib.Tactic.SplitIfs

/-!
# Tables of intervals

The records of a table cover half-open intervals that lie one behind the other. The record that covers a point
is found by halving: the first record that stops behind the point is the only one that can cover it.
-/

namespace Prosperity

/-- The search of `[lo, hi)`, which shrinks at each turn, so that its length suffices as `fuel`. -/
def partitionPoint (p : ℕ → Prop) [DecidablePred p] : ℕ → ℕ → ℕ → ℕ
  | 0, lo, _ => lo
  | fuel + 1, lo, hi =>
    if lo < hi then
      if p ((lo + hi) / 2) then partitionPoint p fuel ((lo + hi) / 2 + 1) hi
      else partitionPoint p fuel lo ((lo + hi) / 2)
    else lo

theorem partitionPoint_spec {p : ℕ → Prop} [DecidablePred p] {n : ℕ}
    (hp : ∀ i j, i ≤ j → j < n → p j → p i) (fuel : ℕ) {lo hi : ℕ} (hfuel : hi ≤ lo + fuel) (hle : lo ≤ hi)
    (hhi : hi ≤ n) (hbelow : ∀ i < lo, p i) (habove : ∀ i, hi ≤ i → i < n → ¬ p i) :
    partitionPoint p fuel lo hi ≤ n ∧ (∀ i < partitionPoint p fuel lo hi, p i) ∧
      ∀ i, partitionPoint p fuel lo hi ≤ i → i < n → ¬ p i := by
  induction fuel generalizing lo hi with
  | zero =>
    obtain rfl : lo = hi := by omega
    exact ⟨hhi, hbelow, habove⟩
  | succ fuel ih =>
    rw [partitionPoint]
    split_ifs with hlt hmid
    · refine ih (by omega) (by omega) hhi (fun i hi' => ?_) habove
      exact hp i ((lo + hi) / 2) (by omega) (by omega) hmid
    · refine ih (by omega) (by omega) (by omega) hbelow (fun i hi' hn hpi => ?_)
      exact hmid (hp ((lo + hi) / 2) i hi' hn hpi)
    · obtain rfl : lo = hi := by omega
      exact ⟨hhi, hbelow, habove⟩

variable {α : Type*} (start stop : α → ℕ)

/-- No interval is empty, and each stops where the later ones start or before. -/
structure Spaced (records : List α) : Prop where
  nonempty : ∀ r ∈ records, start r < stop r
  apart : records.Pairwise fun r s => stop r ≤ start s

/-- The index of the first record that stops behind `a`. -/
def firstBehind (records : List α) (a : ℕ) : ℕ :=
  partitionPoint (fun i => (records[i]?).any (fun r => decide (stop r ≤ a)) = true) records.length 0 records.length

/-- The record that covers `a`. -/
def lookup? (records : List α) (a : ℕ) : Option α :=
  (records[firstBehind stop records a]?).filter fun r => decide (start r ≤ a)

variable {start stop} {records : List α}

namespace Spaced

theorem stop_le (h : Spaced start stop records) {i j : ℕ} {r s : α} (hij : i < j) (hr : records[i]? = some r)
    (hs : records[j]? = some s) : stop r ≤ start s := by
  obtain ⟨hi, rfl⟩ := List.getElem?_eq_some_iff.mp hr
  obtain ⟨hj, rfl⟩ := List.getElem?_eq_some_iff.mp hs
  exact List.pairwise_iff_getElem.mp h.apart i j hi hj hij

theorem start_lt (h : Spaced start stop records) {i : ℕ} {r : α} (hr : records[i]? = some r) : start r < stop r :=
  h.nonempty r (List.mem_of_getElem? hr)

theorem firstBehind_spec (h : Spaced start stop records) (a : ℕ) : firstBehind stop records a ≤ records.length ∧
      (∀ i < firstBehind stop records a, ∀ r, records[i]? = some r → stop r ≤ a) ∧
      ∀ i, firstBehind stop records a ≤ i → ∀ r, records[i]? = some r → a < stop r := by
  -- the records stop one after the other, so the test fails from one index on
  have hmono : ∀ i j, i ≤ j → j < records.length → (records[j]?).any (fun r => decide (stop r ≤ a)) = true →
      (records[i]?).any (fun r => decide (stop r ≤ a)) = true := by
    intro i j hij hj htest
    have hi : i < records.length := by omega
    rw [List.getElem?_eq_getElem hj] at htest
    rw [List.getElem?_eq_getElem hi]
    simp only [Option.any_some, decide_eq_true_eq] at htest ⊢
    obtain rfl | hlt := Nat.eq_or_lt_of_le hij
    · exact htest
    · have hstop := h.stop_le hlt (List.getElem?_eq_getElem hi) (List.getElem?_eq_getElem hj)
      have hstart := h.start_lt (List.getElem?_eq_getElem hj)
      omega
  obtain ⟨hle, hbelow, habove⟩ := partitionPoint_spec hmono records.length (Nat.le_add_left _ _)
    (Nat.zero_le _) (Nat.le_refl _) (by simp) (by intro i hi hn; omega)
  refine ⟨hle, fun i hi r hr => ?_, fun i hi r hr => ?_⟩
  · simpa [hr] using hbelow i hi
  · obtain ⟨hn, -⟩ := List.getElem?_eq_some_iff.mp hr
    simpa [hr] using habove i hi hn

theorem lookup?_eq_some (h : Spaced start stop records) {a : ℕ} {r : α} :
    lookup? start stop records a = some r ↔ r ∈ records ∧ start r ≤ a ∧ a < stop r := by
  obtain ⟨-, hbelow, habove⟩ := h.firstBehind_spec a
  rw [lookup?, Option.filter_eq_some_iff, decide_eq_true_eq]
  constructor
  · rintro ⟨hr, hle⟩
    exact ⟨List.mem_of_getElem? hr, hle, habove _ (Nat.le_refl _) r hr⟩
  · rintro ⟨hmem, hle, hlt⟩
    obtain ⟨i, hi⟩ := List.mem_iff_getElem?.mp hmem
    refine ⟨?_, hle⟩
    obtain hbefore | rfl | hbehind := Nat.lt_trichotomy i (firstBehind stop records a)
    · exact absurd (hbelow i hbefore r hi) (by omega)
    · exact hi
    · obtain ⟨hn, -⟩ := List.getElem?_eq_some_iff.mp hi
      have hfirst := List.getElem?_eq_getElem (Nat.lt_trans hbehind hn)
      have hafter := habove _ (Nat.le_refl _) _ hfirst
      have hstop := h.stop_le hbehind hfirst hi
      omega

theorem eq_of_covers (h : Spaced start stop records) {a : ℕ} {r s : α} (hr : r ∈ records)
    (hra : start r ≤ a ∧ a < stop r) (hs : s ∈ records) (hsa : start s ≤ a ∧ a < stop s) : r = s := by
  have hfound := h.lookup?_eq_some.mpr ⟨hr, hra⟩
  rw [h.lookup?_eq_some.mpr ⟨hs, hsa⟩] at hfound
  exact (Option.some.inj hfound).symm

theorem tail {r : α} (h : Spaced start stop (r :: records)) :
    Spaced start stop records ∧ start r < stop r ∧ ∀ s ∈ records, stop r ≤ start s := by
  obtain ⟨hfirst, hrest⟩ := List.pairwise_cons.mp h.apart
  exact ⟨⟨fun s hs => h.nonempty s (by simp [hs]), hrest⟩, h.nonempty r (by simp), hfirst⟩

end Spaced

variable (start stop) in
/-- The records are gone through in order: from `cursor` on the range up to `stop'` is covered by those that
pass the test, as far as the result says. -/
def coverFrom (ok : α → Bool) (stop' : ℕ) : ℕ → List α → ℕ
  | cursor, [] => cursor
  | cursor, r :: records =>
    if cursor < stop' then
      if stop r ≤ cursor then coverFrom ok stop' cursor records
      else if cursor < start r ∨ ok r = false then cursor
      else coverFrom ok stop' (min stop' (stop r)) records
    else cursor

theorem Spaced.coverFrom_eq_iff (h : Spaced start stop records) (ok : α → Bool) {stop' cursor : ℕ}
    (hle : cursor ≤ stop') : coverFrom start stop ok stop' cursor records = stop' ↔
      ∀ x, cursor ≤ x → x < stop' → ∃ r ∈ records, ok r = true ∧ start r ≤ x ∧ x < stop r := by
  induction records generalizing cursor with
  | nil =>
    rw [coverFrom]
    constructor
    · intro heq x hx hlt
      omega
    · intro hall
      by_contra hne
      obtain ⟨r, hr, -⟩ := hall cursor (Nat.le_refl _) (by omega)
      simp at hr
  | cons r records ih =>
    obtain ⟨hrest, hr, hafter⟩ := h.tail
    rw [coverFrom]
    split_ifs with hlt hbefore hgap
    · -- a record that stops at the cursor or before it covers nothing of the range
      rw [ih hrest hle]
      constructor
      · intro hall x hx hxs
        obtain ⟨s, hs, hcovers⟩ := hall x hx hxs
        exact ⟨s, List.mem_cons_of_mem _ hs, hcovers⟩
      · intro hall x hx hxs
        obtain ⟨s, hs, hok, hstart, hstop⟩ := hall x hx hxs
        obtain rfl | hs := List.mem_cons.mp hs
        · omega
        · exact ⟨s, hs, hok, hstart, hstop⟩
    · -- the point at the cursor is covered by no record that passes
      refine ⟨fun heq => by omega, fun hall => ?_⟩
      obtain ⟨s, hs, hok, hstart, hstop⟩ := hall cursor (Nat.le_refl _) hlt
      obtain rfl | hs := List.mem_cons.mp hs
      · obtain hgap | hfails := hgap
        · omega
        · rw [hok] at hfails
          cases hfails
      · have hlater := hafter s hs
        omega
    · -- the record covers the cursor, which goes on to its stop
      rw [not_or, Nat.not_lt, Bool.not_eq_false] at hgap
      rw [ih hrest (Nat.min_le_left _ _)]
      constructor
      · intro hall x hx hxs
        by_cases hin : x < stop r
        · exact ⟨r, List.mem_cons_self, hgap.2, by omega, hin⟩
        · obtain ⟨s, hs, hcovers⟩ := hall x (by omega) hxs
          exact ⟨s, List.mem_cons_of_mem _ hs, hcovers⟩
      · intro hall x hx hxs
        obtain ⟨s, hs, hok, hstart, hstop⟩ := hall x (by omega) hxs
        obtain rfl | hs := List.mem_cons.mp hs
        · omega
        · exact ⟨s, hs, hok, hstart, hstop⟩
    · refine ⟨fun _ x hx hxs => by omega, fun _ => by omega⟩

end Prosperity
