import Mathlib.Data.List.Nodup
import Prosperity.Foundations.RangeSweep

/-!
# Aliases of direct memory

Direct memory is a file that is mapped at any number of addresses. `FindAliased` lists the addresses whose byte
another address maps too. The pieces are sorted by the file and the offset, so that of the earlier pieces of a
file only the greatest end matters, and the later ones add their parts in order.
-/

namespace Prosperity.Gpu

/-- Consecutive offsets of a file, mapped from an address on. A mapping is never empty. -/
structure Piece where
  file : ℕ
  offset : ℕ
  offsetEnd : ℕ
  va : ℕ
  offset_lt : offset < offsetEnd

namespace Piece

def Le (a b : Piece) : Prop := a.file < b.file ∨ a.file = b.file ∧ a.offset ≤ b.offset

def Holds (p : Piece) (file o : ℕ) : Prop := p.file = file ∧ p.offset ≤ o ∧ o < p.offsetEnd

def Maps (p : Piece) (x file o : ℕ) : Prop := p.Holds file o ∧ x = p.va + (o - p.offset)

def addresses (p : Piece) : Stretch := (p.va, p.va + (p.offsetEnd - p.offset))

def Apart (p q : Piece) : Prop := p.addresses.2 ≤ q.addresses.1 ∨ q.addresses.2 ≤ p.addresses.1

/-- The addresses of the offsets `[first, stop)` of the piece, if there are any. -/
def emit (p : Piece) (first stop : ℕ) : List Stretch :=
  if first < stop then [(p.va + first - p.offset, p.va + stop - p.offset)] else []

/-- The inner loop: what later pieces share with `p`, `[first, stop)` being known to be shared. -/
def sweepLater (p : Piece) : ℕ → ℕ → List Piece → List Stretch
  | first, stop, [] => p.emit first stop
  | first, stop, q :: later =>
    if q.file = p.file ∧ q.offset < p.offsetEnd ∧ stop < p.offsetEnd then
      let lo := q.offset
      let hi := min p.offsetEnd q.offsetEnd
      if lo > stop then p.emit first stop ++ p.sweepLater lo (max stop hi) later
      else p.sweepLater first (max stop hi) later
    else p.emit first stop

/-- The outer loop. `file` is the file of the piece in front, and `previousEnd` where its pieces end. -/
def findFrom : Option ℕ → ℕ → List Piece → List Stretch
  | _, _, [] => []
  | file, previousEnd, p :: later =>
    let previousEnd := if file = some p.file then previousEnd else 0
    p.sweepLater p.offset (min p.offsetEnd (max p.offset previousEnd)) later ++
      findFrom (some p.file) (max previousEnd p.offsetEnd) later

end Piece

def mergeRange (merged : List Stretch) (r : Stretch) : List Stretch :=
  match merged.getLast? with
  | none => merged ++ [r]
  | some back => if r.1 ≤ back.2 then merged.dropLast ++ [(back.1, max back.2 r.2)] else merged ++ [r]

def findAliased (sortPieces : Sorter Piece.Le) (sortRanges : Sorter fun a b : Stretch => a.1 ≤ b.1)
    (pieces : List Piece) : List Stretch :=
  (sortRanges.sort (Piece.findFrom none 0 (sortPieces.sort pieces))).foldl mergeRange []

/-- Another address maps the byte that `x` maps. -/
def Aliased (pieces : List Piece) (x : ℕ) : Prop :=
  ∃ file o, (∃ p ∈ pieces, p.Maps x file o) ∧ ∃ y, y ≠ x ∧ ∃ q ∈ pieces, q.Maps y file o

/-! ## The sweep over the offsets -/

section Sweep

variable {p q : Piece} {first stop x o : ℕ} {later seen : List Piece}

theorem Piece.covers_emit (hfirst : p.offset ≤ first) :
    Spans (p.emit first stop) x ↔ ∃ o, x = p.va + (o - p.offset) ∧ first ≤ o ∧ o < stop := by
  unfold emit
  split
  · rw [spans_singleton]
    constructor
    · rintro ⟨hle, hlt⟩
      dsimp only at hle hlt
      exact ⟨x - p.va + p.offset, by omega, by omega, by omega⟩
    · rintro ⟨o, rfl, hle, hlt⟩
      constructor
      · dsimp only
        omega
      · dsimp only
        omega
  · next hempty =>
    refine iff_of_false spans_nil ?_
    rintro ⟨o, -, hle, hlt⟩
    omega

def Piece.Shares (p q : Piece) (o : ℕ) : Prop := q.Holds p.file o ∧ o < p.offsetEnd

/-- **The inner loop** finds the offsets known to be shared and those that a later piece holds. Every later piece
of the file begins at `first` or behind it. -/
theorem Piece.covers_sweepLater (hsorted : later.Pairwise Piece.Le) (hle : ∀ q ∈ later, p.Le q)
    (hoffset : p.offset ≤ first) (hfirst : ∀ q ∈ later, q.file = p.file → first ≤ q.offset)
    (hstart : first ≤ stop) (hstop : stop ≤ p.offsetEnd) : Spans (p.sweepLater first stop later) x ↔
      ∃ o, x = p.va + (o - p.offset) ∧ first ≤ o ∧ (o < stop ∨ ∃ q ∈ later, p.Shares q o) := by
  induction later generalizing first stop with
  | nil => simp [sweepLater, covers_emit hoffset]
  | cons q later ih =>
    obtain ⟨hq, hlater⟩ := List.pairwise_cons.mp hsorted
    have hle' : ∀ r ∈ later, p.Le r := fun r hr => hle r (List.mem_cons_of_mem _ hr)
    unfold sweepLater
    split
    · next hmeet =>
      obtain ⟨hfile, hin, hopen⟩ := hmeet
      have hq1 := hfirst q List.mem_cons_self hfile
      have hq2 := q.offset_lt
      have hshares : ∀ o, p.Shares q o ↔ q.offset ≤ o ∧ o < min p.offsetEnd q.offsetEnd := fun o => by
        simp only [Shares, Holds, hfile, true_and, Nat.lt_min]
        constructor
        · rintro ⟨⟨hle, hlt⟩, hend⟩
          exact ⟨hle, hend, hlt⟩
        · rintro ⟨hle, hend, hlt⟩
          exact ⟨⟨hle, hlt⟩, hend⟩
      simp only [List.exists_mem_cons_iff, hshares]
      split
      · next hgap =>
        -- what is known ends before the next piece begins
        rw [spans_append, covers_emit hoffset, ih hlater hle' (by omega) (fun r hr hfile' => ?_) (by omega) (by omega)]
        · constructor
          · rintro (⟨o, hx, hle, hlt⟩ | ⟨o, hx, hle, hlt | hr⟩)
            · exact ⟨o, hx, hle, .inl hlt⟩
            · exact ⟨o, hx, by omega, .inr (.inl ⟨hle, by omega⟩)⟩
            · exact ⟨o, hx, by omega, .inr (.inr hr)⟩
          · rintro ⟨o, hx, hle, hlt | ⟨hle', hlt⟩ | ⟨r, hr, hshare⟩⟩
            · exact .inl ⟨o, hx, hle, hlt⟩
            · exact .inr ⟨o, hx, hle', .inl (by omega)⟩
            · refine .inr ⟨o, hx, ?_, .inr ⟨r, hr, hshare⟩⟩
              have hqr := hq r hr
              have hheld := hshare.1
              simp only [Le, Holds] at hqr hheld
              omega
        · have hqr := hq r hr
          simp only [Le] at hqr
          omega
      · next hjoin =>
        rw [ih hlater hle' hoffset (fun r hr => hfirst r (List.mem_cons_of_mem _ hr)) (by omega) (by omega)]
        refine exists_congr fun o => and_congr_right fun _ => and_congr_right fun hge => ?_
        rw [← or_assoc]
        refine or_congr_left ?_
        omega
    · next hbreak =>
      rw [covers_emit hoffset]
      refine exists_congr fun o => and_congr_right fun _ => and_congr_right fun hge => ?_
      refine (or_iff_left_of_imp ?_).symm
      rintro ⟨r, hr, hheld, hend⟩
      -- the pieces that the loop does not reach hold nothing more
      have hpq := hle q List.mem_cons_self
      have hqr : q.file < r.file ∨ q.file = r.file ∧ q.offset ≤ r.offset := by
        rcases List.mem_cons.mp hr with rfl | hr
        · exact .inr ⟨rfl, Nat.le_refl _⟩
        · exact hq r hr
      simp only [Le, Holds] at hpq hheld
      omega

def Piece.Ends (seen : List Piece) (file : Option ℕ) (previousEnd : ℕ) : Prop :=
  ∀ p : Piece, (∀ q ∈ seen, q.Le p) →
    ∀ o, (o < if file = some p.file then previousEnd else 0) ↔ ∃ q ∈ seen, q.file = p.file ∧ o < q.offsetEnd

theorem Piece.Ends.nil : Piece.Ends [] none 0 := fun p _ o => by simp

theorem Piece.Ends.concat {file : Option ℕ} {previousEnd : ℕ} (h : Piece.Ends seen file previousEnd)
    (hle : ∀ q ∈ seen, q.Le p) :
    Piece.Ends (seen ++ [p]) (some p.file) (max (if file = some p.file then previousEnd else 0) p.offsetEnd) := by
  intro p' hle' o
  have hpp' := hle' p (List.mem_append_right _ (List.mem_singleton_self _))
  simp only [List.mem_append, List.mem_singleton, or_and_right, exists_or, exists_eq_left]
  by_cases hfile : p.file = p'.file
  · rw [if_pos (congrArg some hfile), lt_max_iff, h p hle o, hfile]
    simp only [true_and]
  · rw [if_neg (fun heq => hfile (Option.some.inj heq))]
    refine iff_of_false (Nat.not_lt_zero _) ?_
    rintro (⟨q, hq, hfile', -⟩ | ⟨hfile', -⟩)
    · have hqp := hle q hq
      simp only [Le] at hqp hpp'
      omega
    · exact hfile hfile'

/-- **The outer loop** finds the addresses of every piece whose byte another piece holds. -/
theorem Piece.covers_findFrom {file : Option ℕ} {previousEnd : ℕ} {l : List Piece}
    (hends : Piece.Ends seen file previousEnd) (hsorted : (seen ++ l).Pairwise Piece.Le) (hnodup : (seen ++ l).Nodup) :
    Spans (findFrom file previousEnd l) x ↔
      ∃ p ∈ l, ∃ o, p.Maps x p.file o ∧ ∃ q ∈ seen ++ l, q ≠ p ∧ q.Holds p.file o := by
  induction l generalizing seen file previousEnd with
  | nil => simp [findFrom, spans_nil]
  | cons p later ih =>
    obtain ⟨-, hback, hcross⟩ := List.pairwise_append.mp hsorted
    obtain ⟨hp, hlater⟩ := List.pairwise_cons.mp hback
    have hseen : ∀ q ∈ seen, q.Le p := fun q hq => hcross q hq p List.mem_cons_self
    have heq : seen ++ p :: later = (seen ++ [p]) ++ later := by simp
    have hrest := ih (hends.concat hseen) (heq ▸ hsorted) (heq ▸ hnodup)
    rw [findFrom, spans_append, hrest, ← heq, List.exists_mem_cons_iff]
    refine or_congr_left ?_
    have hlt := p.offset_lt
    rw [covers_sweepLater hlater hp (Nat.le_refl _) (fun q hq hfile => ?_) (by omega) (Nat.min_le_left _ _)]
    · refine exists_congr fun o => ?_
      have hprev := hends p hseen o
      -- the pieces in front all begin at the offset of `p` or before
      have hfront : p.offset ≤ o → ((∃ q ∈ seen, q.Holds p.file o) ↔
          ∃ q ∈ seen, q.file = p.file ∧ o < q.offsetEnd) := fun hge =>
        exists_congr fun q => and_congr_right fun hq => by
          have hqp := hseen q hq
          simp only [Le, Holds] at hqp ⊢
          omega
      have hothers : (∃ q ∈ seen ++ p :: later, q ≠ p ∧ q.Holds p.file o) ↔
          (∃ q ∈ seen, q.Holds p.file o) ∨ ∃ q ∈ later, q.Holds p.file o := by
        have hnot := (List.nodup_middle.mp hnodup)
        rw [List.nodup_cons, List.mem_append, not_or] at hnot
        constructor
        · rintro ⟨q, hq, hne, hheld⟩
          rcases List.mem_append.mp hq with hq | hq
          · exact .inl ⟨q, hq, hheld⟩
          · exact .inr ⟨q, (List.mem_cons.mp hq).resolve_left hne, hheld⟩
        · rintro (⟨q, hq, hheld⟩ | ⟨q, hq, hheld⟩)
          · exact ⟨q, List.mem_append_left _ hq, fun h => hnot.1.1 (h ▸ hq), hheld⟩
          · exact ⟨q, List.mem_append_right _ (List.mem_cons_of_mem _ hq), fun h => hnot.1.2 (h ▸ hq), hheld⟩
      rw [hothers]
      simp only [Maps, Holds, Shares, true_and] at hfront ⊢
      constructor
      · rintro ⟨hx, hge, hin | ⟨q, hq, hheld, hend⟩⟩
        · exact ⟨⟨⟨hge, by omega⟩, hx⟩, .inl ((hfront hge).mpr (hprev.mp (by omega)))⟩
        · exact ⟨⟨⟨hge, hend⟩, hx⟩, .inr ⟨q, hq, hheld⟩⟩
      · rintro ⟨⟨⟨hge, hend⟩, hx⟩, hq | ⟨q, hq, hheld⟩⟩
        · have hin := hprev.mpr ((hfront hge).mp hq)
          exact ⟨hx, hge, .inl (by omega)⟩
        · exact ⟨hx, hge, .inr ⟨q, hq, hheld, hend⟩⟩
    · have hpq := hp q hq
      simp only [Le] at hpq
      omega

theorem Piece.nonempty_emit (hfirst : p.offset ≤ first) : ∀ r ∈ p.emit first stop, r.1 < r.2 := by
  intro r hr
  unfold emit at hr
  split at hr
  · rw [List.mem_singleton.mp hr]
    dsimp only
    omega
  · cases hr

theorem Piece.nonempty_sweepLater (hle : ∀ q ∈ later, p.Le q) (hfirst : p.offset ≤ first) :
    ∀ r ∈ p.sweepLater first stop later, r.1 < r.2 := by
  induction later generalizing first stop with
  | nil => exact nonempty_emit hfirst
  | cons q later ih =>
    have hle' : ∀ r ∈ later, p.Le r := fun r hr => hle r (List.mem_cons_of_mem _ hr)
    intro r hr
    unfold sweepLater at hr
    split at hr
    · next hmeet =>
      dsimp only at hr
      split at hr
      · rcases List.mem_append.mp hr with hr | hr
        · exact nonempty_emit hfirst r hr
        · refine ih hle' ?_ r hr
          have hpq := hle q List.mem_cons_self
          simp only [Le] at hpq
          omega
      · exact ih hle' hfirst r hr
    · exact nonempty_emit hfirst r hr

theorem Piece.nonempty_findFrom {file : Option ℕ} {previousEnd : ℕ} {l : List Piece} (hsorted : l.Pairwise Piece.Le) :
    ∀ r ∈ findFrom file previousEnd l, r.1 < r.2 := by
  induction l generalizing file previousEnd with
  | nil => intro r hr; cases hr
  | cons p later ih =>
    obtain ⟨hp, hlater⟩ := List.pairwise_cons.mp hsorted
    intro r hr
    rcases List.mem_append.mp hr with hr | hr
    · exact nonempty_sweepLater hp (Nat.le_refl _) r hr
    · exact ih hlater r hr

end Sweep

/-! ## What is found -/

theorem sweeps_mergeRange (merged : List Stretch) (r : Stretch) (_ : r.1 < r.2) : Sweeps r merged (mergeRange merged r) := by
  rcases List.eq_nil_or_concat' merged with rfl | ⟨front, back, rfl⟩
  · exact .push fun last hlast => by cases hlast
  · simp only [mergeRange, List.getLast?_concat, List.dropLast_concat]
    split
    · next hmeet => exact .extend hmeet
    · next hgap =>
      refine .push fun last hlast => ?_
      rw [List.getLast?_concat, Option.mem_some_iff] at hlast
      rw [← hlast]
      omega

section Aliased

variable {pieces : List Piece} {p q : Piece} {x : ℕ}

theorem Piece.Apart.symm (h : p.Apart q) : q.Apart p := Or.symm h

theorem Piece.Maps.has {file o : ℕ} (h : p.Maps x file o) : p.addresses.Has x := by
  obtain ⟨⟨-, hle, hlt⟩, rfl⟩ := h
  constructor
  · dsimp only [addresses]
    omega
  · dsimp only [addresses]
    omega

theorem Piece.Apart.irrefl : ¬p.Apart p := by
  intro h
  have hlt := p.offset_lt
  simp only [Apart, addresses] at h
  omega

/-- **Aliasing** is between two pieces, since one piece maps no byte twice. -/
theorem aliased_iff (hapart : pieces.Pairwise Piece.Apart) :
    Aliased pieces x ↔ ∃ p ∈ pieces, ∃ o, p.Maps x p.file o ∧ ∃ q ∈ pieces, q ≠ p ∧ q.Holds p.file o := by
  constructor
  · rintro ⟨file, o, ⟨p, hp, hx⟩, y, hne, q, hq, hy⟩
    obtain rfl := hx.1.1
    refine ⟨p, hp, o, hx, q, hq, fun heq => ?_, hy.1⟩
    exact hne (by rw [hy.2, hx.2, heq])
  · rintro ⟨p, hp, o, hx, q, hq, hne, hheld⟩
    refine ⟨p.file, o, ⟨p, hp, hx⟩, q.va + (o - q.offset), fun heq => ?_, q, hq, hheld, rfl⟩
    have : Std.Symm Piece.Apart := ⟨fun _ _ => Piece.Apart.symm⟩
    have hpq : q.Apart p := hapart.forall hq hp hne
    have hx' := hx.has
    have hy' : q.addresses.Has x := Piece.Maps.has ⟨hheld, heq.symm⟩
    simp only [Piece.Apart, Stretch.Has] at hpq hx' hy'
    omega

variable (sortPieces : Sorter Piece.Le) (sortRanges : Sorter fun a b : Stretch => a.1 ≤ b.1)

/-- **What is found** is laid, and covers the aliased addresses. -/
theorem findAliased_covers (hapart : pieces.Pairwise Piece.Apart) : Laid (findAliased sortPieces sortRanges pieces) ∧
      ∀ x, Spans (findAliased sortPieces sortRanges pieces) x ↔ Aliased pieces x := by
  have hperm := sortPieces.perm pieces
  have hsorted := sortPieces.sorted pieces
  have hnodup : (sortPieces.sort pieces).Nodup := by
    refine hperm.nodup_iff.mpr (List.nodup_iff_pairwise_ne.mpr (hapart.imp ?_))
    rintro a _ hab rfl
    exact Piece.Apart.irrefl hab
  have hne : ∀ r ∈ Piece.findFrom none 0 (sortPieces.sort pieces), r.1 < r.2 := Piece.nonempty_findFrom hsorted
  have hperm' := sortRanges.perm (Piece.findFrom none 0 (sortPieces.sort pieces))
  have hnil : Swept [] 0 (id []) := Swept.nil
  obtain ⟨lo, hswept⟩ := Swept.run id id mergeRange sweeps_mergeRange _
    (sortRanges.sorted (Piece.findFrom none 0 (sortPieces.sort pieces)))
    (fun r hr => hne r (hperm'.mem_iff.mp hr)) hnil fun _ _ => Nat.zero_le _
  refine ⟨hswept.laid, fun x => ?_⟩
  have hcovers := hswept.covers x
  simp only [id_eq, List.map_id_fun, List.nil_append] at hcovers
  rw [findAliased, hcovers, spans_perm hperm', Piece.covers_findFrom Piece.Ends.nil hsorted hnodup, aliased_iff hapart]
  simp only [List.nil_append, hperm.mem_iff]

/-- **The aliases of direct memory**: the ranges found are in order, not empty and disjoint, and a search in them
for an interval that is not empty says whether one of its addresses is aliased. -/
theorem findAliased_spec (hapart : pieces.Pairwise Piece.Apart) : Laid (findAliased sortPieces sortRanges pieces) ∧
      ∀ a b, a < b → (overlaps (findAliased sortPieces sortRanges pieces) a b = true ↔
        ∃ x, a ≤ x ∧ x < b ∧ Aliased pieces x) := by
  obtain ⟨hlaid, hcovers⟩ := findAliased_covers sortPieces sortRanges hapart
  refine ⟨hlaid, fun a b hlt => ?_⟩
  rw [overlaps_iff hlaid hlt]
  simp only [hcovers]

end Aliased

/-! ## One file at two addresses -/

def piecesByInsertion : Sorter Piece.Le :=
  have : DecidableRel Piece.Le := fun a b => inferInstanceAs (Decidable (_ ∨ _ ∧ _))
  Sorter.insertion Piece.Le (fun a b => by unfold Piece.Le; omega) fun a b c => by unfold Piece.Le; omega

def rangesByInsertion : Sorter fun a b : Stretch => a.1 ≤ b.1 :=
  Sorter.insertion _ (fun a b => Nat.le_total a.1 b.1) fun _ _ _ => Nat.le_trans

theorem zero_lt_eight : 0 < 8 := by decide

def twoViews : List Piece := [⟨1, 0, 8, 0, zero_lt_eight⟩, ⟨1, 0, 8, 16, zero_lt_eight⟩]

theorem twoViews_apart : twoViews.Pairwise Piece.Apart := by
  simp [twoViews, Piece.Apart, Piece.addresses]

theorem findAliased_spec_twoViews :
    twoViews.Pairwise Piece.Apart ∧ overlaps (findAliased piecesByInsertion rangesByInsertion twoViews) 4 5 = true ∧
      ∃ x, 4 ≤ x ∧ x < 5 ∧ Aliased twoViews x := by
  have hspec := (findAliased_spec piecesByInsertion rangesByInsertion twoViews_apart).2 4 5 (by decide)
  have hfound : overlaps (findAliased piecesByInsertion rangesByInsertion twoViews) 4 5 = true := by decide
  exact ⟨twoViews_apart, hfound, hspec.mp hfound⟩

/-- The search also finds an empty interval that lies inside an aliased range. -/
theorem overlaps_empty_interval :
    ¬∀ (sortPieces : Sorter Piece.Le) (sortRanges : Sorter fun a b : Stretch => a.1 ≤ b.1) (pieces : List Piece),
      pieces.Pairwise Piece.Apart → ∀ a b, overlaps (findAliased sortPieces sortRanges pieces) a b = true ↔
        ∃ x, a ≤ x ∧ x < b ∧ Aliased pieces x := by
  intro h
  have hfound : overlaps (findAliased piecesByInsertion rangesByInsertion twoViews) 4 4 = true := by decide
  obtain ⟨x, hle, hlt, -⟩ := (h piecesByInsertion rangesByInsertion twoViews twoViews_apart 4 4).mp hfound
  omega

end Prosperity.Gpu
