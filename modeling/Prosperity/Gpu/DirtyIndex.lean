import Mathlib.Data.List.AList
import Mathlib.Data.List.Dedup
import Mathlib.Data.List.Sort
import Mathlib.Order.Interval.Set.Defs
import Prosperity.Gpu.GuestPageTable

/-!
# The index of the dirty ranges

A base keeps the largest footprint it was indexed with, and every page of that footprint lists it once. A query
walks its own pages or all listed pages, whichever are fewer, and rechecks what it finds. The filter of the
page table is a count of the footprints on a block, taken as exact.
-/

namespace Prosperity.Gpu

open GuestPageTable (Touches ShareBlock kBlockShift)

def kCsDirtyPageShift : ℕ := 16

def rangeEnd (base bytes : UInt64) : UInt64 :=
  if bytes > 0xFFFFFFFFFFFFFFFF - base then 0xFFFFFFFFFFFFFFFF else base + bytes

structure DirtyIndex where
  bases : ℕ → Option ℕ
  pages : AList fun _ : ℕ => List ℕ
  /-- The footprints the filter counts. -/
  noted : List (ℕ × ℕ)

namespace DirtyIndex

theorem shareBlock_iff {r s : ℕ × ℕ} : ShareBlock r s ↔ r.1 < r.2 ∧ s.1 < s.2 ∧
    r.1 >>> kBlockShift ≤ (s.2 - 1) >>> kBlockShift ∧ s.1 >>> kBlockShift ≤ (r.2 - 1) >>> kBlockShift := by
  constructor
  · rintro ⟨block, ⟨hr, hrl, hru⟩, hs, hsl, hsu⟩
    exact ⟨hr, hs, Nat.le_trans hrl hsu, Nat.le_trans hsl hru⟩
  · rintro ⟨hr, hs, hrs, hsr⟩
    have hrr : r.1 >>> kBlockShift ≤ (r.2 - 1) >>> kBlockShift := shiftRight_mono (by omega) _
    have hss : s.1 >>> kBlockShift ≤ (s.2 - 1) >>> kBlockShift := shiftRight_mono (by omega) _
    exact ⟨max (r.1 >>> kBlockShift) (s.1 >>> kBlockShift),
      ⟨hr, Nat.le_max_left _ _, Nat.max_le.mpr ⟨hrr, hsr⟩⟩, hs, Nat.le_max_right _ _, Nat.max_le.mpr ⟨hrs, hss⟩⟩

instance (r s : ℕ × ℕ) : Decidable (ShareBlock r s) := decidable_of_iff _ shareBlock_iff.symm

def empty : DirtyIndex := ⟨fun _ => none, ∅, []⟩

variable (s : DirtyIndex)

def dirtyFilterClear (base end_ : ℕ) : Bool := s.noted.all fun r => !decide (ShareBlock r (base, end_))

def basesAt (page : ℕ) : List ℕ := (s.pages.lookup page).getD []

def pageRange (first last : ℕ) : List ℕ := List.range' first (last + 1 - first)

def pushPage (base : ℕ) (pages : AList fun _ : ℕ => List ℕ) (page : ℕ) : AList fun _ : ℕ => List ℕ :=
  pages.insert page ((pages.lookup page).getD [] ++ [base])

def erasePage (base : ℕ) (pages : AList fun _ : ℕ => List ℕ) (page : ℕ) : AList fun _ : ℕ => List ℕ :=
  match pages.lookup page with
  | none => pages
  | some bases =>
    let kept := bases.filter (· ≠ base)
    if kept = [] then pages.erase page else pages.insert page kept

def indexDirtyRange (base bytes : UInt64) : DirtyIndex :=
  if bytes = 0 then s
  else
    let end_ := (rangeEnd base bytes).toNat
    let indexed := (s.bases base.toNat).getD 0
    if end_ ≤ indexed then { s with bases := Function.update s.bases base.toNat (some indexed) }
    else
      let firstPage := if indexed ≠ 0 then (indexed - 1) >>> kCsDirtyPageShift + 1
        else base.toNat >>> kCsDirtyPageShift
      let noted := if indexed ≠ 0 then s.noted.erase (base.toNat, indexed) else s.noted
      { bases := Function.update s.bases base.toNat (some end_)
        noted := (base.toNat, end_) :: noted
        pages := (pageRange firstPage ((end_ - 1) >>> kCsDirtyPageShift)).foldl (pushPage base.toNat) s.pages }

def unindexDirtyRange (base bytes : UInt64) : DirtyIndex :=
  if bytes = 0 then s
  else
    let own := (rangeEnd base bytes).toNat
    let end_ := match s.bases base.toNat with
      | some found => max own found
      | none => own
    { bases := Function.update s.bases base.toNat none
      noted := match s.bases base.toNat with
        | some found => s.noted.erase (base.toNat, found)
        | none => s.noted
      pages := (pageRange (base.toNat >>> kCsDirtyPageShift) ((end_ - 1) >>> kCsDirtyPageShift)).foldl
        (erasePage base.toNat) s.pages }

/-! ## Queries -/

def candidates (base end_ : ℕ) : List ℕ :=
  let firstPage := base >>> kCsDirtyPageShift
  let lastPage := (end_ - 1) >>> kCsDirtyPageShift
  if lastPage - firstPage + 1 > s.pages.entries.length then s.pages.entries.flatMap (·.2)
  else (pageRange firstPage lastPage).flatMap s.basesAt

/-- `dirty` says of which bases there is a range marked `gpu_dirty`. -/
def hits (dirty : ℕ → Bool) (base end_ other : ℕ) : Bool :=
  match s.bases other with
  | none => false
  | some indexed => !(end_ ≤ other || indexed ≤ base) && dirty other

/-- The offers until `fn` is satisfied; `fn` sees all of them. -/
def offer (hit : ℕ → Bool) (fn : List ℕ → Bool) (seen : List ℕ) : List ℕ → List ℕ × Bool
  | [] => (seen, false)
  | other :: rest =>
    if hit other then
      if fn (seen ++ [other]) then (seen ++ [other], true) else offer hit fn (seen ++ [other]) rest
    else offer hit fn seen rest

def anyDirtyOverlapping (dirty : ℕ → Bool) (base bytes : UInt64) (fn : List ℕ → Bool) : List ℕ × Bool :=
  if s.pages.entries = [] ∨ bytes = 0 then ([], false)
  else
    let end_ := (rangeEnd base bytes).toNat
    if s.dirtyFilterClear base.toNat end_ then ([], false)
    else offer (s.hits dirty base.toNat end_) fn [] (s.candidates base.toNat end_)

def dirtyRangesOverlapping (dirty : ℕ → Bool) (base bytes exclude : UInt64) : List ℕ :=
  if bytes = 0 then []
  else
    let end_ := (rangeEnd base bytes).toNat
    if s.dirtyFilterClear base.toNat end_ then []
    else (((s.candidates base.toNat end_).mergeSort (· ≤ ·)).dedup).filter fun other =>
      other ≠ exclude.toNat ∧ s.hits dirty base.toNat end_ other

/-! ## Histories -/

inductive DirtyOp
  | index (base bytes : UInt64)
  | unindex (base bytes : UInt64)

def apply (s : DirtyIndex) : DirtyOp → DirtyIndex
  | .index base bytes => s.indexDirtyRange base bytes
  | .unindex base bytes => s.unindexDirtyRange base bytes

/-- The largest end a base was indexed with since it was last removed. -/
def footprintAfter (f : ℕ → Option ℕ) : DirtyOp → ℕ → Option ℕ
  | .index base bytes => if bytes = 0 then f
    else Function.update f base.toNat (some (max ((f base.toNat).getD 0) (rangeEnd base bytes).toNat))
  | .unindex base bytes => if bytes = 0 then f else Function.update f base.toNat none

def footprints (ops : List DirtyOp) : ℕ → Option ℕ := ops.foldl footprintAfter fun _ => none

def OnPage (base end_ page : ℕ) : Prop :=
  base >>> kCsDirtyPageShift ≤ page ∧ page ≤ (end_ - 1) >>> kCsDirtyPageShift

structure Sound (s : DirtyIndex) : Prop where
  proper : ∀ b e, s.bases b = some e → b ≤ e ∧ 0 < e ∧ e < 2 ^ 64 ∧ (b = e → e = 2 ^ 64 - 1)
  noted_nodup : s.noted.Nodup
  noted_iff : ∀ b e, (b, e) ∈ s.noted ↔ s.bases b = some e
  listed_nodup : ∀ page, (s.basesAt page).Nodup
  listed_iff : ∀ page b, b ∈ s.basesAt page ↔ ∃ e, s.bases b = some e ∧ OnPage b e page

/-! ## The pages -/

variable {s : DirtyIndex} {base bytes : UInt64} {b e page first last : ℕ}

theorem mem_pageRange : page ∈ pageRange first last ↔ first ≤ page ∧ page ≤ last := by
  rw [pageRange, List.mem_range'_1]
  omega

theorem pageRange_nodup : (pageRange first last).Nodup := List.nodup_range'

theorem basesAt_push (b : ℕ) {l : List ℕ} (hl : l.Nodup) (page : ℕ) :
    basesAt { s with pages := l.foldl (pushPage b) s.pages } page =
      if page ∈ l then s.basesAt page ++ [b] else s.basesAt page := by
  induction l generalizing s with
  | nil => rfl
  | cons p rest ih =>
    obtain ⟨hp, hrest⟩ := List.nodup_cons.mp hl
    have htail := @ih { s with pages := pushPage b s.pages p } hrest
    rw [List.foldl_cons]
    refine htail.trans ?_
    by_cases hpage : page = p
    · subst hpage
      rw [if_neg hp, if_pos List.mem_cons_self, basesAt, pushPage, AList.lookup_insert]
      rfl
    · have hkept : basesAt { s with pages := pushPage b s.pages p } page = s.basesAt page := by
        rw [basesAt, pushPage, AList.lookup_insert_ne hpage]
        rfl
      simp only [hkept, List.mem_cons, hpage, false_or]

theorem basesAt_erase (b : ℕ) (l : List ℕ) (page : ℕ) : basesAt { s with pages := l.foldl (erasePage b) s.pages } page =
      if page ∈ l then (s.basesAt page).filter (· ≠ b) else s.basesAt page := by
  have hone (s : DirtyIndex) (p : ℕ) : basesAt { s with pages := erasePage b s.pages p } page =
      if page = p then (s.basesAt page).filter (· ≠ b) else s.basesAt page := by
    rw [basesAt, basesAt, erasePage]
    cases hlook : s.pages.lookup p with
    | none =>
      by_cases hpage : page = p
      · subst hpage
        simp [hlook]
      · simp [hpage]
    | some bases =>
      by_cases hpage : page = p
      · rw [if_pos hpage, hpage, hlook]
        dsimp only
        split
        · rename_i hnone
          rw [AList.lookup_erase, Option.getD_some, hnone]
          rfl
        · rw [AList.lookup_insert]
          rfl
      · rw [if_neg hpage]
        dsimp only
        split
        · rw [AList.lookup_erase_ne hpage]
        · rw [AList.lookup_insert_ne hpage]
  induction l generalizing s with
  | nil => rfl
  | cons p rest ih =>
    rw [List.foldl_cons]
    refine (@ih { s with pages := erasePage b s.pages p }).trans ?_
    rw [hone]
    by_cases hpage : page = p
    · simp [hpage]
    · simp [hpage]

theorem rangeEnd_spec (base : UInt64) (h : bytes ≠ 0) : base.toNat ≤ (rangeEnd base bytes).toNat ∧
    0 < (rangeEnd base bytes).toNat ∧ (base.toNat = (rangeEnd base bytes).toNat → (rangeEnd base bytes).toNat = 2 ^ 64 - 1) := by
  have hbase := base.toNat_lt
  have hbytes := bytes.toNat_lt
  have hpos : bytes.toNat ≠ 0 := fun hz => h (UInt64.toNat_inj.mp hz)
  have hmax : (0xFFFFFFFFFFFFFFFF : UInt64).toNat = 2 ^ 64 - 1 := rfl
  have hrest : (0xFFFFFFFFFFFFFFFF - base).toNat = 2 ^ 64 - 1 - base.toNat := by
    rw [UInt64.toNat_sub_of_le, hmax]
    rw [UInt64.le_iff_toNat_le, hmax]
    omega
  rw [rangeEnd]
  split
  · rw [hmax]
    omega
  · rename_i hle
    rw [gt_iff_lt, UInt64.lt_iff_toNat_lt, hrest] at hle
    rw [UInt64.toNat_add]
    omega

/-! ## Every history is sound -/

theorem noted_without (h : s.Sound) (b : ℕ) : ∃ rest, (match s.bases b with
      | some found => s.noted.erase (b, found)
      | none => s.noted) = rest ∧ rest.Nodup ∧ ∀ c e, (c, e) ∈ rest ↔ c ≠ b ∧ s.bases c = some e := by
  refine ⟨_, rfl, ?_⟩
  cases hold : s.bases b with
  | none =>
    refine ⟨h.noted_nodup, fun c e => ?_⟩
    rw [h.noted_iff, and_iff_right_of_imp]
    rintro he rfl
    exact absurd (hold.symm.trans he) (Option.some_ne_none e).symm
  | some found =>
    refine ⟨h.noted_nodup.erase _, fun c e => ?_⟩
    rw [h.noted_nodup.mem_erase_iff, h.noted_iff, Ne, Prod.mk.injEq]
    constructor
    · rintro ⟨hne, he⟩
      refine ⟨?_, he⟩
      rintro rfl
      exact hne ⟨rfl, Option.some.inj (he.symm.trans hold)⟩
    · rintro ⟨hne, he⟩
      exact ⟨fun heq => hne heq.1, he⟩

/-- A footprint that grows: the pages it had keep the base, and those from `first` on get it. -/
theorem Sound.grow (h : s.Sound) (hle : b ≤ e) (hpos : 0 < e) (hlt : e < 2 ^ 64) (hsat : b = e → e = 2 ^ 64 - 1)
    {rest : List (ℕ × ℕ)} (hrest : rest.Nodup) (hmem : ∀ c e, (c, e) ∈ rest ↔ c ≠ b ∧ s.bases c = some e)
    (hpages : ∀ page, OnPage b e page ↔ b ∈ s.basesAt page ∨ (first ≤ page ∧ page ≤ (e - 1) >>> kCsDirtyPageShift))
    (hnew : ∀ page, first ≤ page → b ∉ s.basesAt page) : Sound ⟨Function.update s.bases b (some e),
      (pageRange first ((e - 1) >>> kCsDirtyPageShift)).foldl (pushPage b) s.pages, (b, e) :: rest⟩ := by
  have hupdate (c e' : ℕ) : Function.update s.bases b (some e) c = some e' ↔
      c = b ∧ e = e' ∨ c ≠ b ∧ s.bases c = some e' := by
    by_cases hc : c = b
    · rw [hc, Function.update_self]
      simp
    · rw [Function.update_of_ne hc]
      simp [hc]
  have hat := @basesAt_push s b _ (@pageRange_nodup first ((e - 1) >>> kCsDirtyPageShift))
  refine ⟨fun c e' he => ?_, ?_, fun c e' => ?_, fun page => ?_, fun page c => ?_⟩
  · rcases (hupdate c e').mp he with ⟨rfl, rfl⟩ | ⟨-, hold⟩
    · exact ⟨hle, hpos, hlt, hsat⟩
    · exact h.proper c e' hold
  · exact List.nodup_cons.mpr ⟨fun hin => ((hmem b e).mp hin).1 rfl, hrest⟩
  · rw [List.mem_cons, hmem, hupdate, Prod.mk.injEq, @eq_comm _ e' e]
  · refine Eq.mpr (congrArg _ (hat page)) ?_
    split
    · rename_i hin
      have hnot := hnew page (mem_pageRange.mp hin).1
      exact List.nodup_append.mpr ⟨h.listed_nodup page, List.nodup_singleton b, fun x hx y hy heq =>
        hnot (List.mem_singleton.mp hy ▸ heq ▸ hx)⟩
    · exact h.listed_nodup page
  · refine Iff.trans (iff_of_eq (congrArg (c ∈ ·) (hat page))) ?_
    have hnewIff : (∃ e', Function.update s.bases b (some e) c = some e' ∧ OnPage c e' page) ↔
        c = b ∧ OnPage b e page ∨ c ≠ b ∧ c ∈ s.basesAt page := by
      simp only [hupdate, h.listed_iff]
      constructor
      · rintro ⟨e', ⟨rfl, rfl⟩ | ⟨hc, hold⟩, hon⟩
        · exact .inl ⟨rfl, hon⟩
        · exact .inr ⟨hc, e', hold, hon⟩
      · rintro (⟨rfl, hon⟩ | ⟨hc, e', hold, hon⟩)
        · exact ⟨e, .inl ⟨rfl, rfl⟩, hon⟩
        · exact ⟨e', .inr ⟨hc, hold⟩, hon⟩
    refine Iff.trans ?_ hnewIff.symm
    rw [hpages, ← mem_pageRange]
    by_cases hc : c = b
    · subst hc
      split <;> simp_all
    · split <;> simp [hc]

theorem Sound.index (h : s.Sound) (base bytes : UInt64) : (s.indexDirtyRange base bytes).Sound ∧
    (s.indexDirtyRange base bytes).bases = footprintAfter s.bases (.index base bytes) := by
  rw [indexDirtyRange, footprintAfter]
  by_cases hzero : bytes = 0
  · rw [if_pos hzero, if_pos hzero]
    exact ⟨h, rfl⟩
  obtain ⟨hbase, hpos, hsat⟩ := rangeEnd_spec base hzero
  have hlt := (rangeEnd base bytes).toNat_lt
  rw [if_neg hzero, if_neg hzero]
  generalize (rangeEnd base bytes).toNat = end_ at *
  generalize base.toNat = b at *
  obtain ⟨rest, hnoted, hnodup, hmem⟩ := noted_without h b
  dsimp only
  cases hold : s.bases b with
  | none =>
    have hunlisted : ∀ page, b ∉ s.basesAt page := by
      intro page hin
      obtain ⟨e, he, -⟩ := (h.listed_iff page b).mp hin
      exact absurd (hold.symm.trans he) (Option.some_ne_none e).symm
    rw [hold] at hnoted
    rw [Option.getD_none, if_neg (by omega), if_neg (by decide), if_neg (by decide), Nat.max_eq_right (Nat.zero_le _)]
    dsimp only at hnoted ⊢
    rw [hnoted]
    refine ⟨h.grow hbase hpos hlt hsat hnodup hmem (fun page => ?_) fun page _ => hunlisted page, rfl⟩
    rw [or_iff_right (hunlisted page)]
    rfl
  | some e =>
    obtain ⟨hbe, hepos, helt, hesat⟩ := h.proper b e hold
    rw [hold] at hnoted
    rw [Option.getD_some]
    by_cases hle : end_ ≤ e
    · have hsame : Function.update s.bases b (some e) = s.bases := by rw [← hold, Function.update_eq_self]
      rw [if_pos hle, Nat.max_eq_left hle, hsame]
      exact ⟨h, rfl⟩
    · have hlisted (page : ℕ) : b ∈ s.basesAt page ↔ OnPage b e page := by
        rw [h.listed_iff, hold]
        simp
      have hlow : b >>> kCsDirtyPageShift ≤ (e - 1) >>> kCsDirtyPageShift := shiftRight_mono (by omega) _
      have hhigh : (e - 1) >>> kCsDirtyPageShift ≤ (end_ - 1) >>> kCsDirtyPageShift := shiftRight_mono (by omega) _
      rw [if_neg hle, if_pos (by omega), if_pos (by omega), Nat.max_eq_right (by omega)]
      dsimp only at hnoted ⊢
      rw [hnoted]
      refine ⟨h.grow hbase hpos hlt hsat hnodup hmem (fun page => ?_) fun page hfirst => ?_, rfl⟩
      · rw [hlisted, OnPage, OnPage]
        omega
      · rw [hlisted, OnPage]
        omega

theorem Sound.unindex (h : s.Sound) (base bytes : UInt64) : (s.unindexDirtyRange base bytes).Sound ∧
    (s.unindexDirtyRange base bytes).bases = footprintAfter s.bases (.unindex base bytes) := by
  rw [unindexDirtyRange, footprintAfter]
  by_cases hzero : bytes = 0
  · rw [if_pos hzero, if_pos hzero]
    exact ⟨h, rfl⟩
  rw [if_neg hzero, if_neg hzero]
  obtain ⟨rest, hnoted, hnodup, hmem⟩ := noted_without h base.toNat
  dsimp only
  rw [hnoted]
  generalize hend : (match s.bases base.toNat with
    | some found => max (rangeEnd base bytes).toNat found
    | none => (rangeEnd base bytes).toNat) = end_
  generalize base.toNat = b at *
  have hat := @basesAt_erase s b (pageRange (b >>> kCsDirtyPageShift) ((end_ - 1) >>> kCsDirtyPageShift))
  have hupdate (c e : ℕ) : Function.update s.bases b none c = some e ↔ c ≠ b ∧ s.bases c = some e := by
    by_cases hc : c = b
    · rw [hc, Function.update_self]
      simp
    · rw [Function.update_of_ne hc]
      simp [hc]
  refine ⟨⟨fun c e he => ?_, hnodup, fun c e => ?_, fun page => ?_, fun page c => ?_⟩, rfl⟩
  · exact h.proper c e ((hupdate c e).mp he).2
  · rw [hmem, hupdate]
  · refine Eq.mpr (congrArg _ (hat page)) ?_
    split
    · exact (h.listed_nodup page).filter _
    · exact h.listed_nodup page
  · refine Iff.trans (iff_of_eq (congrArg (c ∈ ·) (hat page))) ?_
    simp only [hupdate, and_assoc, exists_and_left]
    rw [← h.listed_iff]
    split
    · rw [List.mem_filter, and_comm, decide_eq_true_iff]
    · rename_i hout
      rw [iff_and_self]
      rintro hin rfl
      -- the pages of the footprint are among those that were walked
      obtain ⟨e, he, hlow, hup⟩ := (h.listed_iff page c).mp hin
      rw [he] at hend
      have hle : e ≤ end_ := hend ▸ Nat.le_max_right _ _
      have hmono : (e - 1) >>> kCsDirtyPageShift ≤ (end_ - 1) >>> kCsDirtyPageShift := shiftRight_mono (by omega) _
      exact hout (mem_pageRange.mpr ⟨hlow, Nat.le_trans hup hmono⟩)

theorem sound_foldl (ops : List DirtyOp) (h : s.Sound) :
    (ops.foldl apply s).Sound ∧ (ops.foldl apply s).bases = ops.foldl footprintAfter s.bases := by
  induction ops generalizing s with
  | nil => exact ⟨h, rfl⟩
  | cons op rest ih =>
    have hstep : (apply s op).Sound ∧ (apply s op).bases = footprintAfter s.bases op := by
      cases op with
      | index base bytes => exact h.index base bytes
      | unindex base bytes => exact h.unindex base bytes
    rw [List.foldl_cons, List.foldl_cons, ← hstep.2]
    exact ih hstep.1

/-! ## The queries are exact -/

/-- The footprint of a dirty base meets `[base, end_)`. -/
def Meets (f : ℕ → Option ℕ) (dirty : ℕ → Bool) (base end_ b : ℕ) : Prop :=
  dirty b = true ∧ ∃ e, f b = some e ∧ (Set.Ico b e ∩ Set.Ico base end_).Nonempty

theorem meets_iff {f : ℕ → Option ℕ} {dirty : ℕ → Bool} {base end_ : ℕ} : Meets f dirty base end_ b ↔
    dirty b = true ∧ ∃ e, f b = some e ∧ b < e ∧ base < end_ ∧ b < end_ ∧ base < e := by
  simp only [Meets, Set.Nonempty, Set.mem_inter_iff, Set.mem_Ico]
  refine and_congr_right fun _ => exists_congr fun e => and_congr_right fun _ => ⟨?_, fun h => ?_⟩
  · rintro ⟨x, hx⟩
    omega
  · exact ⟨max b base, by omega⟩

theorem meets_zero {f : ℕ → Option ℕ} {dirty : ℕ → Bool} : ¬Meets f dirty base.toNat (rangeEnd base 0).toNat b := by
  intro hm
  obtain ⟨-, e, -, -, hlt, -⟩ := meets_iff.mp hm
  have hend : rangeEnd base 0 = base := by simp [rangeEnd]
  rw [hend] at hlt
  exact Nat.lt_irrefl _ hlt

theorem Sound.hits_iff (h : s.Sound) (hbytes : bytes ≠ 0) {dirty : ℕ → Bool} :
    s.hits dirty base.toNat (rangeEnd base bytes).toNat b = true ↔
      Meets s.bases dirty base.toNat (rangeEnd base bytes).toNat b := by
  obtain ⟨hle, -, hsat⟩ := rangeEnd_spec base hbytes
  have hlt := (rangeEnd base bytes).toNat_lt
  rw [meets_iff, hits]
  cases hb : s.bases b with
  | none => simp
  | some e =>
    have hproper := h.proper b e hb
    simp only [Bool.and_eq_true, Bool.not_eq_true', Bool.or_eq_false_iff, decide_eq_false_iff_not, Option.some.injEq,
      exists_eq_left']
    rw [and_comm, and_congr_right_iff]
    intro _
    omega

/-- Whatever is walked, what meets the query is among it. -/
theorem Sound.mem_candidates (h : s.Sound) {dirty : ℕ → Bool} {base end_ : ℕ}
    (hm : Meets s.bases dirty base end_ b) : b ∈ s.candidates base end_ := by
  obtain ⟨-, e, he, hbe, hq, hb, hbase⟩ := meets_iff.mp hm
  -- the page where the later of the two begins
  have hshared : ∃ page, OnPage b e page ∧ OnPage base end_ page := by
    refine ⟨max b base >>> kCsDirtyPageShift, ⟨?_, shiftRight_mono (by omega) _⟩, ?_, shiftRight_mono (by omega) _⟩
    · exact shiftRight_mono (Nat.le_max_left _ _) _
    · exact shiftRight_mono (Nat.le_max_right _ _) _
  obtain ⟨page, hon, hquery⟩ := hshared
  have hlisted : b ∈ s.basesAt page := (h.listed_iff page b).mpr ⟨e, he, hon⟩
  rw [candidates]
  split
  · rw [basesAt] at hlisted
    cases hlook : s.pages.lookup page with
    | none => simp [hlook] at hlisted
    | some bases =>
      rw [hlook] at hlisted
      exact List.mem_flatMap.mpr ⟨_, AList.mem_lookup_iff.mp hlook, hlisted⟩
  · exact List.mem_flatMap.mpr ⟨page, mem_pageRange.mpr hquery, hlisted⟩

/-- The filter lets no query pass that a footprint meets. -/
theorem Sound.filter_sound (h : s.Sound) {dirty : ℕ → Bool} {base end_ : ℕ}
    (hm : Meets s.bases dirty base end_ b) : s.dirtyFilterClear base end_ = false := by
  obtain ⟨-, e, he, hbe, hq, hb, hbase⟩ := meets_iff.mp hm
  refine List.all_eq_false.mpr ⟨(b, e), (h.noted_iff b e).mpr he, ?_⟩
  have hshare : ShareBlock (b, e) (base, end_) :=
    shareBlock_iff.mpr ⟨hbe, hq, shiftRight_mono (by omega) _, shiftRight_mono (by omega) _⟩
  simp [hshare]

theorem offer_spec (hit : ℕ → Bool) (fn : List ℕ → Bool) (seen l : List ℕ) :
    (∀ b ∈ (offer hit fn seen l).1, b ∈ seen ∨ b ∈ l ∧ hit b = true) ∧ seen ⊆ (offer hit fn seen l).1 ∧
      ((offer hit fn seen l).2 = false → ∀ b ∈ l, hit b = true → b ∈ (offer hit fn seen l).1) := by
  induction l generalizing seen with
  | nil => exact ⟨fun b hb => .inl hb, List.Subset.refl _, fun _ b hb => absurd hb List.not_mem_nil⟩
  | cons other rest ih =>
    rw [offer]
    by_cases hhit : hit other = true
    · rw [if_pos hhit]
      by_cases hfn : fn (seen ++ [other]) = true
      · rw [if_pos hfn]
        refine ⟨fun b hb => ?_, List.subset_append_left _ _, fun hno => by cases hno⟩
        rcases List.mem_append.mp hb with hb | hb
        · exact .inl hb
        · exact .inr ⟨List.mem_singleton.mp hb ▸ List.mem_cons_self, List.mem_singleton.mp hb ▸ hhit⟩
      · rw [if_neg hfn]
        obtain ⟨hsound, hkept, hall⟩ := ih (seen ++ [other])
        refine ⟨fun b hb => ?_, fun b hb => hkept (List.mem_append_left _ hb), fun hno b hb hb' => ?_⟩
        · rcases hsound b hb with hb | ⟨hb, hb'⟩
          · rcases List.mem_append.mp hb with hb | hb
            · exact .inl hb
            · exact .inr ⟨List.mem_singleton.mp hb ▸ List.mem_cons_self, List.mem_singleton.mp hb ▸ hhit⟩
          · exact .inr ⟨List.mem_cons_of_mem _ hb, hb'⟩
        · rcases List.mem_cons.mp hb with rfl | hb
          · exact hkept (List.mem_append_right _ List.mem_cons_self)
          · exact hall hno b hb hb'
    · rw [if_neg hhit]
      obtain ⟨hsound, hkept, hall⟩ := ih seen
      refine ⟨fun b hb => (hsound b hb).imp_right fun hb => ⟨List.mem_cons_of_mem _ hb.1, hb.2⟩, hkept,
        fun hno b hb hb' => ?_⟩
      rcases List.mem_cons.mp hb with rfl | hb
      · exact absurd hb' hhit
      · exact hall hno b hb hb'

def Offered (q : ℕ → Prop) (r : List ℕ × Bool) : Prop := (∀ b ∈ r.1, q b) ∧ (r.2 = false → ∀ b, q b → b ∈ r.1)

theorem Sound.any_exact (h : s.Sound) (dirty : ℕ → Bool) (base bytes : UInt64) (fn : List ℕ → Bool) :
    Offered (Meets s.bases dirty base.toNat (rangeEnd base bytes).toNat) (s.anyDirtyOverlapping dirty base bytes fn) := by
  have hnone (hno : ∀ b, ¬Meets s.bases dirty base.toNat (rangeEnd base bytes).toNat b) :
      Offered (Meets s.bases dirty base.toNat (rangeEnd base bytes).toNat) ([], false) :=
    ⟨fun b hb => absurd hb List.not_mem_nil, fun _ b hb => absurd hb (hno b)⟩
  rw [anyDirtyOverlapping]
  dsimp only
  split
  · rename_i hempty
    refine hnone fun b hm => ?_
    have hin := h.mem_candidates hm
    rcases hempty with hempty | rfl
    · rw [candidates, hempty] at hin
      simp at hin
    · exact meets_zero hm
  · rename_i hbytes
    obtain ⟨-, hbytes⟩ := not_or.mp hbytes
    split
    · rename_i hclear
      refine hnone fun b hm => ?_
      rw [h.filter_sound hm] at hclear
      exact Bool.false_ne_true hclear
    · obtain ⟨hsound, -, hall⟩ := offer_spec (s.hits dirty base.toNat (rangeEnd base bytes).toNat) fn []
        (s.candidates base.toNat (rangeEnd base bytes).toNat)
      refine ⟨fun b hb => ?_, fun hno b hm => hall hno b (h.mem_candidates hm) ((h.hits_iff hbytes).mpr hm)⟩
      rcases hsound b hb with hb | ⟨-, hb⟩
      · exact absurd hb List.not_mem_nil
      · exact (h.hits_iff hbytes).mp hb

theorem Sound.ranges_exact (h : s.Sound) (dirty : ℕ → Bool) (base bytes exclude : UInt64) :
    (s.dirtyRangesOverlapping dirty base bytes exclude).Pairwise (· < ·) ∧
      ∀ b, b ∈ s.dirtyRangesOverlapping dirty base bytes exclude ↔
        b ≠ exclude.toNat ∧ Meets s.bases dirty base.toNat (rangeEnd base bytes).toNat b := by
  rw [dirtyRangesOverlapping]
  by_cases hbytes : bytes = 0
  · rw [if_pos hbytes, hbytes]
    exact ⟨.nil, fun b => iff_of_false List.not_mem_nil fun hm => meets_zero hm.2⟩
  rw [if_neg hbytes]
  dsimp only
  split
  · rename_i hclear
    refine ⟨.nil, fun b => iff_of_false List.not_mem_nil fun hm => ?_⟩
    rw [h.filter_sound hm.2] at hclear
    exact Bool.false_ne_true hclear
  · constructor
    · apply List.Pairwise.filter
      have hsorted := List.pairwise_mergeSort' (r := (· ≤ ·)) (s.candidates base.toNat (rangeEnd base bytes).toNat)
      have hdistinct := List.nodup_dedup ((s.candidates base.toNat (rangeEnd base bytes).toNat).mergeSort (· ≤ ·))
      exact (hsorted.sublist (List.dedup_sublist _)).imp₂ (fun _ _ hle hne => Nat.lt_of_le_of_ne hle hne) hdistinct
    · intro b
      rw [List.mem_filter, List.mem_dedup, List.mem_mergeSort, decide_eq_true_iff, h.hits_iff hbytes]
      exact and_iff_right_of_imp fun hm => h.mem_candidates hm.2

theorem sound_empty : empty.Sound where
  proper _ _ he := by cases he
  noted_nodup := List.nodup_nil
  noted_iff _ _ := iff_of_false List.not_mem_nil (Option.some_ne_none _).symm
  listed_nodup _ := List.nodup_nil
  listed_iff _ _ := iff_of_false List.not_mem_nil fun ⟨_, he, _⟩ => by cases he

/-- **The index is exact after any history**: it keeps the largest footprint of every base, each page lists once
the bases whose footprint lies on it, and the queries find the dirty bases whose footprint meets theirs. -/
theorem dirty_index_exact (ops : List DirtyOp) (dirty : ℕ → Bool) (base bytes exclude : UInt64) (fn : List ℕ → Bool) :
    let s := ops.foldl apply empty
    s.bases = footprints ops ∧ (∀ page, (s.basesAt page).Nodup ∧
        ∀ b, b ∈ s.basesAt page ↔ ∃ e, footprints ops b = some e ∧ OnPage b e page) ∧
      Offered (Meets (footprints ops) dirty base.toNat (rangeEnd base bytes).toNat)
        (s.anyDirtyOverlapping dirty base bytes fn) ∧
      (s.dirtyRangesOverlapping dirty base bytes exclude).Pairwise (· < ·) ∧
      ∀ b, b ∈ s.dirtyRangesOverlapping dirty base bytes exclude ↔
        b ≠ exclude.toNat ∧ Meets (footprints ops) dirty base.toNat (rangeEnd base bytes).toNat b := by
  obtain ⟨hsound, hbases⟩ := sound_foldl ops sound_empty
  have hfoot : (ops.foldl apply empty).bases = footprints ops := hbases
  refine ⟨hfoot, fun page => ⟨hsound.listed_nodup page, fun b => ?_⟩, ?_, ?_⟩
  · rw [hsound.listed_iff, hfoot]
  · rw [← hfoot]
    exact hsound.any_exact dirty base bytes fn
  · rw [← hfoot]
    exact hsound.ranges_exact dirty base bytes exclude

end DirtyIndex

end Prosperity.Gpu
