import Prosperity.Foundations.IntervalTables

/-!
# Is a range of guest memory readable

`IsReadableRange` reads a byte of the first page of a range and one of the last, and asks `mincore` whether all
that lies between is mapped. Where the kernel refuses one of the two, the lines of `/proc/self/maps` are gone
through.
-/

namespace Prosperity.Gpu

def pageBytes : ℕ := 0x1000

structure MapLine where
  start : ℕ
  stop : ℕ
  readable : Bool

/-- The mappings, in the order of their addresses, in whole pages of user space. -/
structure ProcessMaps where
  lines : List MapLine
  spaced : Spaced MapLine.start MapLine.stop lines
  aligned : ∀ l ∈ lines, l.start % pageBytes = 0 ∧ l.stop % pageBytes = 0
  user : ∀ l ∈ lines, l.stop ≤ 0x800000000000

/-- How the calls of one query go: whether `process_vm_readv` and `mincore` answer at all, whether
`/proc/self/maps` opens, and which chunks of the page table can be reserved. -/
structure Answers where
  probe : Bool
  residency : Bool
  maps : Bool
  reserve : ℕ → Bool

namespace ProcessMaps

variable (maps : ProcessMaps)

def mapped (page : ℕ) : Bool := maps.lines.any fun l => decide (l.start ≤ page * pageBytes ∧ page * pageBytes < l.stop)

def readable (page : ℕ) : Bool :=
  maps.lines.any fun l => l.readable && decide (l.start ≤ page * pageBytes ∧ page * pageBytes < l.stop)

def isReadableMapping (env : Answers) (address bytes : ℕ) : Bool :=
  env.maps &&
    decide (coverFrom MapLine.start MapLine.stop MapLine.readable (address + bytes) address maps.lines = address + bytes)

def isReadableRange (env : Answers) (address bytes : ℕ) : Bool :=
  if bytes = 0 ∨ 0xFFFFFFFFFFFFFFFF < address + bytes then false
  else
    let firstPage := address / pageBytes
    let lastPage := (address + bytes - 1) / pageBytes
    if env.probe then
      -- fewer bytes than asked for, or `EFAULT`, is the answer
      if maps.readable firstPage && maps.readable lastPage then
        if env.residency then (List.range' firstPage (lastPage + 1 - firstPage)).all maps.mapped
        else maps.isReadableMapping env address bytes
      else false
    else maps.isReadableMapping env address bytes

end ProcessMaps

/-! ### What the answers say -/

def InRange (page address bytes : ℕ) : Prop := ∃ a, address ≤ a ∧ a < address + bytes ∧ a / pageBytes = page

def AllReadable (maps : ProcessMaps) (address bytes : ℕ) : Prop :=
  ∀ page, InRange page address bytes → maps.readable page = true

def RightAnswer (maps : ProcessMaps) (address bytes : ℕ) (answer : Bool) : Prop :=
  (answer = true → AllReadable maps address bytes) ∧
    (answer = false → ∃ page, InRange page address bytes ∧ maps.readable page = false)

/-- The range begins and ends with a readable page and has no gap, but a page inside it cannot be read. -/
def Overlooked (maps : ProcessMaps) (address bytes : ℕ) : Prop :=
  maps.readable (address / pageBytes) = true ∧ maps.readable ((address + bytes - 1) / pageBytes) = true ∧
    (∀ page, InRange page address bytes → maps.mapped page = true) ∧ ¬ AllReadable maps address bytes

def ProbeExact (maps : ProcessMaps) (env : Answers) (address bytes : ℕ) : Prop :=
  0 < bytes ∧ (env.probe = true → env.residency = true → ¬ Overlooked maps address bytes) ∧
    (AllReadable maps address bytes → env.probe = true ∧ env.residency = true ∨ env.maps = true)

theorem inRange_iff {page address bytes : ℕ} (h : 0 < bytes) :
    InRange page address bytes ↔ address / pageBytes ≤ page ∧ page ≤ (address + bytes - 1) / pageBytes := by
  simp only [InRange, pageBytes]
  constructor
  · rintro ⟨a, hle, hlt, rfl⟩
    omega
  · rintro ⟨hfirst, hlast⟩
    exact ⟨max address (page * 0x1000), by omega, by omega, by omega⟩

theorem inRange_first {address bytes : ℕ} (h : 0 < bytes) : InRange (address / pageBytes) address bytes :=
  ⟨address, Nat.le_refl _, by omega, rfl⟩

theorem inRange_last {address bytes : ℕ} (h : 0 < bytes) : InRange ((address + bytes - 1) / pageBytes) address bytes :=
  ⟨address + bytes - 1, by omega, by omega, rfl⟩

theorem mem_pages {page address bytes : ℕ} (h : 0 < bytes) :
    page ∈ List.range' (address / pageBytes) ((address + bytes - 1) / pageBytes + 1 - address / pageBytes) ↔
      InRange page address bytes := by
  have hle : address / pageBytes ≤ (address + bytes - 1) / pageBytes := ((inRange_iff h).mp (inRange_first h)).2
  rw [inRange_iff h, List.mem_range'_1]
  omega

variable {maps : ProcessMaps} {env : Answers} {address bytes : ℕ}

theorem rightAnswer_iff {answer : Bool} :
    RightAnswer maps address bytes answer ↔ (answer = true ↔ AllReadable maps address bytes) := by
  cases answer with
  | true =>
    refine ⟨fun hright => ⟨hright.1, fun _ => rfl⟩, fun hiff => ⟨hiff.mp, fun hfalse => absurd hfalse (by simp)⟩⟩
  | false =>
    constructor
    · rintro ⟨-, hfalse⟩
      obtain ⟨page, hpage, hnot⟩ := hfalse rfl
      refine ⟨fun htrue => absurd htrue Bool.false_ne_true, fun hall => ?_⟩
      rw [hall page hpage] at hnot
      cases hnot
    · intro hiff
      refine ⟨fun htrue => absurd htrue Bool.false_ne_true, fun _ => ?_⟩
      by_contra hnone
      push Not at hnone
      have hall : AllReadable maps address bytes := fun page hpage => Bool.not_eq_false _ ▸ hnone page hpage
      exact absurd (hiff.mpr hall) (by simp)

namespace ProcessMaps

theorem readable_mapped {page : ℕ} (h : maps.readable page = true) : maps.mapped page = true := by
  simp only [readable, mapped, List.any_eq_true, Bool.and_eq_true] at h ⊢
  obtain ⟨l, hl, -, hcovers⟩ := h
  exact ⟨l, hl, hcovers⟩

theorem user_of_mapped {page : ℕ} (h : maps.mapped page = true) : page * pageBytes < 0x800000000000 := by
  simp only [mapped, List.any_eq_true, decide_eq_true_eq] at h
  obtain ⟨l, hl, -, hlt⟩ := h
  exact Nat.lt_of_lt_of_le hlt (maps.user l hl)

theorem readable_iff {x : ℕ} :
    maps.readable (x / pageBytes) = true ↔ ∃ l ∈ maps.lines, l.readable = true ∧ l.start ≤ x ∧ x < l.stop := by
  simp only [readable, List.any_eq_true, Bool.and_eq_true, decide_eq_true_eq]
  refine exists_congr fun l => and_congr_right fun hl => and_congr_right fun _ => ?_
  obtain ⟨hstart, hstop⟩ := maps.aligned l hl
  simp only [pageBytes] at hstart hstop ⊢
  omega

theorem isReadableMapping_iff :
    maps.isReadableMapping env address bytes = true ↔ env.maps = true ∧ AllReadable maps address bytes := by
  rw [isReadableMapping, Bool.and_eq_true, decide_eq_true_eq,
    maps.spaced.coverFrom_eq_iff MapLine.readable (Nat.le_add_right _ _)]
  refine and_congr_right fun _ => ?_
  constructor
  · rintro hall page ⟨a, hle, hlt, rfl⟩
    exact readable_iff.mpr (hall a hle hlt)
  · intro hall x hle hlt
    exact readable_iff.mp (hall _ ⟨x, hle, hlt, rfl⟩)

theorem not_allReadable_of_wraps (h : 0 < bytes) (hwraps : 0xFFFFFFFFFFFFFFFF < address + bytes) :
    ¬ AllReadable maps address bytes := by
  intro hall
  have hlast := user_of_mapped (readable_mapped (hall _ (inRange_last h)))
  simp only [pageBytes] at hlast
  omega

theorem isReadableRange_right_iff :
    RightAnswer maps address bytes (maps.isReadableRange env address bytes) ↔ ProbeExact maps env address bytes := by
  obtain rfl | hpos := Nat.eq_zero_or_pos bytes
  · -- an empty range is refused, although none of its pages is unreadable
    refine iff_of_false (fun hright => ?_) (fun hexact => absurd hexact.1 (Nat.lt_irrefl 0))
    obtain ⟨page, ⟨a, hle, hlt, -⟩, -⟩ := hright.2 (if_pos (.inl rfl))
    omega
  rw [rightAnswer_iff, ProbeExact, isReadableRange]
  dsimp only
  split_ifs with hrefused hprobe hends hresidency
  · -- the range wraps, and neither is it readable nor overlooked
    have hwraps := @not_allReadable_of_wraps maps address bytes hpos (hrefused.resolve_left (by omega))
    refine iff_of_true ⟨fun htrue => htrue.elim, fun hall => absurd hall hwraps⟩
      ⟨hpos, fun _ _ hover => ?_, fun hall => absurd hall hwraps⟩
    have hlast := user_of_mapped (readable_mapped hover.2.1)
    simp only [pageBytes] at hlast
    omega
  · -- both ends are readable, and the pages between are only asked for residency
    simp only [Bool.and_eq_true] at hends
    simp only [List.all_eq_true, mem_pages hpos, hprobe, hresidency, Overlooked, hends.1, hends.2, hpos]
    constructor
    · intro hiff
      exact ⟨trivial, fun _ _ hover => hover.2.2.2 (hiff.mp hover.2.2.1), fun _ => .inl ⟨trivial, trivial⟩⟩
    · rintro ⟨-, hnot, -⟩
      refine ⟨fun hmapped => ?_, fun hall page hpage => readable_mapped (hall page hpage)⟩
      by_contra hall
      exact hnot trivial trivial ⟨trivial, trivial, hmapped, hall⟩
  · rw [isReadableMapping_iff]
    have hresidency : env.residency = false := Bool.not_eq_true _ ▸ hresidency
    simp only [hprobe, hresidency, hpos]
    simp
  · -- one of the ends is not readable, which is what the answer says
    have hnot : ¬ AllReadable maps address bytes := by
      intro hall
      exact hends (by simp [hall _ (inRange_first hpos), hall _ (inRange_last hpos)])
    refine iff_of_true ⟨fun htrue => htrue.elim, fun hall => absurd hall hnot⟩
      ⟨hpos, fun _ _ hover => ?_, fun hall => absurd hall hnot⟩
    exact hends (by simp [hover.1, hover.2.1])
  · rw [isReadableMapping_iff]
    have hprobe : env.probe = false := Bool.not_eq_true _ ▸ hprobe
    simp only [hprobe, hpos]
    simp

end ProcessMaps

end Prosperity.Gpu
