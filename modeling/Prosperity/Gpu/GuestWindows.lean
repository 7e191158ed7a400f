import Mathlib.Algebra.Group.Nat.Defs
import Mathlib.Data.List.Sort
import Mathlib.Logic.Function.Basic
import Prosperity.Gpu.RunMap

/-!
# Windows on guest memory

A pointer-chasing dispatch reaches guest memory through the buffers of the compute ranges.
`GuestWindows` cuts what the ranges hold into windows, each byte in one of them: the candidates are
sorted, and each one gives the pieces that `taken` has no span over yet.

What a candidate finds at its turn depends on the device, and its turn may restage the range or
tile its mirror. The windows are compared with the list of the spans found.
-/

namespace Prosperity.Gpu

/-! ## Cutting a span -/

/-- Sorted, disjoint and none empty. Unlike the runs of a run map, two spans may touch. -/
def Apart (spans : List Range) : Prop := (∀ r ∈ spans, r.1 < r.2) ∧ spans.Pairwise fun r r' => r.2 ≤ r'.1

theorem apart_nil : Apart [] := by simp [Apart]

theorem apart_cons {r : Range} {spans : List Range} :
    Apart (r :: spans) ↔ r.1 < r.2 ∧ (∀ r' ∈ spans, r.2 ≤ r'.1) ∧ Apart spans := by
  simp only [Apart, List.mem_cons, forall_eq_or_imp, List.pairwise_cons]
  tauto

theorem Covers.perm {spans spans' : List Range} (h : spans.Perm spans') {x : ℕ} : Covers spans x ↔ Covers spans' x := by
  simp only [Covers, h.mem_iff]

/-- The loop that cuts `[at_, stop)` along the taken spans from index `i` on. -/
def cutPieces (stop : ℕ) : List Range → ℕ → List Range
  | [], at_ => if at_ < stop then [(at_, stop)] else []
  | t :: rest, at_ =>
    if at_ < stop then
      let next := min t.1 stop
      let piece := if at_ < next then [(at_, next)] else []
      if stop ≤ t.1 then piece else piece ++ cutPieces stop rest t.2
    else []

/-- The pieces are what is free of `[at_, stop)`. The spans in front of `at_` have been skipped. -/
theorem cutPieces_spec (stop : ℕ) {taken : List Range} (h : Apart taken) {at_ : ℕ} (hat : ∀ t ∈ taken, at_ < t.2) :
    Apart (cutPieces stop taken at_) ∧ (∀ r ∈ cutPieces stop taken at_, at_ ≤ r.1) ∧
      ∀ x, Covers (cutPieces stop taken at_) x ↔ (at_ ≤ x ∧ x < stop) ∧ ¬Covers taken x := by
  induction taken generalizing at_ with
  | nil =>
    rw [cutPieces]
    split_ifs with hlt
    · simpa [Apart] using hlt
    · exact ⟨apart_nil, by simp, fun x => by simp; omega⟩
  | cons t rest ih =>
    obtain ⟨ht, hgap, hrest⟩ := apart_cons.mp h
    obtain ⟨hatt, -⟩ := List.forall_mem_cons.mp hat
    obtain ⟨hap, hge, hcov⟩ := ih hrest fun r hr => (hgap r hr).trans_lt (hrest.1 r hr)
    -- what the spans behind `t` cover is behind `t`
    have hfar {x : ℕ} : Covers rest x → t.2 ≤ x := by
      rintro ⟨r, hr, hrx, -⟩
      exact (hgap r hr).trans hrx
    rw [cutPieces]
    by_cases hlt : at_ < stop
    swap
    · rw [if_neg hlt]
      exact ⟨apart_nil, by simp, fun x => by simp only [not_covers_nil, false_iff]; omega⟩
    rw [if_pos hlt]
    dsimp only
    by_cases hstop : stop ≤ t.1
    · rw [if_pos hstop, min_eq_right hstop, if_pos hlt]
      refine ⟨by simpa [Apart] using hlt, by simp, fun x => ?_⟩
      simp only [covers_cons, not_covers_nil, or_false]
      by_cases hc : Covers rest x
      · have := hfar hc
        simp only [hc, or_true, not_true_eq_false, and_false, iff_false]
        omega
      · simp only [hc, or_false]
        omega
    rw [if_neg hstop, min_eq_left (by omega)]
    by_cases hpiece : at_ < t.1
    · rw [if_pos hpiece, List.singleton_append]
      refine ⟨apart_cons.mpr ⟨hpiece, fun r hr => ht.le.trans (hge r hr), hap⟩, ?_, fun x => ?_⟩
      · exact List.forall_mem_cons.mpr ⟨le_rfl, fun r hr => hatt.le.trans (hge r hr)⟩
      · rw [covers_cons, covers_cons, hcov]
        by_cases hc : Covers rest x
        · have := hfar hc
          simp only [hc, or_true, not_true_eq_false, and_false, or_false, iff_false]
          omega
        · simp only [hc, or_false, not_false_eq_true, and_true]
          omega
    · rw [if_neg hpiece, List.nil_append]
      refine ⟨hap, fun r hr => hatt.le.trans (hge r hr), fun x => ?_⟩
      rw [covers_cons, hcov]
      by_cases hc : Covers rest x
      · simp only [hc, or_true, not_true, and_false]
      · simp only [hc, or_false, not_false_eq_true, and_true]
        omega

/-- A span is put before the first one that does not start before it. -/
def insertTaken : List Range → Range → List Range
  | [], r => [r]
  | t :: rest, r => if t.1 < r.1 then t :: insertTaken rest r else r :: t :: rest

theorem insertTaken_perm (taken : List Range) (r : Range) : (insertTaken taken r).Perm (r :: taken) := by
  induction taken with
  | nil => exact .refl _
  | cons t rest ih =>
    rw [insertTaken]
    split_ifs
    · exact (ih.cons t).trans (.swap ..)
    · exact .refl _

theorem Apart.insertTaken {taken : List Range} (h : Apart taken) {r : Range} (hr : r.1 < r.2)
    (hfree : ∀ t ∈ taken, t.2 ≤ r.1 ∨ r.2 ≤ t.1) : Apart (insertTaken taken r) := by
  induction taken with
  | nil => simpa [Gpu.insertTaken, Apart] using hr
  | cons t rest ih =>
    obtain ⟨ht, hgap, hrest⟩ := apart_cons.mp h
    obtain ⟨htfree, hrfree⟩ := List.forall_mem_cons.mp hfree
    rw [Gpu.insertTaken]
    split_ifs with hlt
    · refine apart_cons.mpr ⟨ht, fun u hu => ?_, ih hrest hrfree⟩
      rcases List.mem_cons.mp ((insertTaken_perm rest r).mem_iff.mp hu) with rfl | hu
      · omega
      · exact hgap u hu
    · refine apart_cons.mpr ⟨hr, fun u hu => ?_, h⟩
      rcases List.mem_cons.mp hu with rfl | hu
      · omega
      · have := hgap u hu
        omega

/-- Spans with no byte in common lie one behind the other. -/
theorem free_of_not_covers {taken : List Range} (h : Apart taken) {r : Range} (hr : r.1 < r.2)
    (hfree : ∀ x, r.1 ≤ x → x < r.2 → ¬Covers taken x) : ∀ t ∈ taken, t.2 ≤ r.1 ∨ r.2 ≤ t.1 := by
  intro t ht
  have hlt := h.1 t ht
  by_contra hcon
  push Not at hcon
  exact hfree (max r.1 t.1) (by omega) (by omega) ⟨t, ht, by omega, by omega⟩

/-! ## Sorting -/

/-- The orders that `base::Sort` is given. -/
def StrictWeak {α : Type} (lt : α → α → Bool) : Prop :=
  (∀ a b, lt a b = true → lt b a = false) ∧ ∀ a b c, lt a b = false → lt b c = false → lt a c = false

/-- `base::Sort`: a permutation in order. Nothing is known of elements that are equal in it. -/
structure BaseSort (α : Type) where
  run : (α → α → Bool) → List α → List α
  perm : ∀ lt l, (run lt l).Perm l
  ordered : ∀ lt, StrictWeak lt → ∀ l, (run lt l).Pairwise fun a b => lt b a = false

/-- A sort by insertion is one. -/
def BaseSort.insertion (α : Type) : BaseSort α where
  run lt l := l.insertionSort fun a b => lt b a = false
  perm lt l := List.perm_insertionSort ..
  ordered lt h l := by
    have htrans : IsTrans α fun a b => lt b a = false := ⟨fun a b c hab hbc => h.2 c b a hbc hab⟩
    have htotal : Std.Total fun a b => lt b a = false := ⟨fun a b => by
      cases hba : lt b a with
      | false => exact .inl rfl
      | true => exact .inr (h.1 b a hba)⟩
    exact List.pairwise_insertionSort ..

/-! ## The ranges -/

/-- A guest mapping, as the shader may reach it. -/
structure GuestMapping where
  base : ℕ
  size : ℕ
  writable : Bool

/-- A compute range. A buffer is its address; `tiled` is the size of the layout in guest memory, where
`BuildCsImageLayouts` accepts the image. -/
structure CsRange where
  buf : Option ℕ
  size : ℕ
  guestBytes : ℕ
  imported : Bool
  imageStaging : Bool
  truth : Bool
  gpuDirty : Bool
  dirtyStamp : ℕ
  stagedStamp : ℕ
  wtClean : Bool
  lastValidatedFrame : ℤ
  writeSeq : ℕ
  tiled : Option ℕ
  mirror : Option ℕ
  mirrorCap : ℕ
  mirrorSeq : ℕ
  mirrorTable : Option ℕ
  /-- The guest footprint is far from the end of the address space. -/
  footprint : guestBytes + 0xFFFF < 2 ^ 64

/-- What the device and the tracker answer at the turn of a candidate: a tile table by its identity, and the
address of a buffer created for a mirror where there is one that has an address. -/
structure WindowAnswers where
  armed : Bool
  tileTable : Option ℕ
  created : Option ℕ
  batchOpen : Bool

namespace CsRange

def bytes (e : CsRange) : ℕ := if e.guestBytes ≠ 0 then min e.size e.guestBytes else e.size

def stamp (e : CsRange) : ℕ := if e.gpuDirty then e.dirtyStamp else e.stagedStamp

/-- The recording of the tiling in `GuestMirror`, of a mirror that is large enough. -/
def tileMirror (e : CsRange) (a : WindowAnswers) (table bytes : ℕ) : CsRange × Option (ℕ × ℕ) :=
  if e.mirrorSeq ≠ e.writeSeq ∨ e.mirrorTable ≠ some table then
    if a.batchOpen then
      ({ e with mirrorSeq := e.writeSeq, mirrorTable := some table }, some (e.mirror.getD 0, bytes))
    else (e, none)
  else (e, some (e.mirror.getD 0, bytes))

/-- `GuestMirror`: the address of the mirror and the guest footprint it covers. -/
def guestMirror (e : CsRange) (a : WindowAnswers) : CsRange × Option (ℕ × ℕ) :=
  match e.tiled, a.tileTable with
  | some tiled, some table =>
    if tiled = 0 ∨ e.guestBytes < tiled then (e, none)
    else if e.mirror.isNone ∨ e.mirrorCap < tiled then
      match a.created with
      | some address =>
        tileMirror { e with
          mirror := some address
          mirrorCap := (tiled + 0xFFFF) % 2 ^ 64 / 0x10000 * 0x10000
          mirrorSeq := 0 } a table tiled
      | none => ({ e with mirror := none, mirrorCap := 0, mirrorSeq := 0 }, none)
    else tileMirror e a table tiled
  | _, _ => (e, none)

/-- The buffer or the mirror of a range. -/
def located (e : CsRange) (mirror : Bool) : Option ℕ := if mirror then e.mirror else e.buf

/-- How many bytes of the range that one has. -/
def locatedBytes (e : CsRange) (mirror : Bool) : ℕ := if mirror then e.mirrorCap else e.size

end CsRange

/-- `g_cs_ranges` with the order it is walked in, and the clock of the stamps. -/
structure CsRanges where
  keys : List ℕ
  entry : ℕ → CsRange
  dirtyStamp : ℕ

def CsRanges.set (ranges : CsRanges) (base : ℕ) (e : CsRange) : CsRanges :=
  { ranges with entry := Function.update ranges.entry base e }

def refreshGuestWindow (frame : ℤ) (a : WindowAnswers) (ranges : CsRanges) (base : ℕ) : CsRanges :=
  let ranges := ranges.set base { ranges.entry base with
    wtClean := a.armed
    lastValidatedFrame := frame
    stagedStamp := ranges.dirtyStamp + 1 }
  { ranges with dirtyStamp := ranges.dirtyStamp + 1 }

/-! ## Candidates -/

/-- The part `[base + skip, base + skip + n)` of a range inside one mapping. -/
structure Candidate where
  base : ℕ
  skip : ℕ
  n : ℕ
  writable : Bool

def candidates (ranges : CsRanges) (guestMemory : List GuestMapping) : List Candidate :=
  ranges.keys.flatMap fun base =>
    let e := ranges.entry base
    if e.bytes = 0 ∨ e.buf.isNone ∨ e.imported then []
    else guestMemory.filterMap fun r =>
      let lo := max base r.base
      let hi := min ((base + e.bytes) % 2 ^ 64) ((r.base + r.size) % 2 ^ 64)
      if lo < hi then some ⟨base, lo - base, hi - lo, r.writable⟩ else none

/-- Dirty before clean, then the newest stamp, then the longest. -/
def before (ranges : CsRanges) (a b : Candidate) : Bool :=
  let ea := ranges.entry a.base
  let eb := ranges.entry b.base
  if ea.gpuDirty ≠ eb.gpuDirty then ea.gpuDirty
  else if ea.stamp ≠ eb.stamp then decide (eb.stamp < ea.stamp)
  else decide (b.n < a.n)

/-- What a candidate finds: an address, the bytes of the range that are there, and whether it is a mirror. -/
structure WindowSource where
  address : ℕ
  n : ℕ
  mirror : Bool

/-- `if (!address || n <= c.skip) continue;` -/
def WindowSource.found (c : Candidate) (address n : ℕ) (mirror : Bool) : Option WindowSource :=
  if address = 0 ∨ n ≤ c.skip then none else some ⟨address, n, mirror⟩

def source (frame : ℤ) (a : WindowAnswers) (ranges : CsRanges) (c : Candidate) : CsRanges × Option WindowSource :=
  let e := ranges.entry c.base
  if !e.imageStaging || e.truth then
    (if !e.gpuDirty && !e.wtClean && e.lastValidatedFrame != frame then refreshGuestWindow frame a ranges c.base
      else ranges,
      WindowSource.found c (e.buf.getD 0) (c.skip + c.n) false)
  else if e.gpuDirty then
    (ranges.set c.base (e.guestMirror a).1, (e.guestMirror a).2.bind fun m => WindowSource.found c m.1 m.2 true)
  else (ranges, none)

/-! ## The windows -/

structure GuestMemoryWindow where
  base : ℕ
  size : ℕ
  address : ℕ
  writable : Bool
  mirror : Bool

def GuestMemoryWindow.Holds (w : GuestMemoryWindow) (x : ℕ) : Prop := w.base ≤ x ∧ x < w.base + w.size

structure GuestWindowOwner where
  range : ℕ
  mirror : Bool
  deriving DecidableEq

structure WindowLoop where
  ranges : CsRanges
  out : List GuestMemoryWindow
  owners : List GuestWindowOwner
  taken : List Range

/-- A candidate that has an address, and what it found. -/
structure WindowSpan where
  c : Candidate
  source : WindowSource

namespace WindowSpan

def stop (p : WindowSpan) : ℕ := min ((p.c.base + p.source.n) % 2 ^ 64) (p.c.base + p.c.skip + p.c.n)

def Holds (p : WindowSpan) (x : ℕ) : Prop := p.c.base + p.c.skip ≤ x ∧ x < p.stop

def window (p : WindowSpan) (r : Range) : GuestMemoryWindow :=
  ⟨r.1, r.2 - r.1, (p.source.address + (r.1 - p.c.base)) % 2 ^ 64, p.c.writable, p.source.mirror⟩

def owner (p : WindowSpan) : GuestWindowOwner := ⟨p.c.base, p.source.mirror⟩

end WindowSpan

def WindowLoop.push (p : WindowSpan) (s : WindowLoop) (r : Range) : WindowLoop :=
  { s with
    out := s.out ++ [p.window r]
    owners := s.owners ++ [p.owner]
    taken := insertTaken s.taken r }

/-- The pieces of a candidate: the parts that no earlier window holds. -/
def WindowLoop.pieces (s : WindowLoop) (p : WindowSpan) : List Range :=
  let at_ := p.c.base + p.c.skip
  cutPieces p.stop (s.taken.dropWhile fun t => t.2 ≤ at_) at_

/-- The turn of a candidate. -/
def WindowLoop.turn (frame : ℤ) (s : WindowLoop) (ca : Candidate × WindowAnswers) : WindowLoop :=
  let (ranges, found) := source frame ca.2 s.ranges ca.1
  match found with
  | none => { s with ranges := ranges }
  | some src => (s.pieces ⟨ca.1, src⟩).foldl (WindowLoop.push ⟨ca.1, src⟩) { s with ranges := ranges }

/-- The numbers of the windows in the order of their bases. -/
def WindowLoop.order (s : WindowLoop) (sortOrder : BaseSort ℕ) : List ℕ :=
  let baseAt := fun k => (s.out.map GuestMemoryWindow.base).getD k 0
  sortOrder.run (fun a b => decide (baseAt a < baseAt b)) (List.range s.out.length)

/-- The end of `GuestWindows`: both arrays in that order. -/
def WindowLoop.byAddress (s : WindowLoop) (sortOrder : BaseSort ℕ) :
    CsRanges × List GuestMemoryWindow × List GuestWindowOwner :=
  (s.ranges, (s.order sortOrder).filterMap (s.out[·]?), (s.order sortOrder).filterMap (s.owners[·]?))

/-- The candidates in order, each with what its turn is told. -/
def turns (sort : BaseSort Candidate) (answers : ℕ → WindowAnswers) (ranges : CsRanges)
    (guestMemory : List GuestMapping) : List (Candidate × WindowAnswers) :=
  (sort.run (before ranges) (candidates ranges guestMemory)).zipIdx.map fun ck => (ck.1, answers ck.2)

/-- `GuestWindows`, from the walk over the ranges on: the ranges after it, the windows and their owners. -/
def guestWindows (sort : BaseSort Candidate) (sortOrder : BaseSort ℕ) (frame : ℤ) (answers : ℕ → WindowAnswers)
    (ranges : CsRanges) (guestMemory : List GuestMapping) :
    CsRanges × List GuestMemoryWindow × List GuestWindowOwner :=
  ((turns sort answers ranges guestMemory).foldl (WindowLoop.turn frame) ⟨ranges, [], [], []⟩).byAddress sortOrder

/-! ## What a turn finds -/

/-- The spans of the candidates that have an address, in the order of their turns. -/
def windowSpans (frame : ℤ) : List (Candidate × WindowAnswers) → CsRanges → List WindowSpan
  | [], _ => []
  | ca :: rest, ranges =>
    let (ranges, found) := source frame ca.2 ranges ca.1
    found.toList.map (⟨ca.1, ·⟩) ++ windowSpans frame rest ranges

namespace CsRange

/-- What a turn leaves of a range: all that decides the candidates, and a mirror that is large enough. -/
structure Kept (e e' : CsRange) : Prop where
  buf : e'.buf = e.buf
  size : e'.size = e.size
  tiled : e'.tiled = e.tiled
  mirror : ∀ n address, e.tiled = some n → n ≤ e.mirrorCap → e.mirror = some address →
    n ≤ e'.mirrorCap ∧ e'.mirror = some address

theorem Kept.refl (e : CsRange) : Kept e e := ⟨rfl, rfl, rfl, fun _ _ _ hn ha => ⟨hn, ha⟩⟩

theorem Kept.trans {e e' e'' : CsRange} (h : Kept e e') (h' : Kept e' e'') : Kept e e'' where
  buf := h'.buf.trans h.buf
  size := h'.size.trans h.size
  tiled := h'.tiled.trans h.tiled
  mirror n address hn hcap hm := by
    obtain ⟨hcap, hm⟩ := h.mirror n address hn hcap hm
    exact h'.mirror n address (h.tiled.trans hn) hcap hm

theorem tileMirror_kept (e : CsRange) (a : WindowAnswers) (table bytes : ℕ) : Kept e (e.tileMirror a table bytes).1 := by
  unfold tileMirror
  split_ifs
  · exact ⟨rfl, rfl, rfl, fun _ _ _ hn ha => ⟨hn, ha⟩⟩
  · exact .refl e
  · exact .refl e

theorem guestMirror_kept (e : CsRange) (a : WindowAnswers) : Kept e (e.guestMirror a).1 := by
  unfold guestMirror
  split
  case h_2 => exact .refl e
  case h_1 tiled table htiled htable =>
    split_ifs with hsize hcap
    · exact .refl e
    · -- a mirror that was large enough is not replaced
      have hsmall : ∀ n address, e.tiled = some n → n ≤ e.mirrorCap → e.mirror = some address → False := by
        intro n address hn hle hmirror
        obtain rfl := Option.some.inj (htiled.symm.trans hn)
        rcases hcap with hnone | hlt
        · simp [hmirror] at hnone
        · omega
      split
      case h_1 address _ =>
        obtain ⟨hbuf, hbytes, hlayout, -⟩ := tileMirror_kept { e with
          mirror := some address
          mirrorCap := (tiled + 0xFFFF) % 2 ^ 64 / 0x10000 * 0x10000
          mirrorSeq := 0 } a table tiled
        exact ⟨hbuf, hbytes, hlayout, fun n address' hn hle hm => (hsmall n address' hn hle hm).elim⟩
      case h_2 => exact ⟨rfl, rfl, rfl, fun n address hn hle hm => (hsmall n address hn hle hm).elim⟩
    · exact tileMirror_kept ..

theorem tileMirror_found {e e' : CsRange} {a : WindowAnswers} {table bytes address n : ℕ}
    (h : e.tileMirror a table bytes = (e', some (address, n))) :
    address = e.mirror.getD 0 ∧ n = bytes ∧ e'.mirror = e.mirror ∧ e'.mirrorCap = e.mirrorCap ∧ e'.tiled = e.tiled := by
  unfold tileMirror at h
  split_ifs at h
  all_goals
    simp only [Prod.mk.injEq, Option.some.injEq, reduceCtorEq, and_false] at h
  all_goals
    obtain ⟨rfl, rfl, rfl⟩ := h
    exact ⟨rfl, rfl, rfl, rfl, rfl⟩

/-- **What `GuestMirror` finds** is the range's mirror, and it has room for the footprint. -/
theorem guestMirror_found {e e' : CsRange} {a : WindowAnswers} {address n : ℕ}
    (h : e.guestMirror a = (e', some (address, n))) (hne : address ≠ 0) :
    e'.mirror = some address ∧ e'.tiled = some n ∧ n ≤ e'.mirrorCap := by
  unfold guestMirror at h
  split at h
  case h_2 => simp at h
  case h_1 tiled table htiled htable =>
    split_ifs at h with hsize hcap
    · simp at h
    · split at h
      case h_2 => simp at h
      case h_1 address' _ =>
        obtain ⟨rfl, rfl, hmirror, hmcap, hlayout⟩ := tileMirror_found h
        have := e.footprint
        refine ⟨hmirror, hlayout.trans htiled, ?_⟩
        rw [hmcap]
        dsimp only
        omega
    · obtain ⟨rfl, rfl, hmirror, hmcap, hlayout⟩ := tileMirror_found h
      push Not at hcap
      obtain ⟨address, haddress⟩ := Option.ne_none_iff_exists'.mp (by simpa using hcap.1)
      refine ⟨by rw [hmirror, haddress]; rfl, hlayout.trans htiled, hmcap ▸ hcap.2⟩

end CsRange

theorem refreshGuestWindow_kept (frame : ℤ) (a : WindowAnswers) (ranges : CsRanges) (base key : ℕ) :
    (ranges.entry key).Kept ((refreshGuestWindow frame a ranges base).entry key) := by
  rcases eq_or_ne key base with rfl | hne
  · simp only [refreshGuestWindow, CsRanges.set, Function.update_self]
    exact ⟨rfl, rfl, rfl, fun _ _ _ hn ha => ⟨hn, ha⟩⟩
  · simp only [refreshGuestWindow, CsRanges.set, Function.update_of_ne hne]
    exact .refl _

theorem source_kept (frame : ℤ) (a : WindowAnswers) (ranges : CsRanges) (c : Candidate) (key : ℕ) :
    (ranges.entry key).Kept ((source frame a ranges c).1.entry key) := by
  unfold source
  dsimp only
  split_ifs
  · exact refreshGuestWindow_kept ..
  · exact .refl _
  · rcases eq_or_ne key c.base with rfl | hne
    · simp only [CsRanges.set, Function.update_self]
      exact CsRange.guestMirror_kept ..
    · simp only [CsRanges.set, Function.update_of_ne hne]
      exact .refl _
  · exact .refl _

/-- A span has its bytes at its address: in the buffer of the range, or in a mirror with room for them. -/
def WindowSpan.Located (p : WindowSpan) (ranges : CsRanges) : Prop :=
  let e := ranges.entry p.c.base
  e.located p.source.mirror = some p.source.address ∧
    if p.source.mirror then e.tiled = some p.source.n ∧ p.source.n ≤ e.mirrorCap else p.source.n = p.c.skip + p.c.n

variable {frame : ℤ} {a : WindowAnswers} {ranges ranges' : CsRanges} {c : Candidate}

theorem WindowSpan.Located.kept {p : WindowSpan} (h : p.Located ranges)
    (hkept : ∀ key, (ranges.entry key).Kept (ranges'.entry key)) : p.Located ranges' := by
  obtain ⟨hbuf, -, htiled, hmirror⟩ := hkept p.c.base
  obtain ⟨haddress, hn⟩ := h
  unfold WindowSpan.Located
  simp only [CsRange.located] at haddress ⊢
  split_ifs at haddress hn ⊢
  · obtain ⟨hcap, hsame⟩ := hmirror _ _ hn.1 hn.2 haddress
    exact ⟨hsame, htiled.trans hn.1, hcap⟩
  · exact ⟨hbuf.trans haddress, hn⟩

theorem WindowSource.found_eq_some {address n : ℕ} {mirror : Bool} {src : WindowSource}
    (h : found c address n mirror = some src) : src = ⟨address, n, mirror⟩ ∧ address ≠ 0 := by
  unfold found at h
  split_ifs at h with hcond
  push Not at hcond
  exact ⟨(Option.some.inj h).symm, hcond.1⟩

/-- **What a candidate finds** is there after its turn. -/
theorem source_located {src : WindowSource} (h : (source frame a ranges c).2 = some src) : WindowSpan.Located ⟨c, src⟩ (source frame a ranges c).1 := by
  have hbuf := (source_kept frame a ranges c c.base).buf
  unfold WindowSpan.Located
  generalize hafter : (source frame a ranges c).1 = after at hbuf ⊢
  unfold source at h hafter
  dsimp only at h hafter
  by_cases hplain : (!(ranges.entry c.base).imageStaging || (ranges.entry c.base).truth) = true
  · rw [if_pos hplain] at h
    obtain ⟨rfl, hne⟩ := WindowSource.found_eq_some h
    obtain ⟨address, haddress⟩ : ∃ address, (ranges.entry c.base).buf = some address := by
      cases hnone : (ranges.entry c.base).buf with
      | none => simp [hnone] at hne
      | some address => exact ⟨address, rfl⟩
    simp [CsRange.located, hbuf, haddress]
  · rw [if_neg hplain] at h hafter
    split_ifs at h hafter
    obtain ⟨⟨address, n⟩, hm, hfound⟩ := Option.bind_eq_some_iff.mp h
    obtain ⟨rfl, hne⟩ := WindowSource.found_eq_some hfound
    obtain ⟨hmirror, htiled, hcap⟩ := CsRange.guestMirror_found (Prod.ext rfl hm) hne
    subst hafter
    simp [CsRange.located, CsRanges.set, hmirror, htiled, hcap]

/-! ## The loop -/

/-- A window of a span: where it is, whose it is, and that nothing before the span holds its bytes. -/
structure Owned (spans : List WindowSpan) (wo : GuestMemoryWindow × GuestWindowOwner) (p : WindowSpan) : Prop where
  window : ∃ r, wo.1 = p.window r ∧ r.1 < r.2
  owner : wo.2 = p.owner
  holds : ∀ x, wo.1.Holds x → p.Holds x
  first : ∃ earlier later, spans = earlier ++ p :: later ∧ ∀ x, wo.1.Holds x → ∀ q ∈ earlier, ¬q.Holds x

/-- What the loop keeps, after the turns that found `spans`. -/
structure WindowLoop.Inv (spans : List WindowSpan) (s : WindowLoop) : Prop where
  apart : Apart s.taken
  covers : ∀ x, Covers s.taken x ↔ ∃ p ∈ spans, p.Holds x
  windows : s.taken.Perm (s.out.map fun w => (w.base, w.base + w.size))
  parallel : s.owners.length = s.out.length
  owned : ∀ wo ∈ s.out.zip s.owners, ∃ p, Owned spans wo p
  located : ∀ p ∈ spans, p.Located s.ranges

variable {spans : List WindowSpan} {s : WindowLoop} {wo : GuestMemoryWindow × GuestWindowOwner} {p : WindowSpan}

namespace WindowLoop

theorem foldl_push (p : WindowSpan) (rs : List Range) (s : WindowLoop) :
    (rs.foldl (push p) s).ranges = s.ranges ∧ (rs.foldl (push p) s).out = s.out ++ rs.map p.window ∧
      (rs.foldl (push p) s).owners = s.owners ++ rs.map (fun _ => p.owner) ∧
      (rs.foldl (push p) s).taken = rs.foldl insertTaken s.taken := by
  induction rs generalizing s with
  | nil => simp
  | cons r rest ih =>
    obtain ⟨hranges, hout, howners, htaken⟩ := ih (s.push p r)
    refine ⟨hranges, ?_, ?_, htaken⟩
    · rw [List.foldl_cons, hout]
      simp [push]
    · rw [List.foldl_cons, howners]
      simp [push]

theorem foldl_insertTaken {rs taken : List Range} (hrs : Apart rs) (h : Apart taken)
    (hfree : ∀ r ∈ rs, ∀ t ∈ taken, t.2 ≤ r.1 ∨ r.2 ≤ t.1) :
    Apart (rs.foldl insertTaken taken) ∧ (rs.foldl insertTaken taken).Perm (taken ++ rs) := by
  induction rs generalizing taken with
  | nil => simpa using h
  | cons r rest ih =>
    obtain ⟨hr, hgap, hrest⟩ := apart_cons.mp hrs
    obtain ⟨hrfree, hrestfree⟩ := List.forall_mem_cons.mp hfree
    have hperm := insertTaken_perm taken r
    obtain ⟨hap, hp⟩ := ih hrest (h.insertTaken hr hrfree) fun r' hr' t ht => by
      rcases List.mem_cons.mp (hperm.mem_iff.mp ht) with rfl | ht
      · exact .inl (hgap r' hr')
      · exact hrestfree r' hr' t ht
    refine ⟨hap, hp.trans ?_⟩
    calc insertTaken taken r ++ rest
      _ |>.Perm (r :: taken ++ rest) := hperm.append_right rest
      _ |>.Perm (taken ++ r :: rest) := List.perm_middle.symm

/-- The pieces of a candidate are what nothing has taken of its span. -/
theorem Inv.pieces (h : Inv spans s) (p : WindowSpan) : Apart (s.pieces p) ∧
      ∀ x, Covers (s.pieces p) x ↔ p.Holds x ∧ ¬Covers s.taken x := by
  have hsplit := List.takeWhile_append_dropWhile (p := fun t : Range => decide (t.2 ≤ p.c.base + p.c.skip)) (l := s.taken)
  have hap := h.apart
  rw [← hsplit] at hap
  obtain ⟨hne, hpair⟩ := hap
  obtain ⟨-, hpair, hfront⟩ := List.pairwise_append.mp hpair
  have hdrop : Apart (s.taken.dropWhile fun t => t.2 ≤ p.c.base + p.c.skip) :=
    ⟨fun r hr => hne r (List.mem_append_right _ hr), hpair⟩
  -- the spans behind the first one that ends behind `at_` end behind it as well
  have hat : ∀ t ∈ s.taken.dropWhile (fun t => t.2 ≤ p.c.base + p.c.skip), p.c.base + p.c.skip < t.2 := by
    generalize hd : (s.taken.dropWhile fun t => t.2 ≤ p.c.base + p.c.skip) = d at hdrop
    cases d with
    | nil => simp
    | cons t rest =>
      have hhead := List.head_dropWhile_not (fun t : Range => decide (t.2 ≤ p.c.base + p.c.skip)) (l := s.taken) (by simp [hd])
      simp only [hd, List.head_cons, decide_eq_false_iff_not, not_le] at hhead
      obtain ⟨ht, hgap, hrest⟩ := apart_cons.mp hdrop
      refine List.forall_mem_cons.mpr ⟨hhead, fun t' ht' => ?_⟩
      have := hgap t' ht'
      have := hrest.1 t' ht'
      omega
  obtain ⟨hpieces, -, hcovers⟩ := cutPieces_spec p.stop hdrop hat
  refine ⟨hpieces, fun x => (hcovers x).trans (and_congr_right fun hx => not_congr ?_)⟩
  conv_rhs => rw [← hsplit, covers_append]
  refine ⟨.inr, fun hc => hc.resolve_left ?_⟩
  rintro ⟨t, ht, -, hlt⟩
  have := List.mem_takeWhile_imp ht
  simp only [decide_eq_true_eq] at this
  omega

theorem Owned.append (h : Owned spans wo p) (more : List WindowSpan) : Owned (spans ++ more) wo p := by
  obtain ⟨hwindow, howner, hholds, earlier, later, rfl, hfirst⟩ := h
  exact ⟨hwindow, howner, hholds, earlier, later ++ more, by simp, hfirst⟩

/-- **The turn of a candidate that has an address.** -/
theorem Inv.found (h : Inv spans s) (hkept : ∀ key, (s.ranges.entry key).Kept (ranges.entry key))
    (hp : p.Located ranges) :
    Inv (spans ++ [p]) ((s.pieces p).foldl (push p) { s with ranges := ranges }) := by
  obtain ⟨hapart, hcovers⟩ := h.pieces p
  have hfree : ∀ r ∈ s.pieces p, ∀ t ∈ s.taken, t.2 ≤ r.1 ∨ r.2 ≤ t.1 := fun r hr =>
    free_of_not_covers h.apart (hapart.1 r hr) fun x hlo hhi => ((hcovers x).mp ⟨r, hr, hlo, hhi⟩).2
  obtain ⟨htaken, hperm⟩ := foldl_insertTaken hapart h.apart hfree
  obtain ⟨hranges', hout', howners', htaken'⟩ := foldl_push p (s.pieces p) { s with ranges := ranges }
  constructor
  case apart => exact htaken' ▸ htaken
  case covers =>
    intro x
    rw [htaken', Covers.perm hperm, covers_append, hcovers, h.covers]
    by_cases hx : ∃ q ∈ spans, q.Holds x
    · simp [hx, or_and_right, exists_or]
    · simp [hx, or_and_right, exists_or]
  case windows =>
    rw [htaken', hout', List.map_append]
    refine hperm.trans (h.windows.append ?_)
    rw [List.map_map, List.map_congr_left (g := id), List.map_id]
    intro r hr
    have := hapart.1 r hr
    simp only [Function.comp_apply, WindowSpan.window, id_eq]
    exact Prod.ext rfl (by dsimp only; omega)
  case parallel =>
    rw [howners', hout']
    simp [h.parallel]
  case owned =>
    rw [howners', hout', List.zip_append h.parallel.symm]
    intro wo hwo
    rcases List.mem_append.mp hwo with hwo | hwo
    · obtain ⟨q, hq⟩ := h.owned wo hwo
      exact ⟨q, Owned.append hq [p]⟩
    · rw [List.zip_map', List.mem_map] at hwo
      obtain ⟨r, hr, rfl⟩ := hwo
      have hlt := hapart.1 r hr
      have hx : ∀ x, (p.window r).Holds x → p.Holds x ∧ ¬Covers s.taken x := fun x hx =>
        (hcovers x).mp ⟨r, hr, hx.1, by have := hx.2; simp only [WindowSpan.window] at this; omega⟩
      refine ⟨p, ⟨r, rfl, hlt⟩, rfl, fun x h => (hx x h).1, spans, [], rfl, fun x hw q hq hqx => ?_⟩
      exact (hx x hw).2 ((h.covers x).mpr ⟨q, hq, hqx⟩)
  case located =>
    intro q hq
    rw [hranges']
    rcases List.mem_append.mp hq with hq | hq
    · exact (h.located q hq).kept hkept
    · exact List.mem_singleton.mp hq ▸ hp

theorem turn_ranges (frame : ℤ) (s : WindowLoop) (ca : Candidate × WindowAnswers) :
    (s.turn frame ca).ranges = (source frame ca.2 s.ranges ca.1).1 := by
  unfold turn
  generalize source frame ca.2 s.ranges ca.1 = found
  obtain ⟨ranges, _ | src⟩ := found
  · rfl
  · exact (foldl_push _ _ _).1

theorem Inv.turn (h : Inv spans s) (frame : ℤ) (ca : Candidate × WindowAnswers) :
    Inv (spans ++ (source frame ca.2 s.ranges ca.1).2.toList.map (⟨ca.1, ·⟩)) (s.turn frame ca) := by
  have hkept := source_kept frame ca.2 s.ranges ca.1
  have hlocated {src : WindowSource} := @source_located frame ca.2 s.ranges ca.1 src
  unfold WindowLoop.turn
  generalize source frame ca.2 s.ranges ca.1 = found at hkept hlocated
  obtain ⟨ranges, _ | src⟩ := found
  · simp only [Option.toList_none, List.map_nil, List.append_nil]
    exact ⟨h.apart, h.covers, h.windows, h.parallel, h.owned, fun p hp => (h.located p hp).kept hkept⟩
  · exact h.found hkept (hlocated rfl)

/-- **What the whole loop keeps.** -/
theorem Inv.turns (h : Inv spans s) (frame : ℤ) (cas : List (Candidate × WindowAnswers)) :
    Inv (spans ++ windowSpans frame cas s.ranges) (cas.foldl (WindowLoop.turn frame) s) := by
  induction cas generalizing s spans with
  | nil => simpa [windowSpans] using h
  | cons ca rest ih =>
    have := ih (h.turn frame ca)
    rw [turn_ranges, List.append_assoc] at this
    exact this

theorem turns_kept (frame : ℤ) (cas : List (Candidate × WindowAnswers)) (s : WindowLoop) (key : ℕ) :
    (s.ranges.entry key).Kept ((cas.foldl (WindowLoop.turn frame) s).ranges.entry key) := by
  induction cas generalizing s with
  | nil => exact .refl _
  | cons ca rest ih =>
    refine CsRange.Kept.trans ?_ (ih (s.turn frame ca))
    rw [turn_ranges]
    exact source_kept ..

end WindowLoop

theorem windowSpans_sublist (frame : ℤ) (cas : List (Candidate × WindowAnswers)) (ranges : CsRanges) :
    ((windowSpans frame cas ranges).map WindowSpan.c).Sublist (cas.map Prod.fst) := by
  induction cas generalizing ranges with
  | nil => simp [windowSpans]
  | cons ca rest ih =>
    rw [windowSpans, List.map_cons]
    cases hfound : (source frame ca.2 ranges ca.1).2 with
    | none => simpa [hfound] using (ih _).cons ca.1
    | some src => simpa [hfound] using ih _

theorem turns_fst (sort : BaseSort Candidate) (answers : ℕ → WindowAnswers) (ranges : CsRanges)
    (guestMemory : List GuestMapping) : (turns sort answers ranges guestMemory).map Prod.fst =
      sort.run (before ranges) (candidates ranges guestMemory) := by
  simp [turns, Function.comp_def]

/-! ## The order of the candidates -/

theorem before_iff {a b : Candidate} : before ranges a b = true ↔
      ((ranges.entry b.base).gpuDirty = false ∧ (ranges.entry a.base).gpuDirty = true) ∨
        ((ranges.entry b.base).gpuDirty = (ranges.entry a.base).gpuDirty ∧
          ((ranges.entry b.base).stamp < (ranges.entry a.base).stamp ∨
            (ranges.entry b.base).stamp = (ranges.entry a.base).stamp ∧ b.n < a.n)) := by
  simp only [before]
  split_ifs with hdirty hstamp
  · cases hb : (ranges.entry b.base).gpuDirty <;> simp_all
  · simp only [ne_eq, not_not] at hdirty
    simp only [decide_eq_true_eq, hdirty]
    cases (ranges.entry b.base).gpuDirty <;> simp <;> omega
  · simp only [ne_eq, not_not] at hdirty hstamp
    simp only [decide_eq_true_eq, hdirty]
    cases (ranges.entry b.base).gpuDirty <;> simp <;> omega

theorem before_strictWeak (ranges : CsRanges) : StrictWeak (before ranges) := by
  constructor
  · intro a b
    rw [← Bool.not_eq_true, before_iff, before_iff]
    cases (ranges.entry a.base).gpuDirty <;> cases (ranges.entry b.base).gpuDirty <;> simp <;> omega
  · intro a b c
    rw [← Bool.not_eq_true, ← Bool.not_eq_true, ← Bool.not_eq_true, before_iff, before_iff, before_iff]
    cases (ranges.entry a.base).gpuDirty <;> cases (ranges.entry b.base).gpuDirty <;>
      cases (ranges.entry c.base).gpuDirty <;> simp <;> omega

theorem mem_candidates {guestMemory : List GuestMapping} (h : c ∈ candidates ranges guestMemory) : c.skip + c.n ≤ (ranges.entry c.base).size := by
  simp only [candidates, List.mem_flatMap] at h
  obtain ⟨base, -, h⟩ := h
  split_ifs at h
  · cases h
  · obtain ⟨r, -, h⟩ := List.mem_filterMap.mp h
    split_ifs at h with hlt
    obtain rfl := Option.some.inj h
    have hsize : (ranges.entry base).bytes ≤ (ranges.entry base).size := by
      unfold CsRange.bytes
      split_ifs <;> omega
    have := Nat.mod_le (base + (ranges.entry base).bytes) (2 ^ 64)
    dsimp only
    omega

/-! ## The table by address -/

section Reorder

variable {α β : Type} {l : List α} {order : List ℕ}

theorem filterMap_range (l : List α) : (List.range l.length).filterMap (l[·]?) = l := by
  induction l with
  | nil => rfl
  | cons x xs ih =>
    rw [List.length_cons, List.range_succ_eq_map, List.filterMap_cons]
    simpa [List.filterMap_map, Function.comp_def] using ih

theorem reorder_perm (h : order.Perm (List.range l.length)) : (order.filterMap (l[·]?)).Perm l := by
  conv_rhs => rw [← filterMap_range l]
  exact h.filterMap _

theorem zip_reorder {owners : List β} (hlen : owners.length = l.length) (h : ∀ k ∈ order, k < l.length) :
    (order.filterMap (l[·]?)).zip (order.filterMap (owners[·]?)) = order.filterMap ((l.zip owners)[·]?) := by
  induction order with
  | nil => rfl
  | cons k rest ih =>
    obtain ⟨hk, hrest⟩ := List.forall_mem_cons.mp h
    have hk' : k < owners.length := hlen ▸ hk
    simp [hk, hk', ih hrest]

end Reorder

/-- What the last sort leaves of the two arrays. -/
theorem WindowLoop.Inv.byAddress (h : s.Inv spans) (sortOrder : BaseSort ℕ) :
    (s.byAddress sortOrder).2.1.Perm s.out ∧ (s.byAddress sortOrder).2.2.Perm s.owners ∧
      ((s.byAddress sortOrder).2.1.zip (s.byAddress sortOrder).2.2).Perm (s.out.zip s.owners) ∧
      (s.byAddress sortOrder).2.1.Pairwise fun v w => v.base ≤ w.base := by
  have hperm : (s.order sortOrder).Perm (List.range s.out.length) := sortOrder.perm ..
  have hsorted := sortOrder.ordered
    (fun a b => decide ((s.out.map GuestMemoryWindow.base).getD a 0 < (s.out.map GuestMemoryWindow.base).getD b 0))
    ⟨by simp; omega, by simp; omega⟩ (List.range s.out.length)
  have hlt : ∀ k ∈ s.order sortOrder, k < s.out.length := fun k hk => List.mem_range.mp (hperm.mem_iff.mp hk)
  refine ⟨reorder_perm hperm, reorder_perm (h.parallel ▸ hperm), ?_, ?_⟩
  · refine (List.Perm.of_eq (zip_reorder h.parallel hlt)).trans (reorder_perm ?_)
    simpa [List.length_zip, h.parallel] using hperm
  · refine List.Pairwise.filterMap _ (fun a b hab v hv w hw => ?_) hsorted
    simpa [List.getD_eq_getElem?_getD, List.getElem?_map, hv, hw] using hab

/-- The windows are apart wherever they stand in their array. -/
theorem WindowLoop.Inv.sorted (h : s.Inv spans) {out : List GuestMemoryWindow} (hperm : out.Perm s.out) (hsorted : out.Pairwise fun v w => v.base ≤ w.base) :
    out.Pairwise (fun v w => v.base + v.size ≤ w.base) ∧ ∀ w ∈ out, 0 < w.size := by
  have hintervals : s.taken.Perm (out.map fun w => (w.base, w.base + w.size)) := h.windows.trans (hperm.map _).symm
  have hsize : ∀ w ∈ out, 0 < w.size := fun w hw => by
    have := h.apart.1 _ (hintervals.mem_iff.mpr (List.mem_map_of_mem hw))
    dsimp only at this
    omega
  have hapart : out.Pairwise fun v w => v.base + v.size ≤ w.base ∨ w.base + w.size ≤ v.base := by
    have := (hintervals.pairwise_iff (R := fun r r' => r.2 ≤ r'.1 ∨ r'.2 ≤ r.1) fun hr => hr.symm).mp
      (h.apart.2.imp .inl)
    exact List.pairwise_map.mp this
  refine ⟨(hapart.and hsorted).imp_of_mem fun {v w} hv hw hvw => ?_, hsize⟩
  have := hsize w hw
  omega

theorem WindowSpan.stop_le (p : WindowSpan) : p.stop ≤ p.c.base + p.source.n ∧ p.stop ≤ p.c.base + p.c.skip + p.c.n :=
  ⟨(min_le_left ..).trans (Nat.mod_le ..), min_le_right ..⟩

/-- A window shows its bytes where the buffer or the mirror of its owner has them. -/
theorem Owned.shows (h : Owned spans wo p) (hp : p.Located ranges)
    (hsize : p.c.skip + p.c.n ≤ (ranges.entry p.c.base).size) {x : ℕ} (hx : wo.1.Holds x) :
    p.c.base ≤ x ∧ x - p.c.base < (ranges.entry p.c.base).locatedBytes p.source.mirror ∧
      (wo.1.address + (x - wo.1.base)) % 2 ^ 64 = (p.source.address + (x - p.c.base)) % 2 ^ 64 := by
  obtain ⟨⟨r, hwindow, hr⟩, -, hholds, -⟩ := h
  obtain ⟨hlo, hhi⟩ := hholds x hx
  have hbase : p.c.base + p.c.skip ≤ r.1 := by
    refine (hholds r.1 ?_).1
    rw [hwindow]
    exact ⟨le_rfl, by simp only [WindowSpan.window]; omega⟩
  have hrx : r.1 ≤ x := by simpa [hwindow, WindowSpan.window] using hx.1
  obtain ⟨hstop, hstop'⟩ := p.stop_le
  refine ⟨by omega, ?_, ?_⟩
  · have hn := hp.2
    unfold CsRange.locatedBytes
    split_ifs at hn ⊢
    · have := hn.2
      omega
    · omega
  · rw [hwindow]
    simp only [WindowSpan.window, Nat.mod_add_mod]
    congr 1
    omega

/-- A candidate whose span holds a byte of the window does not come before the window's. -/
theorem Owned.not_before (h : Owned spans wo p) {lt : Candidate → Candidate → Bool} (hlt : StrictWeak lt)
    (hsorted : (spans.map WindowSpan.c).Pairwise fun a b => lt b a = false) {x : ℕ} (hx : wo.1.Holds x) {q : WindowSpan}
    (hq : q ∈ spans) (hqx : q.Holds x) : lt q.c p.c = false := by
  obtain ⟨-, -, -, earlier, later, rfl, hfirst⟩ := h
  rw [List.pairwise_map] at hsorted
  obtain ⟨-, hsorted, -⟩ := List.pairwise_append.mp hsorted
  rcases List.mem_append.mp hq with hq | hq
  · exact (hfirst x hx q hq hqx).elim
  rcases List.mem_cons.mp hq with rfl | hq
  · by_contra hself
    rw [Bool.not_eq_false] at hself
    simp [hlt.1 _ _ hself] at hself
  · exact (List.pairwise_cons.mp hsorted).1 q hq

/-- **Every byte has its window**: the windows are sorted and disjoint, they hold what the spans hold, and each is of
the first span over its bytes and shows them where its owner's range has them. -/
theorem guest_windows_partition (sort : BaseSort Candidate) (sortOrder : BaseSort ℕ) (frame : ℤ)
    (answers : ℕ → WindowAnswers) (ranges : CsRanges) (guestMemory : List GuestMapping) :
    let spans := windowSpans frame (turns sort answers ranges guestMemory) ranges
    let r := guestWindows sort sortOrder frame answers ranges guestMemory
    (r.2.1.Pairwise (fun v w => v.base + v.size ≤ w.base) ∧ (∀ w ∈ r.2.1, 0 < w.size) ∧
      r.2.2.length = r.2.1.length) ∧
      (∀ x, (∃ w ∈ r.2.1, w.Holds x) ↔ ∃ p ∈ spans, p.Holds x) ∧
      ∀ wo ∈ r.2.1.zip r.2.2, ∃ p ∈ spans, wo.2 = ⟨p.c.base, p.source.mirror⟩ ∧
        wo.1.writable = p.c.writable ∧ wo.1.mirror = p.source.mirror ∧
        ∃ address, (r.1.entry p.c.base).located p.source.mirror = some address ∧
          ∀ x, wo.1.Holds x → p.Holds x ∧ (∀ q ∈ spans, q.Holds x → before ranges q.c p.c = false) ∧
            p.c.base ≤ x ∧ x - p.c.base < (r.1.entry p.c.base).locatedBytes p.source.mirror ∧
            (wo.1.address + (x - wo.1.base)) % 2 ^ 64 = (address + (x - p.c.base)) % 2 ^ 64 := by
  intro spans r
  have hstart : WindowLoop.Inv [] ⟨ranges, [], [], []⟩ := ⟨apart_nil, by simp, .refl _, rfl, by simp, by simp⟩
  have hinv := hstart.turns frame (turns sort answers ranges guestMemory)
  have hkept := WindowLoop.turns_kept frame (turns sort answers ranges guestMemory) ⟨ranges, [], [], []⟩
  have hcs := windowSpans_sublist frame (turns sort answers ranges guestMemory) ranges
  rw [turns_fst] at hcs
  have hranges : r.1 = ((turns sort answers ranges guestMemory).foldl (WindowLoop.turn frame)
    ⟨ranges, [], [], []⟩).ranges := rfl
  rw [List.nil_append] at hinv
  obtain ⟨hout, howners, hzip, hbases⟩ := hinv.byAddress sortOrder
  obtain ⟨hapart, hsize⟩ := hinv.sorted hout hbases
  refine ⟨⟨hapart, hsize, ?_⟩, fun x => ?_, fun wo hwo => ?_⟩
  · exact howners.length_eq.trans (hinv.parallel.trans hout.length_eq.symm)
  · refine Iff.trans ?_ ((Covers.perm hinv.windows).symm.trans (hinv.covers x))
    simp [Covers, r, guestWindows, hout.mem_iff, GuestMemoryWindow.Holds]
  · obtain ⟨p, hp⟩ := hinv.owned wo (hzip.mem_iff.mp hwo)
    have hmem : p ∈ spans := by
      obtain ⟨-, -, -, earlier, later, heq, -⟩ := hp
      rw [show spans = _ from heq]
      simp
    have hlocated := hinv.located p hmem
    rw [← hranges] at hlocated hkept
    have hc : p.c ∈ candidates ranges guestMemory :=
      (sort.perm ..).mem_iff.mp (hcs.subset (List.mem_map_of_mem hmem))
    have hroom : p.c.skip + p.c.n ≤ (r.1.entry p.c.base).size := by
      rw [(hkept p.c.base).size]
      exact mem_candidates hc
    obtain ⟨⟨piece, hpiece, -⟩, howner, hholds, -⟩ := id hp
    refine ⟨p, hmem, howner, by rw [hpiece]; rfl, by rw [hpiece]; rfl, p.source.address, hlocated.1, fun x hx => ?_⟩
    refine ⟨hholds x hx, fun q hq hqx => ?_, hp.shows hlocated hroom hx⟩
    have hweak := before_strictWeak ranges
    exact hp.not_before hweak ((sort.ordered _ hweak _).sublist hcs) hx hq hqx

end Prosperity.Gpu
