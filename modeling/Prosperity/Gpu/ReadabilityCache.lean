import Mathlib.Logic.Function.Basic
import Prosperity.Foundations.Execution
import Prosperity.Gpu.GuestPageTable
import Prosperity.Gpu.ReadableRanges

/-!
# Readability, remembered

`IsReadableRangeCached` remembers what `IsReadableRange` answered until the generation of the mappings moves on.
The pages of a short range are marked in the page table; other answers each thread keeps by address. A mark has
the low bits of the generation, and a bit that says what was found.
-/

namespace Prosperity.Gpu

/-- `kUnreadable` -/
def unreadableBit : ℕ := 0x80000000

/-- By chunk index, the `readable` fields of the pages of a chunk that is reserved. -/
structure PageRecords where
  chunks : ℕ → Option (ℕ → ℕ) := fun _ => none

namespace PageRecords

open GuestPageTable (kChunkShift kChunks)

def kPageShift : ℕ := 12

def kPagesPerChunk : ℕ := 1 <<< (kChunkShift - kPageShift)

def chunkOf (page : ℕ) : ℕ := (page <<< kPageShift) >>> kChunkShift

def slotOf (page : ℕ) : ℕ := page &&& (kPagesPerChunk - 1)

variable (r : PageRecords)

/-- `Find`, and the zero of a record that was never created. -/
def known (page : ℕ) : ℕ :=
  if chunkOf page < kChunks then
    match r.chunks (chunkOf page) with
    | none => 0
    | some records => records (slotOf page)
  else 0

def store (records : ℕ → ℕ) (page value : ℕ) : PageRecords :=
  ⟨Function.update r.chunks (chunkOf page) (some (Function.update records (slotOf page) value))⟩

/-- `At`, and the store where there is a record. -/
def remember (reserve : ℕ → Bool) (value : ℕ) (r : PageRecords) (page : ℕ) : PageRecords :=
  if chunkOf page < kChunks then
    match r.chunks (chunkOf page) with
    | some records => r.store records page value
    | none => if reserve (chunkOf page) then r.store (fun _ => 0) page value else r
  else r

end PageRecords

/-- What a thread remembers at an address. -/
structure CachedAnswer where
  bytes : ℕ
  generation : ℕ
  readable : Bool

/-- The state. The mappings are the host's; the answers are those of each thread, by address. -/
structure ReadabilityCache where
  maps : ProcessMaps
  generation : ℕ
  records : PageRecords
  cache : ℕ → ℕ → Option CachedAnswer
  seenGeneration : ℕ → ℕ

/-- A call of `IsReadableRangeCached` in one of the threads. -/
structure ReadQuery where
  thread : ℕ
  address : ℕ
  bytes : ℕ
  env : Answers

namespace ReadQuery

variable (q : ReadQuery)

def first : ℕ := q.address / pageBytes

def last : ℕ := (q.address + q.bytes - 1) / pageBytes

def paged : Bool :=
  decide (q.bytes ≠ 0 ∧ q.address + q.bytes ≤ 0xFFFFFFFFFFFFFFFF ∧ q.last - q.first < 64)

def pages : List ℕ := List.range' q.first (q.last + 1 - q.first)

end ReadQuery

def checkPages (known : ℕ → ℕ) (gen : ℕ) : Bool → List ℕ → Option Bool
  | all, [] => if all then some true else none
  | all, page :: pages =>
    if known page = gen ||| unreadableBit then some false
    else checkPages known gen (all && decide (known page = gen)) pages

namespace ReadabilityCache

variable (s : ReadabilityCache) (q : ReadQuery)

def gen : ℕ := s.generation % unreadableBit

def pageAnswer : Option Bool := if q.paged then checkPages s.records.known s.gen true q.pages else none

def freshen (thread : ℕ) : ReadabilityCache :=
  if s.seenGeneration thread ≠ s.generation then
    { s with
      seenGeneration := Function.update s.seenGeneration thread s.generation
      cache := Function.update s.cache thread fun _ => none }
  else s

def entryAnswer : Option Bool :=
  ((s.cache q.thread q.address).filter fun e => decide (e.bytes = q.bytes)).map CachedAnswer.readable

/-- What is answered without a probe. -/
def memo : Option Bool :=
  match s.pageAnswer q with
  | some answer => some answer
  | none => (s.freshen q.thread).entryAnswer q

def note (readable : Bool) : ReadabilityCache :=
  if readable && q.paged then
    { s with records := q.pages.foldl (PageRecords.remember q.env.reserve s.gen) s.records }
  else
    { s with
      records :=
        if !readable && q.paged && decide (q.first = q.last) then
          s.records.remember q.env.reserve (s.gen ||| unreadableBit) q.first
        else s.records
      cache := Function.update s.cache q.thread (Function.update (s.cache q.thread) q.address
        (some ⟨q.bytes, s.generation, readable⟩)) }

/-- `IsReadableRangeCached`: the answer and the state behind it. -/
def isReadableRangeCached : Bool × ReadabilityCache :=
  match s.pageAnswer q with
  | some answer => (answer, s)
  | none =>
    let s := s.freshen q.thread
    match s.entryAnswer q with
    | some answer => (answer, s)
    | none =>
      let readable := s.maps.isReadableRange q.env q.address q.bytes
      (readable, s.note q readable)

/-- `NextMemoryGeneration`, with the mappings of the new generation. -/
def next (maps : ProcessMaps) : ReadabilityCache := { s with generation := s.generation + 1, maps := maps }

/-- Before anything is asked. -/
def init (maps : ProcessMaps) : ReadabilityCache where
  maps := maps
  generation := 1
  records := {}
  cache := fun _ _ => none
  seenGeneration := fun _ => 0

end ReadabilityCache

inductive ReadabilityOp
  | query (q : ReadQuery)
  | next (maps : ProcessMaps)

/-- Queries of any threads and new generations, in any order. -/
def readabilitySystem : LabelledSystem ReadabilityCache ReadabilityOp where
  step s
    | .query q => some (s.isReadableRangeCached q).2
    | .next maps => some (s.next maps)

def AnsweredRight (s : ReadabilityCache) : ReadabilityOp → Prop
  | .query q => RightAnswer s.maps q.address q.bytes (s.isReadableRangeCached q).1
  | .next _ => True

def ProbesExactly (s : ReadabilityCache) : ReadabilityOp → Prop
  | .query q => s.memo q = none → ProbeExact s.maps q.env q.address q.bytes
  | .next _ => True

def MarksDistinct (s : ReadabilityCache) (_ : ReadabilityOp) : Prop := s.generation < unreadableBit

instance (s : ReadabilityCache) (op : ReadabilityOp) : Decidable (MarksDistinct s op) :=
  inferInstanceAs (Decidable (_ < _))

/-! ### The marks -/

namespace PageRecords

open GuestPageTable (kChunks)

theorem chunkOf_eq (page : ℕ) : chunkOf page = page / 2 ^ 18 := by
  rw [chunkOf, Nat.shiftLeft_eq, Nat.shiftRight_eq_div_pow]
  exact Nat.mul_div_mul_right page (2 ^ 18) (by decide : 0 < 2 ^ 12)

theorem slotOf_eq (page : ℕ) : slotOf page = page % 2 ^ 18 := Nat.and_two_pow_sub_one_eq_mod page 18

theorem eq_of_place {page page' : ℕ} (hchunk : chunkOf page = chunkOf page') (hslot : slotOf page = slotOf page') :
    page = page' := by
  rw [chunkOf_eq, chunkOf_eq] at hchunk
  rw [slotOf_eq, slotOf_eq] at hslot
  omega

@[simp]
theorem known_empty (page : ℕ) : ({} : PageRecords).known page = 0 := by
  simp [known]

theorem known_store {r : PageRecords} {records : ℕ → ℕ} {page : ℕ} (value : ℕ) (hin : chunkOf page < kChunks)
    (hrecords : ∀ page', chunkOf page' = chunkOf page → r.known page' = records (slotOf page')) (page' : ℕ) :
    (r.store records page value).known page' = r.known page' ∨
      page' = page ∧ (r.store records page value).known page' = value := by
  by_cases hchunk : chunkOf page' = chunkOf page
  · by_cases hslot : slotOf page' = slotOf page
    · exact .inr ⟨eq_of_place hchunk hslot, by simp [known, store, hchunk, hslot, hin]⟩
    · left
      rw [hrecords page' hchunk]
      simp [known, store, hchunk, hslot, hin]
  · left
    simp [known, store, hchunk]

theorem known_remember (reserve : ℕ → Bool) (value : ℕ) (r : PageRecords) (page page' : ℕ) :
    (r.remember reserve value page).known page' = r.known page' ∨
      page' = page ∧ (r.remember reserve value page).known page' = value := by
  by_cases hin : chunkOf page < kChunks
  · rw [remember, if_pos hin]
    cases hchunks : r.chunks (chunkOf page) with
    | some records =>
      exact known_store value hin (fun page' hchunk => by simp [known, hchunk, hchunks, hin]) page'
    | none =>
      dsimp only
      by_cases hreserve : reserve (chunkOf page) = true
      · rw [if_pos hreserve]
        exact known_store value hin (fun page' hchunk => by simp [known, hchunk, hchunks]) page'
      · rw [if_neg hreserve]
        exact .inl rfl
  · rw [remember, if_neg hin]
    exact .inl rfl

theorem known_foldl_remember (reserve : ℕ → Bool) (value : ℕ) (pages : List ℕ) (r : PageRecords) (page : ℕ) :
    (pages.foldl (remember reserve value) r).known page = r.known page ∨
      page ∈ pages ∧ (pages.foldl (remember reserve value) r).known page = value := by
  induction pages generalizing r with
  | nil => exact .inl rfl
  | cons first pages ih =>
    rw [List.foldl_cons]
    obtain hsame | ⟨hmem, hvalue⟩ := ih (r.remember reserve value first)
    · rw [hsame]
      obtain hkept | ⟨rfl, hnew⟩ := known_remember reserve value r first page
      · exact .inl hkept
      · exact .inr ⟨List.mem_cons_self, hnew⟩
    · exact .inr ⟨List.mem_cons_of_mem _ hmem, hvalue⟩

end PageRecords

theorem checkPages_false {known : ℕ → ℕ} {gen : ℕ} {all : Bool} {pages : List ℕ}
    (h : checkPages known gen all pages = some false) : ∃ page ∈ pages, known page = gen ||| unreadableBit := by
  induction pages generalizing all with
  | nil => cases all <;> simp [checkPages] at h
  | cons page pages ih =>
    rw [checkPages] at h
    split_ifs at h with hpage
    · exact ⟨page, List.mem_cons_self, hpage⟩
    · obtain ⟨other, hmem, hother⟩ := ih h
      exact ⟨other, List.mem_cons_of_mem _ hmem, hother⟩

theorem checkPages_true {known : ℕ → ℕ} {gen : ℕ} {all : Bool} {pages : List ℕ}
    (h : checkPages known gen all pages = some true) : all = true ∧ ∀ page ∈ pages, known page = gen := by
  induction pages generalizing all with
  | nil => cases all <;> simp [checkPages] at h ⊢
  | cons page pages ih =>
    rw [checkPages] at h
    split_ifs at h with hpage
    · exact absurd (Option.some.inj h) (by simp)
    · obtain ⟨hall, hpages⟩ := ih h
      rw [Bool.and_eq_true, decide_eq_true_eq] at hall
      exact ⟨hall.1, List.forall_mem_cons.mpr ⟨hall.2, hpages⟩⟩

theorem or_unreadableBit {gen : ℕ} (h : gen < unreadableBit) : gen ||| unreadableBit = gen + unreadableBit := by
  rw [Nat.lor_comm, Nat.add_comm]
  exact (@Nat.two_pow_add_eq_or_of_lt 31 gen h 1).symm

/-! ### What the memory holds -/

namespace ReadQuery

variable {q : ReadQuery}

theorem pos_of_paged (h : q.paged = true) : 0 < q.bytes := by
  rw [paged, decide_eq_true_eq] at h
  exact Nat.pos_of_ne_zero h.1

theorem mem_pages_iff (h : 0 < q.bytes) {page : ℕ} : page ∈ q.pages ↔ InRange page q.address q.bytes :=
  mem_pages h

end ReadQuery

namespace ReadabilityCache

/-- The marks of the generation and the answers that a thread remembers of it are right, and no mark has the low
bits of a later one. -/
structure Sound (s : ReadabilityCache) : Prop where
  generation_pos : 0 < s.generation
  mark_le : ∀ page, s.records.known page % unreadableBit ≤ s.generation
  readable : s.generation < unreadableBit → ∀ page, s.records.known page = s.generation → s.maps.readable page = true
  unreadable : s.generation < unreadableBit → ∀ page,
    s.records.known page = s.generation ||| unreadableBit → s.maps.readable page = false
  seen_le : ∀ thread, s.seenGeneration thread ≤ s.generation
  answers : ∀ thread, s.seenGeneration thread = s.generation → ∀ address e, s.cache thread address = some e →
    RightAnswer s.maps address e.bytes e.readable

variable {s : ReadabilityCache} {q : ReadQuery}

theorem gen_eq (h : s.generation < unreadableBit) : s.gen = s.generation := Nat.mod_eq_of_lt h

@[simp]
theorem maps_freshen (thread : ℕ) : (s.freshen thread).maps = s.maps := by
  unfold freshen
  split_ifs <;> rfl

@[simp]
theorem generation_freshen (thread : ℕ) : (s.freshen thread).generation = s.generation := by
  unfold freshen
  split_ifs <;> rfl

@[simp]
theorem records_freshen (thread : ℕ) : (s.freshen thread).records = s.records := by
  unfold freshen
  split_ifs <;> rfl

theorem seen_freshen (thread : ℕ) : (s.freshen thread).seenGeneration thread = s.generation := by
  unfold freshen
  split_ifs with h
  · exact Function.update_self ..
  · exact not_not.mp h

namespace Sound

theorem init (maps : ProcessMaps) : Sound (ReadabilityCache.init maps) where
  generation_pos := Nat.one_pos
  mark_le := by simp [ReadabilityCache.init]
  readable := by simp [ReadabilityCache.init]
  unreadable := by
    intro hgen page hmark
    rw [or_unreadableBit hgen] at hmark
    have hmark : 0 = 1 + unreadableBit := (PageRecords.known_empty page).symm.trans hmark
    omega
  seen_le := fun _ => Nat.zero_le _
  answers := by simp [ReadabilityCache.init]

theorem next (h : Sound s) (maps : ProcessMaps) : Sound (s.next maps) where
  generation_pos := Nat.succ_pos _
  mark_le := fun page => Nat.le_succ_of_le (h.mark_le page)
  readable := by
    intro hgen page hmark
    have hgen : s.generation + 1 < unreadableBit := hgen
    have hle := h.mark_le page
    have hmark : s.records.known page = s.generation + 1 := hmark
    rw [hmark, Nat.mod_eq_of_lt hgen] at hle
    omega
  unreadable := by
    intro hgen page hmark
    have hgen : s.generation + 1 < unreadableBit := hgen
    have hle := h.mark_le page
    have hmark : s.records.known page = (s.generation + 1) ||| unreadableBit := hmark
    rw [hmark, or_unreadableBit hgen, Nat.add_mod_right, Nat.mod_eq_of_lt hgen] at hle
    omega
  seen_le := fun thread => Nat.le_succ_of_le (h.seen_le thread)
  answers := by
    intro thread hseen
    have hle := h.seen_le thread
    have hseen : s.seenGeneration thread = s.generation + 1 := hseen
    omega

theorem freshen (h : Sound s) (thread : ℕ) : Sound (s.freshen thread) where
  generation_pos := by simpa using h.generation_pos
  mark_le := by simpa using h.mark_le
  readable := by simpa using h.readable
  unreadable := by simpa using h.unreadable
  seen_le := by
    intro other
    rw [generation_freshen]
    obtain rfl | hne := eq_or_ne other thread
    · exact (seen_freshen other).le
    · unfold ReadabilityCache.freshen
      split_ifs
      · simpa [hne] using h.seen_le other
      · exact h.seen_le other
  answers := by
    intro other
    unfold ReadabilityCache.freshen
    split_ifs
    · obtain rfl | hne := eq_or_ne other thread
      · simp
      · simpa [hne] using h.answers other
    · exact h.answers other

theorem pageAnswer_right (h : Sound s) (hgen : s.generation < unreadableBit) {answer : Bool}
    (hanswer : s.pageAnswer q = some answer) : RightAnswer s.maps q.address q.bytes answer := by
  rw [pageAnswer, gen_eq hgen] at hanswer
  split_ifs at hanswer with hpaged
  have hpos := ReadQuery.pos_of_paged hpaged
  cases answer with
  | true =>
    obtain ⟨-, hmarks⟩ := checkPages_true hanswer
    refine ⟨fun _ page hpage => h.readable hgen page ?_, fun hfalse => absurd hfalse (by simp)⟩
    exact hmarks page ((ReadQuery.mem_pages_iff hpos).mpr hpage)
  | false =>
    obtain ⟨page, hmem, hmark⟩ := checkPages_false hanswer
    refine ⟨fun htrue => absurd htrue (by simp), fun _ => ⟨page, ?_, h.unreadable hgen page hmark⟩⟩
    exact (ReadQuery.mem_pages_iff hpos).mp hmem

theorem entryAnswer_right (h : Sound s) (hseen : s.seenGeneration q.thread = s.generation) {answer : Bool}
    (hanswer : s.entryAnswer q = some answer) : RightAnswer s.maps q.address q.bytes answer := by
  obtain ⟨e, he, rfl⟩ := Option.map_eq_some_iff.mp hanswer
  obtain ⟨hcache, hbytes⟩ := Option.filter_eq_some_iff.mp he
  rw [decide_eq_true_eq] at hbytes
  rw [← hbytes]
  exact h.answers q.thread hseen q.address e hcache

theorem of_marks (h : Sound s) {records : PageRecords} {value : ℕ} (hgen : s.generation < unreadableBit)
    (hrecords : ∀ page, records.known page = s.records.known page ∨
      (value = s.generation ∧ s.maps.readable page = true ∨
        value = s.generation ||| unreadableBit ∧ s.maps.readable page = false) ∧ records.known page = value) :
    Sound { s with records := records } where
  generation_pos := h.generation_pos
  mark_le := by
    intro page
    obtain hsame | ⟨⟨rfl, -⟩ | ⟨rfl, -⟩, hmark⟩ := hrecords page
    · exact hsame ▸ h.mark_le page
    · exact hmark ▸ Nat.mod_le _ _
    · dsimp only
      rw [hmark, or_unreadableBit hgen, Nat.add_mod_right]
      exact Nat.mod_le _ _
  readable := by
    intro _ page hpage
    obtain hsame | ⟨⟨rfl, hreadable⟩ | ⟨rfl, -⟩, hmark⟩ := hrecords page
    · exact h.readable hgen page (hsame ▸ hpage)
    · exact hreadable
    · -- the two marks of a generation differ, as it has not reached the bit
      have hboth : s.generation = s.generation ||| unreadableBit := hpage.symm.trans hmark
      rw [or_unreadableBit hgen] at hboth
      simp [unreadableBit] at hboth
  unreadable := by
    intro _ page hpage
    obtain hsame | ⟨⟨rfl, -⟩ | ⟨rfl, hunreadable⟩, hmark⟩ := hrecords page
    · exact h.unreadable hgen page (hsame ▸ hpage)
    · have hboth : s.generation = s.generation ||| unreadableBit := hmark.symm.trans hpage
      rw [or_unreadableBit hgen] at hboth
      simp [unreadableBit] at hboth
    · exact hunreadable
  seen_le := h.seen_le
  answers := h.answers

theorem of_answer (h : Sound s) (thread : ℕ) {address : ℕ} {e : CachedAnswer}
    (hright : RightAnswer s.maps address e.bytes e.readable) :
    Sound { s with
      cache := Function.update s.cache thread (Function.update (s.cache thread) address (some e)) } where
  generation_pos := h.generation_pos
  mark_le := h.mark_le
  readable := h.readable
  unreadable := h.unreadable
  seen_le := h.seen_le
  answers := by
    intro other hseen address' e' he'
    dsimp only at hseen he'
    obtain rfl | hne := eq_or_ne other thread
    · rw [Function.update_self] at he'
      obtain rfl | haddress := eq_or_ne address' address
      · rw [Function.update_self] at he'
        obtain rfl := Option.some.inj he'
        exact hright
      · rw [Function.update_of_ne haddress] at he'
        exact h.answers other hseen address' e' he'
    · rw [Function.update_of_ne hne] at he'
      exact h.answers other hseen address' e' he'

theorem note (h : Sound s) (hgen : s.generation < unreadableBit) {readable : Bool}
    (hright : RightAnswer s.maps q.address q.bytes readable) : Sound (s.note q readable) := by
  unfold ReadabilityCache.note
  rw [gen_eq hgen]
  split_ifs with hpaged hsingle
  · rw [Bool.and_eq_true] at hpaged
    refine @of_marks s h _ s.generation hgen fun page => ?_
    refine (PageRecords.known_foldl_remember q.env.reserve s.generation q.pages s.records page).imp_right ?_
    rintro ⟨hmem, hmark⟩
    refine ⟨.inl ⟨rfl, hright.1 hpaged.1 page ?_⟩, hmark⟩
    exact (ReadQuery.mem_pages_iff (ReadQuery.pos_of_paged hpaged.2)).mp hmem
  · simp only [Bool.and_eq_true, Bool.not_eq_true', decide_eq_true_eq] at hsingle
    obtain ⟨⟨hnot, hshort⟩, hone⟩ := hsingle
    have hmarked := @of_marks s h _ (s.generation ||| unreadableBit) hgen fun page =>
      (PageRecords.known_remember q.env.reserve (s.generation ||| unreadableBit) s.records q.first page).imp_right <| by
        rintro ⟨rfl, hmark⟩
        obtain ⟨page, hpage, hunreadable⟩ := hright.2 hnot
        have hends := (inRange_iff (ReadQuery.pos_of_paged hshort)).mp hpage
        have hfirst : page = q.first := Nat.le_antisymm (hends.2.trans hone.ge) hends.1
        exact ⟨.inr ⟨rfl, hfirst ▸ hunreadable⟩, hmark⟩
    exact hmarked.of_answer (e := ⟨q.bytes, s.generation, readable⟩) q.thread hright
  · exact h.of_answer (e := ⟨q.bytes, s.generation, readable⟩) q.thread hright

end Sound

theorem isReadableRangeCached_fst : (s.isReadableRangeCached q).1 =
      (s.memo q).getD (s.maps.isReadableRange q.env q.address q.bytes) := by
  unfold isReadableRangeCached memo
  cases s.pageAnswer q with
  | some answer => rfl
  | none =>
    dsimp only
    cases (s.freshen q.thread).entryAnswer q with
    | some answer => rfl
    | none => simp

theorem Sound.memo_right (h : Sound s) (hgen : s.generation < unreadableBit) {answer : Bool}
    (hanswer : s.memo q = some answer) : RightAnswer s.maps q.address q.bytes answer := by
  unfold memo at hanswer
  cases hpage : s.pageAnswer q with
  | some found =>
    rw [hpage] at hanswer
    obtain rfl := Option.some.inj hanswer
    exact h.pageAnswer_right hgen hpage
  | none =>
    rw [hpage] at hanswer
    have hright := (h.freshen q.thread).entryAnswer_right (by rw [seen_freshen, generation_freshen]) hanswer
    rwa [maps_freshen] at hright

theorem Sound.query (h : Sound s) (hgen : s.generation < unreadableBit)
    (hright : RightAnswer s.maps q.address q.bytes (s.isReadableRangeCached q).1) :
    Sound (s.isReadableRangeCached q).2 := by
  unfold isReadableRangeCached at hright ⊢
  cases hpage : s.pageAnswer q with
  | some answer => exact h
  | none =>
    have hfresh := h.freshen q.thread
    simp only [hpage] at hright ⊢
    cases hentry : (s.freshen q.thread).entryAnswer q with
    | some answer => exact hfresh
    | none =>
      simp only [hentry] at hright
      rw [← maps_freshen (s := s) q.thread] at hright
      exact hfresh.note (by rwa [generation_freshen]) hright

theorem Sound.answeredRight_iff (h : Sound s) (hgen : s.generation < unreadableBit) (op : ReadabilityOp) :
    AnsweredRight s op ↔ ProbesExactly s op := by
  cases op with
  | next maps => exact Iff.rfl
  | query q =>
    simp only [AnsweredRight, ProbesExactly, isReadableRangeCached_fst]
    cases hmemo : s.memo q with
    | some answer => exact iff_of_true (h.memo_right hgen hmemo) (fun hnone => absurd hnone (by simp))
    | none =>
      simp only [Option.getD_none, forall_const]
      exact ProcessMaps.isReadableRange_right_iff

end ReadabilityCache

open ReadabilityCache in
/-- In a run of fewer than `2^31` generations all answers are right exactly if each probe asks for a range that
it is right about. -/
theorem readability_right_iff (maps : ProcessMaps) (ops : List ReadabilityOp)
    (hgenerations : readabilitySystem.Meets MarksDistinct (init maps) ops) :
    readabilitySystem.Meets AnsweredRight (init maps) ops ↔
      readabilitySystem.Meets ProbesExactly (init maps) ops := by
  have hiff : ∀ s op, Sound s → MarksDistinct s op → (AnsweredRight s op ↔ ProbesExactly s op) :=
    fun s op hs hgen => hs.answeredRight_iff hgen op
  refine readabilitySystem.meets_iff_of_invariant hiff ?_ (Sound.init maps) hgenerations
  intro s op s' hs hgen hright hstep
  cases op with
  | query q =>
    obtain rfl := Option.some.inj hstep
    exact hs.query hgen hright
  | next maps' =>
    obtain rfl := Option.some.inj hstep
    exact hs.next maps'

def threePages (middle : Bool) : ProcessMaps where
  lines := [⟨0x10000, 0x11000, true⟩, ⟨0x11000, 0x12000, middle⟩, ⟨0x12000, 0x13000, true⟩]
  spaced := ⟨by simp, by simp⟩
  aligned := by simp [pageBytes]
  user := by simp

def queryOf (address bytes : ℕ) : ReadQuery := ⟨0, address, bytes, ⟨true, true, true, fun _ => true⟩⟩

open ReadabilityCache in
theorem readability_right_iff_threePages : readabilitySystem.Meets AnsweredRight (init (threePages true))
      [.query (queryOf 0x10000 0x3000), .next (threePages true), .query (queryOf 0x11000 4)] := by
  have hall : ∀ address bytes, 0x10000 ≤ address → address + bytes ≤ 0x13000 →
      AllReadable (threePages true) address bytes := by
    rintro address bytes hfirst hlast page ⟨a, hle, hlt, rfl⟩
    rw [ProcessMaps.readable_iff]
    by_cases hone : a < 0x11000
    · exact ⟨⟨0x10000, 0x11000, true⟩, by simp [threePages], rfl, by dsimp only; omega, hone⟩
    · by_cases htwo : a < 0x12000
      · exact ⟨⟨0x11000, 0x12000, true⟩, by simp [threePages], rfl, by dsimp only; omega, htwo⟩
      · exact ⟨⟨0x12000, 0x13000, true⟩, by simp [threePages], rfl, by dsimp only; omega, by dsimp only; omega⟩
  refine (readability_right_iff _ _ ?_).mpr ?_
  · refine ⟨by simp [MarksDistinct, init, unreadableBit], fun s hs => ?_⟩
    obtain rfl := Option.some.inj hs
    refine ⟨by decide +kernel, fun s hs => ?_⟩
    obtain rfl := Option.some.inj hs
    exact ⟨by decide +kernel, fun _ _ => trivial⟩
  · refine ⟨fun _ => ?_, fun s hs => ?_⟩
    · have hpages : AllReadable (threePages true) 0x10000 0x3000 := hall _ _ (by omega) (by omega)
      exact ⟨by decide, fun _ _ hover => hover.2.2.2 hpages, fun _ => .inl ⟨rfl, rfl⟩⟩
    · obtain rfl := Option.some.inj hs
      refine ⟨trivial, fun s hs => ?_⟩
      obtain rfl := Option.some.inj hs
      refine ⟨fun _ => ?_, fun _ _ => trivial⟩
      have hpages : AllReadable (threePages true) 0x11000 4 := hall _ _ (by omega) (by omega)
      exact ⟨by decide, fun _ _ hover => hover.2.2.2 hpages, fun _ => .inl ⟨rfl, rfl⟩⟩

open ReadabilityCache in
/-- The middle page cannot be read. All three pages are called readable, and behind that so is the middle page
alone. -/
theorem unreadablePage_passes :
    ¬ readabilitySystem.Meets AnsweredRight (init (threePages false)) [.query (queryOf 0x10000 0x3000)] ∧
      ¬ readabilitySystem.Meets AnsweredRight
        ((init (threePages false)).isReadableRangeCached (queryOf 0x10000 0x3000)).2
        [.query (queryOf 0x11000 4)] := by
  have hmiddle : (threePages false).readable 0x11 = false := by decide +kernel
  constructor
  · rintro ⟨hright, -⟩
    have hread := hright.1 (by decide +kernel) 0x11 ⟨0x11000, by decide, by decide, by decide⟩
    rw [show (init (threePages false)).maps = threePages false from rfl, hmiddle] at hread
    cases hread
  · rintro ⟨hright, -⟩
    have hread := hright.1 (by decide +kernel) 0x11 ⟨0x11000, by decide, by decide, by decide⟩
    have hfalse : (((init (threePages false)).isReadableRangeCached (queryOf 0x10000 0x3000)).2.maps.readable
      0x11) = false := by decide +kernel
    rw [hfalse] at hread
    cases hread

end Prosperity.Gpu
