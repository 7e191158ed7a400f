import Mathlib.Algebra.Group.Nat.Defs
import Mathlib.Data.List.Sort
import Prosperity.Foundations.Digits
import Prosperity.Foundations.Execution
import Prosperity.Foundations.Extents

/-!
# Spans of a memory block

`MemorySpanAllocator` hands out aligned spans of one block of device memory. It keeps the free spans by
offset, takes the first that can hold a request, and joins what is returned with its neighbours. Offsets and
sizes are 64-bit words, and their sums and differences wrap.
-/

namespace Prosperity.Gpu

/-- A sum as a 64-bit word. -/
def wrap64 (x : ℕ) : ℕ := x % 2 ^ 64

theorem wrap64_of_lt {x : ℕ} (h : x < 2 ^ 64) : wrap64 x = x := Nat.mod_eq_of_lt h

/-- A difference as a 64-bit word. -/
def diff64 (x y : ℕ) : ℕ := (x + (2 ^ 64 - y)) % 2 ^ 64

theorem diff64_of_le {x y : ℕ} (hle : y ≤ x) (hx : x < 2 ^ 64) : diff64 x y = x - y := by
  unfold diff64
  rw [show x + (2 ^ 64 - y) = x - y + 2 ^ 64 by omega, Nat.add_mod_right]
  exact Nat.mod_eq_of_lt (by omega)

namespace MemorySpanAllocator

def place (size alignment : ℕ) (span : Extent) : Option ℕ :=
  if span.1 > diff64 (2 ^ 64 - 1) alignment + 1 then none
  else
    let aligned := andNot (diff64 (wrap64 (span.1 + alignment)) 1) (diff64 alignment 1)
    let padding := diff64 aligned span.1
    if padding > span.2 ∨ size > diff64 span.2 padding then none else some aligned

def remainders (size aligned : ℕ) (span : Extent) : List Extent :=
  let afterOffset := wrap64 (aligned + size)
  let after := diff64 (wrap64 (span.1 + span.2)) afterOffset
  let padding := diff64 aligned span.1
  (if padding ≠ 0 then [(span.1, padding)] else []) ++ if after ≠ 0 then [(afterOffset, after)] else []

/-- The loop of `Allocate`. -/
def allocateFrom (size alignment : ℕ) : List Extent → Option (ℕ × List Extent)
  | [] => none
  | span :: rest =>
    match place size alignment span with
    | some aligned => some (aligned, remainders size aligned span ++ rest)
    | none => (allocateFrom size alignment rest).map fun (offset, free) => (offset, span :: free)

def allocate (free : List Extent) (size alignment : ℕ) : Option (ℕ × List Extent) :=
  if size = 0 ∨ alignment = 0 ∨ alignment &&& (alignment - 1) ≠ 0 then none else allocateFrom size alignment free

/-- The loop of `Free`, with the last span that it has written. A span that overlaps it fails the check. -/
def coalesceFrom (last : Extent) : List Extent → Option (List Extent)
  | [] => some [last]
  | span :: rest =>
    let lastEnd := wrap64 (last.1 + last.2)
    if span.1 < lastEnd then none
    else if lastEnd ≥ span.1 then
      coalesceFrom (last.1, diff64 (max lastEnd (wrap64 (span.1 + span.2))) last.1) rest
    else (coalesceFrom span rest).map (last :: ·)

def coalesce : List Extent → Option (List Extent)
  | [] => some []
  | span :: rest => coalesceFrom span rest

def free (spans : List Extent) (offset size : ℕ) : Option (List Extent) :=
  if size = 0 ∨ offset > diff64 (2 ^ 64 - 1) size then some spans
  else coalesce ((spans ++ [(offset, size)]).insertionSort fun a b => a.1 ≤ b.1)

def reset (capacity : ℕ) : List Extent := if capacity ≠ 0 then [(0, capacity)] else []

end MemorySpanAllocator

/-! ## A block in use -/

structure LiveSpan where
  offset : ℕ
  size : ℕ
  alignment : ℕ

def LiveSpan.extent (l : LiveSpan) : Extent := (l.offset, l.size)

structure SpanState where
  free : List Extent
  live : List LiveSpan
  failed : Bool

inductive SpanEvent where
  | allocate (size alignment : UInt64)
  /-- The span of this number is returned. -/
  | free (k : ℕ)

namespace SpanState

open MemorySpanAllocator

def init (capacity : UInt64) : SpanState := ⟨reset capacity.toNat, [], false⟩

def step (s : SpanState) : SpanEvent → Option SpanState
  | .allocate size alignment =>
    match allocate s.free size.toNat alignment.toNat with
    | none => some { s with failed := true }
    | some (offset, free) => some ⟨free, s.live ++ [⟨offset, size.toNat, alignment.toNat⟩], false⟩
  | .free k =>
    match s.live[k]? with
    | none => none
    | some l => (MemorySpanAllocator.free s.free l.offset l.size).map fun free => ⟨free, s.live.eraseIdx k, false⟩

def system : LabelledSystem SpanState SpanEvent := ⟨step⟩

end SpanState

/-! ## What the allocator is for -/

structure Gapped (free : List Extent) : Prop where
  gaps : free.Pairwise fun a b => a.1 + a.2 < b.1
  size_pos : ∀ e ∈ free, 0 < e.2

def CanHold (e : Extent) (size alignment : ℕ) : Prop :=
  ∃ offset, alignment ∣ offset ∧ e.1 ≤ offset ∧ offset + size ≤ e.1 + e.2

namespace SpanState

open MemorySpanAllocator

structure Sound (capacity : ℕ) (s : SpanState) : Prop where
  live_apart : s.live.Pairwise fun a b => a.extent.Apart b.extent
  live_aligned : ∀ l ∈ s.live, 0 < l.size ∧ l.alignment ∣ l.offset ∧ l.offset + l.size ≤ capacity
  free_gapped : Gapped s.free
  free_iff : ∀ x, (∃ e ∈ s.free, e.Has x) ↔ x < capacity ∧ ¬∃ l ∈ s.live, l.extent.Has x
  whole : s.live = [] → s.free = reset capacity
  can_free : ∀ k < s.live.length, (s.step (.free k)).isSome = true

def CallSound (s : SpanState) : SpanEvent → SpanState → Prop
  | .allocate size alignment, s' =>
    size ≠ 0 → alignment.toNat.isPowerOfTwo → (s'.failed = true → s'.free = s.free ∧ s'.live = s.live ∧
        ∀ e ∈ s.free, ¬CanHold e size.toNat alignment.toNat) ∧
      (s'.failed = false → ∃ offset, s'.live = s.live ++ [⟨offset, size.toNat, alignment.toNat⟩])
  | .free k, s' => s'.live = s.live.eraseIdx k

end SpanState

/-! ## A request in a free span -/

theorem cover_pos {l : List Extent} {x : ℕ} : 0 < cover l x ↔ ∃ e ∈ l, e.Has x := by
  simp [cover, List.countP_pos_iff]

namespace MemorySpanAllocator

section Place

variable {size k aligned : ℕ} {span : Extent}

theorem place_eq (hk : 2 ^ k < 2 ^ 64) (hend : span.1 + span.2 < 2 ^ 64) : place size (2 ^ k) span =
      if alignUp span.1 (2 ^ k) + size ≤ span.1 + span.2 ∧ span.1 + 2 ^ k ≤ 2 ^ 64 then some (alignUp span.1 (2 ^ k))
      else none := by
  have hpos := Nat.two_pow_pos k
  have hle := le_alignUp (k := k) span.1
  have hguard : diff64 (2 ^ 64 - 1) (2 ^ k) + 1 = 2 ^ 64 - 2 ^ k := by
    rw [diff64_of_le (by omega) (by omega)]
    omega
  unfold place
  rw [hguard]
  by_cases hfar : span.1 > 2 ^ 64 - 2 ^ k
  · rw [if_pos hfar, if_neg (by omega)]
  · have hsum : diff64 (wrap64 (span.1 + 2 ^ k)) 1 = span.1 + 2 ^ k - 1 := by
      rcases Nat.lt_or_ge (span.1 + 2 ^ k) (2 ^ 64) with hlt | hge
      · rw [wrap64_of_lt hlt, diff64_of_le (by omega) hlt]
      · -- the sum is 2^64, and its wrap less one is the last word
        rw [show span.1 + 2 ^ k = 2 ^ 64 by omega]
        rfl
    have haligned : alignUp span.1 (2 ^ k) < 2 ^ 64 := by
      have hdown : alignUp span.1 (2 ^ k) ≤ span.1 + 2 ^ k - 1 := by
        rw [alignUp, andNot_two_pow]
        exact Nat.mul_div_le _ _
      omega
    have hplace : andNot (diff64 (wrap64 (span.1 + 2 ^ k)) 1) (diff64 (2 ^ k) 1) = alignUp span.1 (2 ^ k) := by
      rw [hsum, diff64_of_le hpos hk]
      rfl
    simp only [if_neg hfar, hplace, diff64_of_le hle haligned]
    by_cases hpad : alignUp span.1 (2 ^ k) - span.1 > span.2
    · rw [if_pos (.inl hpad), if_neg (by omega)]
    · rw [diff64_of_le (by omega) (by omega)]
      by_cases hfit : alignUp span.1 (2 ^ k) + size ≤ span.1 + span.2
      · rw [if_neg (by omega), if_pos (by omega)]
      · rw [if_pos (by omega), if_neg (by omega)]

/-- **What is placed fits**, at a multiple of the alignment. -/
theorem fits_of_place (hk : 2 ^ k < 2 ^ 64) (hend : span.1 + span.2 < 2 ^ 64)
    (h : place size (2 ^ k) span = some aligned) :
    2 ^ k ∣ aligned ∧ span.1 ≤ aligned ∧ aligned + size ≤ span.1 + span.2 := by
  rw [place_eq hk hend] at h
  split at h
  · rename_i hfits
    obtain rfl := Option.some.inj h
    exact ⟨dvd_alignUp span.1, le_alignUp span.1, hfits.1⟩
  · cases h

/-- **A span that can hold the request is taken**: no multiple in it is past the last word. -/
theorem not_canHold_of_place (hk : 2 ^ k < 2 ^ 64) (hend : span.1 + span.2 < 2 ^ 64)
    (h : place size (2 ^ k) span = none) : ¬CanHold span size (2 ^ k) := by
  rintro ⟨offset, hdvd, hle, hfits⟩
  rw [place_eq hk hend] at h
  have hleast := alignUp_le hdvd hle
  split at h
  · cases h
  · rename_i hnot
    -- a multiple below 2^64 leaves room for one more step
    have hroom : offset + 2 ^ k ≤ 2 ^ 64 := by
      obtain ⟨m, rfl⟩ := hdvd
      have hklt : k < 64 := (Nat.pow_lt_pow_iff_right (by omega)).mp hk
      have h64 : (2 : ℕ) ^ 64 = 2 ^ k * 2 ^ (64 - k) := by
        rw [← Nat.pow_add, Nat.add_sub_cancel' (Nat.le_of_lt hklt)]
      have hlt : 2 ^ k * m < 2 ^ k * 2 ^ (64 - k) := by omega
      rw [h64, ← Nat.mul_succ]
      exact Nat.mul_le_mul_left _ (Nat.lt_of_mul_lt_mul_left hlt)
    omega

theorem remainders_eq (hle : span.1 ≤ aligned) (hfits : aligned + size ≤ span.1 + span.2)
    (hend : span.1 + span.2 < 2 ^ 64) : remainders size aligned span =
      [(span.1, aligned - span.1), (aligned + size, span.1 + span.2 - (aligned + size))].filter fun e => 0 < e.2 := by
  unfold remainders
  simp only [wrap64_of_lt (Nat.lt_of_le_of_lt hfits hend), wrap64_of_lt hend,
    diff64_of_le hle (by omega : aligned < 2 ^ 64), diff64_of_le hfits hend, List.filter_cons, List.filter_nil,
    decide_eq_true_eq, Nat.pos_iff_ne_zero]
  split_ifs <;> rfl

structure Taken (l l' : List Extent) (taken : Extent) : Prop where
  gapped : Gapped l'
  inside : ∀ e' ∈ l', ∃ e ∈ l, e.1 ≤ e'.1 ∧ e'.1 + e'.2 ≤ e.1 + e.2
  cover : ∀ x, cover l' x + (if taken.Has x then 1 else 0) = cover l x

theorem cover_filter_pos (l : List Extent) (x : ℕ) : cover (l.filter fun e => 0 < e.2) x = cover l x := by
  rw [cover, cover, List.countP_filter]
  refine List.countP_congr fun e _ => ?_
  rw [Bool.and_eq_true, decide_eq_true_eq, decide_eq_true_eq]
  refine and_iff_left_of_imp fun hhas => ?_
  unfold Extent.Has at hhas
  omega

theorem taken_remainders (hsize : 0 < size) (hle : span.1 ≤ aligned) (hfits : aligned + size ≤ span.1 + span.2)
    (hend : span.1 + span.2 < 2 ^ 64) : Taken [span] (remainders size aligned span) (aligned, size) := by
  rw [remainders_eq hle hfits hend]
  refine ⟨⟨List.Pairwise.filter _ ?_, fun e he => ?_⟩, fun e he => ⟨span, List.mem_singleton_self _, ?_⟩, fun x => ?_⟩
  · refine List.pairwise_pair.mpr ?_
    dsimp only
    omega
  · simpa using (List.mem_filter.mp he).2
  · have hmem := (List.mem_filter.mp he).1
    simp only [List.mem_cons, List.not_mem_nil, or_false] at hmem
    rcases hmem with rfl | rfl
    · exact ⟨Nat.le_refl _, by dsimp only; omega⟩
    · exact ⟨by dsimp only; omega, by dsimp only; omega⟩
  · -- the span is the part in front, the request and the part behind
    have hfront := ite_has_join span.1 (aligned - span.1) (span.1 + span.2 - aligned) x
    have hback := ite_has_join aligned size (span.1 + span.2 - (aligned + size)) x
    rw [show aligned - span.1 + (span.1 + span.2 - aligned) = span.2 by omega,
      show span.1 + (aligned - span.1) = aligned by omega] at hfront
    rw [show size + (span.1 + span.2 - (aligned + size)) = span.1 + span.2 - aligned by omega] at hback
    change (if span.Has x then 1 else 0) = _ at hfront
    rw [cover_filter_pos]
    simp only [cover_cons, show Prosperity.cover [] x = 0 from rfl]
    omega

end Place

/-! ## Allocation -/

theorem allocateFrom_spec {size k : ℕ} (hsize : 0 < size) (hk : 2 ^ k < 2 ^ 64) {l : List Extent} (h : Gapped l)
    (hend : ∀ e ∈ l, e.1 + e.2 < 2 ^ 64) :
    match allocateFrom size (2 ^ k) l with
    | none => ∀ e ∈ l, ¬CanHold e size (2 ^ k)
    | some (offset, l') => 2 ^ k ∣ offset ∧ Taken l l' (offset, size) := by
  induction l with
  | nil => exact fun e he => by cases he
  | cons span rest ih =>
    obtain ⟨hgap, hgaps⟩ := List.pairwise_cons.mp h.gaps
    have hspan := hend span List.mem_cons_self
    have hrest : Gapped rest := ⟨hgaps, fun e he => h.size_pos e (List.mem_cons_of_mem _ he)⟩
    have ih := ih hrest fun e he => hend e (List.mem_cons_of_mem _ he)
    rw [allocateFrom]
    cases hplace : place size (2 ^ k) span with
    | some aligned =>
      obtain ⟨hdvd, hle, hfits⟩ := fits_of_place hk hspan hplace
      have htaken := taken_remainders hsize hle hfits hspan
      refine ⟨hdvd, ⟨List.pairwise_append.mpr ⟨htaken.gapped.gaps, hgaps, fun a ha b hb => ?_⟩, fun e he => ?_⟩,
        fun e he => ?_, fun x => ?_⟩
      · -- what is left ends where the span did, or before
        obtain ⟨e, he, -, hle'⟩ := htaken.inside a ha
        obtain rfl := List.mem_singleton.mp he
        exact Nat.lt_of_le_of_lt hle' (hgap b hb)
      · rcases List.mem_append.mp he with he | he
        · exact htaken.gapped.size_pos e he
        · exact hrest.size_pos e he
      · rcases List.mem_append.mp he with he | he
        · obtain ⟨e', he', hin⟩ := htaken.inside e he
          obtain rfl := List.mem_singleton.mp he'
          exact ⟨e', List.mem_cons_self, hin⟩
        · exact ⟨e, List.mem_cons_of_mem _ he, Nat.le_refl _, Nat.le_refl _⟩
      · have hcover := htaken.cover x
        rw [cover_append, cover_cons]
        rw [cover_cons, show Prosperity.cover [] x = 0 from rfl] at hcover
        omega
    | none =>
      dsimp only
      cases hfrom : allocateFrom size (2 ^ k) rest with
      | none =>
        rw [hfrom] at ih
        exact List.forall_mem_cons.mpr ⟨not_canHold_of_place hk hspan hplace, ih⟩
      | some found =>
        obtain ⟨offset, l'⟩ := found
        rw [hfrom] at ih
        have hdvd : 2 ^ k ∣ offset := ih.1
        have htaken : Taken rest l' (offset, size) := ih.2
        change 2 ^ k ∣ offset ∧ Taken (span :: rest) (span :: l') (offset, size)
        refine ⟨hdvd, ⟨List.pairwise_cons.mpr ⟨fun b hb => ?_, htaken.gapped.gaps⟩,
          List.forall_mem_cons.mpr ⟨h.size_pos span List.mem_cons_self, htaken.gapped.size_pos⟩⟩,
          List.forall_mem_cons.mpr ⟨⟨span, List.mem_cons_self, Nat.le_refl _, Nat.le_refl _⟩, fun e he => ?_⟩,
          fun x => ?_⟩
        · obtain ⟨e, he, hle, -⟩ := htaken.inside b hb
          exact Nat.lt_of_lt_of_le (hgap e he) hle
        · obtain ⟨e', he', hin⟩ := htaken.inside e he
          exact ⟨e', List.mem_cons_of_mem _ he', hin⟩
        · have hcover := htaken.cover x
          rw [cover_cons, cover_cons]
          omega

/-! ## Returning a span -/

structure Ordered (l : List Extent) : Prop where
  order : l.Pairwise fun a b => a.1 + a.2 ≤ b.1
  size_pos : ∀ e ∈ l, 0 < e.2
  lt_word : ∀ e ∈ l, e.1 + e.2 < 2 ^ 64

theorem coalesceFrom_spec {last : Extent} {l : List Extent} (h : Ordered (last :: l)) :
    ∃ out, coalesceFrom last l = some out ∧ Gapped out ∧ (∀ e ∈ out, last.1 ≤ e.1) ∧
      ∀ x, cover out x = cover (last :: l) x := by
  induction l generalizing last with
  | nil =>
    refine ⟨[last], rfl, ⟨List.pairwise_singleton _ _, h.size_pos⟩, fun e he => ?_, fun _ => rfl⟩
    rw [List.mem_singleton.mp he]
  | cons span rest ih =>
    obtain ⟨hlast, hrest⟩ := List.pairwise_cons.mp h.order
    have hspan := hlast span List.mem_cons_self
    have hpos := h.size_pos last List.mem_cons_self
    have hpos' := h.size_pos span (List.mem_cons_of_mem _ List.mem_cons_self)
    have hend := h.lt_word last List.mem_cons_self
    have hend' := h.lt_word span (List.mem_cons_of_mem _ List.mem_cons_self)
    rw [coalesceFrom, wrap64_of_lt hend, wrap64_of_lt hend']
    rw [if_neg (Nat.not_lt.mpr hspan)]
    split
    · -- the span begins where the last one ends: they are one
      rename_i hmeet
      have heq : last.1 + last.2 = span.1 := Nat.le_antisymm hspan hmeet
      have hsize : diff64 (max (last.1 + last.2) (span.1 + span.2)) last.1 = last.2 + span.2 := by
        rw [diff64_of_le (by omega) (by omega)]
        omega
      rw [hsize]
      have hordered : Ordered ((last.1, last.2 + span.2) :: rest) := by
        refine ⟨?_, List.forall_mem_cons.mpr ⟨Nat.add_pos_left hpos _, fun e he => ?_⟩,
          List.forall_mem_cons.mpr ⟨by dsimp only; omega, fun e he => ?_⟩⟩
        · obtain ⟨hspan', hrest'⟩ := List.pairwise_cons.mp hrest
          refine List.pairwise_cons.mpr ⟨fun b hb => ?_, hrest'⟩
          have := hspan' b hb
          dsimp only
          omega
        · exact h.size_pos e (List.mem_cons_of_mem _ (List.mem_cons_of_mem _ he))
        · exact h.lt_word e (List.mem_cons_of_mem _ (List.mem_cons_of_mem _ he))
      have hjoin : ∀ x, (if Extent.Has (last.1, last.2 + span.2) x then 1 else 0) =
          (if last.Has x then 1 else 0) + if span.Has x then 1 else 0 := fun x => by
        have hjoin := ite_has_join last.1 last.2 span.2 x
        rw [heq] at hjoin
        exact hjoin
      obtain ⟨out, hout, hgapped, hfirst, hcover⟩ := ih hordered
      refine ⟨out, hout, hgapped, hfirst, fun x => ?_⟩
      rw [hcover, cover_cons, cover_cons last, cover_cons span, hjoin, Nat.add_assoc,
        Nat.add_comm (if last.Has x then 1 else 0)]
    · rename_i hapart
      obtain ⟨out, hout, hgapped, hfirst, hcover⟩ := ih
        ⟨hrest, fun e he => h.size_pos e (List.mem_cons_of_mem _ he),
          fun e he => h.lt_word e (List.mem_cons_of_mem _ he)⟩
      refine ⟨last :: out, by rw [hout]; rfl, ⟨List.pairwise_cons.mpr ⟨fun e he => ?_, hgapped.gaps⟩,
        List.forall_mem_cons.mpr ⟨hpos, hgapped.size_pos⟩⟩,
        List.forall_mem_cons.mpr ⟨Nat.le_refl _, fun e he => ?_⟩, fun x => ?_⟩
      · have := hfirst e he
        omega
      · have := hfirst e he
        omega
      · rw [cover_cons, hcover, cover_cons last]

/-- **What `Free` leaves**: the spans in order, joined where they touch. -/
theorem Ordered.coalesce {l : List Extent} (h : Ordered l) :
    ∃ out, coalesce l = some out ∧ Gapped out ∧ ∀ x, cover out x = cover l x := by
  cases l with
  | nil => exact ⟨[], rfl, ⟨.nil, fun e he => by cases he⟩, fun _ => rfl⟩
  | cons last l =>
    obtain ⟨out, hout, hgapped, -, hcover⟩ := coalesceFrom_spec h
    exact ⟨out, hout, hgapped, hcover⟩

theorem ordered_insertionSort {l : List Extent} (hcover : ∀ x, cover l x ≤ 1) (hpos : ∀ e ∈ l, 0 < e.2)
    (hend : ∀ e ∈ l, e.1 + e.2 < 2 ^ 64) : Ordered (l.insertionSort fun a b => a.1 ≤ b.1) := by
  have hperm := List.perm_insertionSort (fun a b : Extent => a.1 ≤ b.1) l
  have hpos' : ∀ e ∈ l.insertionSort fun a b => a.1 ≤ b.1, 0 < e.2 := fun e he => hpos e (hperm.mem_iff.mp he)
  have hsorted : (l.insertionSort fun a b => a.1 ≤ b.1).Pairwise fun a b => a.1 ≤ b.1 := by
    have : Std.Total fun a b : Extent => a.1 ≤ b.1 := ⟨fun a b => Nat.le_total a.1 b.1⟩
    have : IsTrans Extent fun a b => a.1 ≤ b.1 := ⟨fun _ _ _ => Nat.le_trans⟩
    exact List.pairwise_insertionSort _ l
  have hdisjoint := pairwise_of_cover_le fun x => (cover_perm hperm x).trans_le (hcover x)
  refine ⟨(hsorted.and hdisjoint).imp_of_mem fun {a b} ha hb hab => ?_, hpos',
    fun e he => hend e (hperm.mem_iff.mp he)⟩
  have hapart := apart_of_disjoint (hpos' a ha) (hpos' b hb) hab.2
  unfold Extent.Apart Extent.Before at hapart
  omega

theorem free_spec {l : List Extent} (h : Gapped l) {offset size capacity : ℕ} (hcapacity : capacity < 2 ^ 64)
    (hend : ∀ e ∈ l, e.1 + e.2 ≤ capacity) (hsize : 0 < size) (hfits : offset + size ≤ capacity)
    (hcover : ∀ x, cover l x + (if Extent.Has (offset, size) x then 1 else 0) ≤ 1) :
    ∃ out, free l offset size = some out ∧ Gapped out ∧
      ∀ x, cover out x = cover l x + if Extent.Has (offset, size) x then 1 else 0 := by
  have hmem : ∀ e ∈ l ++ [(offset, size)], 0 < e.2 ∧ e.1 + e.2 ≤ capacity := by
    intro e he
    rcases List.mem_append.mp he with he | he
    · exact ⟨h.size_pos e he, hend e he⟩
    · rw [List.mem_singleton.mp he]
      exact ⟨hsize, hfits⟩
  have hall : ∀ x, cover (l ++ [(offset, size)]) x = cover l x + if Extent.Has (offset, size) x then 1 else 0 := by
    intro x
    rw [cover_append, cover_cons, show Prosperity.cover [] x = 0 from rfl, Nat.zero_add]
  have hordered := ordered_insertionSort (fun x => (hall x).trans_le (hcover x)) (fun e he => (hmem e he).1)
    fun e he => Nat.lt_of_le_of_lt (hmem e he).2 hcapacity
  obtain ⟨out, hout, hgapped, hout'⟩ := hordered.coalesce
  have hguard : ¬(size = 0 ∨ offset > diff64 (2 ^ 64 - 1) size) := by
    rw [diff64_of_le (by omega) (by omega)]
    omega
  refine ⟨out, by rw [free, if_neg hguard, hout], hgapped, fun x => ?_⟩
  rw [hout', cover_perm (List.perm_insertionSort _ _), hall]

end MemorySpanAllocator

/-! ## The block -/

theorem Gapped.eq_reset {l : List Extent} (h : Gapped l) {capacity : ℕ}
    (hall : ∀ x, (∃ e ∈ l, e.Has x) ↔ x < capacity) : l = MemorySpanAllocator.reset capacity := by
  unfold MemorySpanAllocator.reset
  cases l with
  | nil =>
    have hzero := (hall 0).not.mp (by simp)
    rw [if_neg (by omega)]
  | cons e rest =>
    obtain ⟨hgap, -⟩ := List.pairwise_cons.mp h.gaps
    have hpos := h.size_pos e List.mem_cons_self
    have hfirst : e.1 < capacity := (hall e.1).mp ⟨e, List.mem_cons_self, Nat.le_refl _, by omega⟩
    have hlast : e.1 + e.2 - 1 < capacity :=
      (hall _).mp ⟨e, List.mem_cons_self, by omega, by omega⟩
    -- the first byte lies in the first span
    have hzero : e.1 = 0 := by
      obtain ⟨f, hf, hle, -⟩ := (hall 0).mpr (by omega)
      rcases List.mem_cons.mp hf with rfl | hf
      · omega
      · have := hgap f hf
        omega
    -- the byte behind it lies in no span
    have hend : capacity ≤ e.2 := by
      by_contra hlt
      obtain ⟨f, hf, hle, hlt'⟩ := (hall e.2).mpr (by omega)
      rcases List.mem_cons.mp hf with rfl | hf
      · omega
      · have := hgap f hf
        omega
    have hnone : rest = [] := by
      cases rest with
      | nil => rfl
      | cons f rest =>
        have hmem : f ∈ e :: f :: rest := List.mem_cons_of_mem _ List.mem_cons_self
        have hf := hgap f List.mem_cons_self
        have hlt : f.1 < capacity := (hall f.1).mp ⟨f, hmem, Nat.le_refl _, by have := h.size_pos f hmem; omega⟩
        omega
    rw [hnone, if_pos (by omega)]
    exact congrArg (· :: []) (Prod.ext hzero (by omega))

namespace SpanState

open MemorySpanAllocator

variable {capacity : ℕ} {s s' : SpanState}

structure Inv (capacity : ℕ) (s : SpanState) : Prop where
  gapped : Gapped s.free
  aligned : ∀ l ∈ s.live, 0 < l.size ∧ l.alignment ∣ l.offset
  shares : ∀ x, cover s.free x + cover (s.live.map LiveSpan.extent) x = if x < capacity then 1 else 0

theorem Inv.init (capacity : UInt64) : Inv capacity.toNat (init capacity) where
  gapped := by
    unfold SpanState.init reset
    dsimp only
    split
    · exact ⟨List.pairwise_singleton _ _, fun e he => by rw [List.mem_singleton.mp he]; omega⟩
    · exact ⟨.nil, fun e he => by cases he⟩
  aligned l hl := by cases hl
  shares x := by
    unfold SpanState.init reset
    dsimp only
    split
    · simp [cover, Extent.Has]
    · have hzero : capacity.toNat = 0 := by omega
      simp [cover, hzero]

theorem Inv.lt_of_free (h : Inv capacity s) {e : Extent} (he : e ∈ s.free) : e.1 + e.2 ≤ capacity := by
  have hpos := h.gapped.size_pos e he
  have hshares := h.shares (e.1 + e.2 - 1)
  have hcover := cover_pos.mpr ⟨e, he, (by unfold Extent.Has; omega : e.Has (e.1 + e.2 - 1))⟩
  split at hshares <;> omega

theorem Inv.lt_of_live (h : Inv capacity s) {l : LiveSpan} (hl : l ∈ s.live) : l.offset + l.size ≤ capacity := by
  have hpos := (h.aligned l hl).1
  have hshares := h.shares (l.offset + l.size - 1)
  have hhas : l.extent.Has (l.offset + l.size - 1) := by
    unfold LiveSpan.extent Extent.Has
    dsimp only
    omega
  have hcover := cover_pos.mpr ⟨l.extent, List.mem_map_of_mem hl, hhas⟩
  split at hshares <;> omega

theorem cover_eraseIdx {live : List LiveSpan} {k : ℕ} {l : LiveSpan} (hl : live[k]? = some l) (x : ℕ) :
    cover (live.map LiveSpan.extent) x =
      cover ((live.eraseIdx k).map LiveSpan.extent) x + if l.extent.Has x then 1 else 0 := by
  obtain ⟨hk, rfl⟩ := List.getElem?_eq_some_iff.mp hl
  have hperm := (List.getElem_cons_eraseIdx_perm hk).map LiveSpan.extent
  rw [← cover_perm hperm, List.map_cons, cover_cons]

theorem Inv.free (h : Inv capacity s) (hcapacity : capacity < 2 ^ 64) {k : ℕ} {l : LiveSpan}
    (hl : s.live[k]? = some l) : ∃ s', s.step (.free k) = some s' ∧ Inv capacity s' ∧ s'.live = s.live.eraseIdx k := by
  have hmem := List.mem_of_getElem? hl
  obtain ⟨out, hout, hgapped, hcover⟩ := free_spec h.gapped hcapacity (fun e he => h.lt_of_free he)
    (h.aligned l hmem).1 (h.lt_of_live hmem) fun x => by
      have hshares := h.shares x
      rw [cover_eraseIdx hl] at hshares
      have hone : (if x < capacity then 1 else 0) ≤ 1 := by split <;> omega
      change cover s.free x + (if l.extent.Has x then 1 else 0) ≤ 1
      omega
  refine ⟨⟨out, s.live.eraseIdx k, false⟩, by simp [step, hl, hout], ⟨hgapped, fun l' hl' => ?_, fun x => ?_⟩, rfl⟩
  · exact h.aligned l' (List.mem_of_mem_eraseIdx hl')
  · have hshares := h.shares x
    rw [cover_eraseIdx hl] at hshares
    have hcover : cover out x = cover s.free x + if l.extent.Has x then 1 else 0 := hcover x
    dsimp only
    omega

theorem Inv.sound (h : Inv capacity s) (hcapacity : capacity < 2 ^ 64) : Sound capacity s where
  live_apart := by
    have hdisjoint := pairwise_of_cover_le (l := s.live.map LiveSpan.extent) fun x => by
      have := h.shares x
      split at this <;> omega
    rw [List.pairwise_map] at hdisjoint
    exact hdisjoint.imp_of_mem fun ha hb hab => apart_of_disjoint (h.aligned _ ha).1 (h.aligned _ hb).1 hab
  live_aligned l hl := ⟨(h.aligned l hl).1, (h.aligned l hl).2, h.lt_of_live hl⟩
  free_gapped := h.gapped
  free_iff x := by
    have hshares := h.shares x
    have hlive : 0 < cover (s.live.map LiveSpan.extent) x ↔ ∃ l ∈ s.live, l.extent.Has x := by
      rw [cover_pos]
      simp
    rw [← cover_pos, ← hlive]
    split at hshares <;> omega
  whole hnone := by
    refine h.gapped.eq_reset fun x => ?_
    have hshares := h.shares x
    rw [hnone, List.map_nil, show cover [] x = 0 from rfl] at hshares
    rw [← cover_pos]
    split at hshares <;> omega
  can_free k hk := by
    obtain ⟨s', hs', -⟩ := h.free hcapacity (List.getElem?_eq_getElem hk)
    rw [hs']
    rfl

/-- **One call** keeps the block shared out. -/
theorem Inv.step (h : Inv capacity s) (hcapacity : capacity < 2 ^ 64) {event : SpanEvent}
    (hstep : s.step event = some s') : Inv capacity s' ∧ CallSound s event s' := by
  cases event with
  | free k =>
    cases hl : s.live[k]? with
    | none =>
      simp only [SpanState.step, hl] at hstep
      cases hstep
    | some l =>
      obtain ⟨s'', hs'', hinv, hlive⟩ := h.free hcapacity hl
      obtain rfl := Option.some.inj (hs''.symm.trans hstep)
      exact ⟨hinv, hlive⟩
  | allocate size alignment =>
    simp only [SpanState.step] at hstep
    have hend : ∀ e ∈ s.free, e.1 + e.2 < 2 ^ 64 := fun e he => Nat.lt_of_le_of_lt (h.lt_of_free he) hcapacity
    unfold MemorySpanAllocator.allocate at hstep
    split at hstep
    · -- the call has failed
      rename_i hnone
      obtain rfl := Option.some.inj hstep
      refine ⟨⟨h.gapped, h.aligned, h.shares⟩, fun hsize hpower => ⟨fun _ => ⟨rfl, rfl, ?_⟩, fun hok => by cases hok⟩⟩
      have hpos : 0 < size.toNat := Nat.pos_of_ne_zero fun hzero => hsize (UInt64.toNat_inj.mp hzero)
      obtain ⟨hne, hand⟩ := Nat.ne_zero_and_sub_one_eq_zero_iff_isPowerOfTwo.mpr hpower
      rw [if_neg (by omega)] at hnone
      obtain ⟨k, hk⟩ := hpower
      have hspec := allocateFrom_spec hpos (hk ▸ alignment.toNat_lt) h.gapped hend
      rw [hk] at hnone ⊢
      rw [hnone] at hspec
      exact hspec
    · rename_i offset free hsome
      obtain rfl := Option.some.inj hstep
      split at hsome
      · cases hsome
      rename_i hguard
      have hpos : 0 < size.toNat := by omega
      have hpower : alignment.toNat.isPowerOfTwo :=
        Nat.ne_zero_and_sub_one_eq_zero_iff_isPowerOfTwo.mp ⟨by omega, by omega⟩
      obtain ⟨k, hk⟩ := hpower
      have hspec := allocateFrom_spec hpos (hk ▸ alignment.toNat_lt) h.gapped hend
      rw [← hk, hsome] at hspec
      have hdvd : alignment.toNat ∣ offset := hspec.1
      have htaken : Taken s.free free (offset, size.toNat) := hspec.2
      refine ⟨⟨htaken.gapped, fun l hl => ?_, fun x => ?_⟩, fun _ _ => ⟨fun hfail => (by cases hfail), fun _ => ⟨offset, rfl⟩⟩⟩
      · rcases List.mem_append.mp hl with hl | hl
        · exact h.aligned l hl
        · rw [List.mem_singleton.mp hl]
          exact ⟨hpos, hdvd⟩
      · have hshares := h.shares x
        have hcover := htaken.cover x
        rw [List.map_append, cover_append]
        rw [show cover (List.map LiveSpan.extent [⟨offset, size.toNat, alignment.toNat⟩]) x =
          if Extent.Has (offset, size.toNat) x then 1 else 0 by simp [cover, LiveSpan.extent]]
        dsimp only
        omega

/-- **Live and free spans share the block out**, in every run of allocations and frees: no two live spans meet, the
free ones are joined and are what is left, and a request fails only where nothing can hold it. -/
theorem memory_spans_sound (capacity : UInt64) (events : List SpanEvent) :
    system.Always (Sound capacity.toNat) (init capacity) events ∧
      system.EveryStep CallSound (init capacity) events := by
  have hcapacity : capacity.toNat < 2 ^ 64 := capacity.toNat_lt
  have hmeets := system.meets_true (init capacity) events
  constructor
  · exact system.always_of_invariant (fun s e s' h _ hstep => (Inv.step h hcapacity hstep).1)
      (fun s h => Inv.sound h hcapacity) (Inv.init capacity) hmeets
  · exact system.everyStep_of_invariant (fun s e s' h _ hstep => (Inv.step h hcapacity hstep).1)
      (fun s e s' h _ hstep => (Inv.step h hcapacity hstep).2) (Inv.init capacity) hmeets

/-- **A request for no bytes fails** where there is room for it. -/
theorem empty_request_fails : ¬∀ (capacity size alignment : UInt64), alignment.toNat.isPowerOfTwo →
      allocate (reset capacity.toNat) size.toNat alignment.toNat = none →
        ∀ e ∈ reset capacity.toNat, ¬CanHold e size.toNat alignment.toNat := by
  intro h
  exact h 128 0 1 ⟨0, rfl⟩ (by decide) (0, 128) (by decide) ⟨0, Nat.one_dvd 0, Nat.le_refl 0, by decide⟩

end SpanState

end Prosperity.Gpu
