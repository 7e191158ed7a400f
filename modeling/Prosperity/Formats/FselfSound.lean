import Mathlib.Algebra.Order.Group.Nat
import Prosperity.Formats.Fself

/-!
# When the conversion of a fake SELF is sound

The reads and writes are counted where they are outside of a buffer, and the output is compared to what it has to
hold: the ELF header, the table of program headers, and each segment that carries the contents of one. The loader
checks sums that wrap, reads program headers that the file need not hold whole, and copies everything up to the end
of the table, so it is sound on a part of the inputs only.
-/

namespace Prosperity.Formats.Fself

variable {data : Buffer} {h : Headers} {out : List UInt8} {i j : ℕ}

/-! ## What the file says -/

def segAt (data : Buffer) (i : ℕ) : Segment :=
  ⟨.ofNat (data.nat 8 (32 + 32 * i)), .ofNat (data.nat 8 (32 + 32 * i + 8)), .ofNat (data.nat 8 (32 + 32 * i + 16))⟩

/-- `p_offset` of a program header. -/
def offsetAt (data : Buffer) (h : Headers) (i : ℕ) : UInt64 := .ofNat (data.nat 8 (h.phdr i + 8).toNat)

/-- `p_filesz` of a program header. -/
def fileszAt (data : Buffer) (h : Headers) (i : ℕ) : UInt64 := .ofNat (data.nat 8 (h.phdr i + 0x20).toNat)

def PhdrInside (data : Buffer) (h : Headers) (i : ℕ) : Prop :=
  (h.phdr i + 8).toNat + 8 ≤ data.bytes.length ∧ (h.phdr i + 0x20).toNat + 8 ≤ data.bytes.length

def Segment.Carries (s : Segment) (data : Buffer) (h : Headers) : Prop :=
  s.flags &&& kSfBflg ≠ 0 ∧ s.idx < h.phnum.toNat ∧ s.offset.toNat + s.fileSize.toNat ≤ data.bytes.length

instance {s : Segment} : Decidable (s.Carries data h) := by
  unfold Segment.Carries
  infer_instance

def Segment.copy (s : Segment) (data : Buffer) (h : Headers) : ByteCopy :=
  ⟨(offsetAt data h s.idx).toNat, s.offset.toNat, s.fileSize.toNat⟩

def segs (data : Buffer) (h : Headers) : List Segment := (List.range h.numSegments.toNat).map (segAt data)

/-- The segments of the output. -/
def carried (data : Buffer) (h : Headers) : List ByteCopy :=
  ((segs data h).filter fun s => s.Carries data h).map fun s => s.copy data h

/-- What the output has to hold. -/
def pieces (data : Buffer) (h : Headers) : List ByteCopy :=
  ⟨0, h.elfOff.toNat, 64⟩ ::
    ⟨h.phoff.toNat, h.elfOff.toNat + h.phoff.toNat, h.phnum.toNat * h.phentsize.toNat⟩ :: carried data h

/-- The output holds its pieces, and zeros elsewhere. -/
structure Rebuilt (data : Buffer) (h : Headers) (out : List UInt8) : Prop where
  holds : ∀ j s, Moves (pieces data h) j s → out[j]? = some (data.byte s)
  zero : ∀ j < out.length, (∀ s, ¬Moves (pieces data h) j s) → out[j]? = some 0

def Sound (data : Buffer) : Prop :=
  ∃ out, fselfToElf data = .ok out ∧ (out = [] ∨ ∃ h, headers data = .ok (some h) ∧ Rebuilt data h out)

/-! ## The inputs on which it is -/

def takenSegs (data : Buffer) (h : Headers) : List Segment :=
  (segs data h).filter fun s => s.taken h.phnum data.size

def phdrEnds (data : Buffer) (h : Headers) : List UInt64 :=
  (List.range h.phnum.toNat).map fun i => offsetAt data h i + fileszAt data h i

/-- The ends of what is put into the output, as the loader adds them up. -/
def extents (data : Buffer) (h : Headers) : List UInt64 :=
  h.hdrEnd :: phdrEnds data h ++ (takenSegs data h).map fun s => offsetAt data h s.idx + s.fileSize

/-- The size of the output. -/
def total (data : Buffer) (h : Headers) : UInt64 := (extents data h).foldl max 0

/-- Nothing that is accessed is outside, and no sum that bounds a copy wraps. -/
structure Fits (data : Buffer) (h : Headers) : Prop where
  phdrs : ∀ i < h.phnum.toNat, PhdrInside data h i
  head : h.elfOff.toNat + h.hdrEnd.toNat ≤ data.bytes.length
  source : ∀ s ∈ takenSegs data h, s.offset.toNat + s.fileSize.toNat < 2 ^ 64
  dest : ∀ s ∈ takenSegs data h, (offsetAt data h s.idx).toNat + s.fileSize.toNat < 2 ^ 64

/-- The table does not wrap, the pieces agree where they overlap, and what lies between them is zero. -/
structure Clean (data : Buffer) (h : Headers) : Prop where
  table : h.phoff.toNat + h.phnum.toNat * h.phentsize.toNat < 2 ^ 64
  whole : ∃ e ∈ extents data h, 64 ≤ e.toNat
  agree : ∀ j s s', Moves (pieces data h) j s → Moves (pieces data h) j s' → data.byte s = data.byte s'
  tail : ∀ j < 64, h.hdrEnd.toNat ≤ j → (∀ s, ¬Moves (carried data h) j s) → data.byte (h.elfOff.toNat + j) = 0
  gap : ∀ j, 64 ≤ j → j < h.phoff.toNat → (∀ s, ¬Moves (carried data h) j s) → data.byte (h.elfOff.toNat + j) = 0

/-! ## The checks -/

theorem elfOff_toNat : h.elfOff.toNat = 32 + 32 * h.numSegments.toNat := by
  have := h.numSegments.toNat_lt
  simp only [Headers.elfOff, kSelfHeaderSize, kSegmentSize, UInt64.toNat_add, UInt64.toNat_mul,
    UInt16.toNat_toUInt64, UInt64.reduceToNat]
  omega

theorem headers_cases (data : Buffer) :
    headers data = .ok none ∨ ∃ h, headers data = .ok (some h) ∧ h.elfOff.toNat + 64 ≤ data.bytes.length := by
  by_cases hsize : data.size < kSelfHeaderSize
  · exact .inl (by rw [headers, if_pos hsize]; rfl)
  have h32 : 32 ≤ data.bytes.length := by
    rw [UInt64.lt_iff_toNat_lt, Buffer.toNat_size] at hsize
    exact Nat.le_of_not_lt hsize
  have hmagic : data.readU32 0 = .ok (.ofNat (data.nat 4 0)) :=
    Buffer.readU32_eq_ok_iff.mpr ⟨by rw [UInt64.toNat_zero]; omega, rfl⟩
  have hnum : data.readU16 24 = .ok (.ofNat (data.nat 2 24)) :=
    Buffer.readU16_eq_ok_iff.mpr ⟨by simp only [UInt64.reduceToNat]; omega, rfl⟩
  unfold headers
  simp only [if_neg hsize, hmagic, hnum, bind, Except.bind, pure, Except.pure]
  by_cases hself : ¬isSelfMagic (.ofNat (data.nat 4 0))
  · exact .inl (if_pos hself)
  rw [if_neg hself]
  split_ifs with helf
  · exact .inl rfl
  set e := Headers.elfOff ⟨.ofNat (data.nat 2 24), 0, 0, 0⟩ with he
  have helf_nat : e.toNat < 2 ^ 32 := by
    have hlt := (UInt16.ofNat (data.nat 2 24)).toNat_lt
    rw [he, elfOff_toNat]
    change 32 + 32 * (UInt16.ofNat (data.nat 2 24)).toNat < 2 ^ 32
    omega
  have hinside : e.toNat + 64 ≤ data.bytes.length := by
    rw [UInt64.lt_iff_toNat_lt, Buffer.toNat_size, UInt64.toNat_add] at helf
    simp only [kElfHeaderSize, UInt64.reduceToNat] at helf
    omega
  have hadd : ∀ k : UInt64, k.toNat ≤ 64 → (e + k).toNat = e.toNat + k.toNat := by
    intro k hk
    rw [UInt64.toNat_add]
    omega
  have hmagic' : data.readU32 e = .ok (.ofNat (data.nat 4 e.toNat)) :=
    Buffer.readU32_eq_ok_iff.mpr ⟨by omega, rfl⟩
  have hphoff : data.readU64 (e + 0x20) = .ok (.ofNat (data.nat 8 (e + 0x20).toNat)) :=
    Buffer.readU64_eq_ok_iff.mpr ⟨by rw [hadd _ (by decide)]; simp only [UInt64.reduceToNat]; omega, rfl⟩
  have hphentsize : data.readU16 (e + 0x36) = .ok (.ofNat (data.nat 2 (e + 0x36).toNat)) :=
    Buffer.readU16_eq_ok_iff.mpr ⟨by rw [hadd _ (by decide)]; simp only [UInt64.reduceToNat]; omega, rfl⟩
  have hphnum : data.readU16 (e + 0x38) = .ok (.ofNat (data.nat 2 (e + 0x38).toNat)) :=
    Buffer.readU16_eq_ok_iff.mpr ⟨by rw [hadd _ (by decide)]; simp only [UInt64.reduceToNat]; omega, rfl⟩
  simp only [hmagic', hphoff, hphentsize, hphnum]
  by_cases helfmagic : UInt32.ofNat (data.nat 4 e.toNat) ≠ kElfMagic
  · exact .inl (if_pos helfmagic)
  rw [if_neg helfmagic]
  split_ifs with hend
  · exact .inl rfl
  · exact .inr ⟨_, rfl, hinside⟩

/-! ## The loops -/

section Loops

variable (hin : h.elfOff.toNat + 64 ≤ data.bytes.length)

include hin in
theorem segment_eq (hi : i < h.numSegments.toNat) : segment data i = .ok (segAt data i) := by
  have hoff := elfOff_toNat (h := h)
  have hnum := h.numSegments.toNat_lt
  have hpos : (kSelfHeaderSize + .ofNat i * kSegmentSize).toNat = 32 + 32 * i := by
    simp only [kSelfHeaderSize, kSegmentSize, UInt64.toNat_add, UInt64.toNat_mul, UInt64.toNat_ofNat',
      UInt64.reduceToNat]
    omega
  have hadd : ∀ k : UInt64, k.toNat ≤ 16 →
      (kSelfHeaderSize + .ofNat i * kSegmentSize + k).toNat = 32 + 32 * i + k.toNat := by
    intro k hk
    rw [UInt64.toNat_add, hpos]
    omega
  have h8 := hadd 8 (by decide)
  have h16 := hadd 16 (by decide)
  simp only [UInt64.reduceToNat] at h8 h16
  refine bind_eq_ok.mpr ⟨_, Buffer.readU64_eq_ok_iff.mpr ⟨by omega, by rw [hpos]⟩, ?_⟩
  refine bind_eq_ok.mpr ⟨_, Buffer.readU64_eq_ok_iff.mpr ⟨by omega, by rw [h8]⟩, ?_⟩
  exact bind_eq_ok.mpr ⟨_, Buffer.readU64_eq_ok_iff.mpr ⟨by omega, by rw [h16]⟩, rfl⟩

theorem phdrOffset_eq_ok_iff {v : UInt64} : phdrOffset data h i = .ok v ↔
    (h.phdr i + 8).toNat + 8 ≤ data.bytes.length ∧ offsetAt data h i = v :=
  Buffer.readU64_eq_ok_iff

theorem phdrExtents_eq_ok_iff {t r : UInt64} : (List.range h.phnum.toNat).foldlM (phdrExtent data h) t = .ok r ↔
      (∀ i ∈ List.range h.phnum.toNat, PhdrInside data h i) ∧ (phdrEnds data h).foldl max t = r := by
  rw [phdrEnds, List.foldl_map]
  refine foldlM_eq_ok_iff (I := fun _ => True) (fun i _ s r _ => ?_) (fun _ _ _ _ _ => trivial) trivial
  simp only [phdrExtent, bind_eq_ok, pure_eq_ok, phdrOffset_eq_ok_iff, phdrFilesz, Buffer.readU64_eq_ok_iff]
  constructor
  · rintro ⟨_, ⟨hoff, rfl⟩, _, ⟨hsz, rfl⟩, hr⟩
    exact ⟨⟨hoff, hsz⟩, hr⟩
  · rintro ⟨⟨hoff, hsz⟩, hr⟩
    exact ⟨_, ⟨hoff, rfl⟩, _, ⟨hsz, rfl⟩, hr⟩

theorem mem_takenSegs {s : Segment} : s ∈ takenSegs data h ↔ s ∈ segs data h ∧ s.taken h.phnum data.size = true :=
  List.mem_filter

theorem Segment.idx_lt {s : Segment} (hs : s.taken h.phnum data.size = true) : s.idx < h.phnum.toNat :=
  (of_decide_eq_true hs).2.1

variable (hphdrs : ∀ i < h.phnum.toNat, PhdrInside data h i)

include hin hphdrs in
theorem segmentExtents_eq_ok_iff {t r : UInt64} :
    (List.range h.numSegments.toNat).foldlM (segmentExtent data h) t = .ok r ↔
      ((takenSegs data h).map fun s => offsetAt data h s.idx + s.fileSize).foldl max t = r := by
  rw [takenSegs, segs, List.foldl_map, List.foldl_filter, List.foldl_map]
  refine (foldlM_eq_ok_iff (P := fun _ => True) (I := fun _ => True) (fun i hi t r _ => ?_)
    (fun _ _ _ _ _ => trivial) trivial).trans (and_iff_right fun _ _ => trivial)
  rw [segmentExtent, segment_eq hin (List.mem_range.mp hi), bind_eq_ok]
  simp only [Except.ok.injEq, exists_eq_left', true_and]
  split_ifs with htaken
  · rw [bind_eq_ok]
    simp only [phdrOffset_eq_ok_iff, pure_eq_ok, and_iff_right (hphdrs _ (Segment.idx_lt htaken)).1, exists_eq_left']
  · exact pure_eq_ok

def Segment.Inside (data : Buffer) (h : Headers) (n : ℕ) (s : Segment) : Prop :=
  s.offset.toNat + s.fileSize.toNat ≤ data.bytes.length ∧ (offsetAt data h s.idx).toNat + s.fileSize.toNat ≤ n

def putSegment (data : Buffer) (h : Headers) (out : List UInt8) (s : Segment) : List UInt8 :=
  splice out (offsetAt data h s.idx).toNat (data.slice s.offset.toNat s.fileSize.toNat)

theorem length_putSegment {s : Segment} (hs : s.Inside data h out.length) :
    (putSegment data h out s).length = out.length :=
  length_splice (by rw [Buffer.length_slice hs.1]; exact hs.2)

include hin hphdrs in
theorem copySegments_eq_ok_iff {r : List UInt8} :
    (List.range h.numSegments.toNat).foldlM (copySegment data h) out = .ok r ↔
      (∀ s ∈ takenSegs data h, s.Inside data h out.length) ∧ (takenSegs data h).foldl (putSegment data h) out = r := by
  have hall : (∀ s ∈ takenSegs data h, s.Inside data h out.length) ↔ ∀ i ∈ List.range h.numSegments.toNat,
        (segAt data i).taken h.phnum data.size = true → (segAt data i).Inside data h out.length := by
    simp only [mem_takenSegs, segs, List.mem_map, and_imp, forall_exists_index, forall_apply_eq_imp_iff₂]
  rw [hall, takenSegs, segs, List.foldl_filter, List.foldl_map]
  refine foldlM_eq_ok_iff (I := fun o => o.length = out.length) (fun i hi o r ho => ?_) (fun i hi o ho hP => ?_) rfl
  · rw [copySegment, segment_eq hin (List.mem_range.mp hi), bind_eq_ok]
    simp only [Except.ok.injEq, exists_eq_left']
    split_ifs with htaken
    · simp only [bind_eq_ok, Buffer.read_eq_ok_iff, phdrOffset_eq_ok_iff, store_eq_ok_iff]
      constructor
      · rintro ⟨_, ⟨hsrc, rfl⟩, _, ⟨-, rfl⟩, hdst, hr⟩
        rw [Buffer.length_slice hsrc, ho] at hdst
        exact ⟨fun _ => ⟨hsrc, hdst⟩, hr⟩
      · rintro ⟨hinside, hr⟩
        obtain ⟨hsrc, hdst⟩ := hinside htaken
        exact ⟨_, ⟨hsrc, rfl⟩, _, ⟨(hphdrs _ (Segment.idx_lt htaken)).1, rfl⟩,
          by rw [Buffer.length_slice hsrc, ho]; exact hdst, hr⟩
    · rw [pure_eq_ok]
      exact ⟨fun hr => ⟨fun ht => absurd ht htaken, hr⟩, fun hr => hr.2⟩
  · split_ifs with htaken
    · rw [length_putSegment (by rw [ho]; exact hP htaken), ho]
    · exact ho

end Loops

/-! ## The output -/

def headed (data : Buffer) (h : Headers) : List UInt8 :=
  splice (List.replicate (total data h).toNat 0) 0 (data.slice h.elfOff.toNat h.hdrEnd.toNat)

/-- The output of the loops. -/
def built (data : Buffer) (h : Headers) : List UInt8 := (takenSegs data h).foldl (putSegment data h) (headed data h)

def copies (data : Buffer) (h : Headers) : List ByteCopy :=
  ⟨0, h.elfOff.toNat, h.hdrEnd.toNat⟩ :: (takenSegs data h).map fun s => s.copy data h

theorem le_foldl_max_iff {l : List UInt64} {a : UInt64} {k : ℕ} :
    k ≤ (l.foldl max a).toNat ↔ k ≤ a.toNat ∨ ∃ e ∈ l, k ≤ e.toNat := by
  induction l generalizing a with
  | nil => simp
  | cons b l ih =>
    have hmax : (max a b).toNat = max a.toNat b.toNat := by
      rw [UInt64.max_def]
      split_ifs with hab
      · exact (max_eq_right (UInt64.le_iff_toNat_le.mp hab)).symm
      · exact (max_eq_left (Nat.le_of_not_le fun hba => hab (UInt64.le_iff_toNat_le.mpr hba))).symm
    rw [List.foldl_cons, ih, hmax, le_max_iff, or_assoc, List.exists_mem_cons_iff]

theorem le_total_iff {k : ℕ} (hk : 0 < k) : k ≤ (total data h).toNat ↔ ∃ e ∈ extents data h, k ≤ e.toNat := by
  rw [total, le_foldl_max_iff, UInt64.toNat_zero]
  exact or_iff_right (by omega)

theorem hdrEnd_le_total : h.hdrEnd.toNat ≤ (total data h).toNat := by
  rcases Nat.eq_zero_or_pos h.hdrEnd.toNat with h0 | hpos
  · omega
  · exact (le_total_iff hpos).mpr ⟨_, List.mem_cons_self, le_rfl⟩

theorem end_le_total {s : Segment} (hs : s ∈ takenSegs data h) :
    (offsetAt data h s.idx + s.fileSize).toNat ≤ (total data h).toNat := by
  rcases Nat.eq_zero_or_pos (offsetAt data h s.idx + s.fileSize).toNat with h0 | hpos
  · omega
  · exact (le_total_iff hpos).mpr ⟨_, List.mem_append_right _ (List.mem_map_of_mem hs), le_rfl⟩

theorem total_eq : ((takenSegs data h).map fun s => offsetAt data h s.idx + s.fileSize).foldl max
      ((phdrEnds data h).foldl max h.hdrEnd) = total data h := by
  have hzero : max 0 h.hdrEnd = h.hdrEnd := by
    rw [UInt64.max_def, if_pos (UInt64.le_iff_toNat_le.mpr (Nat.zero_le _))]
  rw [total, extents, List.foldl_append, List.foldl_cons, hzero]

section Inside

variable (hhead : h.elfOff.toNat + h.hdrEnd.toNat ≤ data.bytes.length)

include hhead

theorem length_headed : (headed data h).length = (total data h).toNat := by
  have hle := @hdrEnd_le_total data h
  rw [headed, length_splice, List.length_replicate]
  rw [Buffer.length_slice hhead, List.length_replicate]
  omega

omit hhead in
theorem getD_replicate_zero (n i : ℕ) : (List.replicate n (0 : UInt8)).getD i 0 = 0 := by
  rw [List.getD_eq_getElem?_getD, List.getElem?_replicate]
  split_ifs <;> rfl

theorem getD_headed (i : ℕ) :
    (headed data h).getD i 0 = (ByteCopy.mk 0 h.elfOff.toNat h.hdrEnd.toNat).run data.byte (fun _ => 0) i := by
  have hle := @hdrEnd_le_total data h
  rw [headed, getD_splice_slice hhead (by rw [List.length_replicate]; omega)]
  simp only [ByteCopy.run, getD_replicate_zero]

omit hhead in
theorem putSegments {l : List Segment} (hl : ∀ s ∈ l, s.Inside data h out.length) :
    (l.foldl (putSegment data h) out).length = out.length ∧ ∀ i, (l.foldl (putSegment data h) out).getD i 0 =
        runCopies (l.map fun s => s.copy data h) data.byte (out.getD · 0) i := by
  induction l generalizing out with
  | nil => exact ⟨rfl, fun _ => rfl⟩
  | cons s l ih =>
    have hs := hl s List.mem_cons_self
    have hlen := length_putSegment hs
    obtain ⟨hlength, hget⟩ := @ih (putSegment data h out s) fun t ht =>
      hlen ▸ hl t (List.mem_cons_of_mem _ ht)
    refine ⟨hlength.trans hlen, fun i => ?_⟩
    have hput : (fun k => (putSegment data h out s).getD k 0) = (s.copy data h).run data.byte (out.getD · 0) :=
      funext fun k => getD_splice_slice hs.1 hs.2 k
    rw [List.foldl_cons, hget, hput]
    rfl

variable (hinside : ∀ s ∈ takenSegs data h, s.Inside data h (total data h).toNat)

include hinside

theorem length_built : (built data h).length = (total data h).toNat := by
  have hlen := length_headed hhead
  exact (putSegments (hlen.symm ▸ hinside)).1.trans hlen

theorem getD_built (i : ℕ) : (built data h).getD i 0 = runCopies (copies data h) data.byte (fun _ => 0) i := by
  rw [built, (putSegments ((length_headed hhead).symm ▸ hinside)).2 i, funext (getD_headed hhead)]
  rfl

end Inside

/-- **When no access is outside**, and what is built then. -/
theorem rebuild_eq_ok_iff (hin : h.elfOff.toNat + 64 ≤ data.bytes.length) :
    rebuild data h = .ok out ↔ (∀ i < h.phnum.toNat, PhdrInside data h i) ∧
      h.elfOff.toNat + h.hdrEnd.toNat ≤ data.bytes.length ∧
      (∀ s ∈ takenSegs data h, s.Inside data h (total data h).toNat) ∧ built data h = out := by
  have hle := @hdrEnd_le_total data h
  rw [rebuild, bind_eq_ok]
  simp only [phdrExtents_eq_ok_iff, List.mem_range]
  constructor
  · rintro ⟨_, ⟨hphdrs, rfl⟩, hrest⟩
    obtain ⟨_, htotal, hrest⟩ := bind_eq_ok.mp hrest
    rw [segmentExtents_eq_ok_iff hin hphdrs, total_eq] at htotal
    obtain ⟨_, hread, hrest⟩ := bind_eq_ok.mp hrest
    obtain ⟨hhead, rfl⟩ := Buffer.read_eq_ok_iff.mp hread
    obtain ⟨o, hstore, hrest⟩ := bind_eq_ok.mp hrest
    obtain ⟨-, rfl⟩ := store_eq_ok_iff.mp hstore
    subst htotal
    obtain ⟨hinside, hout⟩ := (copySegments_eq_ok_iff hin hphdrs).mp hrest
    rw [UInt64.toNat_zero, ← headed, length_headed hhead] at hinside
    exact ⟨hphdrs, hhead, hinside, hout⟩
  · rintro ⟨hphdrs, hhead, hinside, hout⟩
    refine ⟨_, ⟨hphdrs, rfl⟩, bind_eq_ok.mpr ⟨total data h, ?_, ?_⟩⟩
    · exact (segmentExtents_eq_ok_iff hin hphdrs).mpr total_eq
    refine bind_eq_ok.mpr ⟨_, Buffer.read_eq_ok_iff.mpr ⟨hhead, rfl⟩, ?_⟩
    refine bind_eq_ok.mpr ⟨headed data h, store_eq_ok_iff.mpr ⟨?_, rfl⟩, ?_⟩
    · rw [Buffer.length_slice hhead, List.length_replicate, UInt64.toNat_zero]
      omega
    · exact (copySegments_eq_ok_iff hin hphdrs).mpr ⟨(length_headed hhead).symm ▸ hinside, hout⟩

/-! ## What it holds -/

theorem moves_pieces {s : ℕ} : Moves (pieces data h) j s ↔ (j < 64 ∧ s = h.elfOff.toNat + j) ∨
      (h.phoff.toNat ≤ j ∧ j < h.phoff.toNat + h.phnum.toNat * h.phentsize.toNat ∧ s = h.elfOff.toNat + j) ∨
      Moves (carried data h) j s := by
  rw [pieces, moves_mk_cons, moves_mk_cons, Nat.zero_add, Nat.sub_zero, and_iff_right (Nat.zero_le j)]
  refine or_congr_right (or_congr_left (and_congr_right fun hlow => ?_))
  rw [Nat.add_assoc, Nat.add_sub_cancel' hlow]

theorem carried_eq (hsource : ∀ s ∈ takenSegs data h, s.offset.toNat + s.fileSize.toNat < 2 ^ 64) :
    carried data h = (takenSegs data h).map fun s => s.copy data h := by
  have hfits := data.fits
  rw [carried, takenSegs]
  congr 1
  refine List.filter_congr fun s hs => ?_
  rw [Segment.taken, decide_eq_decide, Segment.Carries, UInt64.le_iff_toNat_le, Buffer.toNat_size, UInt64.toNat_add]
  refine and_congr_right fun hflag => and_congr_right fun hidx => ?_
  constructor
  · intro hle
    rw [Nat.mod_eq_of_lt (by omega)]
    exact hle
  · intro hle
    -- a segment that is taken has a sum that does not wrap
    have htaken : s ∈ takenSegs data h := mem_takenSegs.mpr ⟨hs, decide_eq_true ⟨hflag, hidx, by
      rw [UInt64.le_iff_toNat_le, Buffer.toNat_size, UInt64.toNat_add]; exact hle⟩⟩
    rwa [Nat.mod_eq_of_lt (hsource s htaken)] at hle

theorem hdrEnd_eq (htable : h.phoff.toNat + h.phnum.toNat * h.phentsize.toNat < 2 ^ 64) :
    h.hdrEnd.toNat = h.phoff.toNat + h.phnum.toNat * h.phentsize.toNat := by
  simp only [Headers.hdrEnd, UInt64.toNat_add, UInt64.toNat_mul, UInt16.toNat_toUInt64]
  rw [Nat.mod_eq_of_lt (a := h.phnum.toNat * h.phentsize.toNat) (by omega), Nat.mod_eq_of_lt htable]

theorem inside_of_fits (hf : Fits data h) : ∀ s ∈ takenSegs data h, s.Inside data h (total data h).toNat := by
  intro s hs
  have hend := end_le_total hs
  have hsize := UInt64.le_iff_toNat_le.mp (of_decide_eq_true (mem_takenSegs.mp hs).2).2.2
  rw [UInt64.toNat_add, Nat.mod_eq_of_lt (hf.dest s hs)] at hend
  rw [UInt64.toNat_add, Nat.mod_eq_of_lt (hf.source s hs), Buffer.toNat_size] at hsize
  exact ⟨hsize, hend⟩

theorem fits_of_ok (hin : h.elfOff.toNat + 64 ≤ data.bytes.length) (hok : rebuild data h = .ok out) : Fits data h := by
  have hfits := data.fits
  have htotal := (total data h).toNat_lt
  obtain ⟨hphdrs, hhead, hinside, -⟩ := (rebuild_eq_ok_iff hin).mp hok
  refine ⟨hphdrs, hhead, fun s hs => ?_, fun s hs => ?_⟩
  · exact (hinside s hs).1.trans_lt hfits
  · exact (hinside s hs).2.trans_lt htotal

theorem getElem?_eq_some_iff_getD {v : UInt8} : out[j]? = some v ↔ j < out.length ∧ out.getD j 0 = v := by
  rw [List.getD_eq_getElem?_getD]
  constructor
  · intro hv
    exact ⟨(List.getElem?_eq_some_iff.mp hv).1, by rw [hv, Option.getD_some]⟩
  · rintro ⟨hj, rfl⟩
    rw [List.getElem?_eq_getElem hj, Option.getD_some]

section Contents

variable (hf : Fits data h)

include hf

theorem getD_built_eq (j : ℕ) : (built data h).getD j 0 = runCopies (carried data h) data.byte
    ((ByteCopy.mk 0 h.elfOff.toNat h.hdrEnd.toNat).run data.byte fun _ => 0) j := by
  rw [getD_built hf.head (inside_of_fits hf), copies, ← carried_eq hf.source, runCopies, List.foldl_cons, ← runCopies]

theorem getD_of_not_carried (hnot : ∀ s, ¬Moves (carried data h) j s) :
    (built data h).getD j 0 = if j < h.hdrEnd.toNat then data.byte (h.elfOff.toNat + j) else 0 := by
  rw [getD_built_eq hf, runCopies_of_not_moves hnot]
  simp only [ByteCopy.run, Nat.zero_le, true_and, Nat.zero_add, Nat.sub_zero]

theorem lt_total_of_carried {s : ℕ} (hm : Moves (carried data h) j s) : j < (total data h).toNat := by
  obtain ⟨c, hc, k, hk, rfl, -⟩ := hm
  rw [carried_eq hf.source, List.mem_map] at hc
  obtain ⟨seg, hseg, rfl⟩ := hc
  exact (Nat.add_lt_add_left hk _).trans_le (inside_of_fits hf seg hseg).2

theorem rebuilt_of_clean (hc : Clean data h) : Rebuilt data h (built data h) := by
  have hlen := length_built hf.head (inside_of_fits hf)
  have hend := hdrEnd_eq hc.table
  have hhdr := @hdrEnd_le_total data h
  have h64 : 64 ≤ (total data h).toNat := (le_total_iff (by omega)).mpr hc.whole
  refine ⟨fun j s hm => ?_, fun j hj hnot => ?_⟩
  · by_cases hseg : ∃ s', Moves (carried data h) j s'
    · obtain ⟨s', hs'⟩ := hseg
      have hval : ∀ t, Moves (carried data h) j t → data.byte t = data.byte s := fun t ht =>
        hc.agree j t s (moves_pieces.mpr (.inr (.inr ht))) hm
      rw [getElem?_eq_some_iff_getD, hlen, getD_built_eq hf]
      exact ⟨lt_total_of_carried hf hs', runCopies_eq_of_moves hval hs'⟩
    · have hnot : ∀ t, ¬Moves (carried data h) j t := fun t ht => hseg ⟨t, ht⟩
      rw [getElem?_eq_some_iff_getD, hlen, getD_of_not_carried hf hnot]
      rcases moves_pieces.mp hm with ⟨hj, rfl⟩ | ⟨hlow, hhigh, rfl⟩ | ht
      · refine ⟨by omega, ?_⟩
        split_ifs with hin
        · rfl
        · exact (hc.tail j hj (Nat.le_of_not_lt hin) hnot).symm
      · exact ⟨by omega, if_pos (by omega)⟩
      · exact absurd ht (hnot s)
  · have hout : ∀ t, ¬Moves (carried data h) j t := fun t ht => hnot t (moves_pieces.mpr (.inr (.inr ht)))
    have hge : 64 ≤ j := Nat.le_of_not_lt fun hlt => hnot _ (moves_pieces.mpr (.inl ⟨hlt, rfl⟩))
    rw [getElem?_eq_some_iff_getD, getD_of_not_carried hf hout]
    refine ⟨hj, ?_⟩
    split_ifs with hin
    · refine hc.gap j hge (Nat.lt_of_not_le fun hlow => ?_) hout
      exact hnot _ (moves_pieces.mpr (.inr (.inl ⟨hlow, by omega, rfl⟩)))
    · rfl

theorem clean_of_rebuilt (hr : Rebuilt data h (built data h)) : Clean data h := by
  have hlen := length_built hf.head (inside_of_fits hf)
  have hlt := (total data h).toNat_lt
  have hhdr := @hdrEnd_le_total data h
  have hheld : ∀ {j s}, Moves (pieces data h) j s → j < (total data h).toNat ∧ (built data h).getD j 0 = data.byte s :=
    fun hm => hlen ▸ getElem?_eq_some_iff_getD.mp (hr.holds _ _ hm)
  have htable : h.phoff.toNat + h.phnum.toNat * h.phentsize.toNat < 2 ^ 64 := by
    rcases Nat.eq_zero_or_pos (h.phnum.toNat * h.phentsize.toNat) with h0 | hpos
    · rw [h0]
      exact h.phoff.toNat_lt
    · have hlast := (hheld (j := h.phoff.toNat + h.phnum.toNat * h.phentsize.toNat - 1)
        (moves_pieces.mpr (.inr (.inl ⟨by omega, by omega, rfl⟩)))).1
      omega
  have hend := hdrEnd_eq htable
  refine ⟨htable, ?_, fun j s s' hs hs' => ?_, fun j hj hge hnot => ?_, fun j hge hj hnot => ?_⟩
  · have h63 := (hheld (j := 63) (moves_pieces.mpr (.inl ⟨by omega, rfl⟩))).1
    exact (le_total_iff (by omega)).mp h63
  · exact (hheld hs).2.symm.trans (hheld hs').2
  · rw [← (hheld (moves_pieces.mpr (.inl ⟨hj, rfl⟩))).2, getD_of_not_carried hf hnot, if_neg (by omega)]
  · have hbyte := getD_of_not_carried hf hnot
    rw [if_pos (by omega)] at hbyte
    rw [← hbyte]
    refine (getElem?_eq_some_iff_getD.mp (hr.zero j (by omega) fun s hm => ?_)).2
    rcases moves_pieces.mp hm with ⟨hj', -⟩ | ⟨hlow, -⟩ | ht
    · omega
    · omega
    · exact hnot s ht

end Contents

theorem fselfToElf_some (hh : headers data = .ok (some h)) : fselfToElf data = rebuild data h := by
  rw [fselfToElf, hh]
  rfl

/-- **The conversion is sound exactly where the headers fit** and, unless the output is empty, the pieces are
clean. -/
theorem fselfToElf_sound_iff (data : Buffer) : Sound data ↔
    ∀ h, headers data = .ok (some h) → Fits data h ∧ ((∀ e ∈ extents data h, e.toNat = 0) ∨ Clean data h) := by
  rcases headers_cases data with hnone | ⟨h, hsome, hin⟩
  · refine iff_of_true ⟨[], by rw [fselfToElf, hnone]; rfl, .inl rfl⟩ fun h hh => ?_
    rw [hnone] at hh
    cases hh
  have hempty : (∀ e ∈ extents data h, e.toNat = 0) ↔ (total data h).toNat = 0 := by
    rw [← Nat.lt_one_iff, ← not_le, le_total_iff Nat.one_pos]
    push Not
    exact forall₂_congr fun e _ => Nat.lt_one_iff.symm
  constructor
  · rintro ⟨out, hok, hout⟩ h' hh'
    obtain rfl : h = h' := by
      rw [hsome] at hh'
      cases hh'
      rfl
    rw [fselfToElf_some hsome] at hok
    have hf := fits_of_ok hin hok
    obtain ⟨-, -, -, rfl⟩ := (rebuild_eq_ok_iff hin).mp hok
    refine ⟨hf, hout.imp (fun hnil => ?_) ?_⟩
    · rw [hempty, ← length_built hf.head (inside_of_fits hf), hnil, List.length_nil]
    · rintro ⟨h', hh', hr⟩
      obtain rfl : h = h' := by
        rw [hsome] at hh'
        cases hh'
        rfl
      exact clean_of_rebuilt hf hr
  · intro hcond
    obtain ⟨hf, hcond⟩ := hcond h hsome
    refine ⟨built data h, ?_, hcond.imp (fun hzero => ?_) fun hc => ⟨h, hsome, rebuilt_of_clean hf hc⟩⟩
    · rw [fselfToElf_some hsome]
      exact (rebuild_eq_ok_iff hin).mpr ⟨hf.phdrs, hf.head, inside_of_fits hf, rfl⟩
    · rw [← List.length_eq_zero_iff, length_built hf.head (inside_of_fits hf)]
      exact hempty.mp hzero

/-! ## A segment whose sum wraps -/

/-- A file with one segment and one program header. The segment begins 8 bytes before the end of the address space
and has 16 bytes, so its sum is 8. -/
def wrapping : Buffer where
  bytes :=
    [0x4F, 0x15, 0x3D, 0x1D] ++ List.replicate 20 0 ++ [1] ++ List.replicate 7 0 ++
    leBytes 8 0x800 ++ leBytes 8 (2 ^ 64 - 8) ++ leBytes 8 16 ++ leBytes 8 16 ++
    [0x7F, 0x45, 0x4C, 0x46] ++ List.replicate 28 0 ++ leBytes 8 64 ++ List.replicate 14 0 ++ [56, 0, 1] ++
    List.replicate 7 0 ++
    leBytes 8 1 ++ leBytes 8 0x100 ++ List.replicate 16 0 ++ leBytes 8 16 ++ List.replicate 16 0
  fits := by decide +kernel

theorem wrapping_not_sound : ¬Sound wrapping := by
  have hfault : fselfToElf wrapping = .error .read := by decide +kernel
  rintro ⟨out, hok, -⟩
  rw [hfault] at hok
  cases hok

end Prosperity.Formats.Fself
