import Prosperity.Formats.ArchiveIndex

/-!
# What a load of the index cache leaves

A load gives back what was written, if there are not too many entries and no path is too long for its length
field. A load that fails after its first record leaves the records before in the list, and the backend appends
to them.
-/

namespace Prosperity.Formats.ArchiveIndex

/-- A record. -/
def entryBytes (e : ArchiveEntry) : List UInt8 := putEntry [] e

/-- What is in front of `count` records. -/
def header (backend : Backend) (count : ℕ) : List UInt8 :=
  kIndexMagic ++ leBytes 4 backend.name.length ++ backend.name ++ leBytes 8 count

def ArchiveEntry.Short (e : ArchiveEntry) : Prop := e.path.length < 2 ^ 32

def Begins (backend : Backend) (file : Option (List UInt8)) : Prop :=
  ∃ count e rest, file = some (header backend count ++ (entryBytes e ++ rest)) ∧ 0 < count ∧ count ≤ kMaxCount ∧ e.Short

def Holds (backend : Backend) (file : Option (List UInt8)) : Prop :=
  ∃ (es : List ArchiveEntry) (rest : List UInt8), file = some (header backend es.length ++ (es.flatMap entryBytes ++ rest)) ∧
    es.length ≤ kMaxCount ∧ ∀ e ∈ es, e.Short

/-- What is written loads as it was, under its key only. -/
def RoundTrips (backend : Backend) (es : List ArchiveEntry) : Prop :=
  (∀ out, loadIndexCache (some (saveIndexCache backend es)) backend out = (true, es)) ∧
    ∀ backend' out, backend' ≠ backend → loadIndexCache (some (saveIndexCache backend es)) backend' out = (false, out)

def NoTrace (noIndexCache : Bool) (file : Option (List UInt8)) (backend : Backend) (indexed : Indexed) : Prop :=
  (loadIndexCache file backend []).1 = false → (mountEntries noIndexCache file backend indexed).map Mounted.entries =
      if indexed.ok ∧ indexed.entries ≠ [] then some indexed.entries else none

/-! ## Records -/

theorem putEntry_eq (buf : List UInt8) (e : ArchiveEntry) : putEntry buf e = buf ++ entryBytes e := by
  simp only [entryBytes, putEntry, put32, put64, List.nil_append, List.append_assoc]

theorem foldl_putEntry (buf : List UInt8) (es : List ArchiveEntry) :
    es.foldl putEntry buf = buf ++ es.flatMap entryBytes := by
  induction es generalizing buf with
  | nil => exact (List.append_nil buf).symm
  | cons e es ih => rw [List.foldl_cons, ih, putEntry_eq, List.flatMap_cons, List.append_assoc]

theorem saveIndexCache_eq (backend : Backend) (es : List ArchiveEntry) :
    saveIndexCache backend es = header backend (UInt64.ofNat es.length).toNat ++ es.flatMap entryBytes := by
  cases backend <;> simp only [saveIndexCache, foldl_putEntry, header, put32, put64] <;> rfl

namespace Reader

variable {r : Reader} {ok : Bool} {rest : List UInt8}

theorem u64v_append (x : UInt64) : Reader.u64v ⟨leBytes 8 x.toNat ++ rest, ok⟩ = (x, ⟨rest, ok⟩) := by
  have hlen := length_leBytes 8 x.toNat
  have hx : x.toNat < 256 ^ 8 := x.toNat_lt
  rw [u64v, if_neg (by simp)]
  simp only [List.take_left' hlen, List.drop_left' hlen, leNat_leBytes_of_lt hx, UInt64.ofNat_toNat]

theorem u32v_append (x : UInt32) : Reader.u32v ⟨leBytes 4 x.toNat ++ rest, ok⟩ = (x, ⟨rest, ok⟩) := by
  have hlen := length_leBytes 4 x.toNat
  have hx : x.toNat < 256 ^ 4 := x.toNat_lt
  rw [u32v, if_neg (by simp)]
  simp only [List.take_left' hlen, List.drop_left' hlen, leNat_leBytes_of_lt hx, UInt32.ofNat_toNat]

theorem str_append {s : List UInt8} {n : UInt32} (hn : s.length = n.toNat) :
    Reader.str ⟨s ++ rest, ok⟩ n = (s, ⟨rest, ok⟩) := by
  rw [str, if_neg (by simp [hn]), List.take_left' hn, List.drop_left' hn]

theorem of_u64v_ok (h : r.u64v.2.ok = true) :
    r.ok = true ∧ r.u64v.2.ok = r.ok ∧ r.p = leBytes 8 r.u64v.1.toNat ++ r.u64v.2.p := by
  unfold u64v at h ⊢
  split_ifs at h ⊢ with hlen
  have hle : 8 ≤ r.p.length := Nat.le_of_not_lt hlen
  have hlt : leNat (r.p.take 8) < 2 ^ 64 := by
    have := leNat_lt (r.p.take 8)
    rwa [List.length_take_of_le hle] at this
  refine ⟨h, rfl, ?_⟩
  rw [UInt64.toNat_ofNat_of_lt' hlt, leBytes_append_drop hle]

theorem of_u32v_ok (h : r.u32v.2.ok = true) :
    r.ok = true ∧ r.u32v.2.ok = r.ok ∧ r.p = leBytes 4 r.u32v.1.toNat ++ r.u32v.2.p := by
  unfold u32v at h ⊢
  split_ifs at h ⊢ with hlen
  have hle : 4 ≤ r.p.length := Nat.le_of_not_lt hlen
  have hlt : leNat (r.p.take 4) < 2 ^ 32 := by
    have := leNat_lt (r.p.take 4)
    rwa [List.length_take_of_le hle] at this
  refine ⟨h, rfl, ?_⟩
  rw [UInt32.toNat_ofNat_of_lt' hlt, leBytes_append_drop hle]

theorem of_str_ok {n : UInt32} (h : (r.str n).2.ok = true) :
    r.ok = true ∧ (r.str n).1.length = n.toNat ∧ r.p = (r.str n).1 ++ (r.str n).2.p := by
  unfold str at h ⊢
  split_ifs at h ⊢ with hlen
  exact ⟨h, List.length_take_of_le (Nat.le_of_not_lt hlen), (List.take_append_drop _ _).symm⟩

/-- **A record is read as it was written.** -/
theorem entry_append {e : ArchiveEntry} (he : e.Short) : Reader.entry ⟨entryBytes e ++ rest, ok⟩ = (e, ⟨rest, ok⟩) := by
  have hlen : e.path.length = (UInt32.ofNat e.path.length).toNat := (UInt32.toNat_ofNat_of_lt' he).symm
  simp only [entry, entryBytes, putEntry, put32, put64, List.nil_append, List.append_assoc, u32v_append,
    u64v_append, str_append hlen]

/-- **Only a record is read**: what is taken for one stands at the front. -/
theorem of_entry_ok (h : r.entry.2.ok = true) :
    r.ok = true ∧ r.entry.1.Short ∧ r.p = entryBytes r.entry.1 ++ r.entry.2.p := by
  unfold entry at h ⊢
  dsimp only at h ⊢
  obtain ⟨hcrc, -, pcrc⟩ := of_u32v_ok h
  obtain ⟨hmethod, -, pmethod⟩ := of_u32v_ok hcrc
  obtain ⟨hextra, -, pextra⟩ := of_u64v_ok hmethod
  obtain ⟨hoffset, -, poffset⟩ := of_u64v_ok hextra
  obtain ⟨hpacked, -, ppacked⟩ := of_u64v_ok hoffset
  obtain ⟨hsize, -, psize⟩ := of_u64v_ok hpacked
  obtain ⟨hpath, hlen, ppath⟩ := of_str_ok hsize
  obtain ⟨hok, -, plen⟩ := of_u32v_ok hpath
  refine ⟨hok, ?_, ?_⟩
  · rw [ArchiveEntry.Short, hlen]
    exact UInt32.toNat_lt _
  · rw [plen, ppath, psize, ppacked, poffset, pextra, pmethod, pcrc]
    simp only [entryBytes, putEntry, put32, put64, List.nil_append, List.append_assoc, hlen, UInt32.ofNat_toNat]

end Reader

/-! ## The loop -/

theorem loadEntries_append {es : List ArchiveEntry} (hes : ∀ e ∈ es, e.Short) (rest : List UInt8)
    (out : List ArchiveEntry) :
    loadEntries es.length ⟨es.flatMap entryBytes ++ rest, true⟩ out = (true, out ++ es) := by
  induction es generalizing out with
  | nil => rw [List.append_nil]; rfl
  | cons e es ih =>
    have hentry := @Reader.entry_append true (es.flatMap entryBytes ++ rest) e
      (hes e List.mem_cons_self)
    rw [List.length_cons, List.flatMap_cons, List.append_assoc, loadEntries, hentry, if_pos rfl,
      ih fun e' he' => hes e' (List.mem_cons_of_mem _ he'), List.append_assoc, List.singleton_append]

theorem of_loadEntries_true {n : ℕ} {r : Reader} {out : List ArchiveEntry} (h : (loadEntries n r out).1 = true) :
    ∃ es rest, (loadEntries n r out).2 = out ++ es ∧ es.length = n ∧ (∀ e ∈ es, e.Short) ∧
      r.p = es.flatMap entryBytes ++ rest := by
  induction n generalizing r out with
  | zero => exact ⟨[], r.p, (List.append_nil out).symm, rfl, List.forall_mem_nil _, rfl⟩
  | succ n ih =>
    rw [loadEntries] at h ⊢
    split_ifs at h ⊢ with hok
    obtain ⟨-, hshort, hp⟩ := Reader.of_entry_ok hok
    obtain ⟨es, rest, hout, hlen, hes, hrest⟩ := ih h
    refine ⟨r.entry.1 :: es, rest, ?_, by rw [List.length_cons, hlen], List.forall_mem_cons.mpr ⟨hshort, hes⟩, ?_⟩
    · rw [hout, List.append_assoc, List.singleton_append]
    · rw [hp, hrest, List.flatMap_cons, List.append_assoc]

theorem prefix_loadEntries (n : ℕ) (r : Reader) (out : List ArchiveEntry) : out <+: (loadEntries n r out).2 := by
  induction n generalizing r out with
  | zero => exact List.prefix_refl out
  | succ n ih =>
    rw [loadEntries]
    split_ifs
    · exact (List.prefix_append _ _).trans (ih _ _)
    · exact List.prefix_refl out

theorem loadEntries_eq_nil {n : ℕ} {r : Reader} : (loadEntries n r []).2 = [] ↔ n = 0 ∨ r.entry.2.ok = false := by
  cases n with
  | zero => exact iff_of_true rfl (.inl rfl)
  | succ n =>
    rw [loadEntries]
    split_ifs with hok
    · refine iff_of_false (fun hnil => ?_) (by simp [hok])
      have hprefix := prefix_loadEntries n r.entry.2 ([] ++ [r.entry.1])
      rw [hnil] at hprefix
      cases List.prefix_nil.mp hprefix
    · exact iff_of_true rfl (.inr (Bool.not_eq_true _ ▸ hok))

/-! ## Files -/

section Files

variable {backend : Backend} {buf : List UInt8} {out : List ArchiveEntry}

theorem Backend.length_name (backend : Backend) : backend.name.length = 3 := by cases backend <;> rfl

theorem loadIndexCache_header {count : ℕ} (hcount : count < 2 ^ 64) (rest : List UInt8) :
    loadIndexCache (some (header backend count ++ rest)) backend out =
      if kMaxCount < count then (false, out) else loadEntries count ⟨rest, true⟩ [] := by
  have hname := backend.length_name
  have hu32 := @Reader.u32v_append true (backend.name ++ (leBytes 8 count ++ rest)) 3
  have hstr := @Reader.str_append true (leBytes 8 count ++ rest) backend.name 3 hname
  have hu64 := @Reader.u64v_append true rest (UInt64.ofNat count)
  rw [UInt64.toNat_ofNat_of_lt' hcount] at hu64
  simp only [show (3 : UInt32).toNat = 3 from rfl] at hu32
  simp only [loadIndexCache, header, List.append_assoc, hname, List.take_left, List.drop_left]
  rw [if_neg (by simp), if_neg (by simp)]
  simp only [hu32, hstr, hu64, not_true_eq_false, ne_eq, if_false, false_or, UInt64.toNat_ofNat_of_lt' hcount]

theorem loadIndexCache_cases (buf : List UInt8) (backend : Backend) (out : List ArchiveEntry) :
    loadIndexCache (some buf) backend out = (false, out) ∨
      ∃ count rest, buf = header backend count ++ rest ∧ count ≤ kMaxCount ∧
        loadIndexCache (some buf) backend out = loadEntries count ⟨rest, true⟩ [] := by
  unfold loadIndexCache
  dsimp only
  by_cases hlen : buf.length < kIndexMagic.length
  · exact .inl (if_pos hlen)
  by_cases hmagic : buf.take kIndexMagic.length = kIndexMagic
  swap
  · exact .inl (by rw [if_neg hlen, if_pos hmagic])
  rw [if_neg hlen, if_neg (not_not.mpr hmagic)]
  generalize hread : Reader.u32v ⟨buf.drop kIndexMagic.length, true⟩ = read
  by_cases hok : read.2.ok = true
  swap
  · exact .inl (if_pos hok)
  by_cases hname : (read.2.str read.1).1 = backend.name
  swap
  · exact .inl (by rw [if_neg (not_not.mpr hok), if_pos hname])
  rw [if_neg (not_not.mpr hok), if_neg (not_not.mpr hname)]
  by_cases hcount : ¬(read.2.str read.1).2.u64v.2.ok = true ∨ kMaxCount < (read.2.str read.1).2.u64v.1.toNat
  · exact .inl (if_pos hcount)
  rw [if_neg hcount]
  rw [not_or, not_not, Nat.not_lt] at hcount
  obtain ⟨hstr, -, pcount⟩ := Reader.of_u64v_ok hcount.1
  obtain ⟨-, hstrlen, pname⟩ := Reader.of_str_ok hstr
  rw [← hread] at hok
  obtain ⟨-, -, plen⟩ := Reader.of_u32v_ok hok
  rw [hread] at plen
  refine .inr ⟨_, (read.2.str read.1).2.u64v.2.p, ?_, hcount.2, ?_⟩
  · rw [hname] at pname hstrlen
    rw [header, hstrlen, List.append_assoc, List.append_assoc, List.append_assoc, ← pcount, ← pname, ← plen]
    conv_lhs => rw [← List.take_append_drop kIndexMagic.length buf, hmagic]
  · have hlast : ∀ r : Reader, r.ok = true → r = ⟨r.p, true⟩ := by
      rintro ⟨p, ok⟩ rfl
      rfl
    rw [← hlast _ hcount.1]

/-- **The files that load** are those with all their records. -/
theorem loadIndexCache_eq_true_iff {file : Option (List UInt8)} :
    (loadIndexCache file backend out).1 = true ↔ Holds backend file := by
  constructor
  · intro h
    cases file with
    | none => cases h
    | some buf =>
      rcases loadIndexCache_cases buf backend out with hload | ⟨count, rest, rfl, hcount, hload⟩
      · rw [hload] at h
        cases h
      · rw [hload] at h
        obtain ⟨es, rest', -, rfl, hes, rfl⟩ := of_loadEntries_true h
        exact ⟨es, rest', rfl, hcount, hes⟩
  · rintro ⟨es, rest, rfl, hcount, hes⟩
    rw [loadIndexCache_header (Nat.lt_of_le_of_lt hcount (by decide)), if_neg (Nat.not_lt.mpr hcount),
      loadEntries_append hes]

theorem loadIndexCache_eq_nil_iff {file : Option (List UInt8)} :
    (loadIndexCache file backend []).2 = [] ↔ ¬Begins backend file := by
  constructor
  · rintro h ⟨count, e, rest, rfl, hpos, hcount, he⟩
    rw [loadIndexCache_header (Nat.lt_of_le_of_lt hcount (by decide)), if_neg (Nat.not_lt.mpr hcount),
      loadEntries_eq_nil, Reader.entry_append he] at h
    rcases h with h | h
    · exact Nat.ne_of_gt hpos h
    · cases h
  · intro h
    cases file with
    | none => rfl
    | some buf =>
      rcases loadIndexCache_cases buf backend [] with hload | ⟨count, rest, rfl, hcount, hload⟩
      · rw [hload]
      · rw [hload, loadEntries_eq_nil]
        by_contra hnot
        rw [not_or, Bool.not_eq_false] at hnot
        obtain ⟨-, hshort, hp⟩ := Reader.of_entry_ok hnot.2
        exact h ⟨count, _, _, by rw [← hp], Nat.pos_of_ne_zero hnot.1, hcount, hshort⟩

theorem header_ne {backend' : Backend} (h : backend' ≠ backend) (count count' : ℕ) (rest rest' : List UInt8) :
    header backend count ++ rest ≠ header backend' count' ++ rest' := by
  cases backend <;> cases backend' <;> simp_all [header, kIndexMagic, Backend.name]

theorem roundTrips_iff {es : List ArchiveEntry} :
    RoundTrips backend es ↔ es.length ≤ kMaxCount ∧ ∀ e ∈ es, e.Short := by
  constructor
  · rintro ⟨h, -⟩
    have hload := h []
    rcases loadIndexCache_cases (saveIndexCache backend es) backend [] with hfail | ⟨count, rest, -, hcount, hloop⟩
    · rw [hfail] at hload
      cases hload
    · rw [hloop] at hload
      obtain ⟨es', rest', hout, hlen, hes, -⟩ := of_loadEntries_true (congrArg Prod.fst hload)
      rw [hload, List.nil_append] at hout
      obtain rfl : es = es' := hout
      exact ⟨hlen ▸ hcount, hes⟩
  · rintro ⟨hcount, hes⟩
    have hlt : es.length < 2 ^ 64 := Nat.lt_of_le_of_lt hcount (by decide)
    refine ⟨fun out => ?_, fun backend' out hne => ?_⟩
    · rw [saveIndexCache_eq, UInt64.toNat_ofNat_of_lt' hlt, loadIndexCache_header hlt, if_neg (Nat.not_lt.mpr hcount)]
      have hload := loadEntries_append hes [] []
      rwa [List.append_nil] at hload
    · rcases loadIndexCache_cases (saveIndexCache backend es) backend' out with hfail | ⟨count, rest, heq, -, -⟩
      · exact hfail
      · rw [saveIndexCache_eq] at heq
        exact absurd heq (header_ne hne _ _ _ _)

theorem entries_of_fails {file : Option (List UInt8)} {indexed : Indexed}
    (hfail : (loadIndexCache file backend []).1 = false) :
    (mountEntries false file backend indexed).map Mounted.entries =
      if indexed.ok ∧ (loadIndexCache file backend []).2 ++ indexed.entries ≠ [] then
        some ((loadIndexCache file backend []).2 ++ indexed.entries) else none := by
  unfold mountEntries
  simp only [Bool.false_eq_true, if_false, hfail]
  cases indexed.ok
  · simp
  · by_cases hnil : (loadIndexCache file backend []).2 ++ indexed.entries = []
    · simp [hnil]
    · simp [hnil, -List.append_eq_nil_iff]

theorem noTrace_iff {noIndexCache : Bool} {file : Option (List UInt8)} {indexed : Indexed} :
    NoTrace noIndexCache file backend indexed ↔
      (noIndexCache = false → indexed.ok = true → Begins backend file → Holds backend file) := by
  cases noIndexCache with
  | true =>
    refine iff_of_true (fun _ => ?_) fun h => by cases h
    unfold mountEntries
    cases indexed.ok <;> by_cases hnil : indexed.entries = [] <;> simp [hnil]
  | false =>
    have hholds := @loadIndexCache_eq_true_iff backend [] file
    rw [NoTrace, ← hholds]
    constructor
    · intro h _ hok hbegins
      by_contra hnot
      have hfail : (loadIndexCache file backend []).1 = false := Bool.not_eq_true _ ▸ hnot
      have hleft : (loadIndexCache file backend []).2 ≠ [] := fun hnil => loadIndexCache_eq_nil_iff.mp hnil hbegins
      have hentries := (entries_of_fails hfail).symm.trans (h hfail)
      rw [if_pos ⟨hok, fun hnil => hleft (List.append_eq_nil_iff.mp hnil).1⟩] at hentries
      split_ifs at hentries
      exact hleft (by simpa using hentries)
    · intro h hfail
      rw [entries_of_fails hfail]
      by_cases hok : indexed.ok = true
      · have hleft := loadIndexCache_eq_nil_iff.mpr fun hbegins => by
          have hload := h rfl hok hbegins
          rw [hfail] at hload
          cases hload
        rw [hleft, List.nil_append]
      · rw [if_neg fun h => hok h.1, if_neg fun h => hok h.1]

/-- **When the promises of the index cache hold.** What is written loads as it was if there are at most 2²⁶ entries
with paths shorter than 2³². A load that fails leaves no trace if the file is not cut behind its first record. -/
theorem index_cache_exact (backend : Backend) (es : List ArchiveEntry) (noIndexCache : Bool)
    (file : Option (List UInt8)) (indexed : Indexed) :
    (RoundTrips backend es ↔ es.length ≤ kMaxCount ∧ ∀ e ∈ es, e.Short) ∧ (NoTrace noIndexCache file backend indexed ↔
        (noIndexCache = false → indexed.ok = true → Begins backend file → Holds backend file)) :=
  ⟨roundTrips_iff, noTrace_iff⟩

/-- A file "a" of one byte. -/
def cutEntry : ArchiveEntry := ⟨[97], 1, 1, 30, 0, 0, 0⟩

def cutFile : List UInt8 := header .zip 2 ++ entryBytes cutEntry

theorem cutFile_leaks : ¬NoTrace false (some cutFile) .zip ⟨true, [cutEntry]⟩ ∧
    (mountEntries false (some cutFile) .zip ⟨true, [cutEntry]⟩).map Mounted.entries = some [cutEntry, cutEntry] := by
  rw [NoTrace]
  decide

end Files

end Prosperity.Formats.ArchiveIndex
