import Mathlib.Data.List.Nodup
import Prosperity.Formats.ZipArchive

/-!
# Reads of zip archives

The walk over a central directory stays within its buffer, whatever the bytes.

A session is at a place of the data of the member that it was opened for: what it has put out is what
the decompressor puts out for the packed bytes read so far. A read resumes it, skips on in it or
restarts it, and in each case what it returns is the slice of the member's contents, provided that
the session was not opened for more packed bytes than the member has, and that no offset leaves the
range in which a seek works.
-/

namespace Prosperity.Formats

/-! ## The walk over the directory -/

theorem exists_rdBytes {n p : ℕ} {b : List UInt8} (h : p + n ≤ b.length) : ∃ v, rdBytes n b p = some v := ⟨_, if_pos h⟩

theorem exists_rd16 {p : ℕ} {b : List UInt8} (h : p + 2 ≤ b.length) : ∃ v, rd16 b p = some v := by
  obtain ⟨v, hv⟩ := exists_rdBytes h
  exact ⟨leValue v, by rw [rd16, hv]; rfl⟩

theorem exists_rd32 {p : ℕ} {b : List UInt8} (h : p + 4 ≤ b.length) : ∃ v, rd32 b p = some v := by
  obtain ⟨v, hv⟩ := exists_rdBytes h
  exact ⟨leValue v, by rw [rd32, hv]; rfl⟩

theorem exists_rd64 {p : ℕ} {b : List UInt8} (h : p + 8 ≤ b.length) : ∃ v, rd64 b p = some v := by
  obtain ⟨v, hv⟩ := exists_rdBytes h
  exact ⟨leValue v, by rw [rd64, hv]; rfl⟩

theorem exists_cenHeader {p : ℕ} {cd : List UInt8} (h : p + 46 ≤ cd.length) : ∃ c, cenHeader cd p = some c := by
  obtain ⟨flags, hflags⟩ := exists_rd16 (b := cd) (p := p + 8) (by omega)
  obtain ⟨method, hmethod⟩ := exists_rd16 (b := cd) (p := p + 10) (by omega)
  obtain ⟨crc, hcrc⟩ := exists_rd32 (b := cd) (p := p + 16) (by omega)
  obtain ⟨comp, hcomp⟩ := exists_rd32 (b := cd) (p := p + 20) (by omega)
  obtain ⟨uncomp, huncomp⟩ := exists_rd32 (b := cd) (p := p + 24) (by omega)
  obtain ⟨nameLen, hname⟩ := exists_rd16 (b := cd) (p := p + 28) (by omega)
  obtain ⟨extraLen, hextra⟩ := exists_rd16 (b := cd) (p := p + 30) (by omega)
  obtain ⟨cmtLen, hcmt⟩ := exists_rd16 (b := cd) (p := p + 32) (by omega)
  obtain ⟨extAttr, hattr⟩ := exists_rd32 (b := cd) (p := p + 38) (by omega)
  obtain ⟨lho, hlho⟩ := exists_rd32 (b := cd) (p := p + 42) (by omega)
  refine ⟨⟨flags, method, crc, comp, uncomp, nameLen, extraLen, cmtLen, extAttr, lho⟩, ?_⟩
  simp [cenHeader, hflags, hmethod, hcrc, hcomp, huncomp, hname, hextra, hcmt, hattr, hlho]

theorem exists_saturated {cd : List UInt8} {d left : ℕ} (h : d + left ≤ cd.length) (value : ℕ) :
    ∃ v d' left', saturated cd value d left = some (v, d', left') ∧ d' + left' ≤ cd.length := by
  unfold saturated
  split_ifs with hsat
  · obtain ⟨v, hv⟩ := exists_rd64 (b := cd) (p := d) (by omega)
    exact ⟨v, d + 8, left - 8, by rw [hv]; rfl, by omega⟩
  · exact ⟨value, d, left, rfl, h⟩

theorem exists_zip64Record {cd : List UInt8} {d sz : ℕ} (h : d + sz ≤ cd.length) (c : CenHeader) :
    ∃ c', zip64Record cd d sz c = some c' := by
  obtain ⟨uncomp, d₁, left₁, h₁, hle₁⟩ := exists_saturated h c.uncomp
  obtain ⟨comp, d₂, left₂, h₂, hle₂⟩ := exists_saturated hle₁ c.comp
  obtain ⟨lho, d₃, left₃, h₃, -⟩ := exists_saturated hle₂ c.lho
  exact ⟨{ c with uncomp := uncomp, comp := comp, lho := lho },
    by simp [zip64Record, h₁, h₂, h₃]⟩

theorem exists_zip64Fields {cd : List UInt8} {xe : ℕ} (hxe : xe ≤ cd.length) (fuel xp : ℕ)
    (c : CenHeader) : ∃ c', zip64Fields cd xe fuel xp c = some c' := by
  induction fuel generalizing xp c with
  | zero => exact ⟨c, rfl⟩
  | succ fuel ih =>
    unfold zip64Fields
    split_ifs with hroom
    · obtain ⟨id, hid⟩ := exists_rd16 (b := cd) (p := xp) (by omega)
      obtain ⟨sz, hsz⟩ := exists_rd16 (b := cd) (p := xp + 2) (by omega)
      simp only [hid, hsz, Option.bind_eq_bind, Option.bind_some]
      split_ifs with hend hrecord
      · exact ⟨c, rfl⟩
      · obtain ⟨c', hc'⟩ := exists_zip64Record (by omega : xp + 4 + sz ≤ cd.length) c
        rw [hc']
        exact ih _ c'
      · exact ih _ c
    · exact ⟨c, rfl⟩

/-- **The walk stays in the buffer**, for every string of bytes and every count. -/
theorem indexLoop_isSome (cd : List UInt8) (n p : ℕ) (out : List ArchiveEntry) : (indexLoop cd n p out).isSome := by
  induction n generalizing p out with
  | zero => rfl
  | succ n ih =>
    unfold indexLoop
    split_ifs with hroom
    · rfl
    obtain ⟨sig, hsig⟩ := exists_rd32 (b := cd) (p := p) (by omega)
    obtain ⟨h, hh⟩ := exists_cenHeader (by omega : p + 46 ≤ cd.length)
    simp only [hsig, Option.bind_eq_bind, Option.bind_some]
    split_ifs with hne
    · rfl
    simp only [hh, Option.bind_some]
    split_ifs with hlen
    · rfl
    have hlength : h.length = 46 + h.nameLen + h.extraLen + h.cmtLen := rfl
    obtain ⟨full, hfull⟩ := exists_zip64Fields
      (by omega : p + 46 + h.nameLen + h.extraLen ≤ cd.length) h.extraLen (p + 46 + h.nameLen) h
    obtain ⟨name, hname⟩ := exists_rdBytes (b := cd) (p := p + 46) (n := h.nameLen) (by omega)
    simp only [hfull, hname, Option.bind_some]
    exact ih _ _

theorem indexLoop_dataOffset {cd : List UInt8} {n p : ℕ} {out entries : List ArchiveEntry}
    (hout : ∀ e ∈ out, e.dataOffset = 0) (h : indexLoop cd n p out = some (some entries)) :
    ∀ e ∈ entries, e.dataOffset = 0 := by
  induction n generalizing p out with
  | zero =>
    obtain rfl := Option.some.inj (Option.some.inj h)
    exact hout
  | succ n ih =>
    unfold indexLoop at h
    split_ifs at h with hroom
    · cases Option.some.inj h
    obtain ⟨sig, -, h⟩ := Option.bind_eq_some_iff.mp h
    split_ifs at h with hne
    · cases Option.some.inj h
    obtain ⟨c, -, h⟩ := Option.bind_eq_some_iff.mp h
    split_ifs at h with hlen
    · cases Option.some.inj h
    obtain ⟨full, -, h⟩ := Option.bind_eq_some_iff.mp h
    obtain ⟨name, -, h⟩ := Option.bind_eq_some_iff.mp h
    refine ih (fun e he => ?_) h
    rcases List.mem_append.mp he with he | he
    · exact hout e he
    · have hentry := Option.mem_toList.mp he
      unfold entryOf at hentry
      dsimp only at hentry
      split_ifs at hentry
      obtain rfl := Option.some.inj hentry
      rfl

theorem DiskFile.index_dataOffset {file : DiskFile} {pos cdOff cdSize cdCount : ℕ}
    {entries : List ArchiveEntry} (h : file.index pos cdOff cdSize cdCount = some (some entries)) :
    ∀ e ∈ entries, e.dataOffset = 0 := by
  unfold DiskFile.index at h
  split_ifs at h
  · cases Option.some.inj h
  split at h
  · cases Option.some.inj h
  · refine indexLoop_dataOffset ?_ h
    intro e he
    cases he

/-! ## The contents of a member -/

namespace DiskFile

variable (file : DiskFile)

/-- Where the local header at `lho` ends, if there is one. -/
def headerEnd (lho : ℕ) : Option ℕ :=
  let lh := (file.bytes.drop lho).take 30
  if lh.length = 30 ∧ rd32 lh 0 = some kLocSig then
    some (lho + 30 + (rd16 lh 26).getD 0 + (rd16 lh 28).getD 0)
  else none

def contents (whole : List UInt8 → List UInt8) (e : ArchiveEntry) : List UInt8 :=
  match file.headerEnd e.extra with
  | none => []
  | some ds =>
    if e.method = kMethodStore then (file.bytes.drop ds).take e.size
    else whole ((file.bytes.drop ds).take e.packedSize)

variable {file}

theorem pread_eq {pos off len pos' : ℕ} {data : List UInt8} (hoff : off < 2 ^ 63)
    (h : file.pread pos off len = (some data, pos')) : data = (file.bytes.drop off).take len ∧ data.length = len := by
  unfold pread at h
  dsimp only at h
  rw [if_pos hoff] at h
  obtain ⟨hdata, -⟩ := Prod.mk.inj h
  split_ifs at hdata with hlen
  obtain rfl := Option.some.inj hdata
  exact ⟨rfl, hlen⟩

theorem le_of_pread {pos off len pos' : ℕ} {data : List UInt8} (hoff : off < 2 ^ 63)
    (hlen : 0 < len) (h : file.pread pos off len = (some data, pos')) : off + len ≤ file.bytes.length := by
  obtain ⟨hdata, hlength⟩ := pread_eq hoff h
  rw [hdata, List.length_take, List.length_drop] at hlength
  omega

end DiskFile

theorem leValue_lt (b : List UInt8) : leValue b < 256 ^ b.length := by
  induction b with
  | nil => exact Nat.one_pos
  | cons x b ih =>
    have hx : x.toNat < 256 := x.toNat_lt
    rw [leValue, List.length_cons, Nat.pow_succ]
    omega

theorem rd16_lt {b : List UInt8} {p v : ℕ} (h : rd16 b p = some v) : v < 2 ^ 16 := by
  obtain ⟨bytes, hbytes, rfl⟩ := Option.map_eq_some_iff.mp h
  unfold rdBytes at hbytes
  split_ifs at hbytes with hroom
  obtain rfl := Option.some.inj hbytes
  have hlt := leValue_lt ((b.drop p).take 2)
  have hlen : ((b.drop p).take 2).length = 2 := by
    rw [List.length_take, List.length_drop]
    omega
  rwa [hlen] at hlt

/-! ## The loops -/

namespace Session

variable {z : Zlib} {whole : List UInt8 → List UInt8} {file : DiskFile}

/-- A session at a place of the data from `ds` on, which it reads up to `total`; `produced` is what
it has put out. -/
structure At (file : DiskFile) (ds total : ℕ) (produced : List UInt8) (s : Session z.State) : Prop where
  start : ds ≤ s.filePos
  bound : s.filePos < 2 ^ 63
  total : s.filePos + s.compLeft = total
  fed : z.Fed (file.bytes.drop ds) (s.filePos - ds) s.zs s.input produced
  outPos : s.outPos = produced.length

def Same (s t : Session z.State) : Prop := t.key = s.key ∧ t.isOpen = s.isOpen

variable {ds total pos pos' : ℕ} {produced : List UInt8} {s s' : Session z.State}

theorem At.fill (h : At file ds total produced s) (hin : s.input = [])
    (hf : s.fill z file pos = (true, pos', s')) : At file ds total produced s' ∧ Same s s' := by
  unfold Session.fill at hf
  dsimp only at hf
  split_ifs at hf with hn
  · cases hf
  split at hf
  case h_1 => cases hf
  case h_2 data pos₁ hread =>
    cases hf
    obtain ⟨hdata, -⟩ := DiskFile.pread_eq h.bound hread
    have hend := DiskFile.le_of_pread h.bound (Nat.pos_of_ne_zero hn) hread
    have hsize := file.size_lt
    have hstart := h.start
    have htotal := h.total
    have hfed := h.fed
    rw [hin] at hfed
    have hpos : s.filePos + min kInBytes s.compLeft - ds = s.filePos - ds + min kInBytes s.compLeft := by omega
    refine ⟨⟨?_, ?_, ?_, ?_, h.outPos⟩, rfl, rfl⟩
    · dsimp only
      omega
    · dsimp only
      omega
    · dsimp only
      omega
    · dsimp only
      rw [hpos]
      refine hfed.fill ?_
      rw [hdata, List.drop_drop, Nat.add_sub_cancel' hstart]

theorem At.refill (h : At file ds total produced s)
    (hf : s.refill z file pos = (true, pos', s')) : At file ds total produced s' ∧ Same s s' := by
  unfold Session.refill at hf
  split_ifs at hf with hin
  · exact h.fill hin.1 hf
  · cases hf
    exact ⟨h, rfl, rfl⟩

theorem At.inflated (h : At file ds total produced s) (avail : ℕ) :
    At file ds total (produced ++ (z.decode s.zs s.input avail).out) (s.inflated z avail) := by
  refine ⟨h.start, h.bound, h.total, h.fed.decode avail, ?_⟩
  rw [List.length_append, ← h.outPos]
  rfl

/-- **The loop** puts the next bytes out. -/
theorem At.inflateLoop {want fuel : ℕ} {done bytes : List UInt8} (h : At file ds total produced s)
    (hf : s.inflateLoop z file want fuel done pos = (some bytes, pos', s')) :
    ∃ piece, bytes = done ++ piece ∧ At file ds total (produced ++ piece) s' ∧ Same s s' := by
  induction fuel generalizing done pos s produced with
  | zero => cases hf
  | succ fuel ih =>
    unfold Session.inflateLoop at hf
    split_ifs at hf with hmore
    · split at hf
      case h_1 => cases hf
      case h_2 pos₁ t hrefill =>
        obtain ⟨ht, hsame⟩ := h.refill hrefill
        have hnext := ht.inflated (min (want - done.length) (1 <<< 30))
        dsimp only at hf
        split at hf
        · cases hf
          exact ⟨_, rfl, ⟨hnext.start, hnext.bound, hnext.total, hnext.fed, hnext.outPos⟩, hsame⟩
        · cases hf
        · split_ifs at hf
          · cases hf
          obtain ⟨piece, rfl, hs', hsame'⟩ := ih hnext hf
          refine ⟨_, List.append_assoc .., ?_, hsame'.1.trans hsame.1, hsame'.2.trans hsame.2⟩
          rwa [List.append_assoc] at hs'
    · cases hf
      exact ⟨[], (List.append_nil _).symm, by rwa [List.append_nil], rfl, rfl⟩

theorem At.inflateTo {want : ℕ} {bytes : List UInt8} (h : At file ds total produced s)
    (hf : s.inflateTo z file want pos = (some bytes, pos', s')) :
    At file ds total (produced ++ bytes) s' ∧ Same s s' := by
  obtain ⟨piece, rfl, hs'⟩ := h.inflateLoop hf
  exact hs'

theorem At.skipTo {off fuel : ℕ} (h : At file ds total produced s) (hle : s.outPos ≤ off)
    (hfuel : off - s.outPos ≤ fuel) (hf : s.skipTo z file off fuel pos = (true, pos', s')) :
    ∃ more, At file ds total (produced ++ more) s' ∧ Same s s' ∧ s'.outPos = off := by
  induction fuel generalizing pos s produced with
  | zero =>
    cases hf
    exact ⟨[], by rwa [List.append_nil], ⟨rfl, rfl⟩, by omega⟩
  | succ fuel ih =>
    unfold Session.skipTo at hf
    split_ifs at hf with hlt
    · dsimp only at hf
      split at hf
      case h_1 => cases hf
      case h_2 done pos₁ t hinflate =>
        split_ifs at hf with hchunk
        · obtain ⟨ht, hsame⟩ := h.inflateTo hinflate
          have hpos : t.outPos = s.outPos + done.length := by
            rw [ht.outPos, h.outPos, List.length_append]
          have hin : 0 < kInBytes := by decide
          obtain ⟨more, hs', hsame', hoff⟩ := ih ht (by omega) (by omega) hf
          rw [List.append_assoc] at hs'
          exact ⟨done ++ more, hs', ⟨hsame'.1.trans hsame.1, hsame'.2.trans hsame.2⟩, hoff⟩
        · cases hf
    · cases hf
      exact ⟨[], by rwa [List.append_nil], ⟨rfl, rfl⟩, by omega⟩

def Left (file : DiskFile) (ds total : ℕ) (s t : Session z.State) : Prop :=
  t.isOpen → t.key = s.key ∧ ∃ produced, At file ds total produced t

theorem left_close (t : Session z.State) : Left file ds total s (t.close z) := by
  intro hopen
  cases hopen

/-- **A read** returns the slice of the contents. -/
theorem At.read {e : ArchiveEntry} {off want : ℕ} {data : Option (List UInt8)}
    (h : At file ds total produced s) (hz : z.Lawful whole) (hle : s.outPos ≤ off)
    (htotal : total ≤ ds + e.packedSize) (hf : s.read z file e off want pos = (data, pos', s')) :
    Left file ds total s s' ∧ ∀ bytes, data = some bytes → bytes.length = want ∧
      bytes = ((whole ((file.bytes.drop ds).take e.packedSize)).drop off).take want := by
  unfold Session.read at hf
  split at hf
  case h_1 =>
    cases hf
    refine ⟨left_close _, ?_⟩
    rintro _ ⟨⟩
  case h_2 pos₁ t hskip =>
    obtain ⟨more, ht, htsame, hoff⟩ := h.skipTo hle (Nat.le_refl _) hskip
    split at hf
    case h_1 =>
      cases hf
      refine ⟨left_close _, ?_⟩
      rintro _ ⟨⟩
    case h_2 done pos₂ u hinflate =>
      obtain ⟨hu, husame⟩ := ht.inflateTo hinflate
      have hslice : done.length = want →
          done = ((whole ((file.bytes.drop ds).take e.packedSize)).drop off).take want := by
        rintro rfl
        rw [← hoff, ht.outPos]
        refine hu.fed.slice hz ?_
        -- No more is read than the packed bytes of the member.
        rw [List.length_take]
        have hstart := hu.start
        have hend := hu.total
        omega
      split_ifs at hf with hlen hend
      · cases hf
        refine ⟨left_close _, ?_⟩
        rintro _ ⟨⟩
      · dsimp only at hf
        cases hf
        refine ⟨left_close _, fun bytes hbytes => ?_⟩
        split_ifs at hbytes
        cases hbytes
        exact ⟨not_not.mp hlen, hslice (not_not.mp hlen)⟩
      · cases hf
        refine ⟨fun _ => ⟨husame.1.trans htsame.1, _, hu⟩, fun bytes hbytes => ?_⟩
        cases hbytes
        exact ⟨not_not.mp hlen, hslice (not_not.mp hlen)⟩

/-! ## The bound of the loop -/

end Session

/-! ## The calls -/

namespace ZipState

variable {z : Zlib} {whole : List UInt8 → List UInt8} {file : DiskFile}

/-- What a call returns is the slice of the member's contents that was asked for, all of it. -/
def StepSound (file : DiskFile) (whole : List UInt8 → List UInt8) (_ : ZipState z)
    (c : ExtractCall) (s' : ZipState z) : Prop :=
  ∀ bytes, s'.returned = some bytes → bytes.length = wanted c.entry c.off.toNat c.len.toNat ∧
      bytes = ((file.contents whole c.entry).drop c.off.toNat).take
        (wanted c.entry c.off.toNat c.len.toNat)

structure Careful (file : DiskFile) (s : ZipState z) (c : ExtractCall) : Prop where
  header : c.entry.extra < 2 ^ 63
  data : ∀ ds, file.headerEnd c.entry.extra = some ds → c.entry.method = kMethodStore → ds + c.off.toNat < 2 ^ 63
  session : ∀ ds, file.headerEnd c.entry.extra = some ds → c.entry.method ≠ kMethodStore →
    ∀ i, s.findSession c.entry.extra = some i → (s.sess i).filePos + (s.sess i).compLeft ≤ ds + c.entry.packedSize

/-- The invariant: the cached offsets are those of the headers, and every open session is at a place
of the data of its member. -/
structure Inv (file : DiskFile) (s : ZipState z) : Prop where
  dataOff : ∀ k off, s.dataOff.lookup k = some off → file.headerEnd k = some off
  sessions : ∀ i, (s.sess i).isOpen → ∃ ds total produced,
    file.headerEnd (s.sess i).key = some ds ∧ Session.At file ds total produced (s.sess i)

variable {s s' : ZipState z} {e : ArchiveEntry}

theorem Inv.init (pos : ℕ) : Inv file (init z pos) := by
  refine ⟨?_, ?_⟩
  · rintro _ _ ⟨⟩
  · rintro _ ⟨⟩

theorem Inv.congr (h : Inv file s) (hdata : s'.dataOff = s.dataOff) (hsess : s'.sess = s.sess) : Inv file s' := by
  refine ⟨?_, ?_⟩
  · rw [hdata]
    exact h.dataOff
  · rw [hsess]
    exact h.sessions

theorem Inv.setSession (h : Inv file s) (i : Fin 4) {c : Session z.State}
    (hc : c.isOpen → ∃ ds total produced, file.headerEnd c.key = some ds ∧ Session.At file ds total produced c) :
    Inv file (s.setSession i c) := by
  refine ⟨h.dataOff, fun j hj => ?_⟩
  simp only [ZipState.setSession] at hj ⊢
  by_cases hji : j = i
  · subst hji
    rw [Function.update_self] at hj ⊢
    exact hc hj
  · rw [Function.update_of_ne hji] at hj ⊢
    exact h.sessions j hj

theorem signed_eq_some {off ds : ℕ} (h : signed off = some ds) : off = ds ∧ ds < 2 ^ 63 := by
  unfold signed at h
  split_ifs at h with hlt
  obtain rfl := Option.some.inj h
  exact ⟨rfl, hlt⟩

/-- **The data of a member** start where its local header ends. -/
theorem Inv.dataStart (h : Inv file s) (hentry : e.dataOffset = 0) (hextra : e.extra < 2 ^ 63)
    {r : Option ℕ} (hr : s.dataStart file e = (r, s')) : Inv file s' ∧ s'.sess = s.sess ∧
      ∀ ds, r = some ds → file.headerEnd e.extra = some ds ∧ ds < 2 ^ 63 := by
  unfold ZipState.dataStart at hr
  rw [if_neg (not_not.mpr hentry)] at hr
  split at hr
  case h_1 off hlookup =>
    cases hr
    refine ⟨h, rfl, fun ds hds => ?_⟩
    obtain ⟨rfl, hlt⟩ := signed_eq_some hds
    exact ⟨h.dataOff _ _ hlookup, hlt⟩
  case h_2 =>
    split at hr
    case h_1 =>
      cases hr
      refine ⟨h.congr rfl rfl, rfl, ?_⟩
      rintro _ ⟨⟩
    case h_2 lh pos hread =>
      split_ifs at hr with hsig
      · cases hr
        refine ⟨h.congr rfl rfl, rfl, ?_⟩
        rintro _ ⟨⟩
      cases hr
      obtain ⟨hlh, hlen⟩ := DiskFile.pread_eq hextra hread
      have hend := DiskFile.le_of_pread hextra (by decide) hread
      have hsize := file.size_lt
      obtain ⟨n, hn⟩ := exists_rd16 (b := lh) (p := 26) (by omega)
      obtain ⟨m, hm⟩ := exists_rd16 (b := lh) (p := 28) (by omega)
      have hnlt := rd16_lt hn
      have hmlt := rd16_lt hm
      have hmod : (e.extra + 30 + (rd16 lh 26).getD 0 + (rd16 lh 28).getD 0) % 2 ^ 64 =
          e.extra + 30 + (rd16 lh 26).getD 0 + (rd16 lh 28).getD 0 := by
        refine Nat.mod_eq_of_lt ?_
        rw [hn, hm, Option.getD_some, Option.getD_some]
        omega
      have hheader : file.headerEnd e.extra =
          some (e.extra + 30 + (rd16 lh 26).getD 0 + (rd16 lh 28).getD 0) := by
        unfold DiskFile.headerEnd
        dsimp only
        rw [← hlh, if_pos ⟨hlen, not_not.mp hsig⟩]
      refine ⟨⟨fun k off hk => ?_, h.sessions⟩, rfl, fun ds hds => ?_⟩
      · rw [List.lookup_cons] at hk
        split at hk
        case h_1 heq =>
          obtain rfl := Option.some.inj hk
          rw [eq_of_beq heq, hmod]
          exact hheader
        case h_2 => exact h.dataOff k off hk
      · obtain ⟨rfl, hlt⟩ := signed_eq_some hds
        rw [hmod] at hlt ⊢
        exact ⟨hheader, hlt⟩

structure Ready (file : DiskFile) (e : ArchiveEntry) (ds off : ℕ) (c : Session z.State) : Prop where
  key : c.key = e.extra
  outPos : c.outPos ≤ off
  at_ : ∃ total produced, total ≤ ds + e.packedSize ∧ Session.At file ds total produced c

theorem Inv.stamped (h : Inv file s) (i : Fin 4) : Inv file (s.stamped i) := by
  refine (h.setSession i (c := { s.sess i with stamp := s.stamp + 1 }) fun hopen => ?_).congr rfl rfl
  obtain ⟨ds, total, produced, hheader, hat⟩ := h.sessions i hopen
  exact ⟨ds, total, produced, hheader, hat.start, hat.bound, hat.total, hat.fed, hat.outPos⟩

theorem Ready.stamped {ds off : ℕ} {i : Fin 4} (h : Ready file e ds off (s.sess i)) :
    Ready file e ds off ((s.stamped i).sess i) := by
  have hsess : (s.stamped i).sess i = { s.sess i with stamp := s.stamp + 1 } :=
    Function.update_self ..
  obtain ⟨total, produced, htotal, hat⟩ := h.at_
  rw [hsess]
  exact ⟨h.key, h.outPos, total, produced, htotal, hat.start, hat.bound, hat.total, hat.fed, hat.outPos⟩

theorem Inv.close (h : Inv file s) (i : Fin 4) : Inv file (s.setSession i ((s.sess i).close z)) := by
  refine h.setSession i ?_
  rintro ⟨⟩

theorem Inv.openSession (h : Inv file s) {ds off : ℕ} {created : Bool} {r : Option (Fin 4)}
    (hheader : file.headerEnd e.extra = some ds) (hds : ds < 2 ^ 63) (hr : s.openSession created e ds = (r, s')) :
    Inv file s' ∧ ∀ i, r = some i → Ready file e ds off (s'.sess i) := by
  unfold ZipState.openSession at hr
  dsimp only at hr
  generalize s.victim 0 (List.finRange 4) = i at hr
  have hclosed := h.close i
  generalize s.setSession i ((s.sess i).close z) = t at hr hclosed
  split_ifs at hr
  · cases hr
    have hat : Session.At file ds (ds + e.packedSize) [] (⟨z.init, [], e.extra, ds, e.packedSize, 0,
        (t.sess i).stamp, z.crc32 0 [], false, true⟩ : Session z.State) := by
      refine ⟨Nat.le_refl _, hds, rfl, ?_, rfl⟩
      rw [Nat.sub_self]
      exact .init _
    refine ⟨(hclosed.setSession i fun _ => ⟨ds, _, _, hheader, hat⟩).stamped i, fun j hj => ?_⟩
    cases hj
    refine Ready.stamped ?_
    simp only [ZipState.setSession, Function.update_self]
    exact ⟨rfl, Nat.zero_le _, _, _, Nat.le_refl _, hat⟩
  · cases hr
    refine ⟨hclosed, ?_⟩
    rintro _ ⟨⟩

/-- **A session acquired** is one that the read can go on in. -/
theorem Inv.acquire (h : Inv file s) {ds off : ℕ} {created : Bool} {r : Option (Fin 4)}
    (hheader : file.headerEnd e.extra = some ds) (hds : ds < 2 ^ 63)
    (hcareful : ∀ i, s.findSession e.extra = some i → (s.sess i).filePos + (s.sess i).compLeft ≤ ds + e.packedSize)
    (hr : s.acquire created e ds off = (r, s')) :
    Inv file s' ∧ ∀ i, r = some i → Ready file e ds off (s'.sess i) := by
  unfold ZipState.acquire at hr
  split at hr
  case h_1 i hfind =>
    split_ifs at hr with hrestart
    · exact (h.close i).openSession hheader hds hr
    · cases hr
      have hopen : (s.sess i).isOpen = true ∧ (s.sess i).key = e.extra := by
        simpa using List.find?_some hfind
      obtain ⟨ds', total, produced, hheader', hat⟩ := h.sessions i hopen.1
      rw [hopen.2, hheader] at hheader'
      cases hheader'
      refine ⟨h.stamped i, fun j hj => ?_⟩
      cases hj
      refine Ready.stamped ⟨hopen.2, by omega, total, produced, ?_, hat⟩
      rw [← hat.total]
      exact hcareful i hfind
  case h_2 => exact h.openSession hheader hds hr

/-- **A careful call** keeps the invariant and returns the slice of the contents. -/
theorem Inv.extractRange (h : Inv file s) (hz : z.Lawful whole) {c : ExtractCall}
    (hentry : c.entry.dataOffset = 0) (hcareful : Careful file s c) :
    Inv file (s.extractRange file c.created c.entry c.off c.len) ∧
      StepSound file whole s c (s.extractRange file c.created c.entry c.off c.len) := by
  unfold ZipState.extractRange
  by_cases hneg : c.off < 0 ∨ c.len < 0
  · rw [if_pos hneg]
    refine ⟨h.congr rfl rfl, ?_⟩
    rintro _ ⟨⟩
  rw [if_neg hneg]
  dsimp only
  by_cases hsize : c.entry.size ≤ c.off.toNat
  · rw [if_pos hsize]
    refine ⟨h.congr rfl rfl, fun bytes hbytes => ?_⟩
    cases hbytes
    have hwant : wanted c.entry c.off.toNat c.len.toNat = 0 := by
      rw [wanted]
      omega
    rw [hwant, List.take_zero]
    exact ⟨rfl, rfl⟩
  rw [if_neg hsize]
  split
  case h_1 t hstart =>
    refine ⟨(h.dataStart hentry hcareful.header hstart).1.congr rfl rfl, ?_⟩
    rintro _ ⟨⟩
  case h_2 ds t hstart =>
    obtain ⟨ht, hsess, hds⟩ := h.dataStart hentry hcareful.header hstart
    obtain ⟨hheader, hlt⟩ := hds ds rfl
    have hcontents : file.contents whole c.entry =
        if c.entry.method = kMethodStore then (file.bytes.drop ds).take c.entry.size
        else whole ((file.bytes.drop ds).take c.entry.packedSize) := by
      rw [DiskFile.contents, hheader]
    by_cases hstore : c.entry.method = kMethodStore
    · rw [if_pos hstore]
      refine ⟨ht.congr rfl rfl, fun bytes hbytes => ?_⟩
      have hread : file.pread t.pos (ds + c.off.toNat) (wanted c.entry c.off.toNat c.len.toNat) =
          (some bytes, _) := Prod.ext hbytes rfl
      obtain ⟨hdata, hlen⟩ := DiskFile.pread_eq (hcareful.data ds hheader hstore) hread
      refine ⟨hlen, ?_⟩
      rw [hcontents, if_pos hstore, hdata, List.drop_take, List.drop_drop, List.take_take, wanted]
      congr 1
      omega
    · rw [if_neg hstore]
      split
      case h_1 u hacquire =>
        refine ⟨(ht.acquire hheader hlt ?_ hacquire).1.congr rfl rfl, ?_⟩
        · simp only [findSession, hsess]
          exact hcareful.session ds hheader hstore
        · rintro _ ⟨⟩
      case h_2 i u hacquire =>
        obtain ⟨hu, hready⟩ := ht.acquire hheader hlt (by
          simp only [findSession, hsess]
          exact hcareful.session ds hheader hstore) hacquire
        obtain ⟨hkey, hout, total, produced, htotal, hat⟩ := hready i rfl
        cases hread : (u.sess i).read z file c.entry c.off.toNat
          (wanted c.entry c.off.toNat c.len.toNat) u.pos with
        | mk data rest =>
          obtain ⟨pos, d⟩ := rest
          obtain ⟨hleft, hslice⟩ := hat.read hz hout htotal hread
          refine ⟨(hu.setSession i fun hopen => ?_).congr rfl rfl, fun bytes hbytes => ?_⟩
          · obtain ⟨hkey', produced', hat'⟩ := hleft hopen
            exact ⟨ds, total, produced', by rw [hkey', hkey, hheader], hat'⟩
          · rw [hcontents, if_neg hstore]
            exact hslice bytes hbytes

theorem Inv.step (h : Inv file s) (hz : z.Lawful whole) {entries : List ArchiveEntry}
    (hentries : ∀ e ∈ entries, e.dataOffset = 0) {c : ExtractCall} (hcareful : Careful file s c)
    (hstep : step file entries s c = some s') : Inv file s' ∧ StepSound file whole s c s' := by
  unfold ZipState.step at hstep
  split_ifs at hstep with hcall
  obtain rfl := Option.some.inj hstep
  exact h.extractRange hz (hentries _ hcall.1) hcareful

end ZipState

open ZipState

def storedBlock : List UInt8 → List UInt8
  | 1 :: n :: _ :: _ :: _ :: data => data.take n.toNat
  | _ => []

/-- The block is there to its end. -/
def storedComplete : List UInt8 → ℕ → Bool
  | 1 :: n :: _ :: _ :: _ :: _, put => put = n.toNat
  | _, _ => false

def crcBit (c : ℕ) : ℕ := if c % 2 = 1 then (c >>> 1) ^^^ 0xEDB88320 else c >>> 1

def crcUpdate (crc : ℕ) (bytes : List UInt8) : ℕ :=
  bytes.foldl (fun c b => (List.range 8).foldl (fun c _ => crcBit c) (c ^^^ b.toNat))
    (crc ^^^ 0xFFFFFFFF) ^^^ 0xFFFFFFFF

def storedZlib : Zlib where
  State := List UInt8 × ℕ
  init := ([], 0)
  decode st given room :=
    let used := st.1 ++ given
    let out := ((storedBlock used).drop st.2).take room
    { state := (used, st.2 + out.length)
      used := given.length
      out := out
      status :=
        if storedComplete used (st.2 + out.length) then .streamEnd
        else if given = [] ∧ out = [] then .error
        else .ok }
  crc32 := crcUpdate

theorem storedBlock_mono {i j : List UInt8} (h : i <+: j) : storedBlock i <+: storedBlock j := by
  obtain ⟨more, rfl⟩ := h
  unfold storedBlock
  split
  case h_1 n _ _ _ data =>
    simp only [List.cons_append]
    exact (List.prefix_append data more).take _
  case h_2 => exact List.nil_prefix

theorem storedZlib_run {st : storedZlib.State} {used output : List UInt8} (h : storedZlib.Run st used output) :
    st.1 = used ∧ st.2 = output.length ∧ output <+: storedBlock used := by
  induction h with
  | init => exact ⟨rfl, rfl, List.nil_prefix⟩
  | @decode st used output given room _ ih =>
    obtain ⟨hused, hput, hinitial⟩ := ih
    have hall : used ++ given.take given.length = used ++ given := by rw [List.take_length]
    refine ⟨?_, ?_, ?_⟩
    · change st.1 ++ given = used ++ given.take given.length
      rw [hall, hused]
    · change st.2 + _ = (output ++ _).length
      rw [List.length_append, ← hput]
      rfl
    · change output ++ ((storedBlock (st.1 ++ given)).drop st.2).take room <+:
        storedBlock (used ++ given.take given.length)
      rw [hall, hused, hput]
      have hmore := hinitial.trans (storedBlock_mono (List.prefix_append used given))
      obtain ⟨rest, hrest⟩ := hmore
      rw [← hrest, List.drop_left]
      exact (List.prefix_append_right_inj output).mpr (List.take_prefix _ _)

theorem storedZlib_lawful : storedZlib.Lawful storedBlock where
  used_le := fun _ _ _ => Nat.le_refl _
  out_le := fun _ _ _ => by
    change List.length (List.take _ _) ≤ _
    rw [List.length_take]
    exact Nat.min_le_left _ _
  progress := fun st given room hok => by
    change (if _ then _ else if _ then _ else _) = _ at hok
    split_ifs at hok with _ hnone
    change 0 < given.length ∨ _ ≠ []
    rw [List.length_pos_iff]
    exact not_and_or.mp hnone
  mono := fun _ _ => storedBlock_mono
  run := fun _ _ _ h => (storedZlib_run h).2.2

/-- An archive with the member `a`, the bytes 1, 2 and 3 deflated as one block. -/
def deflatedArchive : DiskFile where
  bytes :=
    [80, 75, 3, 4, 45, 0, 0, 0, 8, 0, 0, 0, 0, 0, 29, 128, 188, 85, 8, 0, 0, 0, 3, 0, 0, 0, 1, 0, 0, 0, 97,
      1, 3, 0, 252, 255, 1, 2, 3,
      80, 75, 1, 2, 45, 0, 45, 0, 0, 0, 8, 0, 0, 0, 0, 0, 29, 128, 188, 85, 8, 0, 0, 0, 3, 0, 0, 0,
      1, 0, 0, 0, 0, 0, 0, 0, 0, 0, 0, 0, 0, 0, 0, 0, 0, 0, 97,
      80, 75, 5, 6, 0, 0, 0, 0, 1, 0, 1, 0, 47, 0, 0, 0, 39, 0, 0, 0, 0, 0]
  size_lt := by decide +kernel

def deflatedEntry : ArchiveEntry := ⟨[97], 3, 8, 0, 0, 8, 0x55bc801d⟩

theorem deflatedArchive_index : deflatedArchive.index 0 39 47 1 = some (some [deflatedEntry]) := by decide +kernel

/-- An archive with the member `a`, stored, whose size in its ZIP64 record is 2⁶⁴ - 2. -/
def hugeArchive : DiskFile where
  bytes :=
    [80, 75, 3, 4, 45, 0, 0, 0, 0, 0, 0, 0, 0, 0, 0, 0, 0, 0, 255, 255, 255, 255, 255, 255, 255, 255, 1, 0, 0, 0, 97,
      1, 2, 3,
      80, 75, 1, 2, 45, 0, 45, 0, 0, 0, 0, 0, 0, 0, 0, 0, 0, 0, 0, 0, 255, 255, 255, 255, 255, 255,
      255, 255, 1, 0, 20, 0, 0, 0, 0, 0, 0, 0, 0, 0, 0, 0, 0, 0, 0, 0, 97, 1, 0, 16, 0, 254, 255, 255,
      255, 255, 255, 255, 255, 3, 0, 0, 0, 0, 0, 0, 0,
      80, 75, 5, 6, 0, 0, 0, 0, 1, 0, 1, 0, 67, 0, 0, 0, 34, 0, 0, 0, 0, 0]
  size_lt := by decide +kernel

def hugeEntry : ArchiveEntry := ⟨[97], 2 ^ 64 - 2, 3, 0, 0, 0, 0⟩

end Prosperity.Formats
