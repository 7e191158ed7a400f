import Prosperity.Formats.Ufs2

/-!
# The block map of UFS2

The map gives each block of a file its address: the inode holds the first twelve, and the entries of indirect
blocks of one, two and three levels the next `n`, `n ^ 2` and `n ^ 3`, for `n` entries in a block. It is taken here
over unbounded numbers, and has no value where an entry is not in the image, or is negative.

The reader follows the map where it has values and the ends of the blocks are numbers of 64 bits. Elsewhere it takes
an entry that cannot be read for a block of zeros, divides by zero, or reads behind an indirect block.
-/

namespace Prosperity.Formats.Ufs2

/-- An image with an accepted superblock. -/
structure Volume where
  file : HostFile
  sb : Superblock
  accepted : parseSuperblock file 0 = some sb

namespace Volume

variable (v : Volume) (din : Dinode)

def bsize : ℕ := v.sb.bsize.toNat

def fsize : ℕ := v.sb.fsize.toNat

/-- An entry of the indirect block at `ptr`. -/
def entry (ptr : UInt64) (idx : ℕ) : Option UInt64 :=
  if ptr = 0 then some 0
  else if 2 ^ 63 ≤ ptr.toNat then none
  else if ptr.toNat * v.fsize + idx * 8 + 8 ≤ v.file.size then
    some (.ofNat (leAt 8 v.file.byte (ptr.toNat * v.fsize + idx * 8)))
  else none

/-- The address in the map, which may be negative. -/
def pointer (lbn : ℕ) : Option UInt64 :=
  let n := v.sb.nindir
  if h : lbn < 12 then some din.db[lbn]
  else if lbn < 12 + n then v.entry (din.ib.getD 0 0) (lbn - 12)
  else if lbn < 12 + n + n ^ 2 then do
    let mid ← v.entry (din.ib.getD 1 0) ((lbn - (12 + n)) / n)
    v.entry mid ((lbn - (12 + n)) % n)
  else if lbn < 12 + n + n ^ 2 + n ^ 3 then do
    let l1 ← v.entry (din.ib.getD 2 0) ((lbn - (12 + n + n ^ 2)) / n ^ 2)
    let l2 ← v.entry l1 ((lbn - (12 + n + n ^ 2)) / n % n)
    v.entry l2 ((lbn - (12 + n + n ^ 2)) % n)
  else none

def blockMap (lbn : ℕ) : Option UInt64 := (v.pointer din lbn).filter fun a => a.toNat < 2 ^ 63

def blockLen (lbn : ℕ) : ℕ := min v.bsize (din.size.toNat - lbn * v.bsize)

def fileByte (k : ℕ) : Option UInt8 :=
  (v.blockMap din (k / v.bsize)).bind fun a =>
    if a = 0 then some 0
    else if a.toNat * v.fsize + k % v.bsize < v.file.size then some (v.file.byte (a.toNat * v.fsize + k % v.bsize))
    else none

/-- The bytes of a range from its start on, all of it where its contents are in the image. -/
structure Slice (off want : ℕ) (r : Reading) : Prop where
  le : r.bytes.length ≤ want
  bytes : ∀ k < r.bytes.length, v.fileByte din (off + k) = some (r.bytes.getD k 0)
  short : r.bytes.length < want → ∃ k, k < want ∧ v.fileByte din (off + k) = none
  ret : r.ret = r.bytes.length ∨ (r.ret = -1 ∧ r.bytes = [] ∧ 0 < want)

/-- What the reader has to do for a file. -/
structure Right : Prop where
  maps : ∀ lbn, lbn * v.bsize < din.size.toNat → ∃ a, v.blockMap din lbn = some a ∧
    (∀ pos, ∃ pos', blockAddr v.file v.sb din lbn pos = .ok (a, pos')) ∧
    (a ≠ 0 → ∀ b n, b + n ≤ v.blockLen din lbn →
      (a * v.sb.fsize.toUInt64 + .ofNat b + .ofNat n).toNat = a.toNat * v.fsize + b + n)
  reads : ∀ (off len : Int64) pos, 0 ≤ off → 0 ≤ len → ∃ r pos', readInode v.file v.sb din off len pos = .ok (r, pos') ∧
    v.Slice din off.toInt.toNat (min len.toInt.toNat (din.size.toNat - off.toInt.toNat)) r
  composes : ∀ (off mid len len' : Int64) pos pos' pos'' r r' r'' q q' q'', 0 ≤ off → 0 ≤ len → 0 ≤ len' →
    mid.toInt = off.toInt + len.toInt → (len + len').toInt = len.toInt + len'.toInt →
    (∀ k, off.toInt.toNat ≤ k → k < off.toInt.toNat + len.toInt.toNat + len'.toInt.toNat → k < din.size.toNat →
      (v.fileByte din k).isSome) →
    readInode v.file v.sb din off len pos = .ok (r, q) → readInode v.file v.sb din mid len' pos' = .ok (r', q') →
    readInode v.file v.sb din off (len + len') pos'' = .ok (r'', q'') → r''.bytes = r.bytes ++ r'.bytes

/-- The map has an address for each block of the file, and the ends of the blocks are numbers of 64 bits. -/
structure Mapped : Prop where
  blocks : ∀ lbn, lbn * v.bsize < din.size.toNat → (v.blockMap din lbn).isSome
  ends : ∀ lbn a, lbn * v.bsize < din.size.toNat → v.blockMap din lbn = some a → a ≠ 0 →
    a.toNat * v.fsize + v.blockLen din lbn < 2 ^ 64

end Volume

/-! ## The superblock -/

theorem readAt_inside {file : HostFile} {off : UInt64} {n pos : ℕ} (h : off.toNat + n ≤ file.size) (hn : 0 < n) :
    readAt file off n pos = (some fun k => file.byte (off.toNat + k), off.toNat + n) := by
  have hfits := file.fits
  have hsum : (off + .ofNat n).toNat = off.toNat + n := by
    rw [UInt64.toNat_add, UInt64.toNat_ofNat']
    omega
  rw [readAt, hsum, if_neg (by omega), HostFile.seekSet_of_lt (by omega)]
  simp only [(HostFile.count_eq_iff hn).mpr h, if_true]

theorem readAt_outside {file : HostFile} {off : UInt64} {n pos : ℕ} (h : file.size < off.toNat + n)
    (hfit : off.toNat + n < 2 ^ 64) : readAt file off n pos = (none, pos) := by
  have hsum : (off + .ofNat n).toNat = off.toNat + n := by
    rw [UInt64.toNat_add, UInt64.toNat_ofNat']
    omega
  rw [readAt, hsum, if_pos h]

theorem bsize_pos (v : Volume) : 0 < v.bsize := by
  have h := v.accepted
  rw [parseSuperblock] at h
  split at h
  · cases h
  · dsimp only at h
    split_ifs at h with hmagic hgeom
    rw [Volume.bsize, ← Option.some.inj h]
    rw [not_or] at hgeom
    exact Nat.pos_of_ne_zero fun h0 => hgeom.1 (UInt32.toNat_inj.mp h0)

/-! ## The map -/

section Map

variable {v : Volume} {din : Dinode} {lbn : ℕ} {a : UInt64}

theorem indirect_of_entry {ptr : UInt64} {idx : ℕ} (h : v.entry ptr idx = some a) (pos : ℕ) :
    ∃ pos', indirect v.file v.sb ptr idx pos = (a, pos') := by
  have hfits := v.file.fits
  rw [Volume.entry] at h
  split_ifs at h with h0 hneg hin
  · cases h
    exact ⟨pos, by rw [indirect, h0]; rfl⟩
  · have hpos : nonpos ptr = false := by
      rw [nonpos, Bool.or_eq_false_iff]
      exact ⟨decide_eq_false h0, decide_eq_false hneg⟩
    have hoff : (ptr * v.sb.fsize.toUInt64 + .ofNat idx * 8).toNat = ptr.toNat * v.fsize + idx * 8 := by
      rw [Volume.fsize] at hin ⊢
      simp only [UInt64.toNat_add, UInt64.toNat_mul, UInt32.toNat_toUInt64, UInt64.toNat_ofNat', UInt64.reduceToNat]
      omega
    rw [indirect, if_neg (by rw [hpos]; exact Bool.false_ne_true), readAt_inside (by rw [hoff]; exact hin) (by omega),
      hoff]
    refine ⟨ptr.toNat * v.fsize + idx * 8 + 8, ?_⟩
    rw [← Option.some.inj h]
    simp only [leAt, Nat.zero_add]

theorem getD_ib (din : Dinode) {i : ℕ} (h : i < 3) : din.ib.getD i 0 = din.ib[i] := by
  simp [Vector.getD, h]

/-- **The reader follows the map.** -/
theorem blockAddr_of_blockMap (h : v.blockMap din lbn = some a) (pos : ℕ) :
    ∃ pos', blockAddr v.file v.sb din lbn pos = .ok (a, pos') := by
  obtain ⟨hptr, -⟩ := Option.filter_eq_some_iff.mp h
  rw [Volume.pointer] at hptr
  have h12 : kNumDirect = 12 := rfl
  simp only [blockAddr]
  by_cases hdirect : lbn < 12
  · rw [dif_pos hdirect, Option.some.injEq] at hptr
    exact ⟨pos, (dif_pos (h12 ▸ hdirect)).trans (congrArg (fun x => Except.ok (x, pos)) hptr)⟩
  rw [dif_neg hdirect] at hptr
  rw [dif_neg (h12 ▸ hdirect)]
  simp only [h12]
  split_ifs at hptr with hone htwo hthree
  · rw [if_pos (by omega)]
    rw [getD_ib din (by decide)] at hptr
    obtain ⟨pos', hind⟩ := indirect_of_entry hptr pos
    exact ⟨pos', by rw [hind]⟩
  · rw [pow_two] at htwo
    obtain ⟨mid, hmid, hlast⟩ := Option.bind_eq_some_iff.mp hptr
    rw [if_neg (by omega), if_pos (by omega)]
    rw [← Nat.sub_sub] at hmid hlast
    rw [getD_ib din (by decide)] at hmid
    obtain ⟨pos₁, h₁⟩ := indirect_of_entry hmid pos
    obtain ⟨pos₂, h₂⟩ := indirect_of_entry hlast pos₁
    exact ⟨pos₂, by rw [h₁]; simp only [h₂]⟩
  · have hn : v.sb.nindir ≠ 0 := fun h0 => by
      rw [h0] at htwo hone hthree
      omega
    obtain ⟨l₁, hl₁, hrest⟩ := Option.bind_eq_some_iff.mp hptr
    obtain ⟨l₂, hl₂, hlast⟩ := Option.bind_eq_some_iff.mp hrest
    rw [pow_two] at htwo hl₁ hl₂ hlast
    rw [if_neg (by omega), if_neg (by omega), if_neg hn]
    rw [← Nat.sub_sub, ← Nat.sub_sub] at hl₁ hl₂ hlast
    rw [getD_ib din (by decide)] at hl₁
    obtain ⟨pos₁, h₁⟩ := indirect_of_entry hl₁ pos
    obtain ⟨pos₂, h₂⟩ := indirect_of_entry hl₂ pos₁
    obtain ⟨pos₃, h₃⟩ := indirect_of_entry hlast pos₂
    exact ⟨pos₃, by rw [h₁]; simp only [h₂, h₃]⟩

theorem toNat_lt_of_blockMap (h : v.blockMap din lbn = some a) : a.toNat < 2 ^ 63 :=
  of_decide_eq_true (Option.filter_eq_some_iff.mp h).2

theorem nonpos_iff_of_blockMap (h : v.blockMap din lbn = some a) : nonpos a = true ↔ a = 0 := by
  have hlt := toNat_lt_of_blockMap h
  rw [nonpos, Bool.or_eq_true, decide_eq_true_iff, decide_eq_true_iff]
  exact or_iff_left (by omega)

theorem fileByte_add (h : v.blockMap din lbn = some a) {b : ℕ} (hb : b < v.bsize) :
    v.fileByte din (lbn * v.bsize + b) = if a = 0 then some 0
      else if a.toNat * v.fsize + b < v.file.size then some (v.file.byte (a.toNat * v.fsize + b)) else none := by
  have hdiv : (lbn * v.bsize + b) / v.bsize = lbn := by
    rw [Nat.mul_comm, Nat.mul_add_div (bsize_pos v), Nat.div_eq_of_lt hb, Nat.add_zero]
  have hmod : (lbn * v.bsize + b) % v.bsize = b := by
    rw [Nat.mul_comm, Nat.mul_add_mod, Nat.mod_eq_of_lt hb]
  rw [Volume.fileByte, hdiv, hmod, h]
  rfl

theorem toNat_offset {b : ℕ} (h : a.toNat * v.fsize + b < 2 ^ 64) :
    (a * v.sb.fsize.toUInt64 + .ofNat b).toNat = a.toNat * v.fsize + b := by
  rw [Volume.fsize] at h ⊢
  simp only [UInt64.toNat_add, UInt64.toNat_mul, UInt32.toNat_toUInt64, UInt64.toNat_ofNat']
  omega

end Map

/-! ## Reading -/

section Reading

variable {v : Volume} {din : Dinode} {off want : ℕ}

structure Volume.Looped (v : Volume) (din : Dinode) (off want : ℕ) (l : Loop) : Prop where
  le : l.bytes.length ≤ want
  bytes : ∀ k < l.bytes.length, v.fileByte din (off + k) = some (l.bytes.getD k 0)
  done : l.failed = false → l.bytes.length = want
  short : l.failed = true → l.bytes.length < want ∧ ∃ k, k < want ∧ v.fileByte din (off + k) = none

theorem Volume.Looped.cons {l : Loop} {bs : List UInt8} {chunk : ℕ} (hlen : bs.length = chunk) (hle : chunk ≤ want)
    (hbs : ∀ k < chunk, v.fileByte din (off + k) = some (bs.getD k 0))
    (h : v.Looped din (off + chunk) (want - chunk) l) :
    v.Looped din off want { l with bytes := bs ++ l.bytes } := by
  have hrest := h.le
  subst hlen
  refine ⟨?_, fun k hk => ?_, fun hdone => ?_, fun hfail => ?_⟩
  · rw [List.length_append]
    omega
  · rw [List.length_append] at hk
    rcases Nat.lt_or_ge k bs.length with hlt | hge
    · rw [hbs k hlt, List.getD_eq_getElem?_getD, List.getD_eq_getElem?_getD, List.getElem?_append_left hlt]
    · have hbyte := h.bytes (k - bs.length) (by omega)
      rw [Nat.add_assoc, Nat.add_sub_cancel' hge] at hbyte
      rw [hbyte, List.getD_eq_getElem?_getD, List.getD_eq_getElem?_getD, List.getElem?_append_right hge]
  · have hdone := h.done hdone
    rw [List.length_append]
    omega
  · obtain ⟨hlt, k, hk, hnone⟩ := h.short hfail
    refine ⟨by rw [List.length_append]; omega, bs.length + k, by omega, ?_⟩
    rw [← Nat.add_assoc]
    exact hnone

theorem readLoop_spec (hm : v.Mapped din) {fuel : ℕ} (hfuel : want ≤ fuel) (hend : off + want ≤ din.size.toNat)
    (pos : ℕ) : ∃ l, readLoop v.file v.sb din fuel off want pos = .ok l ∧ v.Looped din off want l := by
  induction fuel generalizing off want pos with
  | zero =>
    obtain rfl : want = 0 := Nat.le_zero.mp hfuel
    exact ⟨_, rfl, le_rfl, fun _ h => absurd h (Nat.not_lt_zero _), fun _ => rfl, fun h => by cases h⟩
  | succ fuel ih =>
    by_cases h0 : want = 0
    · refine ⟨⟨[], false, pos⟩, by rw [readLoop, if_pos h0], ?_⟩
      subst h0
      exact ⟨le_rfl, fun _ h => absurd h (Nat.not_lt_zero _), fun _ => rfl, fun h => by cases h⟩
    have hbs := bsize_pos v
    have hmod := Nat.mod_lt off hbs
    have hdm := Nat.div_add_mod' off v.bsize
    set lbn := off / v.bsize with hlbn
    set boff := off % v.bsize with hboff
    set chunk := min (v.bsize - boff) want with hchunk
    obtain ⟨a, ha⟩ := Option.isSome_iff_exists.mp (hm.blocks lbn (by omega))
    obtain ⟨pos₁, haddr⟩ := blockAddr_of_blockMap ha pos
    -- the bytes of the chunk, by their place in the block
    have hbyte : ∀ k < chunk, v.fileByte din (off + k) = if a = 0 then some 0
        else if a.toNat * v.fsize + (boff + k) < v.file.size then
          some (v.file.byte (a.toNat * v.fsize + (boff + k))) else none := by
      intro k hk
      rw [← fileByte_add ha (by omega), ← Nat.add_assoc, hdm]
    -- what the turn does with a hole, with a chunk that is read, and with one that is not
    have hhole (hn : nonpos a = true) : readLoop v.file v.sb din (fuel + 1) off want pos = do
        let rest ← readLoop v.file v.sb din fuel (off + chunk) (want - chunk) pos₁
        return { rest with bytes := List.replicate chunk 0 ++ rest.bytes } := by
      rw [readLoop, if_neg h0]
      change (blockAddr v.file v.sb din lbn pos >>= _) = _
      rw [haddr]
      exact if_pos hn
    have hwhole {buf : ℕ → UInt8} {pos₂ : ℕ} (hn : ¬nonpos a = true)
        (hread : readAt v.file (a * v.sb.fsize.toUInt64 + .ofNat boff) chunk pos₁ = (some buf, pos₂)) :
        readLoop v.file v.sb din (fuel + 1) off want pos = do
          let rest ← readLoop v.file v.sb din fuel (off + chunk) (want - chunk) pos₂
          return { rest with bytes := (List.range chunk).map buf ++ rest.bytes } := by
      rw [readLoop, if_neg h0]
      change (blockAddr v.file v.sb din lbn pos >>= _) = _
      rw [haddr]
      refine (if_neg hn).trans ?_
      rw [hchunk, hboff] at hread
      erw [hread]
      rfl
    have hcut {pos₂ : ℕ} (hn : ¬nonpos a = true)
        (hread : readAt v.file (a * v.sb.fsize.toUInt64 + .ofNat boff) chunk pos₁ = (none, pos₂)) :
        readLoop v.file v.sb din (fuel + 1) off want pos = .ok ⟨[], true, pos₂⟩ := by
      rw [readLoop, if_neg h0]
      change (blockAddr v.file v.sb din lbn pos >>= _) = _
      rw [haddr]
      refine (if_neg hn).trans ?_
      rw [hchunk, hboff] at hread
      erw [hread]
      rfl
    by_cases hz : a = 0
    · obtain ⟨rest, hrest, hl⟩ := @ih (off + chunk) (want - chunk) (by omega) (by omega) pos₁
      refine ⟨{ rest with bytes := List.replicate chunk 0 ++ rest.bytes }, ?_,
        hl.cons List.length_replicate (by omega) fun k hk => ?_⟩
      · rw [hhole ((nonpos_iff_of_blockMap ha).mpr hz), hrest]
        rfl
      · rw [hbyte k hk, if_pos hz, List.getD_eq_getElem?_getD, List.getElem?_replicate_of_lt hk]
        rfl
    have hends := hm.ends lbn a (by omega) ha hz
    have hlen : v.blockLen din lbn = min v.bsize (din.size.toNat - lbn * v.bsize) := rfl
    have hoff := toNat_offset (v := v) (a := a) (b := boff) (by omega)
    have hn : ¬nonpos a = true := fun h => hz ((nonpos_iff_of_blockMap ha).mp h)
    by_cases hin : a.toNat * v.fsize + boff + chunk ≤ v.file.size
    · obtain ⟨rest, hrest, hl⟩ := @ih (off + chunk) (want - chunk) (by omega) (by omega)
        (a.toNat * v.fsize + boff + chunk)
      have hread := @readAt_inside v.file _ chunk pos₁ (by rw [hoff]; exact hin) (by omega)
      rw [hoff] at hread
      refine ⟨_, by rw [hwhole hn hread, hrest]; rfl, hl.cons (by rw [List.length_map, List.length_range]) (by omega) fun k hk => ?_⟩
      rw [hbyte k hk, if_neg hz, if_pos (by omega), List.getD_eq_getElem?_getD, List.getElem?_map,
        List.getElem?_range hk, Option.map_some, Option.getD_some, Nat.add_assoc]
    · have hread := @readAt_outside v.file _ chunk pos₁ (by rw [hoff]; omega) (by rw [hoff]; omega)
      refine ⟨⟨[], true, pos₁⟩, hcut hn hread, Nat.zero_le _, fun k hk => absurd hk (Nat.not_lt_zero k), fun h => (by cases h),
        fun _ => ⟨Nat.pos_of_ne_zero h0, chunk - 1, by omega, ?_⟩⟩
      rw [hbyte _ (by omega), if_neg hz, if_neg (by omega)]

theorem readInode_spec (hm : v.Mapped din) {off len : Int64} (hoff : 0 ≤ off) (hlen : 0 ≤ len) (pos : ℕ) :
    ∃ r pos', readInode v.file v.sb din off len pos = .ok (r, pos') ∧
      v.Slice din off.toInt.toNat (min len.toInt.toNat (din.size.toNat - off.toInt.toNat)) r := by
  rw [readInode, if_neg (not_or.mpr ⟨Int64.not_lt.mpr hoff, Int64.not_lt.mpr hlen⟩)]
  split_ifs with hbehind
  · refine ⟨_, _, rfl, Nat.zero_le _, fun k hk => absurd hk (Nat.not_lt_zero k), fun h => ?_, .inl rfl⟩
    rw [Nat.sub_eq_zero_of_le hbehind, Nat.min_zero] at h
    exact absurd h (Nat.not_lt_zero _)
  · set want := min len.toInt.toNat (din.size.toNat - off.toInt.toNat) with hwant
    obtain ⟨l, hl, hread⟩ := @readLoop_spec v din off.toInt.toNat want hm want (le_refl want) (by omega) pos
    by_cases hfail : l.failed = true ∧ l.bytes = []
    · refine ⟨⟨-1, []⟩, l.pos, by simp only [hl, bind, Except.bind, if_pos hfail]; rfl, Nat.zero_le _,
        fun k hk => absurd hk (Nat.not_lt_zero k), fun _ => (hread.short hfail.1).2, .inr ⟨rfl, rfl, ?_⟩⟩
      exact Nat.zero_lt_of_lt (hread.short hfail.1).1
    · refine ⟨⟨l.bytes.length, l.bytes⟩, l.pos, by simp only [hl, bind, Except.bind, if_neg hfail]; rfl, hread.le,
        hread.bytes, fun hlt => ?_, .inl rfl⟩
      cases hf : l.failed with
      | false => exact absurd (hread.done hf) hlt.ne
      | true => exact (hread.short hf).2

theorem Volume.Slice.eq_map {off want : ℕ} {r : Reading} (h : v.Slice din off want r)
    (hall : ∀ k < want, (v.fileByte din (off + k)).isSome) :
    r.bytes = (List.range want).map fun k => (v.fileByte din (off + k)).getD 0 := by
  have hlen : r.bytes.length = want := by
    refine (Nat.lt_or_eq_of_le h.le).resolve_left fun hlt => ?_
    obtain ⟨k, hk, hnone⟩ := h.short hlt
    exact absurd hnone (Option.isSome_iff_ne_none.mp (hall k hk))
  refine List.ext_getElem (by rw [hlen, List.length_map, List.length_range]) fun k hk _ => ?_
  rw [List.getElem_map, List.getElem_range, h.bytes k hk, Option.getD_some, List.getD_eq_getElem?_getD,
    List.getElem?_eq_getElem hk, Option.getD_some]

theorem composes_of_mapped (hm : v.Mapped din) {off mid len len' : Int64} {pos pos' pos'' : ℕ} {r r' r'' : Reading}
    {q q' q'' : ℕ} (hoff : 0 ≤ off) (hlen : 0 ≤ len) (hlen' : 0 ≤ len') (hmid : mid.toInt = off.toInt + len.toInt)
    (hsum : (len + len').toInt = len.toInt + len'.toInt)
    (hall : ∀ k, off.toInt.toNat ≤ k → k < off.toInt.toNat + len.toInt.toNat + len'.toInt.toNat →
      k < din.size.toNat → (v.fileByte din k).isSome) (h : readInode v.file v.sb din off len pos = .ok (r, q))
    (h' : readInode v.file v.sb din mid len' pos' = .ok (r', q'))
    (h'' : readInode v.file v.sb din off (len + len') pos'' = .ok (r'', q'')) : r''.bytes = r.bytes ++ r'.bytes := by
  have hoff₀ : 0 ≤ off.toInt := Int64.le_iff_toInt_le.mp hoff
  have hlen₀ : 0 ≤ len.toInt := Int64.le_iff_toInt_le.mp hlen
  have hlen₀' : 0 ≤ len'.toInt := Int64.le_iff_toInt_le.mp hlen'
  have hslice : ∀ {off len : Int64} {pos r q}, 0 ≤ off → 0 ≤ len → readInode v.file v.sb din off len pos = .ok (r, q) →
      v.Slice din off.toInt.toNat (min len.toInt.toNat (din.size.toNat - off.toInt.toNat)) r := by
    intro off len pos r q hoff hlen hr
    obtain ⟨r₁, q₁, hr₁, hs⟩ := readInode_spec hm hoff hlen pos
    rw [hr] at hr₁
    cases hr₁
    exact hs
  have hmid' : mid.toInt.toNat = off.toInt.toNat + len.toInt.toNat := by
    rw [hmid, Int.toNat_add hoff₀ hlen₀]
  have hsum' : (len + len').toInt.toNat = len.toInt.toNat + len'.toInt.toNat := by
    rw [hsum, Int.toNat_add hlen₀ hlen₀']
  have e := hslice hoff hlen h
  have e' := hslice (Int64.le_iff_toInt_le.mpr (by rw [hmid]; exact Int.add_nonneg hoff₀ hlen₀)) hlen' h'
  have e'' := hslice hoff (Int64.le_iff_toInt_le.mpr (by rw [hsum]; exact Int.add_nonneg hlen₀ hlen₀')) h''
  rw [hmid'] at e'
  rw [hsum'] at e''
  clear hslice h h' h'' hmid hsum hmid' hsum' hoff hlen hlen' hoff₀ hlen₀ hlen₀'
  -- From here on the numbers are natural.
  generalize off.toInt.toNat = start at *
  generalize len.toInt.toNat = n at *
  generalize len'.toInt.toNat = n' at *
  rw [e.eq_map fun k hk => hall _ (by omega) (by omega) (by omega),
    e'.eq_map fun k hk => hall _ (by omega) (by omega) (by omega),
    e''.eq_map fun k hk => hall _ (by omega) (by omega) (by omega)]
  have hwhole : min (n + n') (din.size.toNat - start) =
      min n (din.size.toNat - start) + min n' (din.size.toNat - (start + n)) := by omega
  rw [hwhole, List.range_add, List.map_append, List.map_map]
  congr 1
  refine List.map_congr_left fun k hk => ?_
  rw [List.mem_range] at hk
  have hplace : start + (min n (din.size.toNat - start) + k) = start + n + k := by omega
  rw [Function.comp_apply, hplace]

end Reading

/-- **The reader is right exactly on the files that the map covers.** -/
theorem right_iff_mapped (v : Volume) (din : Dinode) : v.Right din ↔ v.Mapped din := by
  constructor
  · intro hr
    refine ⟨fun lbn hlbn => ?_, fun lbn a hlbn ha hz => ?_⟩
    · obtain ⟨a, ha, -⟩ := hr.maps lbn hlbn
      rw [ha]
      rfl
    · obtain ⟨a', ha', -, hends⟩ := hr.maps lbn hlbn
      obtain rfl : a = a' := Option.some.inj (ha.symm.trans ha')
      have hend := hends hz 0 (v.blockLen din lbn) (by omega)
      rw [Nat.add_zero] at hend
      rw [← hend]
      exact UInt64.toNat_lt _
  · intro hm
    refine ⟨fun lbn hlbn => ?_, fun off len pos hoff hlen => readInode_spec hm hoff hlen pos, ?_⟩
    · obtain ⟨a, ha⟩ := Option.isSome_iff_exists.mp (hm.blocks lbn hlbn)
      refine ⟨a, ha, blockAddr_of_blockMap ha, fun hz b n hbn => ?_⟩
      have hend := hm.ends lbn a hlbn ha hz
      have hn : (UInt64.ofNat n).toNat = n := by
        rw [UInt64.toNat_ofNat']
        omega
      rw [UInt64.toNat_add, toNat_offset (by omega), hn, Nat.mod_eq_of_lt (by omega)]
    · intro off mid len len' pos pos' pos'' r r' r'' q q' q'' hoff hlen hlen' hmid hsum hall h h' h''
      exact composes_of_mapped hm hoff hlen hlen' hmid hsum hall h h' h''

/-! ## Blocks too small for an entry -/

def smallBlocks : Volume where
  file := {
    size := 0x10600
    byte := fun k =>
      if k = 0x10000 + 0x30 then 4
      else if k = 0x10000 + 0x34 then 4
      else if k = 0x10000 + 0xb8 then 1
      else if k = 0x10000 + 0xbc then 1
      else if k = 0x10000 + 0x55c then 0x19
      else if k = 0x10000 + 0x55d then 0x01
      else if k = 0x10000 + 0x55e then 0x54
      else if k = 0x10000 + 0x55f then 0x19
      else 0
    fits := by decide }
  sb := ⟨4, 4, 0, 1, 1⟩
  accepted := by decide +kernel

def thirteenBlocks : Dinode := ⟨52, .replicate 12 0, .replicate 3 0⟩

theorem smallBlocks_not_right : ¬smallBlocks.Right thirteenBlocks := by
  have hfault : readInode smallBlocks.file smallBlocks.sb thirteenBlocks 48 1 0 = .error .divide := by decide +kernel
  intro h
  obtain ⟨r, pos, hr, -⟩ := h.reads 48 1 0 (by decide) (by decide)
  rw [hfault] at hr
  cases hr

end Prosperity.Formats.Ufs2
