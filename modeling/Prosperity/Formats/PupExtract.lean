import Prosperity.Formats.Pup

/-!
# The extraction of a segment

The bytes of a segment are a slice of the package, what one stream inflates to, or the blocks one after another. An
extraction that makes no fault and succeeds gives these bytes. It makes a fault where the tables do not agree.
-/

namespace Prosperity.Formats.Pup

namespace PupReader

variable (p : PupReader)

/-! ## What is right -/

def blockBytes (e : PupEntry) (exts : List BlockExtent) (b : ℕ) : Option (List UInt8) :=
  exts[b]?.bind fun ext =>
    if ext.offset.toNat ≤ stop e exts b then
      (p.slice (e.offset.toNat + ext.offset.toNat) (stop e exts b - ext.offset.toNat)).bind fun raw =>
        if e.ublk b ≤ ext.size.toNat then
          if e.ublk b ≤ raw.length then some (raw.take (e.ublk b)) else none
        else (p.inflate raw (e.ublk b)).map Vector.toList
    else none

def table (e : PupEntry) (idx : ℕ) : Option (List BlockExtent) :=
  (p.tableForData idx).bind fun t =>
    (p.slice t.offset.toNat t.sizeCompressed.toNat).bind fun tbl =>
      if (e.blockCount * 40).toNat ≤ tbl.length then
        some ((List.range e.blockCount.toNat).map (extentAt tbl e.blockCount.toNat))
      else none

/-- The bytes of a segment. -/
def Contents (e : PupEntry) (idx : ℕ) (out : List UInt8) : Prop :=
  if !e.compressed then p.slice e.offset.toNat e.sizeUncompressed.toNat = some out
  else if !e.blocked then
    ∃ raw, p.slice e.offset.toNat e.sizeCompressed.toNat = some raw ∧
      ∃ v, p.inflate raw e.sizeUncompressed.toNat = some v ∧ v.toList = out
  else
    ∃ exts, p.table e idx = some exts ∧ ∃ blocks : List (List UInt8),
        (List.range exts.length).map (p.blockBytes e exts) = blocks.map some ∧ blocks.flatten = out

/-- The extraction makes no fault, and writes the bytes of the segment where it succeeds. -/
def Right (e : PupEntry) (idx : ℕ) (opens : Bool) : Prop :=
  ∃ r, p.extractPS5Segment e idx opens = .ok r ∧
    ∀ out, r = some out → out.length = e.sizeUncompressed.toNat ∧ p.Contents e idx out

/-! ## When it is right -/

/-- A read takes place where it is asked for. -/
def Reach (off n : ℕ) : Prop := n = 0 ∨ off < 2 ^ 63

structure AgreeAt (e : PupEntry) (exts : List BlockExtent) (b : ℕ) (ext : BlockExtent) : Prop where
  ordered : ext.offset.toNat ≤ stop e exts b
  reach : Reach (e.offset.toNat + ext.offset.toNat) (stop e exts b - ext.offset.toNat)
  stored : e.ublk b ≤ ext.size.toNat →
    (p.slice (e.offset.toNat + ext.offset.toNat) (stop e exts b - ext.offset.toNat)).isSome →
      e.ublk b ≤ stop e exts b - ext.offset.toNat

/-- The `n` blocks from `b` on agree, each as long as all before it have bytes. -/
def AgreeFrom (e : PupEntry) (exts : List BlockExtent) (b n : ℕ) : Prop :=
  ∀ c < n, ∀ ext, exts[b + c]? = some ext → (∀ d < c, (p.blockBytes e exts (b + d)).isSome) →
    p.AgreeAt e exts (b + c) ext

def Agree (e : PupEntry) (idx : ℕ) (opens : Bool) : Prop :=
  if !e.compressed || !e.blocked then Reach e.offset.toNat e.sizeCompressed.toNat
  else
    ∀ t, p.tableForData idx = some t → Reach t.offset.toNat t.sizeCompressed.toNat ∧ ∀ exts, p.table e idx = some exts →
        0 < e.sizeUncompressed.toNat ∧ e.sizeUncompressed.toNat + e.blockSize ≤ 2 ^ 64 ∧
          p.AgreeFrom e exts 0 (if opens then exts.length else 1)

/-! ## Reads -/

variable {p} {e : PupEntry} {exts : List BlockExtent} {ext : BlockExtent} {b n off : ℕ} {out : List UInt8}

theorem readAt_eq_ok_iff {r : Option (List UInt8)} : p.readAt off n = .ok r ↔ Reach off n ∧ p.slice off n = r := by
  rw [readAt, Reach]
  split_ifs with h
  · exact ⟨fun h' => (by cases h'), fun h' => absurd h'.1 (by omega)⟩
  · rw [Except.ok.injEq, and_iff_right]
    omega

theorem readAt_of_reach (h : Reach off n) : p.readAt off n = .ok (p.slice off n) := readAt_eq_ok_iff.mpr ⟨h, rfl⟩

theorem length_of_slice {raw : List UInt8} (h : p.slice off n = some raw) : raw.length = n := by
  rw [slice] at h
  split_ifs at h with hn
  rw [← Option.some.inj h, List.length_map, List.length_range]

theorem slice_eq_some_iff {raw : List UInt8} : p.slice off n = some raw ↔
      (n = 0 ∨ off + n ≤ p.file.size) ∧ (List.range n).map (fun k => p.file.byte (off + k)) = raw := by
  rw [slice]
  split_ifs with h
  · rw [and_iff_right h, Option.some.injEq]
  · exact ⟨fun h' => (by cases h'), fun h' => absurd h'.1 h⟩

theorem slice_append {m : ℕ} {xs ys : List UInt8} (hx : p.slice off n = some xs) (hy : p.slice (off + n) m = some ys)
    (hm : m ≠ 0) : p.slice off (n + m) = some (xs ++ ys) := by
  obtain ⟨-, hx⟩ := slice_eq_some_iff.mp hx
  obtain ⟨hend, hy⟩ := slice_eq_some_iff.mp hy
  refine slice_eq_some_iff.mpr ⟨by omega, ?_⟩
  rw [List.range_add, List.map_append, hx, List.map_map, ← hy]
  congr 1
  exact List.map_congr_left fun k _ => congrArg p.file.byte (Nat.add_assoc off n k).symm

/-! ## Segments without blocks -/

theorem copyRest_slice {start : ℕ} (fuel remaining : ℕ) (hreach : remaining = 0 ∨ start + out.length < 2 ^ 63)
    (hout : p.slice start out.length = some out) :
    ∃ r, p.copyRest fuel (start + out.length) remaining out = .ok r ∧ p.slice start r.length = some r := by
  induction fuel generalizing remaining out with
  | zero => exact ⟨out, rfl, hout⟩
  | succ fuel ih =>
    rw [copyRest]
    split_ifs with hrem
    · exact ⟨out, rfl, hout⟩
    · have hlt : start + out.length < 2 ^ 63 := hreach.resolve_left hrem
      dsimp only
      rw [readAt_of_reach (.inr hlt), ok_bind]
      cases hbuf : p.slice (start + out.length) (min remaining (2 ^ 20)) with
      | none => exact ⟨out, rfl, hout⟩
      | some buf =>
        have hlen := length_of_slice hbuf
        have hin := (slice_eq_some_iff.mp hbuf).1
        have happ := slice_append hout hbuf (by omega)
        have hfits := p.file.fits
        have hnext := @ih (out ++ buf) (remaining - min remaining (2 ^ 20))
        rw [List.length_append, hlen, ← Nat.add_assoc] at hnext
        exact hnext (.inr (by omega)) happ

/-! ## Blocks -/

theorem length_of_blockBytes {bytes : List UInt8} (h : p.blockBytes e exts b = some bytes) :
    bytes.length = e.ublk b := by
  obtain ⟨ext, -, h⟩ := Option.bind_eq_some_iff.mp h
  by_cases hord : ext.offset.toNat ≤ stop e exts b
  · rw [if_pos hord] at h
    obtain ⟨raw, -, h⟩ := Option.bind_eq_some_iff.mp h
    split_ifs at h with hstored hlen
    · rw [← Option.some.inj h, List.length_take_of_le hlen]
    · obtain ⟨v, -, rfl⟩ := Option.map_eq_some_iff.mp h
      exact v.length_toList
  · rw [if_neg hord] at h
    cases h

theorem agreeAt_of_block (hext : exts[b]? = some ext) {r : Block} (h : p.block e exts b = .ok r) :
    p.AgreeAt e exts b ext := by
  rw [block, hext] at h
  dsimp only at h
  by_cases hord : stop e exts b < ext.offset.toNat
  · rw [if_pos hord] at h
    cases h
  rw [if_neg hord] at h
  obtain ⟨raw, hraw, h⟩ := bind_eq_ok.mp h
  obtain ⟨hreach, rfl⟩ := readAt_eq_ok_iff.mp hraw
  refine ⟨Nat.le_of_not_lt hord, hreach, fun hstored hsome => ?_⟩
  obtain ⟨raw, hraw⟩ := Option.isSome_iff_exists.mp hsome
  simp only [hraw, if_pos hstored] at h
  split_ifs at h with hshort
  exact length_of_slice hraw ▸ Nat.le_of_not_lt hshort

theorem block_unread (hext : exts[b]? = some ext) (h : p.AgreeAt e exts b ext)
    (hraw : p.slice (e.offset.toNat + ext.offset.toNat) (stop e exts b - ext.offset.toNat) = none) :
    p.block e exts b = .ok .unread := by
  rw [block, hext]
  dsimp only
  rw [if_neg (Nat.not_lt.mpr h.ordered), readAt_of_reach h.reach, hraw, ok_bind]
  rfl

theorem block_stored (hext : exts[b]? = some ext) (h : p.AgreeAt e exts b ext) {raw : List UInt8}
    (hraw : p.slice (e.offset.toNat + ext.offset.toNat) (stop e exts b - ext.offset.toNat) = some raw)
    (hsize : e.ublk b ≤ ext.size.toNat) : p.block e exts b = .ok (.dec (raw.take (e.ublk b))) := by
  have hle := h.stored hsize (hraw ▸ rfl)
  rw [← length_of_slice hraw] at hle
  rw [block, hext]
  dsimp only
  rw [if_neg (Nat.not_lt.mpr h.ordered), readAt_of_reach h.reach, hraw, ok_bind]
  dsimp only
  rw [if_pos hsize, if_neg (Nat.not_lt.mpr hle)]
  rfl

theorem block_inflated (hext : exts[b]? = some ext) (h : p.AgreeAt e exts b ext) {raw : List UInt8}
    (hraw : p.slice (e.offset.toNat + ext.offset.toNat) (stop e exts b - ext.offset.toNat) = some raw)
    (hsize : ¬e.ublk b ≤ ext.size.toNat) :
    p.block e exts b = .ok ((p.inflate raw (e.ublk b)).elim .bad fun dec => .dec dec.toList) := by
  rw [block, hext]
  dsimp only
  rw [if_neg (Nat.not_lt.mpr h.ordered), readAt_of_reach h.reach, hraw, ok_bind]
  dsimp only
  rw [if_neg hsize]
  cases p.inflate raw (e.ublk b) <;> rfl

theorem block_dec (hext : exts[b]? = some ext) (h : p.AgreeAt e exts b ext) {bytes : List UInt8}
    (hb : p.blockBytes e exts b = some bytes) : p.block e exts b = .ok (.dec bytes) := by
  rw [blockBytes, hext, Option.bind_some, if_pos h.ordered] at hb
  obtain ⟨raw, hraw, hb⟩ := Option.bind_eq_some_iff.mp hb
  by_cases hsize : e.ublk b ≤ ext.size.toNat
  · rw [if_pos hsize] at hb
    split_ifs at hb
    rw [block_stored hext h hraw hsize, Option.some.inj hb]
  · rw [if_neg hsize] at hb
    obtain ⟨v, hv, rfl⟩ := Option.map_eq_some_iff.mp hb
    rw [block_inflated hext h hraw hsize, hv]
    rfl

theorem block_not_dec (hext : exts[b]? = some ext) (h : p.AgreeAt e exts b ext) (hb : p.blockBytes e exts b = none) :
    p.block e exts b = .ok .unread ∨ p.block e exts b = .ok .bad := by
  rw [blockBytes, hext, Option.bind_some, if_pos h.ordered] at hb
  cases hraw : p.slice (e.offset.toNat + ext.offset.toNat) (stop e exts b - ext.offset.toNat) with
  | none => exact .inl (block_unread hext h hraw)
  | some raw =>
    rw [hraw, Option.bind_some] at hb
    by_cases hsize : e.ublk b ≤ ext.size.toNat
    · have hle := h.stored hsize (hraw ▸ rfl)
      rw [if_pos hsize, length_of_slice hraw, if_pos hle] at hb
      cases hb
    · rw [if_neg hsize, Option.map_eq_none_iff] at hb
      right
      rw [block_inflated hext h hraw hsize, hb]
      rfl

theorem blockBytes_of_block (hext : exts[b]? = some ext) {bytes : List UInt8}
    (h : p.block e exts b = .ok (.dec bytes)) : p.blockBytes e exts b = some bytes := by
  have hagree := agreeAt_of_block hext h
  cases hb : p.blockBytes e exts b with
  | none => rcases block_not_dec hext hagree hb with h' | h' <;> exact (by rw [h] at h'; cases h')
  | some bytes' =>
    rw [block_dec hext hagree hb] at h
    cases h
    rfl

/-! ## The loop over the blocks -/

theorem agreeFrom_succ_iff (hext : exts[b]? = some ext) : p.AgreeFrom e exts b (n + 1) ↔
      p.AgreeAt e exts b ext ∧ ((p.blockBytes e exts b).isSome → p.AgreeFrom e exts (b + 1) n) := by
  constructor
  · refine fun h => ⟨h 0 n.succ_pos ext hext fun d hd => absurd hd d.not_lt_zero, fun hsome c hc ext' hext' hall => ?_⟩
    rw [Nat.add_assoc, Nat.add_comm 1] at hext' ⊢
    refine h (c + 1) (Nat.succ_lt_succ hc) ext' hext' fun d hd => ?_
    cases d with
    | zero => exact hsome
    | succ d =>
      have := hall d (Nat.lt_of_succ_lt_succ hd)
      rwa [Nat.add_assoc, Nat.add_comm 1] at this
  · rintro ⟨hagree, hrest⟩ c hc ext' hext' hall
    cases c with
    | zero =>
      rw [Nat.add_zero, hext] at hext'
      exact Option.some.inj hext' ▸ hagree
    | succ c =>
      have hsome := hall 0 c.succ_pos
      have hstep := hrest hsome c (Nat.lt_of_succ_lt_succ hc) ext'
      rw [Nat.add_assoc, Nat.add_comm 1] at hstep
      refine hstep hext' fun d hd => ?_
      have := hall (d + 1) (Nat.succ_lt_succ hd)
      rwa [Nat.add_assoc, Nat.add_comm 1]

theorem streamBlocks_ok_iff (hn : b + n ≤ exts.length) :
    (∃ r, p.streamBlocks e exts n b out = .ok r) ↔ p.AgreeFrom e exts b n := by
  induction n generalizing b out with
  | zero => exact ⟨fun _ c hc => absurd hc c.not_lt_zero, fun _ => ⟨_, rfl⟩⟩
  | succ n ih =>
    have hext : exts[b]? = some exts[b] := List.getElem?_eq_getElem (by omega)
    rw [agreeFrom_succ_iff hext, streamBlocks]
    constructor
    · rintro ⟨r, hr⟩
      obtain ⟨blk, hblk, hrest⟩ := bind_eq_ok.mp hr
      have hagree := agreeAt_of_block hext hblk
      refine ⟨hagree, fun hsome => ?_⟩
      obtain ⟨bytes, hbytes⟩ := Option.isSome_iff_exists.mp hsome
      rw [block_dec hext hagree hbytes] at hblk
      cases hblk
      exact (ih (by omega)).mp ⟨r, hrest⟩
    · rintro ⟨hagree, hrest⟩
      cases hbytes : p.blockBytes e exts b with
      | none =>
        rcases block_not_dec hext hagree hbytes with h | h
        · exact ⟨_, by rw [h, ok_bind]; rfl⟩
        · exact ⟨_, by rw [h, ok_bind]; rfl⟩
      | some bytes =>
        rw [block_dec hext hagree hbytes, ok_bind]
        exact (ih (by omega)).mpr (hrest (by rw [hbytes]; rfl))

theorem of_streamBlocks (hn : b + n ≤ exts.length) {r : List UInt8} (h : p.streamBlocks e exts n b out = .ok (some r))
    (hout : out.length = min (b * e.blockSize) e.sizeUncompressed.toNat) : (∃ blocks : List (List UInt8),
      (List.range n).map (fun c => p.blockBytes e exts (b + c)) = blocks.map some ∧ out ++ blocks.flatten = r) ∨
      ∃ c < n, r.length = min ((b + c) * e.blockSize) e.sizeUncompressed.toNat := by
  induction n generalizing b out with
  | zero =>
    cases h
    exact .inl ⟨[], rfl, List.append_nil _⟩
  | succ n ih =>
    have hext : exts[b]? = some exts[b] := List.getElem?_eq_getElem (by omega)
    rw [streamBlocks] at h
    obtain ⟨blk, hblk, hrest⟩ := bind_eq_ok.mp h
    cases blk with
    | unread =>
      cases hrest
      exact .inr ⟨0, n.succ_pos, hout⟩
    | bad => cases hrest
    | dec bytes =>
      have hbytes := blockBytes_of_block hext hblk
      have hlen : (out ++ bytes).length = min ((b + 1) * e.blockSize) e.sizeUncompressed.toNat := by
        -- `b` blocks give the smaller of `b` block sizes and the segment, and so do `b + 1`.
        rw [List.length_append, hout, length_of_blockBytes hbytes, PupEntry.ublk, Nat.succ_mul]
        omega
      rcases ih (by omega) hrest hlen with ⟨blocks, hblocks, hr⟩ | ⟨c, hc, hr⟩
      · refine .inl ⟨bytes :: blocks, ?_, ?_⟩
        · rw [List.range_succ_eq_map, List.map_cons, List.map_map, List.map_cons, ← hblocks, Nat.add_zero, hbytes]
          congr 1
          exact List.map_congr_left fun c _ => by rw [Function.comp_apply, Nat.succ_eq_add_one, Nat.add_right_comm,
            Nat.add_assoc]
        · rw [List.flatten_cons, ← List.append_assoc, hr]
      · refine .inr ⟨c + 1, Nat.succ_lt_succ hc, ?_⟩
        rw [hr, Nat.add_assoc, Nat.add_comm 1]

/-! ## The count of the blocks -/

theorem two_pow_le_blockSize (e : PupEntry) : 2 ^ 12 ≤ e.blockSize := Nat.pow_le_pow_right Nat.two_pos (by omega)

theorem blockSize_le (e : PupEntry) : e.blockSize ≤ 2 ^ 27 := Nat.pow_le_pow_right Nat.two_pos (by omega)

theorem toNat_blockCount (e : PupEntry) :
    e.blockCount.toNat = (e.sizeUncompressed.toNat + e.blockSize - 1) % 2 ^ 64 / e.blockSize := by
  have hle := blockSize_le e
  have hge := two_pow_le_blockSize e
  have hs := e.sizeUncompressed.toNat_lt
  rw [PupEntry.blockCount, UInt64.toNat_div, UInt64.toNat_sub, UInt64.toNat_add, UInt64.toNat_ofNat',
    Nat.mod_eq_of_lt (by omega : e.blockSize < 2 ^ 64)]
  apply congrArg (· / e.blockSize)
  have hone : (1 : UInt64).toNat = 1 := rfl
  omega

theorem toNat_blockCount_mul (e : PupEntry) : (e.blockCount * 40).toNat = e.blockCount.toNat * 40 := by
  have hdiv : e.blockCount.toNat ≤ 2 ^ 64 / 2 ^ 12 := by
    rw [toNat_blockCount]
    exact (Nat.div_le_div_left (two_pow_le_blockSize e) (by decide)).trans
      (Nat.div_le_div_right (Nat.mod_lt _ (by decide)).le)
  have hforty : (40 : UInt64).toNat = 40 := rfl
  rw [UInt64.toNat_mul, hforty]
  exact Nat.mod_eq_of_lt (by omega)

theorem blockCount_pos_iff :
    0 < e.blockCount.toNat ↔ 0 < e.sizeUncompressed.toNat ∧ e.sizeUncompressed.toNat + e.blockSize ≤ 2 ^ 64 := by
  have hle := blockSize_le e
  have hge := two_pow_le_blockSize e
  have hs := e.sizeUncompressed.toNat_lt
  rw [toNat_blockCount, Nat.div_pos_iff]
  omega

theorem mul_blockSize_lt (hb : b < e.blockCount.toNat) : b * e.blockSize < e.sizeUncompressed.toNat := by
  obtain ⟨hpos, hwrap⟩ := blockCount_pos_iff.mp (b.zero_le.trans_lt hb)
  have hge := two_pow_le_blockSize e
  rw [toNat_blockCount, Nat.mod_eq_of_lt (by omega), ← Nat.succ_le_iff, Nat.le_div_iff_mul_le (by omega),
    Nat.succ_mul] at hb
  omega

/-! ## Segments -/

theorem reach_min_iff {m k : ℕ} (hk : 0 < k) : Reach off (min m k) ↔ Reach off m := by
  rw [Reach, Reach]
  omega

theorem extractPlain_iff {opens : Bool} : (∃ r, p.extractPlain e opens = .ok r ∧
      ∀ out, r = some out → out.length = e.sizeUncompressed.toNat ∧
        p.slice e.offset.toNat e.sizeUncompressed.toNat = some out) ↔
      Reach e.offset.toNat e.sizeCompressed.toNat := by
  rw [extractPlain, ← @reach_min_iff _ _ 0x1000 (by decide)]
  constructor
  · rintro ⟨r, hr, -⟩
    obtain ⟨_, hread, -⟩ := bind_eq_ok.mp hr
    exact (readAt_eq_ok_iff.mp hread).1
  · intro hreach
    rw [readAt_of_reach hreach, ok_bind]
    cases hfirst : p.slice e.offset.toNat (min e.sizeCompressed.toNat 0x1000) with
    | none => exact ⟨none, rfl, fun _ h => (by cases h)⟩
    | some first =>
      have hlen := length_of_slice hfirst
      have hin := (slice_eq_some_iff.mp hfirst).1
      have hfits := p.file.fits
      cases opens with
      | false => exact ⟨none, rfl, fun _ h => (by cases h)⟩
      | true =>
        obtain ⟨out, hout, hslice⟩ := copyRest_slice (e.sizeCompressed.toNat - first.length)
          (e.sizeCompressed.toNat - first.length) (by omega) (hlen ▸ hfirst)
        refine ⟨if out.length = e.sizeUncompressed.toNat then some out else none, ?_, ?_⟩
        · dsimp only
          rw [hout]
          rfl
        · intro out' h
          split_ifs at h with hsize
          cases h
          exact ⟨hsize, hsize ▸ hslice⟩

theorem extractWhole_iff {opens : Bool} : (∃ r, p.extractWhole e opens = .ok r ∧
      ∀ out, r = some out → out.length = e.sizeUncompressed.toNat ∧
        ∃ raw, p.slice e.offset.toNat e.sizeCompressed.toNat = some raw ∧
          ∃ v, p.inflate raw e.sizeUncompressed.toNat = some v ∧ v.toList = out) ↔
      Reach e.offset.toNat e.sizeCompressed.toNat := by
  rw [extractWhole]
  constructor
  · rintro ⟨r, hr, -⟩
    obtain ⟨_, hread, -⟩ := bind_eq_ok.mp hr
    exact (readAt_eq_ok_iff.mp hread).1
  · intro hreach
    rw [readAt_of_reach hreach, ok_bind]
    cases hraw : p.slice e.offset.toNat e.sizeCompressed.toNat with
    | none => exact ⟨none, rfl, fun _ h => (by cases h)⟩
    | some raw =>
      dsimp only
      cases hv : p.inflate raw e.sizeUncompressed.toNat with
      | none => exact ⟨none, rfl, fun _ h => (by cases h)⟩
      | some v =>
        refine ⟨if opens then some v.toList else none, rfl, fun out h => ?_⟩
        split_ifs at h
        cases h
        exact ⟨v.length_toList, raw, rfl, v, hv, rfl⟩

theorem writeBlocks_ok_iff {opens : Bool} : (∃ r, p.writeBlocks e exts opens = .ok r) ↔
      0 < exts.length ∧ p.AgreeFrom e exts 0 (if opens then exts.length else 1) := by
  rw [writeBlocks]
  by_cases hpos : 0 < exts.length
  swap
  · have hnone : exts[0]? = none := List.getElem?_eq_none (Nat.le_of_not_lt hpos)
    refine ⟨fun ⟨r, hr⟩ => ?_, fun h => absurd h.1 hpos⟩
    rw [block, hnone] at hr
    cases hr
  have hext : exts[0]? = some exts[0] := List.getElem?_eq_getElem hpos
  have hsplit : (if opens then exts.length else 1) = (if opens then exts.length - 1 else 0) + 1 := by
    split_ifs <;> omega
  rw [and_iff_right hpos, hsplit, agreeFrom_succ_iff hext]
  constructor
  · rintro ⟨r, hr⟩
    obtain ⟨blk, hblk, hrest⟩ := bind_eq_ok.mp hr
    have hagree := agreeAt_of_block hext hblk
    refine ⟨hagree, fun hsome => ?_⟩
    obtain ⟨bytes, hbytes⟩ := Option.isSome_iff_exists.mp hsome
    rw [block_dec hext hagree hbytes] at hblk
    cases hblk
    cases opens with
    | false => exact fun c hc => absurd hc c.not_lt_zero
    | true =>
      obtain ⟨r', hr', -⟩ := bind_eq_ok.mp hrest
      exact (streamBlocks_ok_iff (by rw [if_pos rfl]; omega)).mp ⟨r', hr'⟩
  · rintro ⟨hagree, hrest⟩
    cases hbytes : p.blockBytes e exts 0 with
    | none =>
      rcases block_not_dec hext hagree hbytes with h | h
      · exact ⟨_, by rw [h, ok_bind]; rfl⟩
      · exact ⟨_, by rw [h, ok_bind]; rfl⟩
    | some bytes =>
      rw [block_dec hext hagree hbytes, ok_bind]
      cases opens with
      | false => exact ⟨_, rfl⟩
      | true =>
        have hfrom := hrest (by rw [hbytes]; rfl)
        obtain ⟨r', hr'⟩ := (streamBlocks_ok_iff (by rw [if_pos rfl]; omega)).mpr hfrom
        simp only [if_pos] at hr'
        dsimp only
        rw [hr']
        cases r' with
        | none => exact ⟨_, rfl⟩
        | some out => exact ⟨_, rfl⟩

theorem of_writeBlocks {opens : Bool} (hlen : exts.length = e.blockCount.toNat)
    (h : p.writeBlocks e exts opens = .ok (some out)) :
    out.length = e.sizeUncompressed.toNat ∧ ∃ blocks : List (List UInt8),
        (List.range exts.length).map (p.blockBytes e exts) = blocks.map some ∧ blocks.flatten = out := by
  obtain ⟨blk, hblk, h⟩ := bind_eq_ok.mp h
  cases blk with
  | unread => cases h
  | bad => cases h
  | dec first =>
    have hpos : 0 < exts.length := by
      by_contra hnot
      rw [block, List.getElem?_eq_none (Nat.le_of_not_lt hnot)] at hblk
      cases hblk
    have hfirst := blockBytes_of_block (List.getElem?_eq_getElem hpos) hblk
    cases opens with
    | false => cases h
    | true =>
      obtain ⟨r, hr, h⟩ := bind_eq_ok.mp h
      cases r with
      | none => cases h
      | some r =>
        have hr' := pure_eq_ok.mp h
        split_ifs at hr' with hsize
        obtain rfl := Option.some.inj hr'
        refine ⟨hsize, ?_⟩
        have hlen1 : first.length = min (1 * e.blockSize) e.sizeUncompressed.toNat := by
          rw [length_of_blockBytes hfirst, PupEntry.ublk, Nat.zero_mul, Nat.one_mul, Nat.sub_zero]
        rcases of_streamBlocks (by omega) hr hlen1 with ⟨blocks, hblocks, hout⟩ | ⟨c, hc, hout⟩
        · refine ⟨first :: blocks, ?_, hout⟩
          obtain ⟨n, hn⟩ := Nat.exists_eq_succ_of_ne_zero hpos.ne'
          rw [hn] at hblocks ⊢
          rw [List.range_succ_eq_map, List.map_cons, List.map_map, List.map_cons, ← hblocks, hfirst]
          congr 1
          exact List.map_congr_left fun c _ => congrArg _ (Nat.add_comm c 1)
        · -- A loop that stops early has not written the whole segment.
          have hlt := mul_blockSize_lt (e := e) (b := 1 + c) (by omega)
          omega

theorem extractBlocked_iff {idx : ℕ} {opens : Bool} : (∃ r, p.extractBlocked e idx opens = .ok r ∧
      ∀ out, r = some out → out.length = e.sizeUncompressed.toNat ∧ ∃ exts, p.table e idx = some exts ∧
          ∃ blocks : List (List UInt8),
            (List.range exts.length).map (p.blockBytes e exts) = blocks.map some ∧ blocks.flatten = out) ↔
      ∀ t, p.tableForData idx = some t → Reach t.offset.toNat t.sizeCompressed.toNat ∧
        ∀ exts, p.table e idx = some exts →
          0 < e.sizeUncompressed.toNat ∧ e.sizeUncompressed.toNat + e.blockSize ≤ 2 ^ 64 ∧
            p.AgreeFrom e exts 0 (if opens then exts.length else 1) := by
  rw [extractBlocked, table]
  cases ht : p.tableForData idx with
  | none => exact ⟨fun _ t h => (by cases h), fun _ => ⟨none, rfl, fun _ h => (by cases h)⟩⟩
  | some t =>
    simp only [Option.some.injEq, forall_eq', Option.bind_some]
    by_cases hreach : Reach t.offset.toNat t.sizeCompressed.toNat
    swap
    · refine ⟨fun ⟨r, hr, _⟩ => ?_, fun h => absurd h.1 hreach⟩
      obtain ⟨_, hread, -⟩ := bind_eq_ok.mp hr
      exact absurd (readAt_eq_ok_iff.mp hread).1 hreach
    rw [and_iff_right hreach, readAt_of_reach hreach, ok_bind]
    cases htbl : p.slice t.offset.toNat t.sizeCompressed.toNat with
    | none => exact ⟨fun _ exts h => (by cases h), fun _ => ⟨none, rfl, fun _ h => (by cases h)⟩⟩
    | some tbl =>
      simp only [Option.bind_some]
      by_cases hlong : (e.blockCount * 40).toNat ≤ tbl.length
      swap
      · rw [if_pos (Nat.lt_of_not_le hlong), if_neg hlong]
        exact ⟨fun _ exts h => (by cases h), fun _ => ⟨none, rfl, fun _ h => (by cases h)⟩⟩
      have hext : extents tbl e.blockCount.toNat =
          .ok ((List.range e.blockCount.toNat).map (extentAt tbl e.blockCount.toNat)) := by
        rw [toNat_blockCount_mul] at hlong
        exact if_neg (by omega)
      rw [if_neg (Nat.not_lt.mpr hlong), if_pos hlong, hext, ok_bind]
      have hlen : ((List.range e.blockCount.toNat).map (extentAt tbl e.blockCount.toNat)).length =
          e.blockCount.toNat := by
        rw [List.length_map, List.length_range]
      simp only [Option.some.injEq, forall_eq', exists_eq_left']
      generalize (List.range e.blockCount.toNat).map (extentAt tbl e.blockCount.toNat) = exts at hlen ⊢
      rw [← and_assoc, ← blockCount_pos_iff, ← hlen, ← writeBlocks_ok_iff]
      exact ⟨fun ⟨r, hr, _⟩ => ⟨r, hr⟩, fun ⟨r, hr⟩ => ⟨r, hr, fun out h => of_writeBlocks hlen (h ▸ hr)⟩⟩

end PupReader

def emptySegment : HostFile where
  size := 96
  byte := fun k => (([0x54, 0x14, 0xF5, 0xEE] ++ List.replicate 20 0 ++ [2] ++ List.replicate 7 0 ++ [0x08, 0x08] ++
    List.replicate 30 0 ++ [0x01] : List UInt8).getD k 0)
  fits := by decide

end Prosperity.Formats.Pup
