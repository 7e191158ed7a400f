import Prosperity.Formats.PkgSources

/-!
# Reads are slices

A source stands for an image, whose bytes are defined where all that they are decoded from is: the whole sector, or
the whole block of the table. A read that makes no fault gives the image wherever it is defined.
-/

namespace Prosperity.Formats.PkgSources

open BlockReads

def IsSlice (image : ℕ → UInt8 → Prop) (off : ℕ) (bytes : List UInt8) : Prop :=
  ∀ k v, bytes[k]? = some v → image (off + k) v

/-- A place of the table. -/
def Pfsc.entry (p : Pfsc) (i : ℕ) : ℕ := (p.map.getD i 0).toNat

def IsBlock (z : Zlib) (bs : ℕ) (stored block : List UInt8) : Prop :=
  if stored.length = bs then block = stored else ∃ out, z.inflate stored bs = some out ∧ block = out.toList

theorem IsSlice.eq_of {image : ℕ → UInt8 → Prop} {off : ℕ} {bytes bytes' : List UInt8} (hs : IsSlice image off bytes')
    (hlen : bytes.length = bytes'.length)
    (hget : ∀ k < bytes'.length, ∀ v, image (off + k) v → bytes[k]? = some v) : bytes = bytes' := by
  apply List.ext_getElem?
  intro k
  by_cases hk : k < bytes'.length
  · have hk' : bytes'[k]? = some bytes'[k] := List.getElem?_eq_getElem hk
    rw [hk']
    exact hget k hk _ (hs k _ hk')
  · rw [List.getElem?_eq_none (by omega), List.getElem?_eq_none (by omega)]

namespace Source

variable (file : HostFile) (z : Zlib)

def Decodes : Source → ℕ → UInt8 → Prop
  | raw base, k, v => v = rawByte file (base.toNat + k)
  | sub inner o, k, v => Decodes inner (o.toNat + k) v
  | xts inner decrypt skip, k, v =>
    if skip.toNat ≤ k / 0x1000 then
      ∃ sector, sector.length = 0x1000 ∧ IsSlice (Decodes inner) (k / 0x1000 * 0x1000) sector ∧
        v = decrypt (.ofNat (k / 0x1000)) sector (k % 0x1000)
    else Decodes inner k v
  | pfsc inner p, k, v =>
    if p.n ≤ k / p.bs.toNat then v = 0
    else
      ∃ stored block, IsSlice (Decodes inner) (p.entry (k / p.bs.toNat)) stored ∧
        p.entry (k / p.bs.toNat) + stored.length = p.entry (k / p.bs.toNat + 1) ∧
          IsBlock z p.bs.toNat stored block ∧ block[k % p.bs.toNat]? = some v

def Defined (src : Source) (off len : ℕ) : Prop := ∀ k < len, ∃ v, src.Decodes file z (off + k) v

/-- A read gives the slice of the image. -/
def Right (src : Source) (off len : ℕ) : Prop :=
  ∃ bytes, src.read file z off len = .ok bytes ∧ bytes.length = len ∧ IsSlice (src.Decodes file z) off bytes

/-- A read makes no fault: no sum on its way is too large, no block size is zero, and the places of the table that it
comes to are in order. -/
def Clean : Source → ℕ → ℕ → Prop
  | raw base, off, len => len = 0 ∨ base.toNat + off < 2 ^ 63
  | sub inner o, off, len => len = 0 ∨ o.toNat + off < 2 ^ 64 ∧ Clean inner (o.toNat + off) len
  | xts inner _ _, off, len =>
    len = 0 ∨ off + len < 2 ^ 64 ∧ ∀ i, Touches 0x1000 off len i → Clean inner (i * 0x1000) 0x1000
  | pfsc inner p, off, len =>
    len = 0 ∨ p.bs ≠ 0 ∧ off / p.bs.toNat + 1 < 2 ^ 64 ∧ ∀ i, Touches p.bs.toNat off len i → i < p.n →
      p.entry i ≤ p.entry (i + 1) ∧ Clean inner (p.entry i) (p.entry (i + 1) - p.entry i)

def OpensRight (inner : Source) : Prop :=
  ∃ p, inner.openPfsc file z = .ok p ∧ ∃ h, h.length = 0x30 ∧ IsSlice (inner.Decodes file z) 0 h ∧
    p.bs = rd64 h 0x10 ∧ (p.bs ≠ 0 → p.n = (rd64 h 0x28 / p.bs).toNat ∧
      ∃ raw, raw.length = (p.n + 1) * 8 ∧ IsSlice (inner.Decodes file z) (rd64 h 0x18).toNat raw ∧
        p.map = (List.range (p.n + 1)).map fun i => rd64 raw (i * 8))

/-- The header is read without a fault, and where it has a block size, the table is not too long and read as well. -/
def CleanOpen (inner : Source) : Prop :=
  Clean inner 0 0x30 ∧ ∃ h, h.length = 0x30 ∧ IsSlice (inner.Decodes file z) 0 h ∧
    (rd64 h 0x10 ≠ 0 → ((rd64 h 0x28 / rd64 h 0x10).toNat + 1) * 8 < 2 ^ 64 ∧
      Clean inner (rd64 h 0x18).toNat (((rd64 h 0x28 / rd64 h 0x10).toNat + 1) * 8) ∧
        inner.Defined file z (rd64 h 0x18).toNat (((rd64 h 0x28 / rd64 h 0x10).toNat + 1) * 8))

def nodeTake (n : Node) (off len : Int64) : ℕ := min len.toInt.toNat (n.size.toNat - off.toInt.toNat)

def nodeOff (innerBs : UInt32) (n : Node) (off : Int64) : ℕ :=
  n.startBlock.toNat * innerBs.toNat + off.toInt.toNat

/-- A read of a file is refused for a negative range, else it gives the slice up to the end of the file. -/
def NodeRight (inner : Source) (innerBs : UInt32) (n : Node) (off len : Int64) : Prop :=
  ∃ r, inner.readNode file z innerBs n off len = .ok r ∧ if off < 0 ∨ len < 0 then r.1 = -1
    else
      r.1 = nodeTake n off len ∧ r.2.length = nodeTake n off len ∧
        IsSlice (inner.Decodes file z) (nodeOff innerBs n off) r.2

def NodeClean (inner : Source) (innerBs : UInt32) (n : Node) (off len : Int64) : Prop :=
  0 ≤ off → 0 ≤ len → 0 < nodeTake n off len →
    nodeOff innerBs n off < 2 ^ 64 ∧ Clean inner (nodeOff innerBs n off) (nodeTake n off len) ∧
      inner.Defined file z (nodeOff innerBs n off) (nodeTake n off len)

variable {file : HostFile} {z : Zlib} {bytes : List UInt8} {off len : ℕ}

/-! ## Blocks -/

theorem mul_add_div {B i j : ℕ} (hj : j < B) : (i * B + j) / B = i := by
  rw [Nat.mul_comm, Nat.mul_add_div (by omega), Nat.div_eq_of_lt hj, Nat.add_zero]

theorem mul_add_mod {B i j : ℕ} (hj : j < B) : (i * B + j) % B = j := by
  rw [Nat.mul_comm, Nat.mul_add_mod, Nat.mod_eq_of_lt hj]

section Fetches

variable {below : ℕ → ℕ → Except Fault (List UInt8)} {decrypt : UInt64 → List UInt8 → ℕ → UInt8} {skip : UInt32}
  {p : Pfsc} {i : ℕ}

theorem fetchSector_eq_ok_iff {u : Unit} {r : Option (List UInt8 × Unit)} : fetchSector below decrypt skip i u = .ok r ↔
      ∃ sector, below (i * 0x1000) 0x1000 = .ok sector ∧
        some (if skip.toNat ≤ i then (List.range 0x1000).map (decrypt (.ofNat i) sector) else sector, ()) = r := by
  rw [fetchSector, bind_eq_ok]
  exact exists_congr fun _ => and_congr_right fun _ => pure_eq_ok

theorem getElem?_map (hbs : p.bs ≠ 0) (hi : i ≤ p.n) : ∃ a, p.map[i]? = some a ∧ a.toNat = p.entry i := by
  have hlen := (p.fits hbs).1
  refine ⟨p.map[i], List.getElem?_eq_getElem (by omega), ?_⟩
  rw [Pfsc.entry, List.getD_eq_getElem?_getD, List.getElem?_eq_getElem (by omega), Option.getD_some]

theorem fetchBlock_eq_ok_iff (hbs : p.bs ≠ 0) {block : List UInt8} {r : Option (List UInt8 × List UInt8)} :
    fetchBlock z below p i block = .ok r ↔ i + 1 < 2 ^ 64 ∧ ((p.n ≤ i ∧ r = none) ∨
        (i < p.n ∧ p.entry i ≤ p.entry (i + 1) ∧ ∃ comp, below (p.entry i) (p.entry (i + 1) - p.entry i) = .ok comp ∧
            r = some (unpack z p.bs.toNat comp block, unpack z p.bs.toNat comp block))) := by
  rw [fetchBlock]
  by_cases hwrap : 2 ^ 64 ≤ i + 1
  · rw [if_pos hwrap]
    exact ⟨fun h => (by cases h), fun h => absurd h.1 (Nat.not_lt.mpr hwrap)⟩
  rw [if_neg hwrap, and_iff_right (Nat.lt_of_not_le hwrap)]
  by_cases hend : p.n < i + 1
  · rw [if_pos hend, Except.ok.injEq]
    constructor
    · rintro rfl
      exact .inl ⟨by omega, rfl⟩
    · rintro (⟨-, rfl⟩ | ⟨hlt, -⟩)
      · rfl
      · omega
  obtain ⟨a, ha, haentry⟩ := getElem?_map (i := i) hbs (by omega)
  obtain ⟨b, hb, hbentry⟩ := getElem?_map (i := i + 1) hbs (by omega)
  rw [if_neg hend, ha, hb, ← haentry, ← hbentry]
  dsimp only
  by_cases hord : b < a
  · rw [if_pos hord]
    refine ⟨fun h => (by cases h), ?_⟩
    rintro (⟨hle, -⟩ | ⟨-, hle, -⟩)
    · omega
    · exact absurd (UInt64.lt_iff_toNat_lt.mp hord) (Nat.not_lt.mpr hle)
  · have hle : a.toNat ≤ b.toNat := Nat.le_of_not_lt fun h => hord (UInt64.lt_iff_toNat_lt.mpr h)
    rw [if_neg hord, bind_eq_ok]
    constructor
    · rintro ⟨comp, hcomp, hr⟩
      exact .inr ⟨by omega, hle, comp, hcomp, (pure_eq_ok.mp hr).symm⟩
    · rintro (⟨hle', -⟩ | ⟨-, -, comp, hcomp, rfl⟩)
      · omega
      · exact ⟨comp, hcomp, pure_eq_ok.mpr rfl⟩

theorem length_unpack {bs : ℕ} {comp block : List UInt8} : (unpack z bs comp block).length = bs := by
  rw [unpack]
  split_ifs with h
  · exact h
  · cases z.inflate comp bs with
    | some out => exact out.length_toList
    | none => exact (List.length_map _).trans List.length_range

theorem unpack_of_isBlock {bs : ℕ} {comp block out : List UInt8} (h : IsBlock z bs comp out) :
    unpack z bs comp block = out := by
  rw [IsBlock] at h
  rw [unpack]
  split_ifs at h ⊢ with hlen
  · exact h.symm
  · obtain ⟨v, hv, rfl⟩ := h
    rw [hv]

theorem length_of_fetchSector (hlen : ∀ off len bytes, below off len = .ok bytes → bytes.length = len) {u u' : Unit}
    {blk : List UInt8} (h : fetchSector below decrypt skip i u = .ok (some (blk, u'))) : blk.length = 0x1000 := by
  obtain ⟨sector, hsector, hblk⟩ := fetchSector_eq_ok_iff.mp h
  cases hblk
  split_ifs
  · exact (List.length_map _).trans List.length_range
  · exact hlen _ _ _ hsector

theorem length_of_fetchBlock (hbs : p.bs ≠ 0) {block block' blk : List UInt8}
    (h : fetchBlock z below p i block = .ok (some (blk, block'))) : blk.length = p.bs.toNat := by
  rcases ((fetchBlock_eq_ok_iff hbs).mp h).2 with ⟨-, hnone⟩ | ⟨-, -, comp, -, hblk⟩
  · cases hnone
  · cases hblk
    exact length_unpack

theorem fetchSector_ok_iff {u : Unit} :
    (∃ r, fetchSector below decrypt skip i u = .ok r) ↔ ∃ sector, below (i * 0x1000) 0x1000 = .ok sector := by
  constructor
  · rintro ⟨r, hr⟩
    obtain ⟨sector, hsector, -⟩ := fetchSector_eq_ok_iff.mp hr
    exact ⟨sector, hsector⟩
  · rintro ⟨sector, hsector⟩
    exact ⟨_, fetchSector_eq_ok_iff.mpr ⟨sector, hsector, rfl⟩⟩

theorem fetchSector_ne_none {u : Unit} {r : Option (List UInt8 × Unit)}
    (h : fetchSector below decrypt skip i u = .ok r) : r ≠ none := by
  obtain ⟨sector, -, rfl⟩ := fetchSector_eq_ok_iff.mp h
  exact Option.some_ne_none _

theorem fetchBlock_ok_iff (hbs : p.bs ≠ 0) {block : List UInt8} :
    (∃ r, fetchBlock z below p i block = .ok r) ↔ i + 1 < 2 ^ 64 ∧
      (i < p.n → p.entry i ≤ p.entry (i + 1) ∧ ∃ comp, below (p.entry i) (p.entry (i + 1) - p.entry i) = .ok comp) := by
  constructor
  · rintro ⟨r, hr⟩
    obtain ⟨hlt, hcase⟩ := (fetchBlock_eq_ok_iff hbs).mp hr
    refine ⟨hlt, fun hin => ?_⟩
    rcases hcase with ⟨hle, -⟩ | ⟨-, hord, comp, hcomp, -⟩
    · exact absurd hin (Nat.not_lt.mpr hle)
    · exact ⟨hord, comp, hcomp⟩
  · rintro ⟨hlt, hin⟩
    by_cases hi : i < p.n
    · obtain ⟨hord, comp, hcomp⟩ := hin hi
      exact ⟨_, (fetchBlock_eq_ok_iff hbs).mpr ⟨hlt, .inr ⟨hi, hord, comp, hcomp, rfl⟩⟩⟩
    · exact ⟨none, (fetchBlock_eq_ok_iff hbs).mpr ⟨hlt, .inl ⟨Nat.le_of_not_lt hi, rfl⟩⟩⟩

theorem fetchBlock_eq_none_iff (hbs : p.bs ≠ 0) {block : List UInt8} {r : Option (List UInt8 × List UInt8)}
    (h : fetchBlock z below p i block = .ok r) : r = none ↔ p.n ≤ i := by
  rcases ((fetchBlock_eq_ok_iff hbs).mp h).2 with ⟨hle, rfl⟩ | ⟨hlt, -, comp, -, rfl⟩
  · exact ⟨fun _ => hle, fun _ => rfl⟩
  · exact ⟨fun hnone => (by cases hnone), fun hle => absurd hlt (Nat.not_lt.mpr hle)⟩

end Fetches

/-! ## Reads -/

theorem read_zero (src : Source) (off : ℕ) : src.read file z off 0 = .ok [] := by
  induction src generalizing off with
  | raw base => rw [read, if_neg (by simp), List.range_zero, List.map_nil]
  | sub inner o ih => rw [read, if_neg (by simp), ih]
  | xts inner decrypt skip ih | pfsc inner p ih =>
    rw [read, if_neg (by simp)]
    rfl

theorem length_of_read {src : Source} (h : src.read file z off len = .ok bytes) : bytes.length = len := by
  by_cases hlen : len = 0
  · rw [hlen, read_zero] at h
    cases h
    exact hlen.symm
  induction src generalizing off len bytes with
  | raw base =>
    rw [read] at h
    split_ifs at h
    rw [← Except.ok.inj h, List.length_map, List.length_range]
  | sub inner o ih =>
    rw [read] at h
    split_ifs at h
    exact ih h hlen
  | xts inner decrypt skip ih =>
    rw [read] at h
    split_ifs at h
    refine length_of_readBlocks (by decide) (fun i _ blk _ hr => length_of_fetchSector (fun o n bs hread => ?_) hr)
      len off len () le_rfl h
    by_cases hn : n = 0
    · rw [hn, read_zero] at hread
      cases hread
      exact hn.symm
    · exact ih hread hn
  | pfsc inner p ih =>
    rw [read] at h
    by_cases hbs : p.bs = 0
    · rw [if_pos ⟨hlen, hbs⟩] at h
      cases h
    rw [if_neg fun hand => hbs hand.2] at h
    have hpos : 0 < p.bs.toNat := Nat.pos_of_ne_zero fun h0 => hbs (UInt64.toNat_inj.mp h0)
    exact length_of_readBlocks hpos (fun i _ blk _ hr => length_of_fetchBlock hbs hr) len off len _ le_rfl h

theorem touched_blocks_iff {p : Pfsc} (hbs : p.bs ≠ 0) (hlen : len ≠ 0) {P : ℕ → Prop} :
    (∀ i, Touches p.bs.toNat off len i → (∀ j, off / p.bs.toNat ≤ j → j < i → ¬p.n ≤ j) →
      i + 1 < 2 ^ 64 ∧ (i < p.n → P i)) ↔
      off / p.bs.toNat + 1 < 2 ^ 64 ∧ ∀ i, Touches p.bs.toNat off len i → i < p.n → P i := by
  have hpos : 0 < p.bs.toNat := Nat.pos_of_ne_zero fun h0 => hbs (UInt64.toNat_inj.mp h0)
  have hfits := (p.fits hbs).2.2
  constructor
  · intro hall
    have hfirst : Touches p.bs.toNat off len (off / p.bs.toNat) :=
      (touches_iff hpos (Nat.pos_of_ne_zero hlen)).mpr (.inl rfl)
    refine ⟨(hall _ hfirst fun j hj hji => absurd hji (Nat.not_lt.mpr hj)).1, fun i hi hin => ?_⟩
    exact (hall i hi fun j _ hji => by omega).2 hin
  · rintro ⟨hstart, hall⟩ i hi hbefore
    refine ⟨?_, hall i hi⟩
    -- A touched block is the first of all, in the table, or right behind the last of the table.
    by_contra hwrap
    have hge := hi.2.1
    have hne : off / p.bs.toNat ≠ i := fun h => hwrap (h ▸ hstart)
    have hprev := hbefore (i - 1) (by omega) (by omega)
    omega

theorem read_ok_iff (src : Source) (off len : ℕ) :
    (∃ bytes, src.read file z off len = .ok bytes) ↔ Clean src off len := by
  induction src generalizing off len with
  | raw base =>
    by_cases hlen : len = 0
    · exact ⟨fun _ => .inl hlen, fun _ => ⟨[], hlen ▸ read_zero _ _⟩⟩
    rw [read, Clean, or_iff_right hlen, ← Nat.not_le]
    split_ifs with h
    · exact ⟨fun ⟨_, h'⟩ => (by cases h'), fun h' => absurd h.2 h'⟩
    · exact ⟨fun _ hle => h ⟨hlen, hle⟩, fun _ => ⟨_, rfl⟩⟩
  | sub inner o ih =>
    by_cases hlen : len = 0
    · exact ⟨fun _ => .inl hlen, fun _ => ⟨[], hlen ▸ read_zero _ _⟩⟩
    rw [read, Clean, or_iff_right hlen, ← ih, ← Nat.not_le]
    split_ifs with h
    · exact ⟨fun ⟨_, h'⟩ => (by cases h'), fun h' => absurd h.2 h'.1⟩
    · exact ⟨fun h' => ⟨fun hle => h ⟨hlen, hle⟩, h'⟩, fun h' => h'.2⟩
  | xts inner decrypt skip ih =>
    by_cases hlen : len = 0
    · exact ⟨fun _ => .inl hlen, fun _ => ⟨[], hlen ▸ read_zero _ _⟩⟩
    rw [read, Clean, or_iff_right hlen, ← Nat.not_le]
    split_ifs with h
    · exact ⟨fun ⟨_, h'⟩ => (by cases h'), fun h' => absurd h.2 h'.1⟩
    · have hok : ∀ (i : ℕ) (u : Unit), (∃ r, fetchSector (inner.read file z) decrypt skip i u = .ok r) ↔
          Clean inner (i * 0x1000) 0x1000 :=
        fun i _ => fetchSector_ok_iff.trans (ih _ _)
      have hout : ∀ i u r, fetchSector (inner.read file z) decrypt skip i u = .ok r → (r = none ↔ False) :=
        fun _ _ _ hr => iff_false_intro (fetchSector_ne_none hr)
      rw [readBlocks_ok_iff (by decide) hok hout len off len () le_rfl]
      exact ⟨fun hall => ⟨fun hle => h ⟨hlen, hle⟩, fun i hi => hall i hi fun _ _ _ => not_false⟩,
        fun hall i hi _ => hall.2 i hi⟩
  | pfsc inner p ih =>
    by_cases hlen : len = 0
    · exact ⟨fun _ => .inl hlen, fun _ => ⟨[], hlen ▸ read_zero _ _⟩⟩
    rw [read, Clean, or_iff_right hlen]
    by_cases hbs : p.bs = 0
    · rw [if_pos ⟨hlen, hbs⟩]
      exact ⟨fun ⟨_, h'⟩ => (by cases h'), fun h' => absurd hbs h'.1⟩
    have hpos : 0 < p.bs.toNat := Nat.pos_of_ne_zero fun h0 => hbs (UInt64.toNat_inj.mp h0)
    have hok : ∀ (i : ℕ) (block : List UInt8), (∃ r, fetchBlock z (inner.read file z) p i block = .ok r) ↔
        i + 1 < 2 ^ 64 ∧ (i < p.n → p.entry i ≤ p.entry (i + 1) ∧
          Clean inner (p.entry i) (p.entry (i + 1) - p.entry i)) := by
      intro i block
      rw [fetchBlock_ok_iff hbs, ih]
    rw [if_neg fun hand => hbs hand.2, and_iff_right hbs,
      readBlocks_ok_iff hpos hok (fun _ _ _ => fetchBlock_eq_none_iff hbs) len off len _ le_rfl]
    exact touched_blocks_iff hbs hlen

theorem getElem?_of_read {src : Source} (h : src.read file z off len = .ok bytes) {k : ℕ} (hk : k < len) {v : UInt8}
    (hv : src.Decodes file z (off + k) v) : bytes[k]? = some v := by
  have hlen : len ≠ 0 := by omega
  induction src generalizing off len bytes k v with
  | raw base =>
    rw [read] at h
    split_ifs at h
    rw [← Except.ok.inj h, List.getElem?_map, List.getElem?_range hk, Option.map_some, hv, Nat.add_assoc]
  | sub inner o ih =>
    rw [read] at h
    split_ifs at h
    rw [Decodes, ← Nat.add_assoc] at hv
    exact ih h hk hv hlen
  | xts inner decrypt skip ih =>
    rw [read] at h
    split_ifs at h
    refine getElem?_of_readBlocks (D := Decodes file z (xts inner decrypt skip)) (by decide)
      (fun i _ blk _ hr => length_of_fetchSector (fun _ _ _ => length_of_read) hr)
      (fun i _ blk _ hr j hj w hw => ?_) (fun i _ hr => absurd rfl (fetchSector_ne_none hr))
      len off len () le_rfl h hk hv
    obtain ⟨sector, hsector, hblk⟩ := fetchSector_eq_ok_iff.mp hr
    cases hblk
    rw [Decodes, mul_add_div hj, mul_add_mod hj] at hw
    split_ifs at hw ⊢
    · obtain ⟨sector', hlen', hslice, rfl⟩ := hw
      have hsame : sector = sector' := hslice.eq_of ((length_of_read hsector).trans hlen'.symm) fun m hm w hw =>
        ih hsector (hlen' ▸ hm) hw (by decide)
      rw [hsame, List.getElem?_map, List.getElem?_range hj, Option.map_some]
    · exact ih hsector hj hw (by decide)
  | pfsc inner p ih =>
    rw [read] at h
    by_cases hbs : p.bs = 0
    · rw [if_pos ⟨hlen, hbs⟩] at h
      cases h
    rw [if_neg fun hand => hbs hand.2] at h
    have hpos : 0 < p.bs.toNat := Nat.pos_of_ne_zero fun h0 => hbs (UInt64.toNat_inj.mp h0)
    refine getElem?_of_readBlocks (D := Decodes file z (pfsc inner p)) hpos
      (fun i _ blk _ hr => length_of_fetchBlock hbs hr) (fun i _ blk _ hr j hj w hw => ?_) (fun i _ hr m hm w hw => ?_)
      len off len _ le_rfl h hk hv
    · rcases ((fetchBlock_eq_ok_iff hbs).mp hr).2 with ⟨-, hnone⟩ | ⟨hin, hord, comp, hcomp, hblk⟩
      · cases hnone
      · cases hblk
        rw [Decodes, mul_add_div hj, mul_add_mod hj, if_neg (Nat.not_le.mpr hin)] at hw
        obtain ⟨stored, block, hslice, hend, hblock, hget⟩ := hw
        have hstored : stored.length = p.entry (i + 1) - p.entry i := by omega
        have hsame : comp = stored := hslice.eq_of ((length_of_read hcomp).trans hstored.symm) fun m hm w hw =>
          ih hcomp (by omega) hw (by omega)
        rw [hsame, unpack_of_isBlock hblock]
        exact hget
    · have hle : p.n ≤ m / p.bs.toNat :=
        ((fetchBlock_eq_none_iff hbs hr).mp rfl).trans ((Nat.le_div_iff_mul_le hpos).mpr hm)
      rw [Decodes, if_pos hle] at hw
      exact hw

theorem isSlice_of_read {src : Source} (h : src.read file z off len = .ok bytes) (hd : src.Defined file z off len) :
    IsSlice (src.Decodes file z) off bytes := by
  intro k v hget
  have hk : k < len := by
    rw [← length_of_read h]
    exact (List.getElem?_eq_some_iff.mp hget).1
  obtain ⟨w, hw⟩ := hd k hk
  have := getElem?_of_read h hk hw
  rw [hget] at this
  exact Option.some.inj this ▸ hw

theorem defined_of_isSlice {src : Source} (h : IsSlice (src.Decodes file z) off bytes) :
    src.Defined file z off bytes.length :=
  fun k hk => ⟨bytes[k], h k _ (List.getElem?_eq_getElem hk)⟩

theorem eq_of_isSlice {src : Source} {bytes' : List UInt8} (h : src.read file z off len = .ok bytes)
    (hlen : bytes'.length = len) (hs : IsSlice (src.Decodes file z) off bytes') : bytes = bytes' :=
  hs.eq_of ((length_of_read h).trans hlen.symm) fun _ hk _ hv => getElem?_of_read h (hlen ▸ hk) hv

theorem right_iff (src : Source) (off len : ℕ) :
    src.Right file z off len ↔ Clean src off len ∧ src.Defined file z off len := by
  rw [← read_ok_iff src off len]
  constructor
  · rintro ⟨bytes, h, hlen, hslice⟩
    exact ⟨⟨bytes, h⟩, hlen ▸ defined_of_isSlice hslice⟩
  · rintro ⟨⟨bytes, h⟩, hd⟩
    exact ⟨bytes, h, length_of_read h, isSlice_of_read h hd⟩

/-! ## Openings and files -/

theorem openPfsc_of_zero {inner : Source} {h : List UInt8} (hread : inner.read file z 0 0x30 = .ok h)
    (hbs : rd64 h 0x10 = 0) : ∃ p, inner.openPfsc file z = .ok p ∧ p.bs = rd64 h 0x10 := by
  rw [openPfsc, hread, ok_bind]
  dsimp only
  rw [dif_pos hbs]
  exact ⟨_, rfl, rfl⟩

theorem openPfsc_of_table {inner : Source} {h raw : List UInt8} (hread : inner.read file z 0 0x30 = .ok h)
    (hbs : rd64 h 0x10 ≠ 0) (hn : ((rd64 h 0x28 / rd64 h 0x10).toNat + 1) * 8 < 2 ^ 64)
    (hraw : inner.read file z (rd64 h 0x18).toNat (((rd64 h 0x28 / rd64 h 0x10).toNat + 1) * 8) = .ok raw) :
    ∃ p, inner.openPfsc file z = .ok p ∧ p.bs = rd64 h 0x10 ∧ p.n = (rd64 h 0x28 / rd64 h 0x10).toNat ∧
      p.map = (List.range (p.n + 1)).map fun i => rd64 raw (i * 8) := by
  rw [openPfsc, hread, ok_bind]
  dsimp only
  rw [dif_neg hbs, dif_neg (Nat.not_le.mpr hn), hraw, ok_bind]
  exact ⟨_, rfl, rfl, rfl, rfl⟩

theorem opensRight_iff (inner : Source) : inner.OpensRight file z ↔ inner.CleanOpen file z := by
  constructor
  · rintro ⟨p, hopen, h, hlen, hslice, hbs, htable⟩
    obtain ⟨h', hread, hrest⟩ := bind_eq_ok.mp hopen
    obtain rfl := eq_of_isSlice hread hlen hslice
    refine ⟨(read_ok_iff _ _ _).mp ⟨_, hread⟩, h', hlen, hslice, fun hne => ?_⟩
    rw [dif_neg hne] at hrest
    by_cases hn : 2 ^ 64 ≤ ((rd64 h' 0x28 / rd64 h' 0x10).toNat + 1) * 8
    · rw [dif_pos hn] at hrest
      cases hrest
    rw [dif_neg hn] at hrest
    obtain ⟨raw, hraw, -⟩ := bind_eq_ok.mp hrest
    rw [hbs] at htable
    obtain ⟨hpn, raw', hlen', hslice', -⟩ := htable hne
    rw [hpn] at hlen'
    refine ⟨Nat.lt_of_not_le hn, (read_ok_iff _ _ _).mp ⟨raw, hraw⟩, ?_⟩
    rw [← hlen']
    exact defined_of_isSlice hslice'
  · rintro ⟨hclean, h, hlen, hslice, htable⟩
    obtain ⟨h', hread⟩ := (read_ok_iff inner 0 0x30).mpr hclean
    obtain rfl := eq_of_isSlice hread hlen hslice
    by_cases hbs : rd64 h' 0x10 = 0
    · obtain ⟨p, hopen, hp⟩ := openPfsc_of_zero hread hbs
      exact ⟨p, hopen, h', hlen, hslice, hp, fun hne => absurd (hp.trans hbs) hne⟩
    · obtain ⟨hn, hcleanTable, hdef⟩ := htable hbs
      obtain ⟨raw, hraw⟩ := (read_ok_iff inner _ _).mpr hcleanTable
      obtain ⟨p, hopen, hp, hpn, hmap⟩ := openPfsc_of_table hread hbs hn hraw
      refine ⟨p, hopen, h', hlen, hslice, hp, fun _ => ⟨by rw [hpn, hp], raw, ?_, isSlice_of_read hraw hdef, hmap⟩⟩
      rw [length_of_read hraw, hpn]

theorem nodeRight_iff (inner : Source) (innerBs : UInt32) (n : Node) (off len : Int64) :
    inner.NodeRight file z innerBs n off len ↔ inner.NodeClean file z innerBs n off len := by
  rw [NodeRight, NodeClean, readNode]
  by_cases hneg : off < 0 ∨ len < 0
  · rw [if_pos hneg]
    refine ⟨fun _ hoff hlen => ?_, fun _ => ⟨(-1, []), rfl, by rw [if_pos hneg]⟩⟩
    exact absurd hneg (not_or.mpr ⟨Int64.not_lt.mpr hoff, Int64.not_lt.mpr hlen⟩)
  obtain ⟨hoff, hlen⟩ := not_or.mp hneg
  simp only [if_neg hneg, forall_const, Int64.not_lt.mp hoff, Int64.not_lt.mp hlen]
  by_cases hend : n.size.toNat ≤ off.toInt.toNat
  · have htake : nodeTake n off len = 0 := by
      rw [nodeTake]
      omega
    rw [if_pos hend, htake]
    refine ⟨fun _ hpos => absurd hpos (lt_irrefl 0), fun _ => ⟨(0, []), rfl, rfl, rfl, fun k v hget => ?_⟩⟩
    simp at hget
  rw [if_neg hend]
  change (∃ r, (if nodeTake n off len ≠ 0 ∧ 2 ^ 64 ≤ nodeOff innerBs n off then _ else _) = Except.ok r ∧ _) ↔ _
  by_cases htake : nodeTake n off len = 0
  · have hread : inner.read file z (nodeOff innerBs n off) (nodeTake n off len) = .ok [] := by
      rw [htake]
      exact read_zero inner _
    rw [if_neg fun h => h.1 htake]
    refine ⟨fun _ hpos => absurd htake hpos.ne', fun _ => ⟨(nodeTake n off len, []), ?_, rfl, htake.symm, ?_⟩⟩
    · exact bind_eq_ok.mpr ⟨[], hread, rfl⟩
    · intro k v hget
      simp at hget
  · have hpos : 0 < nodeTake n off len := Nat.pos_of_ne_zero htake
    by_cases hwrap : 2 ^ 64 ≤ nodeOff innerBs n off
    · rw [if_pos ⟨htake, hwrap⟩]
      exact ⟨fun ⟨_, h, _⟩ => (by cases h), fun h => absurd (h hpos).1 (Nat.not_lt.mpr hwrap)⟩
    · rw [if_neg fun h => hwrap h.2]
      have hright := @right_iff file z inner (nodeOff innerBs n off) (nodeTake n off len)
      constructor
      · rintro ⟨r, hr, hret, hlen', hslice⟩ -
        obtain ⟨buf, hbuf, hr⟩ := bind_eq_ok.mp hr
        obtain rfl := pure_eq_ok.mp hr
        exact ⟨Nat.lt_of_not_le hwrap, hright.mp ⟨buf, hbuf, hlen', hslice⟩⟩
      · intro h
        obtain ⟨bytes, hbytes, hlen', hslice⟩ := hright.mpr (h hpos).2
        exact ⟨(nodeTake n off len, bytes), bind_eq_ok.mpr ⟨bytes, hbytes, rfl⟩, rfl, hlen', hslice⟩

def zeroBlockSize : HostFile where
  size := 0x710400
  byte k := if k < 0x710000 then (if k = 0x700022 then 1 else 0) else [0x50, 0x46, 0x53, 0x43].getD (k - 0x710000) 0
  fits := by decide

end Source

end Prosperity.Formats.PkgSources
