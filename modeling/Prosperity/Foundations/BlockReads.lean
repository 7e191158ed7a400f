import Mathlib.Algebra.Order.Group.Nat
import Prosperity.Foundations.CheckedBuffers

/-!
# Reads of a range in blocks

A range is read block by block: of each block that it touches, the part inside the range is taken. A block is fetched
with a state that goes from one to the next, and a fetch may fail, or find that there is nothing any more; the rest is
padding then.
-/

namespace Prosperity.BlockReads

/-- A range of `len` places from `off` on has a place in a block. -/
def Touches (B off len i : ℕ) : Prop := 0 < len ∧ off / B ≤ i ∧ i * B < off + len

section Arithmetic

variable {B off len i : ℕ}

theorem add_min_eq (hB : 0 < B) (hlen : B - off % B < len) : off + min (B - off % B) len = (off / B + 1) * B := by
  have hmod := Nat.mod_lt off hB
  have hdiv := Nat.div_add_mod off B
  rw [Nat.min_eq_left hlen.le, Nat.succ_mul, Nat.mul_comm (off / B)]
  omega

theorem touches_iff (hB : 0 < B) (hlen : 0 < len) : Touches B off len i ↔
      i = off / B ∨ Touches B (off + min (B - off % B) len) (len - min (B - off % B) len) i := by
  have hmod := Nat.mod_lt off hB
  have hdiv := Nat.div_add_mod off B
  have hcomm := Nat.mul_comm B (off / B)
  by_cases hle : len ≤ B - off % B
  · rw [Nat.min_eq_right hle, Nat.sub_self]
    constructor
    · rintro ⟨-, hfirst, hlast⟩
      have hlt : i * B < (off / B + 1) * B := by
        rw [Nat.succ_mul]
        omega
      have := Nat.lt_of_mul_lt_mul_right hlt
      exact .inl (by omega)
    · rintro (rfl | ⟨hpos, -⟩)
      · exact ⟨hlen, le_rfl, by omega⟩
      · exact absurd hpos (lt_irrefl 0)
  · have hlt := Nat.lt_of_not_le hle
    have hnext := add_min_eq hB hlt
    have hend : off + min (B - off % B) len + (len - min (B - off % B) len) = off + len := by omega
    rw [Touches, Touches, hend, hnext, Nat.mul_div_cancel _ hB, Nat.min_eq_left hlt.le]
    constructor
    · rintro ⟨-, hfirst, hlast⟩
      rcases hfirst.eq_or_lt with h | h
      · exact .inl h.symm
      · exact .inr ⟨by omega, h, hlast⟩
    · rintro (rfl | ⟨-, hfirst, hlast⟩)
      · exact ⟨hlen, le_rfl, by omega⟩
      · exact ⟨hlen, by omega, hlast⟩

end Arithmetic

variable {ε σ β : Type}

/-- The loop over the blocks of a range. Each of its at most `fuel` turns takes a place at least. -/
def readBlocks (B : ℕ) (pad : β) (fetch : ℕ → σ → Except ε (Option (List β × σ))) : ℕ → ℕ → ℕ → σ → Except ε (List β)
  | 0, _, _, _ => .ok []
  | fuel + 1, off, len, s =>
    if len = 0 then .ok []
    else do
      match ← fetch (off / B) s with
      | none => return List.replicate len pad
      | some (blk, s) =>
        let take := min (B - off % B) len
        let rest ← readBlocks B pad fetch fuel (off + take) (len - take) s
        return (blk.drop (off % B)).take take ++ rest

variable {B : ℕ} {pad : β} {fetch : ℕ → σ → Except ε (Option (List β × σ))} {bytes : List β}

theorem readBlocks_succ_eq_ok_iff {fuel off len : ℕ} {s : σ} (hlen : len ≠ 0) :
    readBlocks B pad fetch (fuel + 1) off len s = .ok bytes ↔
      (fetch (off / B) s = .ok none ∧ List.replicate len pad = bytes) ∨
        ∃ blk s', fetch (off / B) s = .ok (some (blk, s')) ∧
          ∃ rest, readBlocks B pad fetch fuel (off + min (B - off % B) len) (len - min (B - off % B) len) s' =
              .ok rest ∧ (blk.drop (off % B)).take (min (B - off % B) len) ++ rest = bytes := by
  rw [readBlocks, if_neg hlen, bind_eq_ok]
  constructor
  · rintro ⟨r, hr, h⟩
    cases r with
    | none => exact .inl ⟨hr, pure_eq_ok.mp h⟩
    | some r =>
      obtain ⟨rest, hrest, h⟩ := bind_eq_ok.mp h
      exact .inr ⟨r.1, r.2, hr, rest, hrest, pure_eq_ok.mp h⟩
  · rintro (⟨hr, h⟩ | ⟨blk, s', hr, rest, hrest, h⟩)
    · exact ⟨none, hr, pure_eq_ok.mpr h⟩
    · exact ⟨some (blk, s'), hr, bind_eq_ok.mpr ⟨rest, hrest, pure_eq_ok.mpr h⟩⟩

theorem readBlocks_ok_iff {P Out : ℕ → Prop} (hB : 0 < B) (hok : ∀ i s, (∃ r, fetch i s = .ok r) ↔ P i)
    (hout : ∀ i s r, fetch i s = .ok r → (r = none ↔ Out i)) (fuel off len : ℕ) (s : σ) (hfuel : len ≤ fuel) :
    (∃ bytes, readBlocks B pad fetch fuel off len s = .ok bytes) ↔
      ∀ i, Touches B off len i → (∀ j, off / B ≤ j → j < i → ¬Out j) → P i := by
  induction fuel generalizing off len s with
  | zero =>
    obtain rfl := Nat.le_zero.mp hfuel
    exact ⟨fun _ i h => absurd h.1 (lt_irrefl 0), fun _ => ⟨[], rfl⟩⟩
  | succ fuel ih =>
    by_cases hlen : len = 0
    · subst hlen
      exact ⟨fun _ i h => absurd h.1 (lt_irrefl 0), fun _ => ⟨[], by rw [readBlocks, if_pos rfl]⟩⟩
    have hpos : 0 < len := Nat.pos_of_ne_zero hlen
    have hmod := Nat.mod_lt off hB
    have hrec := fun s' => ih (off + min (B - off % B) len) (len - min (B - off % B) len) s' (by omega)
    constructor
    · rintro ⟨bytes, h⟩ i htouch hbefore
      rcases (readBlocks_succ_eq_ok_iff hlen).mp h with ⟨hr, -⟩ | ⟨blk, s', hr, rest, hrest, -⟩
      · have hend : Out (off / B) := (hout _ _ _ hr).mp rfl
        have hi : i = off / B := by
          by_contra hne
          exact hbefore (off / B) le_rfl (lt_of_le_of_ne htouch.2.1 (Ne.symm hne)) hend
        exact hi ▸ (hok _ s).mp ⟨_, hr⟩
      · rcases (touches_iff hB hpos).mp htouch with rfl | htouch'
        · exact (hok _ s).mp ⟨_, hr⟩
        · refine (hrec s').mp ⟨rest, hrest⟩ i htouch' fun j hj hji => hbefore j ?_ hji
          exact (Nat.div_le_div_right (Nat.le_add_right _ _)).trans hj
    · intro hall
      have hfirst : P (off / B) :=
        hall _ ((touches_iff hB hpos).mpr (.inl rfl)) fun j hj hji => absurd hji (Nat.not_lt.mpr hj)
      obtain ⟨r, hr⟩ := (hok _ s).mpr hfirst
      cases r with
      | none => exact ⟨_, (readBlocks_succ_eq_ok_iff hlen).mpr (.inl ⟨hr, rfl⟩)⟩
      | some r =>
        have hin : ¬Out (off / B) := fun h => by cases (hout _ _ _ hr).mpr h
        obtain ⟨rest, hrest⟩ := (hrec r.2).mpr fun i htouch hbefore => by
          refine hall i ((touches_iff hB hpos).mpr (.inr htouch)) fun j hj hji => ?_
          rcases hj.eq_or_lt with rfl | hlt
          · exact hin
          · refine hbefore j ?_ hji
            have hlong : B - off % B < len := by
              have := htouch.1
              omega
            rw [add_min_eq hB hlong, Nat.mul_div_cancel _ hB]
            exact hlt
        exact ⟨_, (readBlocks_succ_eq_ok_iff hlen).mpr (.inr ⟨r.1, r.2, hr, rest, hrest, rfl⟩)⟩

theorem length_of_readBlocks (hB : 0 < B) (hblk : ∀ i s blk s', fetch i s = .ok (some (blk, s')) → blk.length = B)
    (fuel off len : ℕ) (s : σ) (hfuel : len ≤ fuel) (h : readBlocks B pad fetch fuel off len s = .ok bytes) :
    bytes.length = len := by
  induction fuel generalizing off len s bytes with
  | zero =>
    obtain rfl := Nat.le_zero.mp hfuel
    cases h
    rfl
  | succ fuel ih =>
    by_cases hlen : len = 0
    · rw [readBlocks, if_pos hlen] at h
      cases h
      exact hlen.symm
    have hmod := Nat.mod_lt off hB
    rcases (readBlocks_succ_eq_ok_iff hlen).mp h with ⟨-, rfl⟩ | ⟨blk, s', hr, rest, hrest, rfl⟩
    · exact List.length_replicate
    · rw [List.length_append, List.length_take, List.length_drop, hblk _ _ _ _ hr, ih _ _ _ (by omega) hrest]
      omega

theorem getElem?_of_readBlocks {D : ℕ → β → Prop} (hB : 0 < B)
    (hlenblk : ∀ i s blk s', fetch i s = .ok (some (blk, s')) → blk.length = B)
    (hblk : ∀ i s blk s', fetch i s = .ok (some (blk, s')) → ∀ j < B, ∀ v, D (i * B + j) v → blk[j]? = some v)
    (hout : ∀ i s, fetch i s = .ok none → ∀ k, i * B ≤ k → ∀ v, D k v → v = pad)
    (fuel off len : ℕ) (s : σ) (hfuel : len ≤ fuel) (h : readBlocks B pad fetch fuel off len s = .ok bytes)
    {k : ℕ} (hk : k < len) {v : β} (hv : D (off + k) v) : bytes[k]? = some v := by
  induction fuel generalizing off len s bytes k with
  | zero => omega
  | succ fuel ih =>
    have hlen : len ≠ 0 := by omega
    have hmod := Nat.mod_lt off hB
    have hdiv := Nat.div_add_mod off B
    have hcomm := Nat.mul_comm B (off / B)
    rcases (readBlocks_succ_eq_ok_iff hlen).mp h with ⟨hr, rfl⟩ | ⟨blk, s', hr, rest, hrest, rfl⟩
    · rw [List.getElem?_replicate, if_pos hk, hout _ _ hr (off + k) (by omega) v hv]
    · have hpart : ((blk.drop (off % B)).take (min (B - off % B) len)).length = min (B - off % B) len := by
        rw [List.length_take, List.length_drop, hlenblk _ _ _ _ hr]
        omega
      by_cases hin : k < min (B - off % B) len
      · have hplace : off / B * B + (off % B + k) = off + k := by omega
        rw [List.getElem?_append_left (by omega), List.getElem?_take_of_lt hin, List.getElem?_drop]
        exact hblk _ _ _ _ hr (off % B + k) (by omega) v (hplace ▸ hv)
      · have hle := Nat.le_of_not_lt hin
        rw [List.getElem?_append_right (by omega), hpart]
        refine ih _ _ _ (by omega) hrest (by omega) ?_
        rwa [Nat.add_assoc, Nat.add_sub_cancel' hle]

end Prosperity.BlockReads
