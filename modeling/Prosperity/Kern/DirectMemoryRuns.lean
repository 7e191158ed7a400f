import Prosperity.Kern.DirectMemory

/-!
# Runs of the direct memory pool

The live regions stay sorted, disjoint, non-empty and inside the pool, and every call keeps its
promise, as long as no sum of the guest's words wraps.
-/

namespace Prosperity.Kern

/-! ## Rounding -/

section Rounding

variable {align x y : ℕ}

theorem roundDown_le (ha : align.isPowerOfTwo) : roundDown align x ≤ x := by
  obtain ⟨k, rfl⟩ := ha
  rw [roundDown, andNot_two_pow]
  exact Nat.mul_div_le x (2 ^ k)

theorem dvd_roundDown (ha : align.isPowerOfTwo) : align ∣ roundDown align x := by
  obtain ⟨k, rfl⟩ := ha
  rw [roundDown, andNot_two_pow]
  exact Nat.dvd_mul_right _ _

theorem dvd_roundUp (ha : align.isPowerOfTwo) : align ∣ roundUp align x := dvd_roundDown ha

theorem le_roundUp (ha : align.isPowerOfTwo) (hsum : x + (align - 1) < 2 ^ 64) : x ≤ roundUp align x := by
  obtain ⟨k, rfl⟩ := ha
  rw [roundUp, u64_of_lt hsum, andNot_two_pow]
  have hpos := Nat.two_pow_pos k
  have hdiv := Nat.div_add_mod (x + (2 ^ k - 1)) (2 ^ k)
  have hmod := Nat.mod_lt (x + (2 ^ k - 1)) hpos
  omega

theorem roundUp_le (ha : align.isPowerOfTwo) (hsum : x + (align - 1) < 2 ^ 64) (hy : align ∣ y)
    (hxy : x ≤ y) : roundUp align x ≤ y := by
  obtain ⟨k, rfl⟩ := ha
  rw [roundUp, u64_of_lt hsum, andNot_two_pow]
  obtain ⟨n, rfl⟩ := hy
  have hpos := Nat.two_pow_pos k
  refine Nat.mul_le_mul_left _ (Nat.lt_succ_iff.mp ?_)
  rw [Nat.div_lt_iff_lt_mul hpos, Nat.succ_mul, Nat.mul_comm n]
  omega

theorem roundUp_eq (ha : align.isPowerOfTwo) (hsum : x + (align - 1) < 2 ^ 64) (hx : align ∣ x) : roundUp align x = x :=
  Nat.le_antisymm (roundUp_le ha hsum hx (Nat.le_refl x)) (le_roundUp ha hsum)

end Rounding

/-! ## The live regions -/

section Regions

variable {regions : List DmemRegion} {r new : DmemRegion} {total start stop x : ℕ}

theorem live_nil (x : ℕ) : ¬Live [] x := fun ⟨_, h, _⟩ => List.not_mem_nil h

theorem live_cons : Live (r :: regions) x ↔ (r.start ≤ x ∧ x < r.stop) ∨ Live regions x := by
  simp [Live]

theorem Regions.nil (total : ℕ) : Regions total [] :=
  ⟨.nil, fun _ h => absurd h List.not_mem_nil, fun _ h => absurd h List.not_mem_nil⟩

theorem Regions.tail (h : Regions total (r :: regions)) : Regions total regions :=
  ⟨(List.pairwise_cons.mp h.sorted).2, fun a ha => h.nonempty a (List.mem_cons_of_mem r ha),
    fun a ha => h.inside a (List.mem_cons_of_mem r ha)⟩

theorem Regions.head_le (h : Regions total (r :: regions)) {a : DmemRegion} (ha : a ∈ regions) :
    r.stop ≤ a.start := (List.pairwise_cons.mp h.sorted).1 a ha

theorem Regions.cons (h : Regions total regions) (hne : r.start < r.stop) (hin : r.stop ≤ total)
    (hle : ∀ a ∈ regions, r.stop ≤ a.start) : Regions total (r :: regions) :=
  ⟨List.pairwise_cons.mpr ⟨hle, h.sorted⟩, List.forall_mem_cons.mpr ⟨hne, h.nonempty⟩,
    List.forall_mem_cons.mpr ⟨hin, h.inside⟩⟩

def Between (regions : List DmemRegion) (start stop : ℕ) : Prop :=
  ∀ r ∈ regions, r.stop ≤ start ∨ stop ≤ r.start

theorem Between.free {len : ℕ} (h : Between regions start (start + len)) : Free regions start len := by
  rintro x hlo hhi ⟨r, hr, hstart, hstop⟩
  rcases h r hr with h | h <;> omega

theorem mem_insertRegion {a : DmemRegion} : a ∈ insertRegion new regions ↔ a = new ∨ a ∈ regions := by
  induction regions with
  | nil => simp [insertRegion]
  | cons r rs ih =>
    rw [insertRegion]
    split
    · simp only [List.mem_cons, ih]
      tauto
    · simp only [List.mem_cons]

theorem Regions.insert (h : Regions total regions) (hne : new.start < new.stop)
    (hin : new.stop ≤ total) (hnew : Between regions new.start new.stop) :
    Regions total (insertRegion new regions) := by
  induction regions with
  | nil => exact (Regions.nil total).cons hne hin fun a ha => absurd ha List.not_mem_nil
  | cons r rs ih =>
    have hr := hnew r List.mem_cons_self
    have hrne := h.nonempty r List.mem_cons_self
    rw [insertRegion]
    split
    · refine (ih h.tail fun a ha => hnew a (List.mem_cons_of_mem r ha)).cons hrne
        (h.inside r List.mem_cons_self) fun a ha => ?_
      rcases mem_insertRegion.mp ha with rfl | ha
      · omega
      · exact h.head_le ha
    · refine h.cons hne hin fun a ha => ?_
      rcases List.mem_cons.mp ha with rfl | ha
      · omega
      · have := h.head_le ha
        omega

theorem live_insertRegion : Live (insertRegion new regions) x ↔ Live regions x ∨ new.start ≤ x ∧ x < new.stop := by
  simp only [Live, mem_insertRegion]
  constructor
  · rintro ⟨r, rfl | hr, hx⟩
    · exact .inr hx
    · exact .inl ⟨r, hr, hx⟩
  · rintro (⟨r, hr, hx⟩ | hx)
    · exact ⟨r, .inr hr, hx⟩
    · exact ⟨new, .inl rfl, hx⟩

theorem mem_freeRegions {a : DmemRegion} (ha : a ∈ freeRegions start stop regions) : ∃ r ∈ regions, r.start ≤ a.start ∧ a.stop ≤ r.stop := by
  induction regions with
  | nil => cases ha
  | cons r rs ih =>
    have hrest (ha : a ∈ freeRegions start stop rs) :
        ∃ b ∈ r :: rs, b.start ≤ a.start ∧ a.stop ≤ b.stop := by
      obtain ⟨b, hb, h⟩ := ih ha
      exact ⟨b, List.mem_cons_of_mem r hb, h⟩
    rw [freeRegions] at ha
    split at ha
    · rcases List.mem_cons.mp ha with rfl | ha
      · exact ⟨a, List.mem_cons_self, Nat.le_refl _, Nat.le_refl _⟩
      · exact hrest ha
    · split at ha
      · rename_i hboth
        rcases List.mem_cons.mp ha with rfl | ha
        · exact ⟨r, List.mem_cons_self, Nat.le_refl _, by dsimp only; omega⟩
        · rcases List.mem_cons.mp ha with rfl | ha
          · exact ⟨r, List.mem_cons_self, by dsimp only; omega, Nat.le_refl _⟩
          · exact ⟨a, List.mem_cons_of_mem r ha, Nat.le_refl _, Nat.le_refl _⟩
      · split at ha
        · rcases List.mem_cons.mp ha with rfl | ha
          · exact ⟨r, List.mem_cons_self, Nat.le_refl _, by dsimp only; omega⟩
          · exact hrest ha
        · split at ha
          · rcases List.mem_cons.mp ha with rfl | ha
            · exact ⟨r, List.mem_cons_self, by dsimp only; omega, Nat.le_refl _⟩
            · exact hrest ha
          · exact hrest ha

theorem Regions.free (h : Regions total regions) (hlt : start < stop) :
    Regions total (freeRegions start stop regions) := by
  induction regions with
  | nil => exact h
  | cons r rs ih =>
    have hne := h.nonempty r List.mem_cons_self
    have hin := h.inside r List.mem_cons_self
    -- whatever is left of the others lies behind `r`
    have hbehind : ∀ a ∈ freeRegions start stop rs, r.stop ≤ a.start := by
      intro a ha
      obtain ⟨b, hb, hle, -⟩ := mem_freeRegions ha
      exact Nat.le_trans (h.head_le hb) hle
    rw [freeRegions]
    split
    · exact (ih h.tail).cons hne hin hbehind
    · split
      · refine Regions.cons (Regions.cons h.tail ?_ hin fun a ha => h.head_le ha) ?_ ?_ ?_
        · dsimp only
          omega
        · dsimp only
          omega
        · dsimp only
          omega
        · intro a ha
          rcases List.mem_cons.mp ha with rfl | ha
          · dsimp only
            omega
          · have := h.head_le ha
            dsimp only
            omega
      · split
        · refine (ih h.tail).cons ?_ ?_ fun a ha => ?_
          · dsimp only
            omega
          · dsimp only
            omega
          · have := hbehind a ha
            dsimp only
            omega
        · split
          · refine (ih h.tail).cons ?_ hin hbehind
            dsimp only
            omega
          · exact ih h.tail

theorem live_freeRegions (h : Regions total regions) (hlt : start < stop) :
    Live (freeRegions start stop regions) x ↔ Live regions x ∧ ¬(start ≤ x ∧ x < stop) := by
  induction regions with
  | nil => exact ⟨fun h => absurd h (live_nil x), fun h => absurd h.1 (live_nil x)⟩
  | cons r rs ih =>
    have hne := h.nonempty r List.mem_cons_self
    have hrest := ih h.tail
    have hbehind : Live rs x → r.stop ≤ x := fun ⟨a, ha, hax, _⟩ =>
      Nat.le_trans (h.head_le ha) hax
    rw [freeRegions]
    split
    · rw [live_cons, live_cons, hrest]
      constructor
      · rintro (hx | ⟨hx, hout⟩)
        · exact ⟨.inl hx, by omega⟩
        · exact ⟨.inr hx, hout⟩
      · rintro ⟨hx | hx, hout⟩
        · exact .inl hx
        · exact .inr ⟨hx, hout⟩
    · split
      · -- cut in two: the others lie behind both parts
        rw [live_cons, live_cons, live_cons]
        dsimp only
        constructor
        · rintro (hx | hx | hx)
          · exact ⟨.inl (by omega), by omega⟩
          · exact ⟨.inl (by omega), by omega⟩
          · have := hbehind hx
            exact ⟨.inr hx, by omega⟩
        · rintro ⟨hx | hx, hout⟩
          · by_cases hxs : x < start
            · exact .inl (by omega)
            · exact .inr (.inl (by omega))
          · exact .inr (.inr hx)
      · split
        · rw [live_cons, live_cons, hrest]
          dsimp only
          constructor
          · rintro (hx | ⟨hx, hout⟩)
            · exact ⟨.inl (by omega), by omega⟩
            · exact ⟨.inr hx, hout⟩
          · rintro ⟨hx | hx, hout⟩
            · exact .inl (by omega)
            · exact .inr ⟨hx, hout⟩
        · split
          · rw [live_cons, live_cons, hrest]
            dsimp only
            constructor
            · rintro (hx | ⟨hx, hout⟩)
              · exact ⟨.inl (by omega), by omega⟩
              · exact ⟨.inr hx, hout⟩
            · rintro ⟨hx | hx, hout⟩
              · exact .inl (by omega)
              · exact .inr ⟨hx, hout⟩
          · rw [live_cons, hrest]
            constructor
            · rintro ⟨hx, hout⟩
              exact ⟨.inr hx, hout⟩
            · rintro ⟨hx | hx, hout⟩
              · exact absurd ⟨by omega, by omega⟩ hout
              · exact ⟨hx, hout⟩

theorem freeRegions_of_le (h : ∀ r ∈ regions, r.stop ≤ start) : freeRegions start stop regions = regions := by
  induction regions with
  | nil => rfl
  | cons r rs ih =>
    rw [List.forall_mem_cons] at h
    rw [freeRegions, if_pos (.inl h.1), ih h.2]

end Regions

/-! ## The searches -/

section Searches

variable {regions : List DmemRegion} {total len align cand top hi lo : ℕ}

/-- **The first fit** is aligned and lies between the regions, and every earlier place for the range
meets one of them. -/
theorem findFit_spec (h : Regions total regions) (ha : align.isPowerOfTwo) (hcand : align ∣ cand)
    (hlen : cand + len < 2 ^ 64) (hreach : ∀ r ∈ regions, DmemPool.Reaches align len r.stop) :
    cand ≤ findFit len align cand regions ∧ align ∣ findFit len align cand regions ∧
      findFit len align cand regions + len < 2 ^ 64 ∧
      Between regions (findFit len align cand regions) (findFit len align cand regions + len) ∧
      ∀ y, align ∣ y → cand ≤ y → y < findFit len align cand regions →
        ∃ r ∈ regions, r.start < y + len ∧ y < r.stop := by
  induction regions generalizing cand with
  | nil =>
    refine ⟨Nat.le_refl _, hcand, hlen, fun r hr => absurd hr List.not_mem_nil, ?_⟩
    exact fun y _ hle hlt => absurd hlt (Nat.not_lt.mpr hle)
  | cons r rs ih =>
    rw [List.forall_mem_cons] at hreach
    have hne := h.nonempty r List.mem_cons_self
    rw [findFit]
    split
    · rename_i hbelow
      obtain ⟨hle, hdvd, hfits, hbetween, hfirst⟩ := ih h.tail hcand hlen hreach.2
      refine ⟨hle, hdvd, hfits, List.forall_mem_cons.mpr ⟨.inl (Nat.le_trans hbelow hle), hbetween⟩,
        fun y hy hcy hlt => ?_⟩
      obtain ⟨a, ha, hmeets⟩ := hfirst y hy hcy hlt
      exact ⟨a, List.mem_cons_of_mem r ha, hmeets⟩
    · rename_i hbelow
      rw [u64_of_lt hlen]
      split
      · rename_i habove
        refine ⟨Nat.le_refl _, hcand, hlen, List.forall_mem_cons.mpr ⟨.inr habove, fun a ha => ?_⟩,
          fun y _ hle hlt => absurd hlt (Nat.not_lt.mpr hle)⟩
        have := h.head_le ha
        right
        omega
      · rename_i habove
        rw [if_pos (Nat.lt_of_not_le hbelow)]
        have hup := le_roundUp ha hreach.1.1
        obtain ⟨hle, hdvd, hfits, hbetween, hfirst⟩ :=
          ih h.tail (dvd_roundUp ha) hreach.1.2 hreach.2
        refine ⟨by omega, hdvd, hfits, List.forall_mem_cons.mpr ⟨.inl (Nat.le_trans hup hle),
          hbetween⟩, fun y hy hcy hlt => ?_⟩
        by_cases hstop : y < r.stop
        · -- too early for `r` to be over, too late to be done before it begins
          exact ⟨r, List.mem_cons_self, by omega, hstop⟩
        · have hge := roundUp_le ha hreach.1.1 hy (Nat.not_lt.mp hstop)
          obtain ⟨a, ha, hmeets⟩ := hfirst y hy hge hlt
          exact ⟨a, List.mem_cons_of_mem r ha, hmeets⟩

theorem findFit_of_between (hlen : cand + len < 2 ^ 64)
    (hbetween : Between regions cand (cand + len)) : findFit len align cand regions = cand := by
  induction regions with
  | nil => rfl
  | cons r rs ih =>
    obtain ⟨hr, hrest⟩ := List.forall_mem_cons.mp hbetween
    rw [findFit]
    split
    · exact ih hrest
    · rename_i hbelow
      rw [u64_of_lt hlen, if_pos (hr.resolve_left hbelow)]

theorem findTop_spec (ha : align.isPowerOfTwo) {f : ℕ} (hpos : 0 < len)
    (hsorted : regions.Pairwise fun a b => b.stop ≤ a.start)
    (hne : ∀ r ∈ regions, r.start < r.stop) (htop : ∀ r ∈ regions, r.start < top)
    (hlt : top < 2 ^ 64) (hf : findTop len align top regions = some f) :
    align ∣ f ∧ kDmemBase ≤ f ∧ f + len ≤ top ∧ Between regions f (f + len) := by
  -- where the range fits under `top`, the difference does not wrap
  have hbase (t : ℕ) (ht : t < 2 ^ 64) (hle : len ≤ t) :
      roundDown align (u64 (t + (2 ^ 64 - len))) + len ≤ t := by
    have hsub : u64 (t + (2 ^ 64 - len)) = t - len := by
      unfold u64
      omega
    have := roundDown_le (x := u64 (t + (2 ^ 64 - len))) ha
    omega
  induction regions generalizing top with
  | nil =>
    rw [findTop] at hf
    split at hf
    · cases hf
    · rename_i hfits
      obtain rfl := Option.some.inj hf
      rw [not_or, Nat.not_lt, Nat.not_lt] at hfits
      exact ⟨dvd_roundDown ha, hfits.2, hbase top hlt hfits.1, fun r hr => absurd hr List.not_mem_nil⟩
  | cons r rs ih =>
    obtain ⟨hlast, hsorted⟩ := List.pairwise_cons.mp hsorted
    rw [List.forall_mem_cons] at hne htop
    have hbelow : ∀ a ∈ rs, a.start < r.start := fun a ha =>
      Nat.lt_of_lt_of_le (hne.2 a ha) (hlast a ha)
    rw [findTop, if_neg (Nat.not_le.mpr htop.1)] at hf
    dsimp only at hf
    split at hf
    · rename_i hfits
      obtain rfl := Option.some.inj hf
      refine ⟨dvd_roundDown ha, hfits.2.2, hbase top hlt hfits.1,
        List.forall_mem_cons.mpr ⟨.inl hfits.2.1, fun a ha => .inl ?_⟩⟩
      have := hlast a ha
      have := hne.1
      have := hfits.2.1
      omega
    · obtain ⟨hdvd, hle, hfit, hbetween⟩ :=
        ih hsorted hne.2 hbelow (Nat.lt_trans htop.1 hlt) hf
      exact ⟨hdvd, hle, Nat.le_trans hfit (Nat.le_of_lt htop.1), List.forall_mem_cons.mpr ⟨.inr hfit, hbetween⟩⟩

structure HoleOk (regions : List DmemRegion) (lo hi align : ℕ) (hole : ℕ × ℕ) : Prop where
  aligned : align ∣ hole.1
  ge : lo ≤ hole.1
  le : hole.1 + hole.2 ≤ hi
  between : Between regions hole.1 (hole.1 + hole.2)

theorem consider_ok {cur stop : ℕ} {best : ℕ × ℕ} (hbest : best.2 ≠ 0 → HoleOk regions lo hi align best)
    (hcur : cur < stop → HoleOk regions lo hi align (cur, stop - cur)) :
    (consider cur stop best).2 ≠ 0 → HoleOk regions lo hi align (consider cur stop best) := by
  unfold consider
  split
  · rename_i h
    exact fun _ => hcur h.1
  · exact hbest

theorem largestHole_ok {before rest : List DmemRegion} {cur : ℕ} {best : ℕ × ℕ}
    (h : Regions total (before ++ rest)) (ha : align.isPowerOfTwo)
    (hround : ∀ r ∈ rest, r.stop + (align - 1) < 2 ^ 64) (hdvd : align ∣ cur) (hlo : lo ≤ cur)
    (hbefore : ∀ r ∈ before, r.stop ≤ cur) (hbest : best.2 ≠ 0 → HoleOk (before ++ rest) lo hi align best) :
    (largestHole hi align cur best rest).2 ≠ 0 →
      HoleOk (before ++ rest) lo hi align (largestHole hi align cur best rest) := by
  induction rest generalizing before cur best with
  | nil =>
    refine consider_ok hbest fun hlt => ⟨hdvd, hlo, by dsimp only; omega, fun r hr => .inl ?_⟩
    rw [List.append_nil] at hr
    exact hbefore r hr
  | cons r rs ih =>
    rw [List.forall_mem_cons] at hround
    have hsplit : before ++ r :: rs = (before ++ [r]) ++ rs := by simp
    obtain ⟨-, hrest, -⟩ := List.pairwise_append.mp h.sorted
    have hbehind := (List.pairwise_cons.mp hrest).1
    have hne := h.nonempty r (by simp)
    -- the hole up to `stop` is free where `r` begins no earlier
    have hhole (stop : ℕ) (hstop : stop ≤ r.start) (hhi : stop ≤ hi) (hlt : cur < stop) :
        HoleOk (before ++ r :: rs) lo hi align (cur, stop - cur) := by
      refine ⟨hdvd, hlo, by dsimp only; omega, fun a ha => ?_⟩
      dsimp only
      rcases List.mem_append.mp ha with ha | ha
      · exact .inl (hbefore a ha)
      · rcases List.mem_cons.mp ha with rfl | ha
        · right
          omega
        · have := hbehind a ha
          right
          omega
    rw [largestHole]
    split
    · rename_i hbelow
      rw [hsplit] at h hbest ⊢
      refine ih h hround.2 hdvd hlo (fun a ha => ?_) hbest
      rcases List.mem_append.mp ha with ha | ha
      · exact hbefore a ha
      · exact List.mem_singleton.mp ha ▸ hbelow
    · rename_i hbelow
      split
      · rename_i habove
        exact consider_ok hbest (hhole hi habove (Nat.le_refl _))
      · rename_i habove
        rw [if_pos (Nat.lt_of_not_le hbelow), if_pos (Nat.lt_of_not_le habove)]
        have hup := le_roundUp ha hround.1
        have hconsider := consider_ok hbest
          (hhole r.start (Nat.le_refl _) (Nat.le_of_lt (Nat.lt_of_not_le habove)))
        rw [hsplit] at h hconsider ⊢
        refine ih h hround.2 (dvd_roundUp ha) (by omega) (fun a ha => ?_) hconsider
        rcases List.mem_append.mp ha with ha | ha
        · have := hbefore a ha
          omega
        · exact List.mem_singleton.mp ha ▸ hup

end Searches

/-! ## The calls -/

section Calls

variable {regions : List DmemRegion} {total lo hi len align memType : ℕ}

theorem windowEnd_le (total hi : ℕ) : windowEnd total hi ≤ total := by
  unfold windowEnd
  split <;> omega

theorem kDmemBase_pos : 0 < kDmemBase := by decide

theorem insert_spec (h : Regions total regions) (hpos : 0 < len) {cand : ℕ}
    (hfits : cand + len ≤ total) (hbetween : Between regions cand (cand + len)) :
    Regions total (insertRegion ⟨cand, cand + len, memType⟩ regions) ∧
      ∀ x, Live (insertRegion ⟨cand, cand + len, memType⟩ regions) x ↔ Live regions x ∨ cand ≤ x ∧ x < cand + len :=
  ⟨h.insert (Nat.lt_add_of_pos_right hpos) hfits hbetween, fun _ => live_insertRegion⟩

theorem dmemAllocate_ok (h : Regions total regions) (htotal : total < 2 ^ 64)
    (hreach : align.isPowerOfTwo → lo < windowEnd total hi →
      DmemPool.Reaches align len (if windowed total lo hi then lo else kDmemBase) ∧
        ∀ r ∈ regions, DmemPool.Reaches align len r.stop) {off : ℕ} {regions' : List DmemRegion}
    (hok : dmemAllocate total regions lo hi len align memType = .ok (off, regions')) :
    AlignedHole regions lo (windowEnd total hi) len align off ∧ Regions total regions' ∧
      ∀ x, Live regions' x ↔ Live regions x ∨ off ≤ x ∧ x < off + len := by
  have hend := windowEnd_le total hi
  rw [dmemAllocate] at hok
  dsimp only at hok
  split at hok
  · cases hok
  rename_i hargs
  simp only [not_or, Nat.not_le, not_not] at hargs
  obtain ⟨hlen, halign, hpower, hlt⟩ := hargs
  have ha := (Nat.and_sub_one_eq_zero_iff_isPowerOfTwo halign).mp hpower
  obtain ⟨hstart, hstops⟩ := hreach ha hlt
  have hpos := Nat.pos_of_ne_zero hlen
  -- each of the searches gives a range between the regions that ends in the window
  have hput {cand : ℕ} (hge : lo ≤ cand) (hdvd : align ∣ cand)
      (hfits : cand + len ≤ windowEnd total hi) (hbetween : Between regions cand (cand + len)) :
      AlignedHole regions lo (windowEnd total hi) len align cand ∧
        Regions total (insertRegion ⟨cand, cand + len, memType⟩ regions) ∧
        ∀ x, Live (insertRegion ⟨cand, cand + len, memType⟩ regions) x ↔ Live regions x ∨ cand ≤ x ∧ x < cand + len :=
    ⟨⟨hpos, ha, hdvd, hge, hfits, hbetween.free⟩, insert_spec h hpos (Nat.le_trans hfits hend) hbetween⟩
  cases hwindow : windowed total lo hi with
  | true =>
    rw [hwindow, if_pos rfl] at hok hstart
    obtain ⟨hge, hdvd, hwrap, hbetween, -⟩ :=
      findFit_spec h ha (dvd_roundUp ha) hstart.2 hstops
    rw [u64_of_lt hwrap] at hok
    split at hok
    · cases hok
    · rename_i hfits
      obtain ⟨rfl, rfl⟩ := Prod.mk.inj (Except.ok.inj hok)
      exact hput (Nat.le_trans (le_roundUp ha hstart.1) hge) hdvd (Nat.not_lt.mp hfits) hbetween
  | false =>
    rw [hwindow, if_neg Bool.false_ne_true] at hok hstart
    have hlo : lo = 0 := by
      simp only [windowed, Bool.or_eq_false_iff, decide_eq_false_iff_not, not_not] at hwindow
      exact hwindow.1
    obtain ⟨-, hdvd, hwrap, hbetween, -⟩ :=
      findFit_spec h ha (dvd_roundUp ha) hstart.2 hstops
    rw [u64_of_lt hwrap] at hok
    split at hok
    · rename_i hfits
      obtain ⟨rfl, rfl⟩ := Prod.mk.inj (Except.ok.inj hok)
      exact hput (hlo ▸ Nat.zero_le _) hdvd hfits hbetween
    · -- the band is full, and the highest hole of the pool is taken
      rename_i hfull
      have hstop : windowEnd total hi = total := by
        simp only [windowed, Bool.or_eq_false_iff, Bool.and_eq_false_imp, decide_eq_false_iff_not,
          decide_eq_true_eq] at hwindow
        unfold windowEnd
        split
        · rfl
        · rename_i hhi
          have := hwindow.2
          omega
      split at hok
      · rename_i cand hfound
        obtain ⟨rfl, rfl⟩ := Prod.mk.inj (Except.ok.inj hok)
        have hlast : ∀ r ∈ regions.reverse, r.start < windowEnd total hi := fun r hr => by
          have hr := List.mem_reverse.mp hr
          have := h.nonempty r hr
          have := h.inside r hr
          omega
        obtain ⟨hdvd, -, hfits, hbetween⟩ := findTop_spec ha hpos
          (List.pairwise_reverse.mpr h.sorted) (fun r hr => h.nonempty r (List.mem_reverse.mp hr))
          hlast (by omega) hfound
        rw [u64_of_lt (by omega)]
        exact hput (hlo ▸ Nat.zero_le _) hdvd hfits
          fun r hr => hbetween r (List.mem_reverse.mpr hr)
      · cases hok

theorem dmemAllocate_error (h : Regions total regions) (hreach : align.isPowerOfTwo → lo < windowEnd total hi →
      DmemPool.Reaches align len (if windowed total lo hi then lo else kDmemBase) ∧
        ∀ r ∈ regions, DmemPool.Reaches align len r.stop) (hwindow : windowed total lo hi = true) {code : ℤ}
    (herror : dmemAllocate total regions lo hi len align memType = .error code) (y : ℕ) :
    ¬AlignedHole regions lo (windowEnd total hi) len align y := by
  intro hole
  have hpos := hole.pos
  have hge := hole.ge
  have hle := hole.le
  have ha := hole.power
  have halign := Nat.pos_of_isPowerOfTwo ha
  have hpower := (Nat.and_sub_one_eq_zero_iff_isPowerOfTwo (Nat.ne_of_gt halign)).mpr ha
  obtain ⟨hstart, hstops⟩ := hreach ha (by omega)
  rw [hwindow, if_pos rfl] at hstart
  rw [dmemAllocate] at herror
  dsimp only at herror
  rw [if_neg (by omega), if_pos hwindow] at herror
  obtain ⟨-, -, hwrap, -, hfirst⟩ := findFit_spec h ha (dvd_roundUp ha) hstart.2 hstops
  rw [u64_of_lt hwrap] at herror
  split at herror
  · rename_i hover
    -- the hole is before the first fit, so that a region is in its way
    have hlo := roundUp_le ha hstart.1 hole.aligned hge
    obtain ⟨r, hr, hbefore, hafter⟩ := hfirst y hole.aligned hlo (by omega)
    have hne := h.nonempty r hr
    refine hole.free (max y r.start) (by omega) (by omega) ⟨r, hr, by omega, by omega⟩
  · cases herror

theorem dmemAllocate_of_hole {base size : ℕ} (htotal : total < 2 ^ 64) (ha : align.isPowerOfTwo)
    (hbits : align < 2 ^ 64) (hsize : size ≠ 0) (hbase : 0 < base)
    (hole : HoleOk regions lo (windowEnd total hi) align (base, size)) :
    ∃ regions', dmemAllocate total regions base (base + size) size align memType = .ok (base, regions') := by
  have hle : base + size ≤ windowEnd total hi := hole.le
  have htop := windowEnd_le total hi
  have halign := Nat.pos_of_isPowerOfTwo ha
  have hpower := (Nat.and_sub_one_eq_zero_iff_isPowerOfTwo (Nat.ne_of_gt halign)).mpr ha
  have hend : windowEnd total (base + size) = base + size := by
    unfold windowEnd
    rw [if_neg (by omega)]
  have hwindow : windowed total base (base + size) = true := by
    simp [windowed, Nat.ne_of_gt hbase]
  -- the next multiple is not past the last word
  have hround : base + (align - 1) < 2 ^ 64 := by
    obtain ⟨k, hk⟩ := ha
    obtain ⟨n, hn⟩ := hole.aligned
    dsimp only at hn
    have hk64 : k < 64 := (Nat.pow_lt_pow_iff_right Nat.one_lt_two).mp (hk ▸ hbits)
    have hsplit : 2 ^ 64 = align * 2 ^ (64 - k) := by
      rw [hk, ← Nat.pow_add]
      congr 1
      omega
    have hn' : n < 2 ^ (64 - k) := by
      refine Nat.lt_of_mul_lt_mul_left (a := align) ?_
      omega
    have hnext := Nat.mul_le_mul_left align hn'
    rw [Nat.mul_succ] at hnext
    omega
  have hcand : roundUp align base = base := roundUp_eq ha hround hole.aligned
  have hwrap : base + size < 2 ^ 64 := by omega
  have hfit : findFit size align base regions = base := findFit_of_between hwrap hole.between
  refine ⟨insertRegion ⟨base, base + size, memType⟩ regions, ?_⟩
  rw [dmemAllocate]
  dsimp only
  rw [hend, if_neg (by omega), if_pos hwindow, hcand, hfit, u64_of_lt hwrap, if_neg (by omega)]

end Calls

/-! ## Runs -/

namespace DmemPool

variable {total : UInt64} {s : DmemPool}

theorem alignOf_eq (align : UInt64) : alignOf align = if align.toNat = 0 then kDmemAlign else align.toNat := by
  unfold alignOf
  simp only [← UInt64.toNat_inj, UInt64.toNat_zero]

theorem alignOf_lt (align : UInt64) : alignOf align < 2 ^ 64 := by
  unfold alignOf
  split
  · decide
  · exact align.toNat_lt

theorem allocate_good {lo hi : ℕ} {len align : UInt64} {memType : UInt32} (h : Regions total.toNat s.regions)
    (hok : CarefulAllocate total.toNat s lo hi len align) :
    Regions total.toNat (s.allocateStep total.toNat lo hi len align memType).regions ∧
      AllocateSound total.toNat s lo hi len align (s.allocateStep total.toNat lo hi len align memType) := by
  unfold allocateStep
  split
  · rename_i hlen
    refine ⟨h, rfl, fun _ y hole => ?_⟩
    have hpos := hole.pos
    rw [hlen] at hpos
    exact absurd hpos (Nat.lt_irrefl 0)
  · cases hresult : dmemAllocate total.toNat s.regions lo hi len.toNat (alignOf align)
      memType.toNat with
    | ok result =>
      obtain ⟨off, regions⟩ := result
      obtain ⟨hole, hregions, hlive⟩ := dmemAllocate_ok h total.toNat_lt hok hresult
      exact ⟨hregions, hole, hlive⟩
    | error code =>
      exact ⟨h, rfl, fun hwindow y => dmemAllocate_error h hok hwindow hresult y⟩

theorem release_good {start len : UInt64} (h : Regions total.toNat s.regions)
    (hok : Careful total s (.release start len)) : Regions total.toNat (s.step total (.release start len)).regions ∧
      CallSound total s (.release start len) (s.step total (.release start len)) := by
  simp only [step, CallSound]
  split
  · rename_i hlen
    refine ⟨h, fun x => ?_⟩
    rw [hlen, UInt64.toNat_zero, Nat.add_zero]
    have hempty : ¬(start.toNat ≤ x ∧ x < start.toNat) := by omega
    simp [hempty]
  · rename_i hlen
    have hpos : 0 < len.toNat :=
      Nat.pos_of_ne_zero fun hzero => hlen (UInt64.toNat_inj.mp hzero)
    rcases hok with hwrap | hbehind
    · have hlt : start.toNat < start.toNat + len.toNat := Nat.lt_add_of_pos_right hpos
      simp only [dmemFree, u64_of_lt hwrap]
      exact ⟨h.free hlt, fun x => live_freeRegions h hlt⟩
    · simp only [dmemFree, freeRegions_of_le hbehind]
      refine ⟨h, fun x => (and_iff_left_of_imp ?_).symm⟩
      rintro ⟨r, hr, -, hx⟩ ⟨hstart, -⟩
      have := hbehind r hr
      omega

theorem available_good {lo hi align : UInt64} (h : Regions total.toNat s.regions)
    (hok : Careful total s (.available lo hi align)) :
    CallSound total s (.available lo hi align) (s.step total (.available lo hi align)) := by
  obtain ⟨ha, hstart, hstops⟩ := hok
  refine ⟨rfl, _, _, rfl, fun hsize => ?_⟩
  have hnil : Regions total.toNat ([] ++ s.regions) := h
  have hbest : ((0, 0) : ℕ × ℕ).2 ≠ 0 → HoleOk ([] ++ s.regions)
      (if lo.toNat = 0 then kDmemBase else lo.toNat) (windowEnd total.toNat hi.toNat)
      (alignOf align) (0, 0) := fun hne => absurd rfl hne
  have hscan := largestHole_ok hnil ha hstops (dvd_roundUp ha) (le_roundUp ha hstart)
    (fun r hr => absurd hr List.not_mem_nil) hbest
  simp only [dmemLargestHole, ← alignOf_eq] at hsize ⊢
  have hole := hscan hsize
  have hge := hole.ge
  have hpos : 0 < (largestHole (windowEnd total.toNat hi.toNat) (alignOf align)
      (roundUp (alignOf align) (if lo.toNat = 0 then kDmemBase else lo.toNat)) (0, 0)
      s.regions).1 := by
    refine Nat.lt_of_lt_of_le ?_ hge
    split
    · exact kDmemBase_pos
    · omega
  refine ⟨Nat.le_trans ?_ hge, hole.le, hole.between.free, fun memType =>
    dmemAllocate_of_hole total.toNat_lt ha (alignOf_lt align) hsize hpos hole⟩
  split
  · omega
  · exact Nat.le_refl _

theorem step_good {e : DmemEvent} (h : Regions total.toNat s.regions) (hok : Careful total s e) :
    Regions total.toNat (s.step total e).regions ∧ CallSound total s e (s.step total e) := by
  cases e with
  | allocate lo hi len align memType => exact allocate_good h hok
  | allocateMain len align memType => exact allocate_good h hok
  | release start len => exact release_good h hok
  | available lo hi align => exact ⟨h, available_good h hok⟩

instance (total : UInt64) (s : DmemPool) : DecidablePred (Careful total s)
  | .allocate lo hi len align _ =>
    inferInstanceAs (Decidable ((alignOf align).isPowerOfTwo →
      lo.toNat < windowEnd total.toNat hi.toNat → Reaches (alignOf align) len.toNat
        (if windowed total.toNat lo.toNat hi.toNat then lo.toNat else kDmemBase) ∧
      ∀ r ∈ s.regions, Reaches (alignOf align) len.toNat r.stop))
  | .allocateMain len align _ =>
    inferInstanceAs (Decidable ((alignOf align).isPowerOfTwo →
      0 < windowEnd total.toNat total.toNat → Reaches (alignOf align) len.toNat
        (if windowed total.toNat 0 total.toNat then 0 else kDmemBase) ∧
      ∀ r ∈ s.regions, Reaches (alignOf align) len.toNat r.stop))
  | .release start len =>
    inferInstanceAs (Decidable (start.toNat + len.toNat < 2 ^ 64 ∨ ∀ r ∈ s.regions, r.stop ≤ start.toNat))
  | .available lo _ align =>
    inferInstanceAs (Decidable ((alignOf align).isPowerOfTwo ∧
      (if lo.toNat = 0 then kDmemBase else lo.toNat) + (alignOf align - 1) < 2 ^ 64 ∧
      ∀ r ∈ s.regions, r.stop + (alignOf align - 1) < 2 ^ 64))

/-- Two allocations, a release that splits the first, and a query. -/
def heapRun : List DmemEvent :=
  [.allocateMain 0x200000 0 3, .allocate 0x20000000 0x30000000 0x8000 0x4000 0,
    .release 0x10008000 0x4000, .available 0 0 0]

end DmemPool

end Prosperity.Kern
