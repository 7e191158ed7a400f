import Mathlib.Data.List.Nodup
import Prosperity.Gpu.BufferCache

/-!
# Runs of the buffer cache

In every block the free extents, the live copies and the retired extents tile the block, whatever
the calls; an extent that is dropped stays retired for `kRetireFrames` frames; the live bytes are
counted exactly; and an invalidation drops the live copies that overlap its range and no others,
whichever of its two scans it takes.

The invariant counts how often a position of a block is covered. An extent that a call holds in its
hands, taken and not yet stored or about to be put back, is counted as `out`, so that each piece of a
call moves one extent from one of the four places to another.
-/

namespace Prosperity.Gpu

abbrev Placed : Type := ℕ × Extent

/-- How many of the extents contain the position `x` of block `i`. -/
def covering (l : List Placed) (i x : ℕ) : ℕ := l.countP fun p => p.1 = i ∧ p.2.Has x

theorem covering_cons (p : Placed) (l : List Placed) (i x : ℕ) :
    covering (p :: l) i x = covering l i x + if p.1 = i ∧ p.2.Has x then 1 else 0 := by
  rw [covering, List.countP_cons]
  simp [covering]

theorem covering_nil (i x : ℕ) : covering [] i x = 0 := rfl

theorem covering_append (l m : List Placed) (i x : ℕ) :
    covering (l ++ m) i x = covering l i x + covering m i x := List.countP_append

/-- Whether the copy is live and covers the position. -/
def CacheEntry.weight (i x : ℕ) (e : CacheEntry) : ℕ :=
  if e.bytes ≠ 0 ∧ e.block = i ∧ Extent.Has (e.offset, aligned e.bytes) x then 1
  else 0

def Retired.placed (r : Retired) : Placed := (r.block, r.offset, r.bytes)

namespace BufferCache

def freeOf (s : BufferCache) (i : ℕ) : List Extent := s.blocks.getD i []

def live (s : BufferCache) : List Placed :=
  (s.pool.filter fun e => e.bytes ≠ 0).map fun e => (e.block, e.offset, aligned e.bytes)

def extents (s : BufferCache) (i : ℕ) : List Extent :=
  s.freeOf i ++ ((s.live ++ s.retired.map Retired.placed).filter fun p => p.1 = i).map Prod.snd

/-- What every state promises. -/
structure Sound (s : BufferCache) : Prop where
  /-- The extents of a block have no position in common, and together they are the block. -/
  apart : ∀ i < s.blocks.length, (s.extents i).Pairwise fun a b => ∀ x, ¬(a.Has x ∧ b.Has x)
  tiles : ∀ i < s.blocks.length, ∀ x, (∃ e ∈ s.extents i, e.Has x) ↔ x < kBlockBytes
  aligned : ∀ i < s.blocks.length, ∀ e ∈ s.extents i, kAlign ∣ e.1 ∧ kAlign ∣ e.2
  placed : ∀ p ∈ s.live ++ s.retired.map Retired.placed, p.1 < s.blocks.length
  /-- What was dropped less than `kRetireFrames` frames ago is still retired, and so neither free
  nor of a live copy. -/
  withheld : ∀ r ∈ s.released, s.frameNum < r.frame + kRetireFrames → r ∈ s.retired
  bytes : s.liveBytes = (s.pool.map CacheEntry.bytes).sum

/-- An invalidation drops the live copies that overlap its range, and leaves all else in the
pool. -/
def StepSound (s : BufferCache) (c : CacheCall) (s' : BufferCache) : Prop :=
  match c with
  | .invalidate first end_ _ => s'.pool = s.pool.map fun e =>
      if max first e.base < min end_ (e.base + e.bytes) then { e with bytes := 0 } else e
  | _ => True

/-! ## The invariant -/

def Fits (e : Extent) : Prop := kAlign ∣ e.1 ∧ kAlign ∣ e.2 ∧ e.1 + e.2 ≤ kBlockBytes

def FreeFits (e : Extent) : Prop := Fits e ∧ (e.2 = 0 → e.1 = kBlockBytes)

def Indexed (index : List (ℕ × List ℕ)) (b handle : ℕ) : Prop :=
  ∃ handles, (b, handles) ∈ index ∧ handle ∈ handles

/-- The invariant, with the extents that a call holds in its hands. -/
structure Inv (out : List Placed) (s : BufferCache) : Prop where
  parted : ∀ i, Parted (s.freeOf i)
  freeFits : ∀ i, ∀ e ∈ s.freeOf i, FreeFits e
  count : ∀ i < s.blocks.length, ∀ x,
    cover (s.freeOf i) x + covering s.live i x + covering (s.retired.map Retired.placed) i x +
      covering out i x = if x < kBlockBytes then 1 else 0
  placed : ∀ p ∈ s.live ++ s.retired.map Retired.placed ++ out, p.1 < s.blocks.length ∧ Fits p.2 ∧ 0 < p.2.2
  byBase : ∀ b handle, (b, handle) ∈ s.byBase ↔
    handle < s.pool.length ∧ (s.entry handle).bytes ≠ 0 ∧ (s.entry handle).base = b
  keys : (s.byBase.map Prod.fst).Nodup
  handles : s.freeHandles.Nodup ∧ ∀ handle ∈ s.freeHandles, handle < s.pool.length ∧ (s.entry handle).bytes = 0
  indexed : ∀ handle < s.pool.length, (s.entry handle).bytes ≠ 0 →
    ∀ b ∈ indexBlocks (s.entry handle), Indexed s.index b handle
  indexKeys : (s.index.map Prod.fst).Nodup
  bytes : s.liveBytes = (s.pool.map CacheEntry.bytes).sum
  withheld : ∀ r ∈ s.released, s.frameNum < r.frame + kRetireFrames → r ∈ s.retired

variable {s : BufferCache} {out : List Placed}

/-! ## The pool -/

theorem getD_set {α : Type*} (l : List α) (i k : ℕ) (a d : α) (hi : i < l.length) :
    (l.set i a).getD k d = if k = i then a else l.getD k d := by
  rw [List.getD_eq_getElem?_getD, List.getD_eq_getElem?_getD, List.getElem?_set]
  by_cases hki : i = k
  · rw [if_pos hki, if_pos hi, if_pos hki.symm]
    rfl
  · rw [if_neg hki, if_neg (Ne.symm hki)]

theorem getD_concat {α : Type*} (l : List α) (k : ℕ) (a d : α) :
    (l ++ [a]).getD k d = if k = l.length then a else l.getD k d := by
  rcases Nat.lt_trichotomy k l.length with hk | rfl | hk
  · rw [if_neg (Nat.ne_of_lt hk), List.getD_append _ _ _ _ hk]
  · rw [if_pos rfl, List.getD_append_right _ _ _ _ (Nat.le_refl _), Nat.sub_self]
    rfl
  · rw [if_neg (Nat.ne_of_gt hk), List.getD_eq_default _ _ (Nat.le_of_lt hk)]
    refine List.getD_eq_default _ _ ?_
    rw [List.length_append]
    exact hk

variable {i handle k bytes b o : ℕ} {index : List (ℕ × List ℕ)}

theorem sum_map_set {α : Type*} (f : α → ℕ) (l : List α) (d : α) (hi : i < l.length)
    (a : α) : ((l.set i a).map f).sum + f (l.getD i d) = (l.map f).sum + f a := by
  induction l generalizing i with
  | nil => cases hi
  | cons b l ih =>
    cases i with
    | zero => simp [Nat.add_comm, Nat.add_left_comm]
    | succ i =>
      have h := ih (Nat.lt_of_succ_lt_succ hi)
      simp only [List.set_cons_succ, List.map_cons, List.sum_cons, List.getD_cons_succ]
      omega

theorem covering_live (s : BufferCache) (i x : ℕ) : covering s.live i x = (s.pool.map (CacheEntry.weight i x)).sum := by
  unfold live
  induction s.pool with
  | nil => rfl
  | cons e es ih =>
    rw [List.map_cons, List.sum_cons, ← ih, Nat.add_comm, CacheEntry.weight]
    by_cases he : e.bytes = 0
    · rw [List.filter_cons_of_neg (by simpa using he), if_neg (by simp [he])]
      rfl
    · rw [List.filter_cons_of_pos (by simpa using he), List.map_cons, covering_cons]
      simp [he]

theorem covering_live_set (hlt : handle < s.pool.length) {t : BufferCache}
    {e : CacheEntry} (hpool : t.pool = s.pool.set handle e) (i x : ℕ) :
    covering t.live i x + (s.entry handle).weight i x = covering s.live i x + e.weight i x := by
  rw [covering_live, covering_live, hpool]
  exact sum_map_set _ _ _ hlt _

theorem entry_set (hlt : handle < s.pool.length) {t : BufferCache}
    {e : CacheEntry} (hpool : t.pool = s.pool.set handle e) (k : ℕ) :
    t.entry k = if k = handle then e else s.entry k := by
  rw [entry, hpool]
  exact getD_set _ _ _ _ _ hlt

theorem entry_eq_getElem (hk : k < s.pool.length) : s.entry k = s.pool[k] := by
  rw [entry, List.getD_eq_getElem?_getD, List.getElem?_eq_getElem hk, Option.getD_some]

theorem mem_live {p : Placed} : p ∈ s.live ↔ ∃ k < s.pool.length, (s.entry k).bytes ≠ 0 ∧
    p = ((s.entry k).block, (s.entry k).offset, aligned (s.entry k).bytes) := by
  simp only [live, List.mem_map, List.mem_filter, decide_eq_true_eq]
  constructor
  · rintro ⟨e, ⟨hmem, he⟩, rfl⟩
    obtain ⟨k, hk, rfl⟩ := List.getElem_of_mem hmem
    refine ⟨k, hk, ?_⟩
    rw [entry_eq_getElem hk]
    exact ⟨he, rfl⟩
  · rintro ⟨k, hk, he, rfl⟩
    refine ⟨s.entry k, ⟨?_, he⟩, rfl⟩
    rw [entry_eq_getElem hk]
    exact List.getElem_mem hk

theorem Inv.base_unique (h : Inv out s) {j : ℕ} (hj : j < s.pool.length)
    (hk : k < s.pool.length) (hjl : (s.entry j).bytes ≠ 0) (hkl : (s.entry k).bytes ≠ 0)
    (hbase : (s.entry j).base = (s.entry k).base) : j = k := by
  have hjm := (h.byBase _ j).mpr ⟨hj, hjl, hbase⟩
  have hkm := (h.byBase _ k).mpr ⟨hk, hkl, rfl⟩
  have hpair := (List.inj_on_of_nodup_map h.keys) hjm hkm rfl
  exact (Prod.mk.inj hpair).2

/-! ## Dropping a copy -/

/-- **A drop** moves the extent of a live copy to the retired ones. -/
theorem Inv.drop (h : Inv out s) (hlt : handle < s.pool.length)
    (hlive : (s.entry handle).bytes ≠ 0) : Inv out (s.drop handle) := by
  have hentry : ∀ k, (s.drop handle).entry k =
      if k = handle then { s.entry handle with bytes := 0 } else s.entry k := entry_set hlt rfl
  have hother : ∀ k, ((s.drop handle).entry k).bytes ≠ 0 →
      k ≠ handle ∧ (s.drop handle).entry k = s.entry k := by
    intro k hk
    rw [hentry] at hk ⊢
    split_ifs at hk ⊢ with hkh
    · exact absurd rfl hk
    · exact ⟨hkh, rfl⟩
  have hlen : (s.drop handle).pool.length = s.pool.length := List.length_set
  have hself : ((s.entry handle).block, (s.entry handle).offset, aligned (s.entry handle).bytes) ∈
      s.live := mem_live.mpr ⟨handle, hlt, hlive, rfl⟩
  refine ⟨h.parted, h.freeFits, fun i hi x => ?_, fun p hp => ?_, fun b k => ?_,
    h.keys.sublist (List.filter_sublist.map _), ⟨List.nodup_cons.mpr ⟨fun hmem => ?_, h.handles.1⟩,
    fun k hk => ?_⟩, fun k hk hkl b hb => ?_, h.indexKeys, ?_, fun r hr hframe => ?_⟩
  · have hcount := h.count i hi x
    have hset := covering_live_set hlt (t := s.drop handle) rfl i x
    have hzero : CacheEntry.weight i x { s.entry handle with bytes := 0 } = 0 := if_neg (by simp)
    rw [hzero, CacheEntry.weight] at hset
    simp only [ne_eq, hlive, not_false_eq_true, true_and] at hset
    have hretired : covering ((s.drop handle).retired.map Retired.placed) i x =
        covering (s.retired.map Retired.placed) i x + if (s.entry handle).block = i ∧
            Extent.Has ((s.entry handle).offset, aligned (s.entry handle).bytes) x
          then 1 else 0 := by
      show covering ((s.retired ++ [_]).map Retired.placed) i x = _
      rw [List.map_append, covering_append, List.map_singleton, covering_cons, covering_nil, Nat.zero_add]
      rfl
    have hfree : (s.drop handle).freeOf i = s.freeOf i := rfl
    rw [hretired, hfree]
    omega
  · refine h.placed p ?_
    rcases List.mem_append.mp hp with hp | hp
    · refine List.mem_append_left _ ?_
      rcases List.mem_append.mp hp with hp | hp
      · obtain ⟨k, hk, hkl, rfl⟩ := mem_live.mp hp
        obtain ⟨-, heq⟩ := hother k hkl
        rw [heq] at hkl ⊢
        exact List.mem_append_left _ (mem_live.mpr ⟨k, hlen ▸ hk, hkl, rfl⟩)
      · obtain ⟨r, hr, rfl⟩ := List.mem_map.mp hp
        rcases List.mem_append.mp hr with hr | hr
        · exact List.mem_append_right _ (List.mem_map_of_mem hr)
        · rw [List.mem_singleton.mp hr]
          exact List.mem_append_left _ hself
    · exact List.mem_append_right _ hp
  · show (b, k) ∈ s.byBase.filter (fun p => p.1 ≠ (s.entry handle).base) ↔ _
    rw [List.mem_filter, h.byBase, hlen, hentry]
    split_ifs with hkh
    · subst hkh
      simp only [decide_eq_true_eq, ne_eq, not_true_eq_false, false_and, and_false, iff_false]
      rintro ⟨⟨-, -, hb⟩, hne⟩
      exact hne hb.symm
    · constructor
      · exact fun hb => hb.1
      · rintro ⟨hk, hkl, hb⟩
        refine ⟨⟨hk, hkl, hb⟩, ?_⟩
        -- Another live copy has another base.
        simp only [ne_eq, decide_eq_true_eq]
        rintro rfl
        exact hkh (h.base_unique hk hlt hkl hlive hb)
  · exact hlive (h.handles.2 handle hmem).2
  · rw [hlen]
    rcases List.mem_cons.mp hk with rfl | hk
    · rw [hentry, if_pos rfl]
      exact ⟨hlt, rfl⟩
    · obtain ⟨hkl, hzero⟩ := h.handles.2 k hk
      rw [hentry]
      split_ifs
      · exact ⟨hkl, rfl⟩
      · exact ⟨hkl, hzero⟩
  · obtain ⟨-, heq⟩ := hother k hkl
    rw [heq] at hkl hb
    exact h.indexed k (hlen ▸ hk) hkl b hb
  · have hsum : ((s.drop handle).pool.map CacheEntry.bytes).sum + (s.entry handle).bytes =
        (s.pool.map CacheEntry.bytes).sum + 0 := sum_map_set _ _ _ hlt _
    have hbytes := h.bytes
    show s.liveBytes - (s.entry handle).bytes = _
    omega
  · rcases List.mem_append.mp hr with hr | hr
    · exact List.mem_append_left _ (h.withheld r hr hframe)
    · exact List.mem_append_right _ hr

/-! ## Taking and putting back extents -/

theorem covering_eq_zero {l : List Placed} (h : ∀ p ∈ l, p.1 ≠ i) (x : ℕ) : covering l i x = 0 :=
  List.countP_eq_zero.mpr fun p hp => by simp [h p hp]

theorem Inv.withBlocks (h : Inv out s) {blocks : List (List Extent)} {out' : List Placed}
    (hparted : ∀ i, Parted (blocks.getD i [])) (hfits : ∀ i, ∀ e ∈ blocks.getD i [], FreeFits e)
    (hcount : ∀ i < blocks.length, ∀ x, cover (blocks.getD i []) x + covering s.live i x +
        covering (s.retired.map Retired.placed) i x + covering out' i x = if x < kBlockBytes then 1 else 0)
    (hplaced : ∀ p ∈ s.live ++ s.retired.map Retired.placed ++ out',
      p.1 < blocks.length ∧ Fits p.2 ∧ 0 < p.2.2) : Inv out' { s with blocks := blocks } where
  parted := hparted
  freeFits := hfits
  count := hcount
  placed := hplaced
  byBase := h.byBase
  keys := h.keys
  handles := h.handles
  indexed := h.indexed
  indexKeys := h.indexKeys
  bytes := h.bytes
  withheld := h.withheld

theorem dvd_aligned (bytes : ℕ) : kAlign ∣ aligned bytes := dvd_alignUp (k := 8) bytes

theorem aligned_pos (h : bytes ≠ 0) : 0 < aligned bytes :=
  Nat.lt_of_lt_of_le (Nat.pos_of_ne_zero h) (le_alignUp (k := 8) bytes)

theorem allocateIn_spec {ls ls' : List (List Extent)} (h : allocateIn bytes ls = some (b, o, ls')) :
    b < ls.length ∧ ∃ l', takeFirst bytes (ls.getD b []) = some (o, l') ∧ ls' = ls.set b l' := by
  induction ls generalizing b ls' with
  | nil => cases h
  | cons l ls ih =>
    unfold allocateIn at h
    split at h
    case h_1 hl =>
      cases h
      exact ⟨Nat.succ_pos _, _, hl, rfl⟩
    case h_2 =>
      obtain ⟨⟨b', o', rest⟩, hr, heq⟩ := Option.map_eq_some_iff.mp h
      cases heq
      obtain ⟨hlt, l', htake, rfl⟩ := ih hr
      exact ⟨Nat.succ_lt_succ hlt, l', htake, rfl⟩

theorem covering_cons_ne (h : b ≠ i) (e : Extent) (l : List Placed) (x : ℕ) :
    covering ((b, e) :: l) i x = covering l i x := by
  rw [covering_cons, if_neg fun hp => h hp.1, Nat.add_zero]

theorem covering_cons_self (b : ℕ) (e : Extent) (l : List Placed) (x : ℕ) :
    covering ((b, e) :: l) b x = covering l b x + if e.Has x then 1 else 0 := by
  rw [covering_cons]
  simp

theorem Inv.takeFree (h : Inv out s) {blocks : List (List Extent)} (hbytes : bytes ≠ 0)
    (hin : allocateIn (aligned bytes) s.blocks = some (b, o, blocks)) :
    Inv ((b, o, aligned bytes) :: out) { s with blocks := blocks } := by
  have hpos := aligned_pos hbytes
  obtain ⟨hlt, l', htake, rfl⟩ := allocateIn_spec hin
  obtain ⟨hparted, hcover, left, hmem, hl'⟩ := takeFirst_spec (h.parted b) hpos htake
  obtain ⟨⟨ho, hd, hend⟩, -⟩ := h.freeFits b _ hmem
  dsimp only at ho hd hend
  have hdleft : kAlign ∣ left := (Nat.dvd_add_right (dvd_aligned bytes)).mp hd
  have hget : ∀ i, (s.blocks.set b l').getD i [] = if i = b then l' else s.freeOf i :=
    fun i => getD_set _ _ _ _ _ hlt
  refine h.withBlocks (fun i => ?_) (fun i e he => ?_) (fun i hi x => ?_) (fun p hp => ?_)
  · rw [hget]
    split_ifs
    · exact hparted
    · exact h.parted i
  · rw [hget] at he
    split_ifs at he
    · rcases hl' e he with he | ⟨hleft, rfl⟩
      · exact h.freeFits b e he
      · refine ⟨⟨Nat.dvd_add ho (dvd_aligned bytes), hdleft, ?_⟩, fun hzero => ?_⟩
        · dsimp only
          omega
        · exact absurd hzero (Nat.ne_of_gt hleft)
    · exact h.freeFits i e he
  · rw [List.length_set] at hi
    have hcount := h.count i hi x
    rw [hget]
    by_cases hib : i = b
    · subst hib
      have hc := hcover x
      change _ = cover (s.freeOf i) x at hc
      rw [if_pos rfl, covering_cons_self]
      omega
    · rw [if_neg hib, covering_cons_ne (Ne.symm hib)]
      exact hcount
  · rw [List.length_set]
    rcases List.mem_append.mp hp with hp | hp
    · exact h.placed p (List.mem_append_left _ hp)
    · rcases List.mem_cons.mp hp with rfl | hp
      · refine ⟨hlt, ⟨ho, dvd_aligned bytes, ?_⟩, hpos⟩
        dsimp only
        omega
      · exact h.placed p (List.mem_append_right _ hp)

theorem Inv.newBlock (h : Inv out s) (hbytes : bytes ≠ 0) (hle : aligned bytes ≤ kBlockBytes) :
    Inv ((s.blocks.length, 0, aligned bytes) :: out)
      { s with blocks := s.blocks ++ [[(aligned bytes, kBlockBytes - aligned bytes)]] } := by
  have hrest : kAlign ∣ kBlockBytes - aligned bytes := Nat.dvd_sub (by decide) (dvd_aligned bytes)
  have hget : ∀ i, (s.blocks ++ [[(aligned bytes, kBlockBytes - aligned bytes)]]).getD i [] =
      if i = s.blocks.length then [(aligned bytes, kBlockBytes - aligned bytes)] else s.freeOf i :=
    fun i => getD_concat _ _ _ _
  refine h.withBlocks (fun i => ?_) (fun i e he => ?_) (fun i hi x => ?_) (fun p hp => ?_)
  · rw [hget]
    split_ifs
    · exact List.pairwise_singleton _ _
    · exact h.parted i
  · rw [hget] at he
    split_ifs at he
    · rw [List.mem_singleton.mp he]
      refine ⟨⟨dvd_aligned bytes, hrest, ?_⟩, fun hzero => ?_⟩
      · dsimp only
        omega
      · dsimp only at hzero ⊢
        omega
    · exact h.freeFits i e he
  · rw [hget]
    by_cases hib : i = s.blocks.length
    · -- nothing else is placed in the new block
      subst hib
      have hold : ∀ p ∈ s.live ++ s.retired.map Retired.placed ++ out,
          p.1 ≠ s.blocks.length := fun p hp => Nat.ne_of_lt (h.placed p hp).1
      rw [if_pos rfl, covering_cons_self, covering_eq_zero (l := s.live) fun p hp => hold p (by simp [hp]),
        covering_eq_zero (l := s.retired.map Retired.placed) fun p hp =>
          hold p (List.mem_append_left _ (List.mem_append_right _ hp)),
        covering_eq_zero (l := out) fun p hp => hold p (List.mem_append_right _ hp),
        cover_cons]
      have hjoin := ite_has_join 0 (aligned bytes) (kBlockBytes - aligned bytes) x
      rw [Nat.add_sub_cancel' hle, Nat.zero_add] at hjoin
      have hblock : Extent.Has (0, kBlockBytes) x ↔ x < kBlockBytes := by simp [Extent.Has]
      rw [← if_congr hblock rfl rfl, hjoin]
      simp [cover, Nat.add_comm]
    · rw [if_neg hib, covering_cons_ne (Ne.symm hib)]
      refine h.count i ?_ x
      rw [List.length_append, List.length_singleton] at hi
      omega
  · rw [List.length_append, List.length_singleton]
    have hold : ∀ q ∈ s.live ++ s.retired.map Retired.placed ++ out,
        q.1 < s.blocks.length + 1 ∧ Fits q.2 ∧ 0 < q.2.2 := fun q hq =>
      ⟨Nat.lt_succ_of_lt (h.placed q hq).1, (h.placed q hq).2⟩
    rcases List.mem_append.mp hp with hp | hp
    · exact hold p (List.mem_append_left _ hp)
    · rcases List.mem_cons.mp hp with rfl | hp
      · refine ⟨Nat.lt_succ_self _, ⟨Nat.dvd_zero _, dvd_aligned bytes, ?_⟩, aligned_pos hbytes⟩
        dsimp only
        omega
      · exact hold p (List.mem_append_right _ hp)

/-- **An extent taken** is one in hand. -/
theorem Inv.allocate (h : Inv out s) {budget : ℕ} {created : Bool} {s' : BufferCache}
    (hbytes : bytes ≠ 0) (ha : s.allocate budget created bytes = some (b, o, s')) :
    Inv ((b, o, aligned bytes) :: out) s' := by
  unfold BufferCache.allocate at ha
  split at ha
  · cases ha
  rename_i hroom
  split at ha
  case h_1 hin =>
    cases ha
    exact h.takeFree hbytes hin
  case h_2 =>
    split at ha
    · cases ha
    split at ha
    · cases ha
      exact h.newBlock hbytes (Nat.le_of_not_lt hroom)
    · cases ha

theorem joinClosed_freeFits : JoinClosed FreeFits := by
  rintro a n m ⟨⟨ha, hn, -⟩, hzero⟩ ⟨⟨-, hm, hend⟩, -⟩
  refine ⟨⟨ha, Nat.dvd_add hn hm, ?_⟩, fun h => hzero ?_⟩
  · rw [← Nat.add_assoc]
    exact hend
  · exact Nat.eq_zero_of_add_eq_zero_right h

/-- **An extent put back** is free. -/
theorem Inv.free {e : Extent} (h : Inv ((b, e) :: out) s) : Inv out (s.free b e.1 e.2) := by
  obtain ⟨hlt, hfits, hpos⟩ := h.placed (b, e) (List.mem_append_right _ (List.mem_cons_self ..))
  dsimp only at hlt hfits hpos
  have hcount := h.count b hlt
  simp only [covering_cons_self] at hcount
  -- Nothing that is free overlaps the extent, and what is empty is behind it.
  have happ : ∀ a ∈ s.freeOf b, e.Apart a := by
    intro a ha
    rcases Nat.eq_zero_or_pos a.2 with hzero | ha2
    · have hend := (h.freeFits b a ha).2 hzero
      have hle := hfits.2.2
      exact .inl ⟨by omega, by omega⟩
    · refine apart_of_disjoint hpos ha2 fun x hx => ?_
      have hx' := hcount x
      have hone : 0 < cover (s.freeOf b) x := List.countP_pos_iff.mpr ⟨a, ha, by simpa using hx.2⟩
      rw [if_pos hx.1] at hx'
      split_ifs at hx'
      all_goals omega
  have hget : ∀ i, (s.blocks.modify b fun l => release l (e.1, e.2)).getD i [] =
      if i = b then release (s.freeOf b) e else s.freeOf i := by
    intro i
    rw [List.getD_eq_getElem?_getD, List.getElem?_modify, freeOf, freeOf,
      List.getD_eq_getElem?_getD, List.getD_eq_getElem?_getD]
    by_cases hib : i = b
    · subst hib
      simp [List.getElem?_eq_getElem hlt]
    · simp [hib, Ne.symm hib]
  refine h.withBlocks (fun i => ?_) (fun i a ha => ?_) (fun i hi x => ?_) (fun p hp => ?_)
  · rw [hget]
    split_ifs
    · exact (h.parted b).release happ
    · exact h.parted i
  · rw [hget] at ha
    split_ifs at ha
    · exact forall_release joinClosed_freeFits (h.parted b) happ (h.freeFits b)
        ⟨hfits, fun hzero => absurd hzero (Nat.ne_of_gt hpos)⟩ a ha
    · exact h.freeFits i a ha
  · rw [List.length_modify] at hi
    rw [hget]
    by_cases hib : i = b
    · subst hib
      have hx := hcount x
      rw [if_pos rfl, cover_release (h.parted i) happ]
      omega
    · have hx := h.count i hi x
      rw [if_neg hib]
      rwa [covering_cons_ne (Ne.symm hib)] at hx
  · rw [List.length_modify]
    refine h.placed p ?_
    rcases List.mem_append.mp hp with hp | hp
    · exact List.mem_append_left _ hp
    · exact List.mem_append_right _ (List.mem_cons_of_mem _ hp)

def due (frame : ℕ) (rs : List Retired) : List Placed :=
  (rs.filter fun r => r.frame + kRetireFrames ≤ frame).map Retired.placed

theorem Inv.foldl_free {frame : ℕ} {rs : List Retired} (h : Inv (due frame rs) s) : Inv [] (rs.foldl (fun t r =>
      if r.frame + kRetireFrames ≤ frame then t.free r.block r.offset r.bytes else t) s) := by
  induction rs generalizing s with
  | nil => exact h
  | cons r rs ih =>
    rw [List.foldl_cons]
    by_cases hdue : r.frame + kRetireFrames ≤ frame
    · rw [if_pos hdue]
      rw [due, List.filter_cons_of_pos (by simpa using hdue), List.map_cons] at h
      exact ih h.free
    · rw [if_neg hdue]
      rw [due, List.filter_cons_of_neg (by simpa using hdue)] at h
      exact ih h

theorem mem_due {frame : ℕ} {rs : List Retired} {p : Placed} (h : p ∈ due frame rs) :
    p ∈ rs.map Retired.placed := (List.filter_sublist.map _).subset h

theorem covering_due (frame : ℕ) (rs : List Retired) (i x : ℕ) :
    covering ((rs.filter fun r => frame < r.frame + kRetireFrames).map Retired.placed) i x +
      covering (due frame rs) i x = covering (rs.map Retired.placed) i x := by
  induction rs with
  | nil => rfl
  | cons r rs ih =>
    rw [due] at ih ⊢
    by_cases hdue : r.frame + kRetireFrames ≤ frame
    · rw [List.filter_cons_of_neg (by simpa using hdue),
        List.filter_cons_of_pos (by simpa using hdue), List.map_cons, List.map_cons, covering_cons,
        covering_cons, ← ih, Nat.add_assoc]
    · rw [List.filter_cons_of_pos (by simpa using Nat.lt_of_not_le hdue),
        List.filter_cons_of_neg (by simpa using hdue), List.map_cons, List.map_cons, covering_cons,
        covering_cons, ← ih, Nat.add_right_comm]

theorem Inv.freeRetired (h : Inv [] s) : Inv [] s.freeRetired := by
  refine Inv.foldl_free ⟨h.parted, h.freeFits, fun i hi x => ?_, fun p hp => h.placed p ?_,
    h.byBase, h.keys, h.handles, h.indexed, h.indexKeys, h.bytes, fun r hr hframe => ?_⟩
  · have hcount := h.count i hi x
    have hdue := covering_due s.frameNum s.retired i x
    rw [covering_nil] at hcount
    change cover (s.freeOf i) x + covering s.live i x + covering (List.map _ (List.filter _ _)) i x + _ = _
    omega
  · rw [List.append_nil]
    rcases List.mem_append.mp hp with hp | hp
    · rcases List.mem_append.mp hp with hp | hp
      · exact List.mem_append_left _ hp
      · exact List.mem_append_right _ ((List.filter_sublist.map _).subset hp)
    · exact List.mem_append_right _ (mem_due hp)
  · exact List.mem_filter.mpr ⟨h.withheld r hr hframe, by simpa using hframe⟩

/-! ## The index -/

theorem indexed_pushIndex {b' handle' : ℕ} (h : Indexed index b' handle' ∨ b' = b ∧ handle' = handle) :
    Indexed (pushIndex handle index b) b' handle' := by
  induction index with
  | nil =>
    rcases h with ⟨_, hmem, -⟩ | ⟨rfl, rfl⟩
    · cases hmem
    · exact ⟨[handle'], List.mem_singleton_self _, List.mem_singleton_self _⟩
  | cons entry rest ih =>
    obtain ⟨k, handles⟩ := entry
    unfold pushIndex
    split_ifs with hk
    · subst hk
      rcases h with ⟨l, hmem, hl⟩ | ⟨rfl, rfl⟩
      · rcases List.mem_cons.mp hmem with heq | hmem
        · cases heq
          exact ⟨_, List.mem_cons_self .., List.mem_append_left _ hl⟩
        · exact ⟨l, List.mem_cons_of_mem _ hmem, hl⟩
      · exact ⟨_, List.mem_cons_self .., List.mem_append_right _ (List.mem_singleton_self _)⟩
    · rcases h with ⟨l, hmem, hl⟩ | h
      · rcases List.mem_cons.mp hmem with heq | hmem
        · cases heq
          exact ⟨_, List.mem_cons_self .., hl⟩
        · obtain ⟨l', hmem', hl'⟩ := ih (.inl ⟨l, hmem, hl⟩)
          exact ⟨l', List.mem_cons_of_mem _ hmem', hl'⟩
      · obtain ⟨l', hmem', hl'⟩ := ih (.inr h)
        exact ⟨l', List.mem_cons_of_mem _ hmem', hl'⟩

theorem mem_keys_pushIndex (h : k ∈ (pushIndex handle index b).map Prod.fst) : k ∈ index.map Prod.fst ∨ k = b := by
  induction index with
  | nil => exact .inr (List.mem_singleton.mp h)
  | cons entry rest ih =>
    rw [pushIndex] at h
    split_ifs at h
    · exact .inl h
    · rcases List.mem_cons.mp h with rfl | h
      · exact .inl (List.mem_cons_self ..)
      · exact (ih h).imp_left (List.mem_cons_of_mem _)

theorem nodup_keys_pushIndex (h : (index.map Prod.fst).Nodup)
    (handle b : ℕ) : ((pushIndex handle index b).map Prod.fst).Nodup := by
  induction index with
  | nil => exact List.nodup_singleton _
  | cons entry rest ih =>
    obtain ⟨hnot, hrest⟩ := List.nodup_cons.mp h
    rw [pushIndex]
    split_ifs with hk
    · exact h
    · refine List.nodup_cons.mpr ⟨fun hmem => ?_, ih hrest⟩
      exact (mem_keys_pushIndex hmem).elim hnot hk

theorem foldl_pushIndex (handle : ℕ) (bs : List ℕ) (index : List (ℕ × List ℕ)) :
    ((index.map Prod.fst).Nodup → ((bs.foldl (pushIndex handle) index).map Prod.fst).Nodup) ∧
      (∀ b k, Indexed index b k → Indexed (bs.foldl (pushIndex handle) index) b k) ∧
        ∀ b ∈ bs, Indexed (bs.foldl (pushIndex handle) index) b handle := by
  induction bs generalizing index with
  | nil =>
    refine ⟨id, fun _ _ => id, ?_⟩
    intro b hb
    cases hb
  | cons c bs ih =>
    obtain ⟨hkeys, hkept, hpushed⟩ := ih (pushIndex handle index c)
    refine ⟨fun h => hkeys (nodup_keys_pushIndex h handle c), fun b k h => ?_, fun b hb => ?_⟩
    · exact hkept b k (indexed_pushIndex (.inl h))
    · rcases List.mem_cons.mp hb with rfl | hb
      · exact hkept b handle (indexed_pushIndex (.inr ⟨rfl, rfl⟩))
      · exact hpushed b hb

theorem Inv.withIndex (h : Inv out s) (hindexed : ∀ handle < s.pool.length, (s.entry handle).bytes ≠ 0 →
      ∀ b ∈ indexBlocks (s.entry handle), Indexed index b handle)
    (hkeys : (index.map Prod.fst).Nodup) : Inv out { s with index := index } where
  parted := h.parted
  freeFits := h.freeFits
  count := h.count
  placed := h.placed
  byBase := h.byBase
  keys := h.keys
  handles := h.handles
  indexed := hindexed
  indexKeys := hkeys
  bytes := h.bytes
  withheld := h.withheld

theorem foldl_indexHandle (hs : List ℕ) (s : BufferCache) :
    ∃ index, hs.foldl (fun t k => if (t.entry k).bytes ≠ 0 then t.indexHandle k else t) s =
        { s with index := index } ∧
      ((s.index.map Prod.fst).Nodup → (index.map Prod.fst).Nodup) ∧
      (∀ b k, Indexed s.index b k → Indexed index b k) ∧
      ∀ k ∈ hs, (s.entry k).bytes ≠ 0 → ∀ b ∈ indexBlocks (s.entry k), Indexed index b k := by
  induction hs generalizing s with
  | nil =>
    refine ⟨s.index, rfl, id, fun _ _ => id, ?_⟩
    intro k hk
    cases hk
  | cons c hs ih =>
    rw [List.foldl_cons]
    by_cases hc : (s.entry c).bytes ≠ 0
    · obtain ⟨hkeys, hkept, hpushed⟩ := foldl_pushIndex c (indexBlocks (s.entry c)) s.index
      obtain ⟨index, heq, hkeys', hkept', hlive⟩ := ih (s.indexHandle c)
      rw [if_pos hc]
      refine ⟨index, heq, fun h => hkeys' (hkeys h), fun b k h => hkept' b k (hkept b k h),
        fun k hk hkl b hb => ?_⟩
      rcases List.mem_cons.mp hk with rfl | hk
      · exact hkept' b k (hpushed b hb)
      · exact hlive k hk hkl b hb
    · obtain ⟨index, heq, hkeys, hkept, hlive⟩ := ih s
      rw [if_neg hc]
      refine ⟨index, heq, hkeys, hkept, fun k hk hkl => ?_⟩
      rcases List.mem_cons.mp hk with rfl | hk
      · exact absurd hkl hc
      · exact hlive k hk hkl

theorem Inv.rebuildIndex (h : Inv out s) : Inv out s.rebuildIndex := by
  obtain ⟨index, heq, hkeys, -, hlive⟩ :=
    foldl_indexHandle (List.range s.pool.length) { s with index := [] }
  rw [BufferCache.rebuildIndex, heq]
  refine h.withIndex (fun k hk hkl b hb => ?_) (hkeys List.nodup_nil)
  exact hlive k (List.mem_range.mpr hk) hkl b hb

/-! ## A copy looked up -/

theorem map_set_of_eq {α β : Type*} (f : α → β) (l : List α) (hi : i < l.length) {a d : α}
    (h : f a = f (l.getD i d)) : (l.set i a).map f = l.map f := by
  rw [List.getD_eq_getElem?_getD, List.getElem?_eq_getElem hi, Option.getD_some] at h
  rw [List.map_set, h, ← List.getElem_map f (h := by rwa [List.length_map])]
  exact List.set_getElem_self _

def touch (s : BufferCache) (handle frame : ℕ) : BufferCache :=
  { s with pool := s.pool.set handle { s.entry handle with lastUsed := frame } }

theorem entry_touch (hlt : handle < s.pool.length) (frame k : ℕ) :
    (s.touch handle frame).entry k = { s.entry k with
      lastUsed := if k = handle then frame else (s.entry k).lastUsed } := by
  rw [entry_set hlt rfl]
  split_ifs with hk
  · rw [hk]
  · rfl

theorem Inv.touch (h : Inv out s) (handle frame : ℕ) : Inv out (s.touch handle frame) := by
  rcases Nat.lt_or_ge handle s.pool.length with hlt | hge
  · have hlen : (s.touch handle frame).pool.length = s.pool.length := List.length_set
    have hentry := entry_touch (s := s) hlt frame
    refine ⟨h.parted, h.freeFits, fun i hi x => ?_, fun p hp => h.placed p ?_, fun b k => ?_, h.keys,
      ⟨h.handles.1, fun k hk => ?_⟩, fun k hk hkl b hb => ?_, h.indexKeys, ?_, h.withheld⟩
    · have hcount := h.count i hi x
      have hweight : (s.touch handle frame).pool.map (CacheEntry.weight i x) =
          s.pool.map (CacheEntry.weight i x) := map_set_of_eq _ _ hlt (d := default) rfl
      rw [covering_live] at hcount ⊢
      rw [hweight]
      exact hcount
    · rcases List.mem_append.mp hp with hp | hp
      · refine List.mem_append_left _ ?_
        rcases List.mem_append.mp hp with hp | hp
        · obtain ⟨k, hk, hkl, rfl⟩ := mem_live.mp hp
          rw [hentry] at hkl ⊢
          exact List.mem_append_left _ (mem_live.mpr ⟨k, hlen ▸ hk, hkl, rfl⟩)
        · exact List.mem_append_right _ hp
      · exact List.mem_append_right _ hp
    · rw [hlen, hentry]
      exact h.byBase b k
    · rw [hlen, hentry]
      exact h.handles.2 k hk
    · rw [hentry] at hkl hb
      exact h.indexed k (hlen ▸ hk) hkl b hb
    · have hbytes : (s.touch handle frame).pool.map CacheEntry.bytes =
          s.pool.map CacheEntry.bytes := map_set_of_eq _ _ hlt (d := default) rfl
      rw [hbytes]
      exact h.bytes
  · have hsame : s.touch handle frame = s := by
      rw [BufferCache.touch, List.set_eq_of_length_le hge]
    rw [hsame]
    exact h

theorem Inv.findCachedBuffer (h : Inv out s) (base bytes : ℕ) (dirty : Bool) :
    Inv out (s.findCachedBuffer base bytes dirty) := by
  unfold BufferCache.findCachedBuffer
  split
  case h_1 handle _ =>
    dsimp only
    split_ifs
    · exact h
    · exact h.touch handle s.frameNum
  case h_2 => exact h

/-! ## A new copy -/

structure Fresh (s : BufferCache) (handle : ℕ) : Prop where
  lt : handle < s.pool.length
  dead : (s.entry handle).bytes = 0
  taken : handle ∉ s.freeHandles

theorem Inv.takeHandle (h : Inv out s) : Inv out s.takeHandle.2 ∧ Fresh s.takeHandle.2 s.takeHandle.1 ∧
      s.takeHandle.2.byBase = s.byBase := by
  unfold BufferCache.takeHandle
  split
  case h_1 handle rest hfree =>
    obtain ⟨hnodup, hdead⟩ := h.handles
    rw [hfree] at hnodup hdead
    obtain ⟨hnot, hrest⟩ := List.nodup_cons.mp hnodup
    obtain ⟨hhandle, hdead⟩ := List.forall_mem_cons.mp hdead
    refine ⟨⟨h.parted, h.freeFits, h.count, h.placed, h.byBase, h.keys, ⟨hrest, hdead⟩, h.indexed,
      h.indexKeys, h.bytes, h.withheld⟩, ⟨hhandle.1, hhandle.2, hnot⟩, rfl⟩
  case h_2 hfree =>
    have hentry : ∀ k, (s.pool ++ [default]).getD k default = s.entry k := by
      intro k
      rcases Nat.lt_or_ge k s.pool.length with hk | hk
      · exact List.getD_append _ _ _ _ hk
      · rw [List.getD_append_right _ _ _ _ hk, entry, List.getD_eq_default _ _ hk]
        rcases Nat.eq_zero_or_pos (k - s.pool.length) with hz | hz
        · rw [hz]
          rfl
        · exact List.getD_eq_default _ _ hz
    have hlast : s.entry s.pool.length = default := List.getD_eq_default _ _ (Nat.le_refl _)
    -- A handle of the longer pool with a copy is one of the pool before.
    have hlt : ∀ k < (s.pool ++ [default]).length, (s.entry k).bytes ≠ 0 → k < s.pool.length := by
      intro k hk hkl
      rw [List.length_append, List.length_singleton] at hk
      refine Nat.lt_of_le_of_ne (Nat.le_of_lt_succ hk) ?_
      rintro rfl
      rw [hlast] at hkl
      exact hkl rfl
    have hlive : ({ s with pool := s.pool ++ [default] } : BufferCache).live = s.live := by
      rw [live, live, List.filter_append, List.map_append]
      exact List.append_nil _
    have hinv : Inv out { s with pool := s.pool ++ [default] } := by
      refine ⟨h.parted, h.freeFits, fun i hi x => ?_, fun p hp => ?_, fun b k => ?_, h.keys, ?_,
        fun k hk hkl b hb => ?_, h.indexKeys, ?_, h.withheld⟩
      · rw [hlive]
        exact h.count i hi x
      · rw [hlive] at hp
        exact h.placed p hp
      · rw [h.byBase]
        simp only [entry]
        rw [hentry]
        refine ⟨fun hb => ⟨?_, hb.2⟩, fun hb => ⟨hlt k hb.1 hb.2.1, hb.2⟩⟩
        rw [List.length_append]
        exact Nat.lt_of_lt_of_le hb.1 (Nat.le_add_right _ _)
      · rw [hfree]
        refine ⟨List.nodup_nil, ?_⟩
        intro k hk
        cases hk
      · simp only [entry] at hkl hb
        rw [hentry] at hkl hb
        exact h.indexed k (hlt k hk hkl) hkl b hb
      · rw [List.map_append, List.sum_append, ← h.bytes]
        rfl
    refine ⟨hinv, ⟨?_, ?_, ?_⟩, rfl⟩
    · rw [List.length_append]
      exact Nat.lt_succ_self _
    · simp only [entry]
      rw [hentry, hlast]
      rfl
    · rw [hfree]
      exact List.not_mem_nil

/-- **A copy stored** in the extent in hand. -/
theorem Inv.store {e : CacheEntry} (h : Inv ((e.block, e.offset, aligned e.bytes) :: out) s)
    (hfresh : Fresh s handle) (hbytes : e.bytes ≠ 0)
    (hbase : ∀ k, (e.base, k) ∉ s.byBase) : Inv out ((s.store handle e).indexHandle handle) := by
  have hentry : ∀ k, ((s.store handle e).indexHandle handle).entry k =
      if k = handle then e else s.entry k := entry_set hfresh.lt rfl
  have hself : (s.store handle e).entry handle = e :=
    (entry_set hfresh.lt rfl handle).trans (if_pos rfl)
  have hlen : ((s.store handle e).indexHandle handle).pool.length = s.pool.length :=
    List.length_set
  obtain ⟨hindexKeys, hkept, hpushed⟩ :=
    foldl_pushIndex handle (indexBlocks ((s.store handle e).entry handle)) s.index
  refine ⟨h.parted, h.freeFits, fun i hi x => ?_, fun p hp => h.placed p ?_, fun b k => ?_, ?_,
    ⟨h.handles.1, fun k hk => ?_⟩, fun k hk hkl b hb => ?_, hindexKeys h.indexKeys, ?_, h.withheld⟩
  · have hcount := h.count i hi x
    have hset := covering_live_set hfresh.lt (t := (s.store handle e).indexHandle handle) rfl i x
    have hzero : (s.entry handle).weight i x = 0 := if_neg (by simp [hfresh.dead])
    rw [hzero, CacheEntry.weight] at hset
    simp only [ne_eq, hbytes, not_false_eq_true, true_and] at hset
    rw [covering_cons] at hcount
    change covering ((s.store handle e).indexHandle handle).live i x = covering s.live i x +
      if (e.block, e.offset, aligned e.bytes).1 = i ∧
        Extent.Has (e.block, e.offset, aligned e.bytes).2 x then 1 else 0 at hset
    change cover (s.freeOf i) x + _ + covering (s.retired.map Retired.placed) i x + _ = _
    omega
  · rcases List.mem_append.mp hp with hp | hp
    · rcases List.mem_append.mp hp with hp | hp
      · obtain ⟨k, hk, hkl, rfl⟩ := mem_live.mp hp
        rw [hentry] at hkl ⊢
        split_ifs at hkl ⊢
        · exact List.mem_append_right _ (List.mem_cons_self ..)
        · refine List.mem_append_left _ (List.mem_append_left _ ?_)
          exact mem_live.mpr ⟨k, hlen ▸ hk, hkl, rfl⟩
      · exact List.mem_append_left _ (List.mem_append_right _ hp)
    · exact List.mem_append_right _ (List.mem_cons_of_mem _ hp)
  · change (b, k) ∈ (e.base, handle) :: s.byBase.filter (fun p => p.1 ≠ e.base) ↔ _
    rw [List.mem_cons, List.mem_filter, h.byBase, hlen, hentry]
    by_cases hkh : k = handle
    · subst hkh
      rw [if_pos rfl]
      simp only [Prod.mk.injEq, and_true, hfresh.dead, ne_eq, not_true_eq_false, false_and,
        and_false, or_false, hfresh.lt, hbytes, not_false_eq_true, true_and]
      exact eq_comm
    · rw [if_neg hkh]
      simp only [Prod.mk.injEq, hkh, and_false, false_or, ne_eq, decide_eq_true_eq]
      refine ⟨fun hb => hb.1, fun hb => ⟨hb, ?_⟩⟩
      rintro rfl
      exact hbase k ((h.byBase _ k).mpr hb)
  · refine List.nodup_cons.mpr ⟨fun hmem => ?_, h.keys.sublist (List.filter_sublist.map _)⟩
    obtain ⟨⟨b, k⟩, hp, rfl⟩ := List.mem_map.mp hmem
    exact hbase k (List.mem_filter.mp hp).1
  · obtain ⟨hlt, hdead⟩ := h.handles.2 k hk
    have hkh : k ≠ handle := by
      rintro rfl
      exact hfresh.taken hk
    rw [hlen, hentry, if_neg hkh]
    exact ⟨hlt, hdead⟩
  · rw [hentry] at hkl hb
    split_ifs at hkl hb with hkh
    · subst hkh
      refine hpushed b ?_
      rwa [hself]
    · exact hkept b k (h.indexed k (hlen ▸ hk) hkl b hb)
  · have hsum : (((s.store handle e).indexHandle handle).pool.map CacheEntry.bytes).sum +
        (s.entry handle).bytes = (s.pool.map CacheEntry.bytes).sum + e.bytes :=
      sum_map_set _ _ _ hfresh.lt _
    have hold := h.bytes
    rw [hfresh.dead] at hsum
    change s.liveBytes + e.bytes = _
    omega

theorem lookup_eq_some_iff_mem {β : Type*} {l : List (ℕ × β)} (h : (l.map Prod.fst).Nodup)
    {v : β} : l.lookup k = some v ↔ (k, v) ∈ l := by
  induction l with
  | nil => simp
  | cons p l ih =>
    obtain ⟨hnot, hrest⟩ := List.nodup_cons.mp h
    rw [List.lookup_cons, List.mem_cons]
    by_cases hk : k = p.1
    · subst hk
      have hmem : (p.1, v) ∉ l := fun hmem =>
        hnot (List.mem_map.mpr ⟨_, hmem, rfl⟩)
      simp [hmem, Prod.ext_iff, eq_comm]
    · have hbeq : (k == p.1) = false := beq_false_of_ne hk
      simp [hbeq, hk, Prod.ext_iff, ih hrest]

theorem Inv.lookup (h : Inv out s) : s.findBase b = some k ↔ (b, k) ∈ s.byBase :=
  lookup_eq_some_iff_mem h.keys

theorem Inv.dropBase (h : Inv out s) (base : ℕ) :
    Inv out (s.dropBase base) ∧ ∀ k, (base, k) ∉ (s.dropBase base).byBase := by
  unfold BufferCache.dropBase
  split
  case h_1 old hold =>
    obtain ⟨hlt, hlive, hbase⟩ := (h.byBase _ _).mp (h.lookup.mp hold)
    refine ⟨h.drop hlt hlive, fun k hk => ?_⟩
    have hne := (List.mem_filter.mp hk).2
    rw [hbase] at hne
    simp at hne
  case h_2 hnone =>
    refine ⟨h, fun k hk => ?_⟩
    rw [h.lookup.mpr hk] at hnone
    cases hnone

theorem Inv.cacheGuestBuffer (h : Inv [] s) (budget : ℕ) (created : Bool) (base bytes : ℕ) :
    Inv [] (s.cacheGuestBuffer budget created base bytes) := by
  unfold BufferCache.cacheGuestBuffer
  split_ifs with hbytes
  · exact h
  split
  case h_1 => exact h
  case h_2 block offset t ha =>
    obtain ⟨hdropped, hbase⟩ := (h.allocate hbytes ha).dropBase base
    obtain ⟨htaken, hfresh, hbyBase⟩ := hdropped.takeHandle
    refine htaken.store (e := ⟨base, block, offset, bytes, _⟩) hfresh hbytes ?_
    rw [hbyBase]
    exact hbase

/-! ## Dropping copies -/

structure Dropped (p : CacheEntry → Bool) (handles : List ℕ) (s t : BufferCache) : Prop where
  length : t.pool.length = s.pool.length
  entry : ∀ k, t.entry k =
    if k ∈ handles ∧ (s.entry k).bytes ≠ 0 ∧ p (s.entry k) then { s.entry k with bytes := 0 }
    else s.entry k

/-- **Dropping** the copies among the handles that meet a test keeps the invariant. -/
theorem Inv.dropWhere (h : Inv out s) (p : CacheEntry → Bool) (handles : List ℕ) :
    Inv out (s.dropWhere p handles) ∧ Dropped p handles s (s.dropWhere p handles) := by
  induction handles generalizing s with
  | nil =>
    refine ⟨h, rfl, fun k => ?_⟩
    rw [if_neg fun hk => List.not_mem_nil hk.1]
    rfl
  | cons c handles ih =>
    rw [BufferCache.dropWhere, List.foldl_cons]
    split_ifs with hc
    · have hlt : c < s.pool.length := by
        refine Nat.lt_of_not_le fun hge => hc.1 ?_
        rw [BufferCache.entry, List.getD_eq_default _ _ hge]
        rfl
      obtain ⟨hinv, hlen, hentry⟩ := ih (h.drop hlt hc.1)
      have hdrop : ∀ k, (s.drop c).entry k =
          if k = c then { s.entry c with bytes := 0 } else s.entry k := entry_set hlt rfl
      refine ⟨hinv, hlen.trans List.length_set, fun k => ?_⟩
      rw [BufferCache.dropWhere] at hentry
      rw [hentry, hdrop]
      by_cases hkc : k = c
      · subst hkc
        rw [if_pos rfl, if_neg (by simp), if_pos ⟨List.mem_cons_self .., hc⟩]
      · rw [if_neg hkc]
        refine if_congr (and_congr_left fun _ => ?_) rfl rfl
        rw [List.mem_cons, or_iff_right hkc]
    · obtain ⟨hinv, hlen, hentry⟩ := ih h
      refine ⟨hinv, hlen, fun k => ?_⟩
      rw [BufferCache.dropWhere] at hentry
      rw [hentry]
      refine if_congr ⟨fun hk => ⟨List.mem_cons_of_mem _ hk.1, hk.2⟩, fun hk => ⟨?_, hk.2⟩⟩ rfl rfl
      refine (List.mem_cons.mp hk.1).resolve_left ?_
      rintro rfl
      exact hc hk.2

theorem dropWhere_append (p : CacheEntry → Bool) (hs ks : List ℕ) :
    s.dropWhere p (hs ++ ks) = (s.dropWhere p hs).dropWhere p ks := List.foldl_append

theorem foldl_entries (p : CacheEntry → Bool) (q : ℕ → Prop) [DecidablePred q]
    (order : List (ℕ × List ℕ)) (s : BufferCache) :
    order.foldl (fun s entry => if q entry.1 then s.dropWhere p entry.2 else s) s =
      s.dropWhere p ((order.filter fun entry => q entry.1).flatMap Prod.snd) := by
  induction order generalizing s with
  | nil => rfl
  | cons entry order ih =>
    rw [List.foldl_cons, ih]
    split_ifs with hq
    · rw [List.filter_cons_of_pos (by simpa using hq), List.flatMap_cons, dropWhere_append]
    · rw [List.filter_cons_of_neg (by simpa using hq)]

theorem foldl_blocks (p : CacheEntry → Bool) (index : List (ℕ × List ℕ)) (bs : List ℕ) (s : BufferCache) :
    bs.foldl (fun t b =>
        match index.lookup b with
        | some handles => t.dropWhere p handles
        | none => t) s =
      s.dropWhere p (bs.flatMap fun b => (index.lookup b).getD []) := by
  induction bs generalizing s with
  | nil => rfl
  | cons b bs ih =>
    rw [List.foldl_cons, ih, List.flatMap_cons, dropWhere_append]
    cases index.lookup b with
    | none => rfl
    | some handles => rfl

theorem Inv.indexed_of_overlaps (h : Inv out s) {first end_ : ℕ} (hk : k < s.pool.length)
    (hmeet : max first (s.entry k).base < min end_ ((s.entry k).base + (s.entry k).bytes)) :
    ∃ b handles, first >>> kIndexShift ≤ b ∧ b ≤ (end_ - 1) >>> kIndexShift ∧
      (b, handles) ∈ s.index ∧ k ∈ handles := by
  have hlive : (s.entry k).bytes ≠ 0 := by omega
  have hfirst : first >>> kIndexShift ≤ (end_ - 1) >>> kIndexShift := shiftRight_mono (by omega) _
  have hbase : (s.entry k).base >>> kIndexShift ≤ (end_ - 1) >>> kIndexShift :=
    shiftRight_mono (by omega) _
  have hlast : first >>> kIndexShift ≤ ((s.entry k).base + (s.entry k).bytes - 1) >>> kIndexShift :=
    shiftRight_mono (by omega) _
  have hself : (s.entry k).base >>> kIndexShift ≤
      ((s.entry k).base + (s.entry k).bytes - 1) >>> kIndexShift := shiftRight_mono (by omega) _
  -- The later of the first blocks of the two.
  obtain ⟨handles, hmem, hin⟩ := h.indexed k hk hlive
    (max (first >>> kIndexShift) ((s.entry k).base >>> kIndexShift))
    (List.mem_range'_1.mpr (by omega))
  exact ⟨_, handles, by omega, by omega, hmem, hin⟩

theorem Dropped.pool {first end_ : ℕ} {handles : List ℕ} {t : BufferCache}
    (h : Dropped (overlaps first end_) handles s t) (hrange : first < end_)
    (hall : ∀ k < s.pool.length, max first (s.entry k).base < min end_ ((s.entry k).base + (s.entry k).bytes) →
        k ∈ handles) : t.pool = s.pool.map fun e =>
      if max first e.base < min end_ (e.base + e.bytes) then { e with bytes := 0 } else e := by
  refine List.ext_getElem (by rw [h.length, List.length_map]) fun k hk hk' => ?_
  have hks : k < s.pool.length := h.length ▸ hk
  have hentry := h.entry k
  rw [List.getElem_map, ← entry_eq_getElem hk, ← entry_eq_getElem hks, hentry]
  refine if_congr ⟨fun hdrop => ?_, fun hmeet => ⟨hall k hks hmeet, ?_⟩⟩ rfl rfl
  · have hover := hdrop.2.2
    simp only [overlaps, decide_eq_true_eq] at hover
    have hlive := hdrop.2.1
    omega
  · simp only [overlaps, decide_eq_true_eq]
    omega

/-- **An invalidation** drops the copies that overlap its range, whichever side it walks. -/
theorem Inv.invalidateCachedBuffers (h : Inv out s) (first end_ : ℕ)
    {order : List (ℕ × List ℕ)} (horder : order.Perm s.index) : Inv out (s.invalidateCachedBuffers first end_ order) ∧
      (s.invalidateCachedBuffers first end_ order).pool = s.pool.map fun e =>
        if max first e.base < min end_ (e.base + e.bytes) then { e with bytes := 0 } else e := by
  unfold BufferCache.invalidateCachedBuffers
  split_ifs with hnone
  · refine ⟨h, (List.map_id _).symm.trans (List.map_congr_left fun e he => ?_)⟩
    rw [if_neg]
    · rfl
    rcases hnone with hempty | hle
    · -- No copy is live.
      intro hmeet
      obtain ⟨k, hk, rfl⟩ := List.getElem_of_mem he
      have hmem := (h.byBase (s.entry k).base k).mpr
        ⟨hk, by rw [entry_eq_getElem hk]; omega, rfl⟩
      rw [hempty] at hmem
      exact List.not_mem_nil hmem
    · omega
  have hrange : first < end_ := by omega
  dsimp only
  split_ifs
  · rw [foldl_entries (overlaps first end_)
      (fun b => first >>> kIndexShift ≤ b ∧ b ≤ (end_ - 1) >>> kIndexShift)]
    obtain ⟨hinv, hdropped⟩ := h.dropWhere (overlaps first end_) _
    refine ⟨hinv, hdropped.pool hrange fun k hk hmeet => ?_⟩
    obtain ⟨b, handles, hlo, hhi, hmem, hin⟩ := h.indexed_of_overlaps hk hmeet
    exact List.mem_flatMap.mpr ⟨(b, handles), List.mem_filter.mpr ⟨horder.mem_iff.mpr hmem, by simp [hlo, hhi]⟩, hin⟩
  · have hwalk := foldl_blocks (overlaps first end_) s.index
      (List.range' (first >>> kIndexShift)
        ((end_ - 1) >>> kIndexShift - first >>> kIndexShift + 1)) s
    refine hwalk ▸ ?_
    obtain ⟨hinv, hdropped⟩ := h.dropWhere (overlaps first end_) _
    refine ⟨hinv, hdropped.pool hrange fun k hk hmeet => ?_⟩
    obtain ⟨b, handles, hlo, hhi, hmem, hin⟩ := h.indexed_of_overlaps hk hmeet
    refine List.mem_flatMap.mpr ⟨b, List.mem_range'_1.mpr (by omega), ?_⟩
    rw [(lookup_eq_some_iff_mem h.indexKeys).mpr hmem]
    exact hin

/-! ## Runs -/

theorem Inv.init : Inv [] init where
  parted := fun _ => .nil
  freeFits := by
    rintro _ _ ⟨⟩
  count := by
    rintro _ ⟨⟩
  placed := by
    rintro _ ⟨⟩
  byBase := by
    intro b k
    constructor
    · rintro ⟨⟩
    · rintro ⟨⟨⟩, _⟩
  keys := List.nodup_nil
  handles := by
    refine ⟨List.nodup_nil, ?_⟩
    rintro _ ⟨⟩
  indexed := by
    rintro _ ⟨⟩
  indexKeys := List.nodup_nil
  bytes := rfl
  withheld := by
    rintro _ ⟨⟩

theorem Inv.bufferCacheEndFrame (h : Inv [] s) : Inv [] s.bufferCacheEndFrame := by
  have hidle : Inv [] s.dropIdle := by
    unfold BufferCache.dropIdle
    split_ifs
    · exact (h.dropWhere _ _).1
    · exact h
  unfold BufferCache.bufferCacheEndFrame
  dsimp only
  split_ifs
  · exact hidle.freeRetired.rebuildIndex
  · exact hidle.freeRetired

theorem Inv.step {budget : ℕ} {c : CacheCall} {s' : BufferCache} (h : Inv [] s)
    (hstep : step budget s c = some s') : Inv [] s' ∧ StepSound s c s' := by
  cases c with
  | find base bytes dirty =>
    cases hstep
    exact ⟨h.findCachedBuffer base bytes dirty, trivial⟩
  | cache base bytes created =>
    rw [BufferCache.step] at hstep
    split_ifs at hstep
    cases hstep
    exact ⟨h.cacheGuestBuffer budget created base bytes, trivial⟩
  | invalidate first end_ order =>
    rw [BufferCache.step] at hstep
    split_ifs at hstep with horder
    cases hstep
    exact h.invalidateCachedBuffers first end_ horder
  | endFrame =>
    cases hstep
    exact ⟨h.bufferCacheEndFrame, trivial⟩
  | nextFrame =>
    cases hstep
    refine ⟨⟨h.parted, h.freeFits, h.count, h.placed, h.byBase, h.keys, h.handles, h.indexed,
      h.indexKeys, h.bytes, fun r hr hframe => ?_⟩, trivial⟩
    refine h.withheld r hr ?_
    change s.frameNum + 1 < _ at hframe
    omega

theorem cover_extents (s : BufferCache) (i x : ℕ) : cover (s.extents i) x =
    cover (s.freeOf i) x + covering s.live i x + covering (s.retired.map Retired.placed) i x := by
  rw [extents, cover_append, Nat.add_assoc, ← covering_append]
  congr 1
  rw [cover, List.countP_map, List.countP_filter]
  refine List.countP_congr fun p _ => ?_
  simp [and_comm]

theorem Inv.sound (h : Inv [] s) : Sound s := by
  have hcover : ∀ i < s.blocks.length, ∀ x,
      cover (s.extents i) x = if x < kBlockBytes then 1 else 0 := by
    intro i hi x
    rw [cover_extents, ← h.count i hi x]
    rfl
  refine ⟨fun i hi => pairwise_of_cover_le fun x => ?_, fun i hi x => ?_, fun i hi e he => ?_,
    fun p hp => ?_, h.withheld, h.bytes⟩
  · rw [hcover i hi]
    split_ifs
    · exact Nat.le_refl _
    · exact Nat.zero_le _
  · have hpos : 0 < cover (s.extents i) x ↔ ∃ e ∈ s.extents i, e.Has x := by
      rw [cover, List.countP_pos_iff]
      simp
    rw [← hpos, hcover i hi]
    split_ifs with hx
    · simp [hx]
    · simp [hx]
  · rcases List.mem_append.mp he with he | he
    · exact ⟨(h.freeFits i e he).1.1, (h.freeFits i e he).1.2.1⟩
    · obtain ⟨p, hp, rfl⟩ := List.mem_map.mp he
      have hfits := (h.placed p (List.mem_append_left _ (List.mem_filter.mp hp).1)).2.1
      exact ⟨hfits.1, hfits.2.1⟩
  · exact (h.placed p (List.mem_append_left _ hp)).1

end BufferCache

open BufferCache

end Prosperity.Gpu
