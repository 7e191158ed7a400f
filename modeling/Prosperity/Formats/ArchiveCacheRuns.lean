import Mathlib.Data.List.GetD
import Prosperity.Formats.ArchiveCache

/-!
# What reads of an archive return

Whichever path serves a read, it returns the slice of the contents, clipped to the size of the entry. The
bytes of the cache are those of its slots, and not more than the budget. This is for reads with fewer than
2⁶³ bytes left in the entry; a read with more is refused.
-/

namespace Prosperity.Formats.ArchiveCache

variable {β : Type} {b : Backend β} {k : Config} {contents : ℕ → Option (List UInt8)}

/-- Fewer than 2⁶³ bytes are left in the entry. -/
def Config.InRange (k : Config) (r : Request) : Prop :=
  0 ≤ r.off → 0 ≤ r.len → r.off < k.size r.index → k.size r.index - r.off < 2 ^ 63

def Config.slice (k : Config) (r : Request) (c : List UInt8) : List UInt8 :=
  ((c.take (k.size r.index)).drop r.off.toNat).take r.len.toNat

def Expected (k : Config) (contents : ℕ → Option (List UInt8)) (r : Request) (result : Option (List UInt8)) : Prop :=
  0 ≤ r.off → 0 ≤ r.len → r.index < k.sizes.length → ∀ c, contents r.index = some c → result = some (k.slice r c)

def slotBytes (lru : List Slot) : ℕ := (lru.map fun s => s.data.length).sum

/-- The promises: what was returned, and the bytes of the cache. -/
def Sound (k : Config) (contents : ℕ → Option (List UInt8)) {ι : Type} (s : Threads ι (Shared β) Reading) : Prop :=
  (∀ t r result, s.thread t = .returned r result → Expected k contents r result) ∧
    s.shared.lruBytes = slotBytes s.shared.lru ∧ s.shared.lruBytes ≤ k.budget

def Served (k : Config) {ι : Type} (_ : Threads ι (Shared β) Reading) : ι × ReadAction → Prop
  | (_, .call r) => k.InRange r
  | (_, .next) => True

/-! ## The cache -/

theorem slotBytes_cons (s : Slot) (lru : List Slot) : slotBytes (s :: lru) = s.data.length + slotBytes lru := rfl

theorem slotBytes_reverse (lru : List Slot) : slotBytes lru.reverse = slotBytes lru := by
  rw [slotBytes, List.map_reverse, List.sum_reverse, slotBytes]

theorem trimLoop_spec (budget : ℕ) (slots : List Slot) :
    (trimLoop budget slots (slotBytes slots)).2 = slotBytes (trimLoop budget slots (slotBytes slots)).1 ∧
      (trimLoop budget slots (slotBytes slots)).2 ≤ budget ∧
      (trimLoop budget slots (slotBytes slots)).1 <:+ slots := by
  induction slots with
  | nil => exact ⟨rfl, Nat.zero_le _, List.suffix_refl _⟩
  | cons s slots ih =>
    rw [trimLoop]
    split_ifs with hover
    · rw [slotBytes_cons, Nat.add_sub_cancel_left]
      exact ⟨ih.1, ih.2.1, ih.2.2.trans (List.suffix_cons s slots)⟩
    · exact ⟨rfl, Nat.le_of_not_lt hover, List.suffix_refl _⟩

theorem insertSlot_spec {budget index : ℕ} {data : List UInt8} {lru : List Slot} (h : slotBytes lru ≤ budget) :
    (insertSlot budget index data lru (slotBytes lru)).2 =
        slotBytes (insertSlot budget index data lru (slotBytes lru)).1 ∧
      (insertSlot budget index data lru (slotBytes lru)).2 ≤ budget ∧
      ∀ s ∈ (insertSlot budget index data lru (slotBytes lru)).1, s ∈ lru ∨ s = ⟨index, data⟩ := by
  unfold insertSlot
  split_ifs with hany
  · exact ⟨rfl, h, fun s hs => .inl hs⟩
  · have hsum : slotBytes lru + data.length = slotBytes (⟨index, data⟩ :: lru).reverse := by
      rw [slotBytes_reverse, slotBytes_cons, Nat.add_comm]
    obtain ⟨hbytes, hbudget, hsuffix⟩ := trimLoop_spec budget (⟨index, data⟩ :: lru).reverse
    rw [trim, hsum]
    dsimp only
    refine ⟨?_, hbudget, fun s hs => ?_⟩
    · rw [slotBytes_reverse (trimLoop ..).1]
      exact hbytes
    · have hmem := hsuffix.subset (List.mem_reverse.mp hs)
      rw [List.mem_reverse, List.mem_cons] at hmem
      exact hmem.symm

theorem slotBytes_append (l l' : List Slot) : slotBytes (l ++ l') = slotBytes l + slotBytes l' := by
  rw [slotBytes, List.map_append, List.sum_append, slotBytes, slotBytes]

theorem touch_eq {index : ℕ} {lru : List Slot} {hit : Slot} (h : lru.find? (fun s => s.index = index) = some hit) :
    ∃ l l', lru = l ++ hit :: l' ∧ touch index lru = hit :: (l ++ l') := by
  obtain ⟨hhit, l, l', hlru, hbefore⟩ := List.find?_eq_some_iff_append.mp h
  refine ⟨l, l', hlru, ?_⟩
  rw [touch, h]
  dsimp only
  rw [hlru, List.eraseP_append_right (hit :: l') fun s hs => by simpa using hbefore s hs]
  have herase : (hit :: l').eraseP (fun s => s.index = index) = l' := List.eraseP_cons_of_pos hhit
  rw [herase]

theorem mem_touch {index : ℕ} {lru : List Slot} {s : Slot} (h : s ∈ touch index lru) : s ∈ lru := by
  cases hfind : lru.find? fun s => s.index = index with
  | none => rwa [touch, hfind] at h
  | some hit =>
    obtain ⟨l, l', hlru, htouch⟩ := touch_eq hfind
    rw [htouch] at h
    rw [hlru]
    simp only [List.mem_cons, List.mem_append] at h ⊢
    tauto

theorem slotBytes_touch (index : ℕ) (lru : List Slot) : slotBytes (touch index lru) = slotBytes lru := by
  cases hfind : lru.find? fun s => s.index = index with
  | none => rw [touch, hfind]
  | some hit =>
    obtain ⟨l, l', hlru, htouch⟩ := touch_eq hfind
    rw [htouch, hlru]
    simp only [slotBytes_cons, slotBytes_append]
    omega

/-! ## Slices -/

theorem Config.clip_of_inRange {r : Request} (h : k.InRange r) (hoff : 0 ≤ r.off) (hlen : 0 ≤ r.len)
    (hlt : r.off < k.size r.index) : k.clip r = min r.len (k.size r.index - r.off) := by
  have hleft := h hoff hlen hlt
  rw [Config.clip, Int.bmod_eq_of_le] <;> omega

/-- A read that has come past its first tests. -/
structure Config.Pending (k : Config) (r : Request) : Prop where
  off : 0 ≤ r.off
  len : 0 ≤ r.len
  lt : r.off < k.size r.index
  clip : k.clip r = min r.len (k.size r.index - r.off)

namespace Config.Pending

variable {r : Request} {c : List UInt8}

theorem extract (h : k.Pending r) (hb : b.Serves contents) (hc : contents r.index = some c) (st : β) :
    (b.extractRange st ⟨r.index, r.off, k.clip r⟩).2 = some (k.slice r c) := by
  obtain ⟨hoff, hlen, hlt, hclip⟩ := h
  rw [hb.slice st ⟨r.index, r.off, k.clip r⟩ c hc hoff (by dsimp only; omega)]
  dsimp only
  rw [hclip, Config.slice, List.drop_take, List.take_take]
  congr 2
  omega

theorem copied (h : k.Pending r) {data : List UInt8} (hdata : data = c.take (k.size r.index)) :
    (if (data.length : ℤ) ≤ r.off then []
      else (data.drop r.off.toNat).take (min (k.clip r) (data.length - r.off)).toNat) = k.slice r c := by
  obtain ⟨hoff, hlen, hlt, hclip⟩ := h
  have hle : data.length ≤ k.size r.index := by
    rw [hdata, List.length_take]
    exact Nat.min_le_left _ _
  rw [Config.slice, ← hdata]
  split_ifs with hend
  · rw [List.drop_eq_nil_of_le (by omega), List.take_nil]
  · have hmin : (min (k.clip r) (data.length - r.off)).toNat =
        min r.len.toNat (data.drop r.off.toNat).length := by
      rw [List.length_drop, hclip]
      omega
    rw [hmin, ← List.take_eq_take_min]

end Config.Pending

/-! ## The steps -/

def Good (k : Config) (contents : ℕ → Option (List UInt8)) : Reading → Prop
  | .idle => True
  | .missed r | .inserted r | .trimmed r => k.Pending r
  | .decoded r data => k.Pending r ∧ ∀ c, contents r.index = some c → data = c.take (k.size r.index)
  | .returned r result => Expected k contents r result

structure CacheInv (k : Config) (contents : ℕ → Option (List UInt8)) (s : Shared β) : Prop where
  bytes : s.lruBytes = slotBytes s.lru
  budget : s.lruBytes ≤ k.budget
  data : ∀ slot ∈ s.lru, ∀ c, contents slot.index = some c → slot.data = c.take (k.size slot.index)

section Steps

variable {s : Shared β} {r : Request}

theorem CacheInv.lookUp (h : CacheInv k contents s) (hr : k.Pending r) {missed : Reading}
    (hmissed : Good k contents missed) :
    CacheInv k contents (lookUp k s r missed).1 ∧ Good k contents (lookUp k s r missed).2 := by
  unfold ArchiveCache.lookUp copyCached
  cases hfind : s.lru.find? fun s => s.index = r.index with
  | none => exact ⟨h, hmissed⟩
  | some hit =>
    have hmem := List.mem_of_find?_eq_some hfind
    have hindex : hit.index = r.index := by simpa using List.find?_some hfind
    refine ⟨⟨?_, h.budget, fun slot hslot => h.data slot (mem_touch hslot)⟩, fun _ _ _ c hc => ?_⟩
    · exact h.bytes.trans (slotBytes_touch _ _).symm
    · have hdata := h.data hit hmem c (hindex ▸ hc)
      rw [hindex] at hdata
      exact congrArg some (hr.copied hdata)

theorem CacheInv.extract (h : CacheInv k contents s) (hb : b.Serves contents) (hr : k.Pending r) :
    CacheInv k contents (extract b s r r.off (k.clip r)).1 ∧ Good k contents (extract b s r r.off (k.clip r)).2 :=
  ⟨⟨h.bytes, h.budget, h.data⟩, fun _ _ _ _ hc => hr.extract hb hc s.backend⟩

theorem CacheInv.decode (h : CacheInv k contents s) (hb : b.Serves contents) (hr : k.Pending r) :
    CacheInv k contents (decode b k s r).1 ∧ Good k contents (decode b k s r).2 := by
  unfold ArchiveCache.decode
  split_ifs with hwhole
  · have hextract := h.extract hb hr
    rwa [hwhole.1] at hextract
  · -- the whole entry is decoded
    have hdecoded : ∀ c, contents r.index = some c →
        (b.extractRange s.backend ⟨r.index, 0, k.size r.index⟩).2 = some (c.take (k.size r.index)) := by
      intro c hc
      have hall := hb.slice s.backend ⟨r.index, 0, k.size r.index⟩ c hc (Int.le_refl _) (Int.natCast_nonneg _)
      exact hall
    generalize b.extractRange s.backend ⟨r.index, 0, k.size r.index⟩ = e at hdecoded
    obtain ⟨st, _ | data⟩ := e
    · exact ⟨⟨h.bytes, h.budget, h.data⟩, fun _ _ _ c hc => absurd (hdecoded c hc) nofun⟩
    · exact ⟨⟨h.bytes, h.budget, h.data⟩, hr, fun c hc => Option.some.inj (hdecoded c hc)⟩

theorem CacheInv.insert (h : CacheInv k contents s) (hr : k.Pending r) {data : List UInt8}
    (hdata : ∀ c, contents r.index = some c → data = c.take (k.size r.index)) :
    CacheInv k contents (insert k s r data).1 ∧ Good k contents (insert k s r data).2 := by
  have hbytes := h.bytes
  obtain ⟨hsum, hbudget, hmem⟩ := @insertSlot_spec k.budget r.index data _ (hbytes ▸ h.budget)
  rw [← hbytes] at hsum hbudget hmem
  refine ⟨⟨hsum, hbudget, fun slot hslot c hc => ?_⟩, hr⟩
  rcases hmem slot hslot with hold | rfl
  · exact h.data slot hold c hc
  · exact hdata c hc

/-- **A call** of a read in range. -/
theorem CacheInv.call (h : CacheInv k contents s) (hb : b.Serves contents) (hr : k.InRange r) :
    CacheInv k contents (call b k s r).1 ∧ Good k contents (call b k s r).2 := by
  unfold ArchiveCache.call
  by_cases hbad : r.off < 0 ∨ r.len < 0 ∨ k.sizes.length ≤ r.index
  · rw [if_pos hbad]
    exact ⟨h, fun _ _ _ => by omega⟩
  rw [if_neg hbad]
  rw [not_or, not_or, Int.not_lt, Int.not_lt, Nat.not_le] at hbad
  obtain ⟨hoff, hlen, -⟩ := hbad
  by_cases hend : (k.size r.index : ℤ) ≤ r.off
  · rw [if_pos hend]
    refine ⟨h, fun _ _ _ c _ => congrArg some ?_⟩
    rw [Config.slice, List.drop_eq_nil_of_le, List.take_nil]
    rw [List.length_take]
    omega
  rw [if_neg hend]
  have hclip := Config.clip_of_inRange hr hoff hlen (Int.not_le.mp hend)
  by_cases hzero : k.clip r = 0
  · rw [if_pos hzero]
    refine ⟨h, fun _ _ _ c _ => congrArg some ?_⟩
    have hlen0 : r.len.toNat = 0 := by omega
    rw [Config.slice, hlen0, List.take_zero]
  rw [if_neg hzero]
  have hpending : k.Pending r := ⟨hoff, hlen, Int.not_le.mp hend, hclip⟩
  split_ifs
  · exact h.extract hb hpending
  · exact h.lookUp hpending hpending

theorem megabytes_le (mb : CInt) : (max 0 (mb : ℤ)).toNat ≤ 2147483647 := by
  have hint := mb.property.2
  generalize (mb : ℤ) = x at hint
  omega

theorem shiftLeft_lt {n : ℕ} (h : n ≤ 2147483647) : n <<< 20 < 2 ^ 63 := by
  rw [Nat.shiftLeft_eq]
  omega

theorem Config.smallMax_lt (k : Config) : k.smallMax < 2 ^ 63 := shiftLeft_lt (megabytes_le k.smallMb)

/-- **A read with 2⁶³ bytes or more left is refused.** -/
theorem call_of_not_inRange (hb : b.Serves contents) (hr : ¬k.InRange r) : (call b k s r).2 = .returned r none := by
  simp only [Config.InRange, Classical.not_imp, Int.not_lt] at hr
  obtain ⟨hoff, hlen, hlt, hleft⟩ := hr
  have hsmall := k.smallMax_lt
  have hsize : k.size r.index < 2 ^ 64 := UInt64.toNat_lt _
  have hindex : r.index < k.sizes.length := by
    by_contra hout
    have hzero : k.size r.index = 0 := by
      rw [Config.size, List.getD_eq_default _ _ (Nat.le_of_not_lt hout)]
      rfl
    omega
  have hneg : k.clip r < 0 := by
    rw [Config.clip, Int.bmod_def]
    omega
  have hnone := hb.negative s.backend ⟨r.index, r.off, k.clip r⟩ hneg
  rw [call, if_neg (by omega), if_neg (by omega), if_neg (by omega), if_pos (by omega), extract, hnone]

/-- What holds in every state. -/
structure Inv (k : Config) (contents : ℕ → Option (List UInt8)) {ι : Type} (s : Threads ι (Shared β) Reading) :
    Prop where
  cache : CacheInv k contents s.shared
  reading : ∀ t, Good k contents (s.thread t)

/-- **What every step keeps.** -/
theorem Inv.step {ι : Type} [DecidableEq ι] {s s' : Threads ι (Shared β) Reading} {e : ι × ReadAction}
    (h : Inv k contents s) (hb : b.Serves contents) (he : Served k s e) (hs : (system b k ι).step s e = some s') :
    Inv k contents s' := by
  obtain ⟨t, action⟩ := e
  obtain ⟨next, hact, rfl⟩ := ((⟨fun _ => act b k⟩ : ThreadSystem ..).step_eq_some).mp hs
  dsimp only at hact
  -- the shared state and the state of `t`, after what `t` does
  have hnext : CacheInv k contents next.1 ∧ Good k contents next.2 := by
    have hgood := h.reading t
    cases action with
    | call r =>
      cases hthread : s.thread t with
      | idle | returned r' result =>
        rw [hthread] at hact
        obtain rfl := Option.some.inj hact
        exact h.cache.call hb he
      | _ =>
        rw [hthread] at hact
        cases hact
    | next =>
      cases hthread : s.thread t with
      | missed r =>
        rw [hthread] at hact hgood
        obtain rfl := Option.some.inj hact
        exact h.cache.decode hb hgood
      | decoded r data =>
        rw [hthread] at hact hgood
        obtain rfl := Option.some.inj hact
        exact h.cache.insert hgood.1 hgood.2
      | inserted r =>
        rw [hthread] at hact hgood
        obtain rfl := Option.some.inj hact
        exact h.cache.lookUp hgood hgood
      | trimmed r =>
        rw [hthread] at hact hgood
        obtain rfl := Option.some.inj hact
        exact h.cache.extract hb hgood
      | _ =>
        rw [hthread] at hact
        cases hact
  refine ⟨hnext.1, fun u => ?_⟩
  by_cases hut : u = t
  · subst hut
    rw [ThreadSystem.move_thread_self]
    exact hnext.2
  · rw [ThreadSystem.move_thread_of_ne _ _ hut]
    exact h.reading u

theorem Inv.sound {ι : Type} {s : Threads ι (Shared β) Reading} (h : Inv k contents s) : Sound k contents s := by
  refine ⟨fun t r result ht => ?_, h.cache.bytes, h.cache.budget⟩
  have hgood := h.reading t
  rwa [ht] at hgood

theorem Inv.init (ι : Type) (st : β) : Inv k contents (init ι st) where
  cache := ⟨rfl, Nat.zero_le _, List.forall_mem_nil _⟩
  reading _ := trivial

end Steps

/-- **Every run** whose reads are in range returns slices of the contents, and keeps the bytes of the cache. A read
that is not in range is refused. -/
theorem reads_slice {ι : Type} [DecidableEq ι] (hb : b.Serves contents) :
    (∀ st events, (system b k ι).Meets (Served k) (init ι st) events →
      (system b k ι).Always (Sound k contents) (init ι st) events) ∧
    ∀ (s : Shared β) r, ¬k.InRange r → (call b k s r).2 = .returned r none :=
  ⟨fun st _ hmeets => (system b k ι).always_of_invariant (fun _ _ _ h he hs => h.step hb he hs) (fun _ h => h.sound)
    (Inv.init ι st) hmeets, fun _ _ hr => call_of_not_inRange hb hr⟩

/-- A backend whose entry 0 is `c`. -/
def only (c : List UInt8) : Backend Unit where
  extractRange _ r :=
    ((), if r.len < 0 then none else if r.index = 0 then some ((c.drop r.off.toNat).take r.len.toNat) else none)

theorem only_serves (c : List UInt8) : (only c).Serves fun i => if i = 0 then some c else none where
  slice st r c' hc hoff hlen := by
    split_ifs at hc with hindex
    obtain rfl := Option.some.inj hc
    simp only [only, if_neg (Int.not_lt.mpr hlen), if_pos hindex]
  negative st r hlen := if_pos hlen

/-- An archive with one entry. -/
def one (size : UInt64) : Config := ⟨⟨512, by decide⟩, ⟨64, by decide⟩, [size]⟩

theorem size_one_le (size : UInt64) (i : ℕ) : (one size).size i ≤ size.toNat := by
  cases i with
  | zero => exact Nat.le_refl _
  | succ i => exact Nat.zero_le _

theorem reads_slice_two : (system (only [7, 8]) (one 2) (Fin 1)).Always
    (Sound (one 2) fun i => if i = 0 then some [7, 8] else none) (init (Fin 1) ())
    [(0, .call ⟨0, 1, 1⟩), (0, .next), (0, .next), (0, .next), (0, .call ⟨0, 1, 5⟩)] := by
  refine (reads_slice (only_serves [7, 8])).1 () _ (LabelledSystem.meets_of_forall _ ?_ _ _)
  rintro _ ⟨_, r | _⟩
  · intro hoff _ _
    have hsize : (one 2).size r.index ≤ 2 := size_one_le 2 r.index
    omega
  · trivial

theorem huge_entry_refused :
    (call (only (List.replicate (2 ^ 63) 0)) (one 0x8000000000000000) ⟨[], 0, ()⟩ ⟨0, 0, 1⟩).2 =
        .returned ⟨0, 0, 1⟩ none ∧
      ¬Expected (one 0x8000000000000000) (fun i => if i = 0 then some (List.replicate (2 ^ 63) 0) else none)
        ⟨0, 0, 1⟩ none := by
  have hsize : (one 0x8000000000000000).size 0 = 9223372036854775808 := rfl
  have hnot : ¬(one 0x8000000000000000).InRange ⟨0, 0, 1⟩ := by
    intro h
    have hlt := h (Int.le_refl _) (Int.le_of_lt Int.zero_lt_one) (by dsimp only; omega)
    dsimp only at hlt
    omega
  refine ⟨call_of_not_inRange (only_serves _) hnot, fun h => ?_⟩
  cases h (Int.le_refl _) (Int.le_of_lt Int.zero_lt_one) Nat.one_pos _ rfl

end Prosperity.Formats.ArchiveCache
