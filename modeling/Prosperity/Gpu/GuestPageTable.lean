import Mathlib.Algebra.Group.Nat.Defs
import Mathlib.Data.List.Basic
import Mathlib.Data.List.Count
import Prosperity.Foundations.Digits

/-!
# The dirty filter of the guest page table

The renderer counts for each 64 KiB block of guest memory how many ranges touch it that a compute shader
has written and that are not read back. The counters of 1 GiB lie in a chunk, which is reserved the first
time that one of them is needed. A range that touches no block with a counter above zero is clear.

A reservation may fail: it is an argument, by the index of the chunk.
-/

namespace Prosperity.Gpu

structure GuestPageTable where
  chunks : ℕ → Option (ℕ → UInt16) := fun _ => none

namespace GuestPageTable

def kBlockShift : ℕ := 16

def kChunkShift : ℕ := 30

def kChunks : ℕ := 1 <<< (47 - kChunkShift)

def kBlocksPerChunk : ℕ := 1 <<< (kChunkShift - kBlockShift)

variable (t : GuestPageTable)

/-- `ChunkAt`: the table with the chunk reserved, none where there is no chunk. -/
def chunkAt (reserve : ℕ → Bool) (address : ℕ) : Option GuestPageTable :=
  let index := address >>> kChunkShift
  if index ≥ kChunks then none
  else
    match t.chunks index with
    | some _ => some t
    | none => if reserve index then some ⟨Function.update t.chunks index (some fun _ => 0)⟩ else none

/-- The counter of a block goes up by `delta`. -/
def bump (delta : UInt16) (block : ℕ) : GuestPageTable :=
  let index := (block <<< kBlockShift) >>> kChunkShift
  ⟨Function.update t.chunks index ((t.chunks index).map fun counters =>
    Function.update counters (block &&& (kBlocksPerChunk - 1))
      (counters (block &&& (kBlocksPerChunk - 1)) + delta))⟩

def addBlocks (reserve : ℕ → Bool) (delta : UInt16) : GuestPageTable → List ℕ → GuestPageTable
  | t, [] => t
  | t, block :: blocks =>
    match t.chunkAt reserve (block <<< kBlockShift) with
    | none => t
    | some t' => addBlocks reserve delta (t'.bump delta block) blocks

/-- The blocks from the one of `first` to the one of the last byte. -/
def blocksOf (first end_ : ℕ) : List ℕ :=
  List.range' (first >>> kBlockShift) ((end_ - 1) >>> kBlockShift + 1 - first >>> kBlockShift)

def addCsDirty (reserve : ℕ → Bool) (first end_ : ℕ) (delta : UInt16) : GuestPageTable :=
  let end_ := min end_ (kChunks <<< kChunkShift)
  if first ≥ end_ then t else addBlocks reserve delta t (blocksOf first end_)

theorem lt_next (block : ℕ) : block < (block ||| (kBlocksPerChunk - 1)) + 1 :=
  Nat.lt_succ_of_le Nat.left_le_or

/-- The loop of `CsClear`; a chunk that was never reserved is passed over. -/
def clearFrom (last block : ℕ) : Bool :=
  if block ≤ last then
    match t.chunks ((block <<< kBlockShift) >>> kChunkShift) with
    | none => clearFrom last ((block ||| (kBlocksPerChunk - 1)) + 1)
    | some counters =>
      if counters (block &&& (kBlocksPerChunk - 1)) ≠ 0 then false else clearFrom last (block + 1)
  else true
termination_by last + 1 - block
decreasing_by
  · have := lt_next block
    omega
  · omega

def csClear (first end_ : ℕ) : Bool :=
  if first ≥ end_ then true
  else if (end_ - 1) >>> kChunkShift ≥ kChunks then false
  else t.clearFrom ((end_ - 1) >>> kBlockShift) (first >>> kBlockShift)

/-! ## Counters -/

def counter (block : ℕ) : UInt16 :=
  match t.chunks ((block <<< kBlockShift) >>> kChunkShift) with
  | none => 0
  | some counters => counters (block &&& (kBlocksPerChunk - 1))

theorem chunk_of_block (block : ℕ) : (block <<< kBlockShift) >>> kChunkShift = block / 2 ^ 14 := by
  rw [Nat.shiftLeft_eq, Nat.shiftRight_eq_div_pow]
  exact Nat.mul_div_mul_right block (2 ^ 14) (by decide : 0 < 2 ^ 16)

theorem slot_of_block (block : ℕ) : block &&& (kBlocksPerChunk - 1) = block % 2 ^ 14 :=
  Nat.and_two_pow_sub_one_eq_mod block 14

theorem or_last (block : ℕ) : block ||| (kBlocksPerChunk - 1) = block / 2 ^ 14 * 2 ^ 14 + (2 ^ 14 - 1) := by
  apply Nat.eq_of_testBit_eq
  intro i
  have hmask : kBlocksPerChunk - 1 = 2 ^ 14 - 1 := by decide
  rw [hmask, Nat.mul_comm, Nat.testBit_or,
    Nat.testBit_two_pow_mul_add _ (Nat.sub_lt (Nat.two_pow_pos 14) Nat.one_pos), Nat.testBit_two_pow_sub_one]
  split
  · rename_i hi
    rw [decide_eq_true hi, Bool.or_true]
  · rename_i hi
    rw [decide_eq_false hi, Bool.or_false, Nat.testBit_div_two_pow, Nat.sub_add_cancel (Nat.le_of_not_lt hi)]

variable {t}

/-- **The loop finds the counters of its blocks at zero.** -/
theorem clearFrom_iff {last block : ℕ} :
    t.clearFrom last block = true ↔ ∀ b, block ≤ b → b ≤ last → t.counter b = 0 := by
  induction block using clearFrom.induct t last with
  | case1 block hle hnone ih =>
    rw [clearFrom, if_pos hle, hnone]
    dsimp only
    rw [ih]
    constructor
    · intro h b hb hlast
      obtain hlt | hge := Nat.lt_or_ge b ((block ||| (kBlocksPerChunk - 1)) + 1)
      · -- up to the end of the chunk no counter is there
        have hsame : b / 2 ^ 14 = block / 2 ^ 14 := by
          rw [or_last] at hlt
          omega
        rw [counter, chunk_of_block, hsame, ← chunk_of_block, hnone]
      · exact h b hge hlast
    · intro h b hb hlast
      exact h b (Nat.le_trans (Nat.le_of_lt (lt_next block)) hb) hlast
  | case2 block hle counters hsome hne =>
    rw [clearFrom, if_pos hle, hsome]
    dsimp only
    rw [if_pos hne]
    refine ⟨fun h => absurd h Bool.false_ne_true, fun h => ?_⟩
    have hzero := h block (Nat.le_refl _) hle
    rw [counter, hsome] at hzero
    exact absurd hzero hne
  | case3 block hle counters hsome hzero ih =>
    rw [clearFrom, if_pos hle, hsome]
    dsimp only
    rw [if_neg hzero, ih]
    constructor
    · intro h b hb hlast
      obtain rfl | hlt := Nat.eq_or_lt_of_le hb
      · rw [counter, hsome]
        exact not_not.mp hzero
      · exact h b hlt hlast
    · intro h b hb hlast
      exact h b (Nat.le_of_succ_le hb) hlast
  | case4 block hgt =>
    rw [clearFrom, if_neg hgt]
    exact ⟨fun _ b hb hlast => absurd (Nat.le_trans hb hlast) hgt, fun _ => rfl⟩

theorem chunkAt_eq {reserve : ℕ → Bool} {address : ℕ} {t' : GuestPageTable}
    (h : t.chunkAt reserve address = some t') :
    t'.counter = t.counter ∧ (t'.chunks (address >>> kChunkShift)).isSome = true := by
  unfold chunkAt at h
  dsimp only at h
  split at h
  · cases h
  · split at h
    · rename_i counters hsome
      obtain rfl := Option.some.inj h
      exact ⟨rfl, by rw [hsome]; rfl⟩
    · rename_i hnone
      split at h
      · obtain rfl := Option.some.inj h
        have hself := Function.update_self (address >>> kChunkShift) (some fun _ => 0) t.chunks
        refine ⟨funext fun block => ?_, Option.isSome_iff_exists.mpr ⟨_, hself⟩⟩
        unfold counter
        by_cases heq : (block <<< kBlockShift) >>> kChunkShift = address >>> kChunkShift
        · simp only [heq, Function.update_self, hnone]
        · simp only [Function.update_of_ne heq]
      · cases h

theorem chunkAt_isSome {reserve : ℕ → Bool} {address : ℕ} (hreserve : ∀ i, reserve i = true)
    (h : address >>> kChunkShift < kChunks) : (t.chunkAt reserve address).isSome = true := by
  unfold chunkAt
  dsimp only
  rw [if_neg (Nat.not_le.mpr h)]
  split
  · rfl
  · rw [if_pos (hreserve _)]
    rfl

theorem counter_bump {delta : UInt16} {block : ℕ}
    (h : (t.chunks ((block <<< kBlockShift) >>> kChunkShift)).isSome = true) (b : ℕ) :
    (t.bump delta block).counter b = if b = block then t.counter b + delta else t.counter b := by
  obtain ⟨counters, hsome⟩ := Option.isSome_iff_exists.mp h
  unfold counter bump
  dsimp only
  rw [chunk_of_block] at hsome
  rw [chunk_of_block, chunk_of_block, hsome, Option.map_some]
  by_cases hchunk : b / 2 ^ 14 = block / 2 ^ 14
  · rw [hchunk, Function.update_self, hsome]
    dsimp only
    split
    · rename_i heq
      rw [heq, Function.update_self]
    · rename_i hne
      refine Function.update_of_ne (fun hslot => hne ?_) _ _
      rw [slot_of_block, slot_of_block] at hslot
      omega
  · rw [Function.update_of_ne hchunk, if_neg fun heq => hchunk (congrArg (· / 2 ^ 14) heq)]

theorem counter_addBlocks {reserve : ℕ → Bool} {delta : UInt16} {blocks : List ℕ}
    (hreserve : ∀ i, reserve i = true) (hblocks : ∀ b ∈ blocks, b < kChunks * 2 ^ 14)
    (hnodup : blocks.Nodup) (b : ℕ) : (addBlocks reserve delta t blocks).counter b =
      if b ∈ blocks then t.counter b + delta else t.counter b := by
  induction blocks generalizing t with
  | nil => rfl
  | cons block blocks ih =>
    have hchunk : (block <<< kBlockShift) >>> kChunkShift < kChunks := by
      rw [chunk_of_block]
      exact Nat.div_lt_of_lt_mul (Nat.mul_comm kChunks _ ▸ hblocks block List.mem_cons_self)
    obtain ⟨t', ht'⟩ := Option.isSome_iff_exists.mp (chunkAt_isSome (t := t) hreserve hchunk)
    obtain ⟨hcounter, hsome⟩ := chunkAt_eq ht'
    obtain ⟨hnot, hnodup⟩ := List.nodup_cons.mp hnodup
    rw [addBlocks, ht']
    dsimp only
    rw [ih (fun b hb => hblocks b (List.mem_cons_of_mem _ hb)) hnodup, counter_bump hsome, hcounter]
    by_cases heq : b = block
    · subst heq
      rw [if_neg hnot, if_pos rfl, if_pos List.mem_cons_self]
    · simp only [List.mem_cons, heq, false_or, if_false]

/-! ## Ranges -/

def Touches (r : ℕ × ℕ) (block : ℕ) : Prop :=
  r.1 < r.2 ∧ r.1 >>> kBlockShift ≤ block ∧ block ≤ (r.2 - 1) >>> kBlockShift

instance (r : ℕ × ℕ) (block : ℕ) : Decidable (Touches r block) := inferInstanceAs (Decidable (_ ∧ _))

def touching (live : List (ℕ × ℕ)) (block : ℕ) : ℕ := live.countP fun r => Touches r block

def kUserBlocks : ℕ := 1 <<< 31

theorem counter_addCsDirty {t : GuestPageTable} {reserve : ℕ → Bool} (hreserve : ∀ i, reserve i = true)
    (r : ℕ × ℕ) (delta : UInt16) {block : ℕ} (hblock : block < kUserBlocks) :
    (t.addCsDirty reserve r.1 r.2 delta).counter block =
      if Touches r block then t.counter block + delta else t.counter block := by
  have hspace : kChunks <<< kChunkShift = 2 ^ 47 := by decide
  have huser : kUserBlocks = 2 ^ 31 := by decide
  rw [huser] at hblock
  unfold addCsDirty
  dsimp only
  rw [hspace]
  -- the block of the user space is touched by the range and by its part there
  have hpart : r.1 < min r.2 (2 ^ 47) → (block ∈ blocksOf r.1 (min r.2 (2 ^ 47)) ↔ Touches r block) := by
    intro hlt
    have hlt' := Nat.lt_min.mp hlt
    simp only [blocksOf, List.mem_range'_1, Touches, kBlockShift, Nat.shiftRight_eq_div_pow]
    omega
  split
  · rename_i hge
    rw [if_neg]
    rintro ⟨hlt, hle, -⟩
    rw [kBlockShift, Nat.shiftRight_eq_div_pow] at hle
    omega
  · rename_i hlt
    have hlt := Nat.lt_of_not_le hlt
    have hnodup : (blocksOf r.1 (min r.2 (2 ^ 47))).Nodup := List.nodup_range'
    rw [counter_addBlocks hreserve ?_ hnodup]
    · simp only [hpart hlt]
    · intro b hb
      simp only [blocksOf, List.mem_range'_1, kBlockShift, Nat.shiftRight_eq_div_pow] at hb
      have hchunks : kChunks * 2 ^ 14 = 2 ^ 31 := by decide
      rw [hchunks]
      omega

/-- The ranges that are live along a history in which `allowed` says how the reservations of each call
may go: ranges are added and later matched, and other calls reserve chunks. -/
inductive DirtyRun (allowed : (ℕ → Bool) → Prop) : List (ℕ × ℕ) → GuestPageTable → Prop where
  | start : DirtyRun allowed [] {}
  | add {live : List (ℕ × ℕ)} {t : GuestPageTable} {reserve : ℕ → Bool} (r : ℕ × ℕ) :
      DirtyRun allowed live t → allowed reserve → DirtyRun allowed (r :: live) (t.addCsDirty reserve r.1 r.2 1)
  | matched {live : List (ℕ × ℕ)} {t : GuestPageTable} {reserve : ℕ → Bool} {r : ℕ × ℕ} :
      DirtyRun allowed live t → allowed reserve → r ∈ live →
        DirtyRun allowed (live.erase r) (t.addCsDirty reserve r.1 r.2 (-1))
  | touch {live : List (ℕ × ℕ)} {t t' : GuestPageTable} {reserve : ℕ → Bool} {address : ℕ} :
      DirtyRun allowed live t → t.chunkAt reserve address = some t' → DirtyRun allowed live t'

/-- All reservations go well. -/
def Reserves (reserve : ℕ → Bool) : Prop := ∀ i, reserve i = true

theorem touching_erase {live : List (ℕ × ℕ)} {r : ℕ × ℕ} (hr : r ∈ live) (block : ℕ) :
    touching live block = touching (live.erase r) block + if Touches r block then 1 else 0 := by
  have hperm := List.perm_cons_erase hr
  rw [touching, hperm.countP_eq, List.countP_cons]
  simp only [decide_eq_true_eq]
  rfl

/-- **The counters are the numbers of live ranges**, as far as 16 bits go. -/
theorem DirtyRun.counter_eq {live : List (ℕ × ℕ)} {t : GuestPageTable} (h : DirtyRun Reserves live t)
    {block : ℕ} (hblock : block < kUserBlocks) : t.counter block = .ofNat (touching live block) := by
  induction h with
  | start => rfl
  | @add live t reserve r _ hreserve ih =>
    rw [counter_addCsDirty hreserve r 1 hblock, ih]
    simp only [touching, List.countP_cons, decide_eq_true_eq]
    split
    · exact (UInt16.ofNat_add _ _).symm
    · rfl
  | @matched live t reserve r _ hreserve hr ih =>
    rw [counter_addCsDirty hreserve r (-1) hblock, ih, touching_erase hr block]
    split
    · rw [UInt16.ofNat_add, UInt16.add_assoc]
      exact UInt16.add_zero _
    · rfl
  | touch _ hchunk ih => rw [(chunkAt_eq hchunk).1, ih]

def ShareBlock (r s : ℕ × ℕ) : Prop := ∃ block, Touches r block ∧ Touches s block

theorem csClear_iff {t : GuestPageTable} {r : ℕ × ℕ} : t.csClear r.1 r.2 = true ↔
    (r.1 < r.2 → r.2 ≤ 2 ^ 47) ∧ ∀ block, Touches r block → t.counter block = 0 := by
  unfold csClear
  have hchunks : kChunks = 2 ^ 17 := by decide
  split
  · rename_i hge
    refine ⟨fun _ => ⟨fun hlt => absurd hlt (Nat.not_lt.mpr hge), fun block h => ?_⟩, fun _ => rfl⟩
    exact absurd h.1 (Nat.not_lt.mpr hge)
  · rename_i hlt
    have hlt := Nat.lt_of_not_le hlt
    split
    · rename_i hend
      refine ⟨fun h => absurd h Bool.false_ne_true, fun h => ?_⟩
      have hle := h.1 hlt
      rw [hchunks, kChunkShift, Nat.shiftRight_eq_div_pow] at hend
      omega
    · rename_i hend
      rw [hchunks, kChunkShift, Nat.shiftRight_eq_div_pow] at hend
      rw [clearFrom_iff]
      constructor
      · intro h
        exact ⟨fun _ => by omega, fun block htouch => h block htouch.2.1 htouch.2.2⟩
      · intro h block hle hlast
        exact h.2 block ⟨hlt, hle, hlast⟩

/-- **When the filter is right**, along a history whose reservations go well: it calls no range clear that
has a block in common with a live one, if and only if no block is touched by a number of live ranges that
is a multiple of 65536 and not zero; and with no range live all of the user space is clear. -/
theorem cs_clear_sound {live : List (ℕ × ℕ)} {t : GuestPageTable} (h : DirtyRun Reserves live t) :
    ((∀ r, t.csClear r.1 r.2 = true → ∀ s ∈ live, ¬ShareBlock r s) ↔
      ∀ block < kUserBlocks, touching live block % 2 ^ 16 = 0 → touching live block = 0) ∧
    (live = [] → ∀ first end_, end_ ≤ 2 ^ 47 → t.csClear first end_ = true) := by
  have hcounter : ∀ block < kUserBlocks, t.counter block = 0 ↔ touching live block % 2 ^ 16 = 0 := by
    intro block hblock
    rw [h.counter_eq hblock, ← UInt16.toNat_inj, UInt16.toNat_ofNat']
    rfl
  have huser : kUserBlocks = 2 ^ 31 := by decide
  have hinside : ∀ (r : ℕ × ℕ) block, r.2 ≤ 2 ^ 47 → Touches r block → block < kUserBlocks := by
    rintro r block hle ⟨hlt, -, hlast⟩
    rw [kBlockShift, Nat.shiftRight_eq_div_pow] at hlast
    omega
  refine ⟨⟨fun hright block hblock hzero => ?_, fun hcond r hclear s hs => ?_⟩, fun hlive first end_ hend => ?_⟩
  · -- ask for the block itself
    have hself : ∀ b, Touches (block * 2 ^ 16, block * 2 ^ 16 + 1) b ↔ b = block := by
      intro b
      simp only [Touches, kBlockShift, Nat.shiftRight_eq_div_pow]
      omega
    have hclear : t.csClear (block * 2 ^ 16) (block * 2 ^ 16 + 1) = true := by
      refine (csClear_iff (r := (block * 2 ^ 16, block * 2 ^ 16 + 1))).mpr ⟨fun _ => ?_, fun b hb => ?_⟩
      · dsimp only
        omega
      · obtain rfl := (hself b).mp hb
        exact (hcounter b hblock).mpr hzero
    refine List.countP_eq_zero.mpr fun s hs htouch => ?_
    exact hright _ hclear s hs ⟨block, (hself block).mpr rfl, of_decide_eq_true htouch⟩
  · rintro ⟨block, hr, hs'⟩
    obtain ⟨hend, hall⟩ := csClear_iff.mp hclear
    have hblock := hinside r block (hend hr.1) hr
    have hzero := hcond block hblock ((hcounter block hblock).mp (hall block hr))
    exact List.countP_eq_zero.mp hzero s hs (decide_eq_true hs')
  · subst hlive
    refine (csClear_iff (r := (first, end_))).mpr ⟨fun _ => hend, fun block hr => ?_⟩
    exact (hcounter block (hinside _ block hend hr)).mpr rfl

theorem cs_clear_sound_one : (({} : GuestPageTable).addCsDirty (fun _ => true) 0 1 1).csClear 0 1 = false := by
  have hrun : DirtyRun Reserves [(0, 1)] (({} : GuestPageTable).addCsDirty (fun _ => true) 0 1 1) :=
    .add (0, 1) .start fun _ => rfl
  have hsound := (cs_clear_sound hrun).1.mpr fun block _ hzero => by
    have hle : touching [(0, 1)] block ≤ 1 := List.countP_le_length
    omega
  refine (Bool.not_eq_true _).mp fun hclear => ?_
  refine hsound (0, 1) hclear (0, 1) List.mem_cons_self ⟨0, ?_, ?_⟩ <;>
    exact ⟨by decide, by decide, by decide⟩

theorem dirtyRun_replicate (n : ℕ) : ∃ t, DirtyRun Reserves (List.replicate n (0, 1)) t := by
  induction n with
  | zero => exact ⟨_, .start⟩
  | succ n ih =>
    obtain ⟨t, h⟩ := ih
    have hadd : DirtyRun Reserves ((0, 1) :: List.replicate n (0, 1))
        (t.addCsDirty (fun _ => true) 0 1 1) := .add (0, 1) h fun _ => rfl
    exact ⟨_, hadd⟩

/-- **65536 ranges of one block are taken for none.** -/
theorem cs_clear_wraps : ¬∀ (live : List (ℕ × ℕ)) (t : GuestPageTable), DirtyRun Reserves live t →
    ∀ r, t.csClear r.1 r.2 = true → ∀ s ∈ live, ¬ShareBlock r s := by
  intro hall
  obtain ⟨t, hrun⟩ := dirtyRun_replicate 65536
  have hzero : t.counter 0 = 0 := by
    have htouch : Touches (0, 1) 0 := ⟨by decide, by decide, by decide⟩
    rw [hrun.counter_eq (by decide), touching, List.countP_replicate, decide_eq_true htouch, if_pos rfl]
    rfl
  have hclear : t.csClear 0 1 = true := by
    refine (csClear_iff (r := (0, 1))).mpr ⟨fun _ => by decide, fun block hr => ?_⟩
    obtain rfl : block = 0 := Nat.le_zero.mp hr.2.2
    exact hzero
  refine hall _ t hrun (0, 1) hclear (0, 1) (List.mem_replicate.mpr ⟨by decide, rfl⟩) ?_
  exact ⟨0, ⟨by decide, by decide, by decide⟩, by decide, by decide, by decide⟩

end GuestPageTable

end Prosperity.Gpu
