import Prosperity.Foundations.SharedWords
import Prosperity.Rdna.ScheduledDispatch

/-!
# Masks of a whole wave

A host whose subgroups split a wave of 64 lanes gets the masks of the wave through an array that the workgroup shares:
`MaskOf` ors the bit of each lane into a word for each half of the wave, and `SetMask` has every lane read what the
first lane and lane 32 publish. Each phase ends at a barrier, behind which all of its words are there.

Where the last wave of a workgroup has 32 lanes or fewer, nobody publishes the upper half that `SetMask` reads.
-/

namespace Prosperity.Rdna

variable {n i K L sgpr : ℕ}

/-! ## The lanes -/

/-- `mask_lane_id`, the low six bits of the local index. -/
def laneOf (L : ℕ) : ℕ := L % 64

/-- `wave_base`, the other bits. -/
def waveBase (L : ℕ) : ℕ := L / 64 * 64

/-- `half`: the word that `MaskOf` takes for the lane's half of the wave. -/
def halfOf (L : ℕ) : ℕ := waveBase L + laneOf L / 32 * 32

/-! ## The exchanges -/

section Exchanges

variable (n : ℕ) (order : ℕ → List ℕ)

/-- `WavePublish`, by the lanes in an order. -/
def wavePublish (slot : ℕ) (lanes : List ℕ) (value : ℕ → ℕ) (c : SharedWords) : SharedWords :=
  c.storeAll lanes (fun L => slot * n + L) value

/-- The word that `WaveFetch` reads. -/
def fetchWord (slot src L : ℕ) : ℕ := slot * n + (waveBase L + src % 64)

/-- `MaskOf` up to its last barriers: the first lane of each half clears the word, and each lane ors its bit. The
phases have orders of the lanes. -/
def maskHalves (cond : ℕ → Bool) (c : SharedWords) : SharedWords :=
  ((c.storeAll ((order 0).filter fun L => laneOf L % 32 = 0) halfOf fun _ => 0).orAll (order 1) halfOf
    fun L => if cond L then 1 <<< (laneOf L % 32) else 0)

def maskOf (cond : ℕ → Bool) (c : SharedWords) (L : ℕ) : ℕ := (maskHalves order cond c).words (halfOf L)

/-- The words of `SetMask`. -/
def maskWords (value : ℕ → ℕ) (c : SharedWords) : SharedWords := wavePublish n 0 (order 2) value c

/-- `SetMask`, with `block_active`. -/
def setMask (active : ℕ → Bool) (sgpr : ℕ) (value : ℕ → ℕ) (c : SharedWords) (regs : ℕ → WaveRegs Unit) (L : ℕ) :
    WaveRegs Unit :=
  let words := (maskWords n order value c).words
  storePrivate (active L)
    (((regs L).setSg sgpr (words (fetchWord n 0 0 L))).setSg (sgpr + 1) (words (fetchWord n 0 32 L))) (regs L)

/-- `SgMask`: the half of the pair that the lane lies in. -/
def sgMask (r : WaveRegs Unit) (sgpr L : ℕ) : ℕ := if laneOf L / 32 = 0 then r.sg sgpr else r.sg (sgpr + 1)

def laneActive (active : Bool) (mask L : ℕ) : Bool := active && (mask >>> (laneOf L % 32)) &&& 1 ≠ 0

def laneFlag (active : Bool) (r : WaveRegs Unit) (sgpr L : ℕ) : ℕ := if laneActive active (sgMask r sgpr L) L then 1 else 0

/-- What `SetLaneFlag` hands to `SetMask`. -/
def flagMask (flag : ℕ → ℕ) (c : SharedWords) (regs : ℕ → WaveRegs Unit) (L : ℕ) : ℕ :=
  maskOf order (fun K => flag K ≠ 0) c L &&& sgMask (regs L) 126 L

/-- `WaveExchange`, with the lane that each lane asks for. -/
def waveExchange (lanes : List ℕ) (value src : ℕ → ℕ) (c : SharedWords) (L : ℕ) : ℕ :=
  (wavePublish n 0 lanes value c).words (fetchWord n 0 (src L) L)

end Exchanges

/-! ## What the exchanges have to do -/

section Exact

def WroteInside (n : ℕ) (c : SharedWords) (w : ℕ) : Prop := w ≤ 2 * n ∧ c.written w = true

def pairMask (r : WaveRegs Unit) (sgpr : ℕ) : ℕ := 2 ^ 32 * r.sg (sgpr + 1) + r.sg sgpr

def AnyLane (n : ℕ) (bit : ℕ → Bool) (L : ℕ) : Prop := ∃ K < n, waveBase K = waveBase L ∧ bit K = true

structure Sees (n : ℕ) (bit : ℕ → Bool) (sgpr L : ℕ) (r : WaveRegs Unit) : Prop where
  bits : ∀ i, (pairMask r sgpr).testBit i = true ↔ i < 64 ∧ waveBase L + i < n ∧ bit (waveBase L + i) = true
  active : laneActive true (sgMask r sgpr L) L = bit L
  flag : laneFlag true r sgpr L = if bit L then 1 else 0
  vccz : sgpr = 106 → (branchTaken .vccz r = true ↔ ¬AnyLane n bit L)
  vccnz : sgpr = 106 → (branchTaken .vccnz r = true ↔ AnyLane n bit L)
  execz : sgpr = 126 → (branchTaken .execz r = true ↔ ¬AnyLane n bit L)
  execnz : sgpr = 126 → (branchTaken .execnz r = true ↔ AnyLane n bit L)

def IsPair (sgpr : ℕ) : Prop := sgpr ≠ 124 ∧ sgpr ≠ 125

/-- **Masks are exact** in a workgroup of `n` lanes: in any order of the lanes between barriers and whatever the array
held, all words that are read have been written in the exchange, and each lane of a wave that runs sees the mask. -/
def MaskExact (n : ℕ) : Prop :=
  ∀ order : ℕ → List ℕ, (∀ k, (order k).Perm (List.range n)) →
    ∀ (c : SharedWords) (regs : ℕ → WaveRegs Unit) (active : ℕ → Bool) (sgpr : ℕ), IsPair sgpr →
      (∀ (cond : ℕ → Bool), ∀ L < n, WroteInside n (maskHalves order cond c.fresh) (halfOf L) ∧
          (∀ src ∈ [0, 32], WroteInside n
            (maskWords n order (maskOf order cond c.fresh) (maskHalves order cond c.fresh).fresh) (fetchWord n 0 src L)) ∧
          (active L = true → Sees n cond sgpr L (setMask n order active sgpr (maskOf order cond c.fresh)
            (maskHalves order cond c.fresh).fresh regs L))) ∧
      ∀ (flag : ℕ → ℕ), ∀ L < n, (∀ K < n, waveBase K = waveBase L →
          (regs K).sg 126 = (regs L).sg 126 ∧ (regs K).sg 127 = (regs L).sg 127) →
        active L = true →
        Sees n (fun K => decide (flag K ≠ 0) && laneActive true (sgMask (regs K) 126 K) K) sgpr L
          (setMask n order active sgpr (flagMask order flag c.fresh regs)
            (maskHalves order (fun K => flag K ≠ 0) c.fresh).fresh regs L)

/-- **An exchange is exact**: each lane gets the value of the lane that it asks for, which has written it. -/
def ExchangeExact (n : ℕ) (src : ℕ → ℕ) : Prop :=
  ∀ lanes : List ℕ, lanes.Perm (List.range n) → ∀ (c : SharedWords) (value : ℕ → ℕ), ∀ L < n,
    WroteInside n (wavePublish n 0 lanes value c.fresh) (fetchWord n 0 (src L) L) ∧
      waveExchange n lanes value src c.fresh L = value (waveBase L + src L % 64)

end Exact

/-! ## What lanes publish -/

section Publish

variable {lanes : List ℕ} {value : ℕ → ℕ} {c : SharedWords}

theorem wavePublish_words (hlanes : lanes.Perm (List.range n)) (hK : K < n) :
    (wavePublish n 0 lanes value c).words (0 * n + K) = value K := by
  refine SharedWords.storeAll_words ?_ ⟨K, hlanes.mem_iff.mpr (List.mem_range.mpr hK), rfl⟩
  intro l _ hl
  rw [Nat.add_left_cancel hl]

theorem wavePublish_written (hlanes : lanes.Perm (List.range n)) :
    (wavePublish n 0 lanes value c.fresh).written (0 * n + K) = true ↔ K < n := by
  refine SharedWords.storeAll_written.trans ?_
  constructor
  · rintro (h | ⟨l, hl, heq⟩)
    · cases h
    · rw [← Nat.add_left_cancel heq]
      exact List.mem_range.mp (hlanes.mem_iff.mp hl)
  · exact fun hK => .inr ⟨K, hlanes.mem_iff.mpr (List.mem_range.mpr hK), rfl⟩

theorem wroteInside_publish (hlanes : lanes.Perm (List.range n)) (src : ℕ) :
    WroteInside n (wavePublish n 0 lanes value c.fresh) (fetchWord n 0 src L) ↔ waveBase L + src % 64 < n := by
  unfold WroteInside fetchWord
  rw [wavePublish_written hlanes]
  exact ⟨And.right, fun h => ⟨by omega, h⟩⟩

/-- **An exchange is exact** just if the lanes exist. -/
theorem exchangeExact_iff (n : ℕ) (src : ℕ → ℕ) : ExchangeExact n src ↔ ∀ L < n, waveBase L + src L % 64 < n := by
  constructor
  · intro h L hL
    exact (wroteInside_publish (List.Perm.refl _) _).mp
      (h (List.range n) (List.Perm.refl _) ⟨fun _ => 0, fun _ => false⟩ (fun _ => 0) L hL).1
  · intro h lanes hlanes c value L hL
    exact ⟨(wroteInside_publish hlanes _).mpr (h L hL), wavePublish_words hlanes (h L hL)⟩

end Publish

/-! ## The halves of a mask -/

section Halves

variable {order : ℕ → List ℕ} {cond : ℕ → Bool} {c : SharedWords}

theorem halfOf_le (L : ℕ) : halfOf L ≤ L := by
  unfold halfOf waveBase laneOf
  omega

theorem leader_halfOf (L : ℕ) : laneOf (halfOf L) % 32 = 0 ∧ halfOf (halfOf L) = halfOf L := by
  unfold halfOf waveBase laneOf
  omega

theorem mem_leaders (horder : ∀ k, (order k).Perm (List.range n)) (hL : L < n) :
    halfOf L ∈ (order 0).filter fun K => laneOf K % 32 = 0 := by
  have hle := halfOf_le L
  refine List.mem_filter.mpr ⟨(horder 0).mem_iff.mpr (List.mem_range.mpr (by omega)), ?_⟩
  exact decide_eq_true (leader_halfOf L).1

theorem wroteInside_halves (horder : ∀ k, (order k).Perm (List.range n)) (hL : L < n) :
    WroteInside n (maskHalves order cond c.fresh) (halfOf L) := by
  have hle := halfOf_le L
  refine ⟨by omega, ?_⟩
  unfold maskHalves
  rw [SharedWords.orAll_written]
  exact SharedWords.storeAll_written.mpr (.inr ⟨_, mem_leaders horder hL, (leader_halfOf L).2⟩)

/-- **The bits of a half**: those of its lanes that exist. -/
theorem maskOf_testBit (horder : ∀ k, (order k).Perm (List.range n)) (hL : L < n) :
    (maskOf order cond c L).testBit i = true ↔ i < 32 ∧ halfOf L + i < n ∧ cond (halfOf L + i) = true := by
  unfold maskOf maskHalves
  rw [SharedWords.orAll_testBit, SharedWords.storeAll_words (fun _ _ _ => rfl)
    ⟨_, mem_leaders horder hL, (leader_halfOf L).2⟩, Nat.zero_testBit]
  have hbit : ∀ m, (1 <<< m).testBit i = true ↔ m = i := by
    intro m
    rw [Nat.one_shiftLeft, Nat.testBit_two_pow, decide_eq_true_iff]
  constructor
  · rintro (h | ⟨K, hK, hhalf, hone⟩)
    · cases h
    · -- one lane of the half sets the bit, and its number is that of the bit
      have hKn := List.mem_range.mp ((horder 1).mem_iff.mp hK)
      split at hone
      · rename_i hcond
        have hi := (hbit _).mp hone
        have hat : K = halfOf L + i := by
          rw [← hhalf, ← hi]
          unfold halfOf waveBase laneOf
          omega
        subst hat
        exact ⟨by omega, hKn, hcond⟩
      · rw [Nat.zero_testBit] at hone
        cases hone
  · rintro ⟨hi, hKn, hcond⟩
    have hlane : halfOf (halfOf L + i) = halfOf L ∧ laneOf (halfOf L + i) % 32 = i := by
      unfold halfOf waveBase laneOf
      omega
    refine .inr ⟨halfOf L + i, (horder 1).mem_iff.mpr (List.mem_range.mpr hKn), hlane.1, ?_⟩
    rw [if_pos hcond]
    exact (hbit _).mpr hlane.2

end Halves

/-! ## What a lane sees -/

section Seen

variable {r : WaveRegs Unit} {bit : ℕ → Bool}

theorem sg_setSg_self {value : ℕ} (h : i ≠ 125) : (r.setSg i value).sg i = value := by
  unfold WaveRegs.setSg WaveRegs.sg
  rw [if_neg h, if_neg h]
  exact Function.update_self ..

theorem sg_setSg_other {value j : ℕ} (h : i ≠ j) : (r.setSg j value).sg i = r.sg i := by
  unfold WaveRegs.setSg WaveRegs.sg
  split
  · rfl
  · split
    · rfl
    · exact Function.update_of_ne h _ _

theorem laneActive_eq_testBit (mask L : ℕ) : laneActive true mask L = mask.testBit (laneOf L % 32) := by
  unfold laneActive Nat.testBit
  rw [Nat.land_comm, Bool.true_and]
  exact decide_not.trans rfl

/-- **A pair whose halves have the bits of the lanes** is read as the mask of the wave. -/
theorem sees_of_halves (hL : L < n)
    (hlo : ∀ i, (r.sg sgpr).testBit i = true ↔ i < 32 ∧ waveBase L + i < n ∧ bit (waveBase L + i) = true)
    (hhi : ∀ i, (r.sg (sgpr + 1)).testBit i = true ↔
      i < 32 ∧ waveBase L + 32 + i < n ∧ bit (waveBase L + 32 + i) = true) : Sees n bit sgpr L r := by
  -- each half is a dword, so the bits of the pair lie apart
  have hword : ∀ {w : ℕ} {P : ℕ → Prop}, (∀ i, w.testBit i = true ↔ i < 32 ∧ P i) → w < 2 ^ 32 := by
    intro w P h
    refine Nat.lt_pow_two_of_testBit w fun i hi => ?_
    by_contra hbit
    exact absurd ((h i).mp (by simpa using hbit)).1 (by omega)
  have hbits : ∀ i, (pairMask r sgpr).testBit i = true ↔
      i < 64 ∧ waveBase L + i < n ∧ bit (waveBase L + i) = true := by
    intro i
    unfold pairMask
    rw [Nat.testBit_two_pow_mul_add _ (hword hlo)]
    split
    · rename_i hi
      rw [hlo]
      exact and_congr_left fun _ => ⟨fun _ => by omega, fun _ => hi⟩
    · rename_i hi
      have hat : waveBase L + 32 + (i - 32) = waveBase L + i := by omega
      rw [hhi, hat]
      exact and_congr_left fun _ => ⟨fun _ => by omega, fun _ => by omega⟩
  -- a lane of the wave is in the low half or in the high one
  have hzero : r.sg sgpr ||| r.sg (sgpr + 1) = 0 ↔ ¬AnyLane n bit L := by
    rw [Nat.or_eq_zero_iff]
    constructor
    · rintro ⟨hl, hh⟩ ⟨K, hK, hbase, hbit⟩
      unfold waveBase at hbase
      by_cases hlow : K % 64 < 32
      · have hthis := (hlo (K % 64)).mpr ⟨hlow, by unfold waveBase; omega, by
          rw [show waveBase L + K % 64 = K by unfold waveBase; omega]
          exact hbit⟩
        rw [hl, Nat.zero_testBit] at hthis
        cases hthis
      · have hthis := (hhi (K % 64 - 32)).mpr ⟨by omega, by unfold waveBase; omega, by
          rw [show waveBase L + 32 + (K % 64 - 32) = K by unfold waveBase; omega]
          exact hbit⟩
        rw [hh, Nat.zero_testBit] at hthis
        cases hthis
    · intro hnone
      have hbase : ∀ {i}, i < 64 → waveBase (waveBase L + i) = waveBase L := by
        intro i hi
        unfold waveBase
        omega
      constructor
      · refine Nat.eq_of_testBit_eq fun i => ?_
        rw [Nat.zero_testBit, Bool.eq_false_iff]
        intro hbit
        obtain ⟨hi, hlt, hset⟩ := (hlo i).mp hbit
        exact hnone ⟨_, hlt, hbase (by omega), hset⟩
      · refine Nat.eq_of_testBit_eq fun i => ?_
        rw [Nat.zero_testBit, Bool.eq_false_iff]
        intro hbit
        obtain ⟨hi, hlt, hset⟩ := (hhi i).mp hbit
        rw [Nat.add_assoc] at hlt hset
        exact hnone ⟨_, hlt, hbase (by omega), hset⟩
  -- the half that the lane reads is the one it is in
  have hactive : laneActive true (sgMask r sgpr L) L = bit L := by
    rw [laneActive_eq_testBit, Bool.eq_iff_iff]
    unfold sgMask
    split
    · rename_i hlow
      rw [hlo, show waveBase L + laneOf L % 32 = L by unfold waveBase laneOf at *; omega]
      exact ⟨fun h => h.2.2, fun h => ⟨by omega, hL, h⟩⟩
    · rename_i hhigh
      rw [hhi, show waveBase L + 32 + laneOf L % 32 = L by unfold waveBase laneOf at *; omega]
      exact ⟨fun h => h.2.2, fun h => ⟨by omega, hL, h⟩⟩
  refine ⟨hbits, hactive, ?_, ?_, ?_, ?_, ?_⟩
  · unfold laneFlag
    rw [hactive]
  · rintro rfl
    exact decide_eq_true_iff.trans hzero
  · rintro rfl
    exact (decide_eq_true_iff.trans (not_congr hzero)).trans not_not
  · rintro rfl
    exact decide_eq_true_iff.trans hzero
  · rintro rfl
    exact (decide_eq_true_iff.trans (not_congr hzero)).trans not_not

/-- **`SetMask`** has each lane of a wave that runs see what the first lane and lane 32 publish. -/
theorem sees_setMask {order : ℕ → List ℕ} {active : ℕ → Bool} {value : ℕ → ℕ} {c : SharedWords}
    {regs : ℕ → WaveRegs Unit} (horder : ∀ k, (order k).Perm (List.range n)) (hpair : IsPair sgpr) (hL : L < n)
    (hupper : waveBase L + 32 < n) (hactive : active L = true)
    (hlo : ∀ i, (value (waveBase L)).testBit i = true ↔ i < 32 ∧ waveBase L + i < n ∧ bit (waveBase L + i) = true)
    (hhi : ∀ i, (value (waveBase L + 32)).testBit i = true ↔
      i < 32 ∧ waveBase L + 32 + i < n ∧ bit (waveBase L + 32 + i) = true) :
    Sees n bit sgpr L (setMask n order active sgpr value c regs L) := by
  have hwords : ∀ {K}, K < n → (maskWords n order value c).words (0 * n + K) = value K :=
    fun hK => wavePublish_words (horder 2) hK
  have hlow : (setMask n order active sgpr value c regs L).sg sgpr = value (waveBase L) := by
    unfold setMask
    dsimp only
    rw [hactive, storePrivate_true, sg_setSg_other (by omega), sg_setSg_self hpair.2]
    exact hwords (K := waveBase L) (by omega)
  have hhigh : (setMask n order active sgpr value c regs L).sg (sgpr + 1) = value (waveBase L + 32) := by
    have hne : sgpr + 1 ≠ 125 := fun h => hpair.1 (by omega)
    unfold setMask
    dsimp only
    rw [hactive, storePrivate_true, sg_setSg_self hne]
    exact hwords hupper
  refine sees_of_halves hL ?_ ?_
  · rw [hlow]
    exact hlo
  · rw [hhigh]
    exact hhi

end Seen

/-! ## Exactly when -/

section When

/-- **Whole-wave masks are exact** just if no wave of the workgroup has 32 lanes or fewer, and an exchange is just if
the lanes that are asked for exist. -/
theorem whole_wave_masks (n : ℕ) : (MaskExact n ↔ n % 64 = 0 ∨ 32 < n % 64) ∧
    ∀ src, (ExchangeExact n src ↔ ∀ L < n, waveBase L + src L % 64 < n) := by
  refine ⟨⟨fun h => ?_, fun hn => ?_⟩, exchangeExact_iff n⟩
  · -- the last lane reads what lane 32 of its wave publishes
    by_contra hnot
    have hlast := ((h (fun _ => List.range n) (fun _ => List.Perm.refl _) ⟨fun _ => 0, fun _ => false⟩
      (fun _ => ⟨0, fun _ => 0, ()⟩) (fun _ => true) 106 ⟨by decide, by decide⟩).1 (fun _ => false) (n - 1) (by omega)).2.1
      32 (by decide)
    have hread := (wroteInside_publish (List.Perm.refl _) 32).mp hlast
    unfold waveBase at hread
    omega
  · intro order horder c regs active sgpr hpair
    have hupper : ∀ {L}, L < n → waveBase L + 32 < n := by
      intro L hL
      unfold waveBase
      omega
    have hbase : ∀ L, halfOf (waveBase L) = waveBase L ∧ halfOf (waveBase L + 32) = waveBase L + 32 := by
      intro L
      unfold halfOf waveBase laneOf
      omega
    -- a comparison, whose halves the lanes 0 and 32 publish, and then the mask of a flag
    refine ⟨fun cond L hL => ⟨wroteInside_halves horder hL, fun src hsrc => ?_, fun hactive => ?_⟩,
      fun flag L hL huniform hactive => ?_⟩
    · have hexists : waveBase L + src % 64 < n := by
        have hthis := hupper hL
        obtain rfl | rfl : src = 0 ∨ src = 32 := by simpa using hsrc
        · omega
        · exact hthis
      exact (wroteInside_publish (horder 2) src).mpr hexists
    · refine sees_setMask horder hpair hL (hupper hL) hactive (fun i => ?_) fun i => ?_
      · rw [maskOf_testBit horder (by have := hupper hL; omega), (hbase L).1]
      · rw [maskOf_testBit horder (hupper hL), (hbase L).2]
    · -- a lane of the wave reads the bit of its own in EXEC, which all lanes of the wave hold
      have hflag : ∀ K, K < n → halfOf K = K → ∀ i,
          (flagMask order flag c.fresh regs K).testBit i = true ↔ (i < 32 ∧ K + i < n ∧ flag (K + i) ≠ 0) ∧
            (sgMask (regs K) 126 K).testBit i = true := by
        intro K hK hhalf i
        rw [flagMask, Nat.testBit_and, Bool.and_eq_true, maskOf_testBit horder hK, hhalf, decide_eq_true_iff]
      have hexec : ∀ j i, j < 2 → i < 32 → waveBase L + 32 * j + i < n →
          sgMask (regs (waveBase L + 32 * j + i)) 126 (waveBase L + 32 * j + i) =
            sgMask (regs (waveBase L + 32 * j)) 126 (waveBase L + 32 * j) ∧
          laneOf (waveBase L + 32 * j + i) % 32 = i := by
        intro j i hj hi hlt
        have hwave : ∀ i < 32, waveBase (waveBase L + 32 * j + i) = waveBase L := by
          intro i hi
          unfold waveBase
          omega
        have hlane : ∀ i < 32, laneOf (waveBase L + 32 * j + i) / 32 = j := by
          intro i hi
          unfold waveBase laneOf
          omega
        obtain ⟨hlo, hhi⟩ := huniform _ hlt (hwave i hi)
        obtain ⟨hlo', hhi'⟩ := huniform (waveBase L + 32 * j) (by omega) (hwave 0 (by omega))
        refine ⟨?_, by unfold waveBase laneOf; omega⟩
        unfold sgMask
        rw [hlane i hi, show laneOf (waveBase L + 32 * j) / 32 = j from hlane 0 (by omega), hlo, hhi, hlo', hhi']
      have hbits : ∀ j < 2, ∀ i, (flagMask order flag c.fresh regs (waveBase L + 32 * j)).testBit i = true ↔
          i < 32 ∧ waveBase L + 32 * j + i < n ∧ (decide (flag (waveBase L + 32 * j + i) ≠ 0) &&
            laneActive true (sgMask (regs (waveBase L + 32 * j + i)) 126 (waveBase L + 32 * j + i))
              (waveBase L + 32 * j + i)) = true := by
        intro j hj i
        have hthis := hupper hL
        have hhalf : halfOf (waveBase L + 32 * j) = waveBase L + 32 * j := by
          unfold halfOf waveBase laneOf
          omega
        rw [hflag _ (by omega) hhalf, Bool.and_eq_true, decide_eq_true_iff, laneActive_eq_testBit]
        constructor
        · rintro ⟨⟨hi, hlt, hne⟩, hset⟩
          obtain ⟨hsame, hlane⟩ := hexec j i hj hi hlt
          exact ⟨hi, hlt, hne, by rwa [hsame, hlane]⟩
        · rintro ⟨hi, hlt, hne, hset⟩
          obtain ⟨hsame, hlane⟩ := hexec j i hj hi hlt
          rw [hsame, hlane] at hset
          exact ⟨⟨hi, hlt, hne⟩, hset⟩
      exact sees_setMask horder hpair hL (hupper hL) hactive (hbits 0 (by decide)) (hbits 1 (by decide))

/-- **A workgroup of 32 lanes**: the upper half is read where nobody has written. -/
theorem half_wave_inexact : ¬MaskExact 32 := by
  intro h
  have hlast := ((h (fun _ => List.range 32) (fun _ => List.Perm.refl _) ⟨fun _ => 0, fun _ => false⟩
    (fun _ => ⟨0, fun _ => 0, ()⟩) (fun _ => true) 106 ⟨by decide, by decide⟩).1 (fun _ => false) 0 (by decide)).2.1
    32 (by decide)
  exact absurd ((wroteInside_publish (List.Perm.refl _) 32).mp hlast) (by decide)

end When

end Prosperity.Rdna
