import Prosperity.Rdna.ScalarReplay

/-!
# Decoded RDNA shaders tile their code

The length of an instruction is that of its encoding: the dwords of its family with the extra address dwords of an
image instruction, and one more for a literal, a constant or an extension. The decoder reads nothing past the end.
A scan that stops at `s_endpgm` has every instruction that the control gets to, if no call and no subvector loop
jumps past the `s_endpgm` where it stops: `furthest_target` follows the branches of SOPP only.
-/

namespace Prosperity.Rdna

open Gcn (Enc Code)

variable {code code' : Code} {maxDwords i j n k far : ℕ} {inst : Inst}

/-! ## One instruction -/

section Sizes

def literalFields (enc : Enc) (opcode w second : ℕ) : List ℕ :=
  match enc with
  | .kSop2 | .kSopc => [w &&& 0xFF, (w >>> 8) &&& 0xFF]
  | .kSop1 => [w &&& 0xFF]
  | .kVop1 | .kVop2 | .kVopc => [w &&& 0x1FF]
  | .kVop3 | .kVop3p => (List.range (vop3SourceCount enc opcode)).map fun src => (second >>> (src * 9)) &&& 0x1FF
  | _ => []

/-- The opcodes with a constant: `s_setreg_imm32_b32`, and the multiply-adds with a K. -/
def carriesConstant (enc : Enc) (opcode : ℕ) : Prop :=
  (enc = .kSopk ∧ opcode = 0x15) ∨ (enc = .kVop2 ∧ opcode ∈ [0x20, 0x21, 0x2C, 0x2D, 0x37, 0x38])

def selectsExtension (enc : Enc) (w : ℕ) : Prop :=
  enc ∈ [Enc.kVop1, Enc.kVop2, Enc.kVopc] ∧ w &&& 0x1FF ∈ [233, 234, 249, 250]

instance (enc : Enc) (opcode : ℕ) : Decidable (carriesConstant enc opcode) := inferInstanceAs (Decidable (_ ∨ _))

instance (enc : Enc) (w : ℕ) : Decidable (selectsExtension enc w) := inferInstanceAs (Decidable (_ ∧ _))

/-- The dwords of the instruction that begins at a dword. -/
def encodedSize (code : Code) (i : ℕ) : ℕ :=
  let enc := (classify (code i)).1
  let opcode := (classify (code i)).2
  baseSize enc (code i) + if 255 ∈ literalFields enc opcode (code i) (code (i + 1)) ∨ carriesConstant enc opcode ∨
        selectsExtension enc (code i) then 1 else 0

theorem valuExtension_ne_none (w : ℕ) :
    valuExtension w ≠ .kNone ↔ 255 = w &&& 0x1FF ∨ w &&& 0x1FF ∈ [233, 234, 249, 250] := by
  unfold valuExtension
  generalize w &&& 0x1FF = field
  split
  case h_6 => simp_all [eq_comm]
  all_goals simp

theorem hasTrailing_iff (w second : ℕ)
    (hsecond : inst.enc = .kVop3 ∨ inst.enc = .kVop3p → inst.raw.getD 1 0 = second) :
    hasTrailing inst w = true ↔ 255 ∈ literalFields inst.enc inst.opcode w second ∨
      carriesConstant inst.enc inst.opcode ∨ selectsExtension inst.enc w := by
  have hext := valuExtension_ne_none w
  unfold hasTrailing literalFields carriesConstant selectsExtension
  cases henc : inst.enc with
  | kVop3 =>
    rw [hsecond (.inl henc)]
    simp
  | kVop3p =>
    rw [hsecond (.inr henc)]
    simp
  | kVop2 =>
    simp only [Bool.or_eq_true, decide_eq_true_eq, hext]
    simp only [List.mem_cons, List.not_mem_nil, or_false, reduceCtorEq, false_and, true_and, false_or, or_true]
    tauto
  | kVop1 | kVopc =>
    simp only [decide_eq_true_eq, hext]
    simp
  | kSop2 | kSopc => simp [scalar2HasLit, @eq_comm ℕ 255]
  | kSop1 => simp [scalar1HasLit, @eq_comm ℕ 255]
  | _ => simp

theorem hasTrailing_decodeBase : hasTrailing (decodeBase code i) (code i) = true ↔
    255 ∈ literalFields (classify (code i)).1 (classify (code i)).2 (code i) (code (i + 1)) ∨
      carriesConstant (classify (code i)).1 (classify (code i)).2 ∨ selectsExtension (classify (code i)).1 (code i) := by
  have henc : (decodeBase code i).enc = (classify (code i)).1 := rfl
  have hraw : (decodeBase code i).raw = dwordsAt code i (baseSize (classify (code i)).1 (code i)) := rfl
  have htwo : ∀ enc, enc = .kVop3 ∨ enc = .kVop3p → baseSize enc (code i) = 2 := by
    rintro enc (rfl | rfl)
    · unfold baseSize
      split <;> rfl
    · unfold baseSize
      split <;> rfl
  have hiff := @hasTrailing_iff (decodeBase code i) (code i) (code (i + 1)) fun h => by
    rw [hraw, htwo _ (henc ▸ h)]
    rfl
  rw [hiff, henc]
  by_cases hmtbuf : (classify (code i)).1 = .kMtbuf
  · rw [hmtbuf]
    simp [literalFields, carriesConstant, selectsExtension]
  · have hopcode : (decodeBase code i).opcode = (classify (code i)).2 := by
      unfold decodeBase
      exact if_neg hmtbuf
    rw [hopcode]

theorem complete_family (inst : Inst) (w tail : ℕ) (cut : Bool) :
    ((complete inst w tail cut).enc, (complete inst w tail cut).opcode) =
      if hasTrailing inst w && cut then (Enc.kUnknown, 0) else (inst.enc, inst.opcode) := by
  unfold complete
  cases hasTrailing inst w with
  | false => rfl
  | true =>
    cases cut with
    | false =>
      by_cases hext : baseExtension inst w ≠ .kNone ∧ baseExtension inst w ≠ .kLiteral
      · simp [hext]
      · simp [hext]
    | true => rfl

/-- **An instruction has the size of its encoding**, and where the end cuts it off it is an unknown one. -/
theorem decodeInst_spec (code : Code) (maxDwords i : ℕ) : (i + encodedSize code i ≤ maxDwords →
      (decodeInst code maxDwords i).size = encodedSize code i ∧
        (decodeInst code maxDwords i).enc = (classify (code i)).1) ∧ (maxDwords < i + encodedSize code i →
        (decodeInst code maxDwords i).enc = .kUnknown ∧ (decodeInst code maxDwords i).opcode = 0) := by
  have hsize : encodedSize code i =
      (decodeBase code i).size + if hasTrailing (decodeBase code i) (code i) then 1 else 0 := by
    unfold encodedSize
    dsimp only
    simp only [← hasTrailing_decodeBase]
    rfl
  have henc : (decodeBase code i).enc = (classify (code i)).1 := rfl
  rw [← henc, hsize]
  unfold decodeInst
  generalize decodeBase code i = inst
  by_cases hshort : i + inst.size > maxDwords
  · rw [if_pos hshort]
    exact ⟨fun h => absurd h (by omega), fun _ => ⟨rfl, rfl⟩⟩
  · rw [if_neg hshort, complete_size]
    have hfamily := complete_family inst (code i) (code (i + inst.size)) (i + inst.size ≥ maxDwords)
    cases htakes : hasTrailing inst (code i) with
    | false =>
      rw [htakes] at hfamily
      obtain ⟨hfam, -⟩ := Prod.mk.inj hfamily
      exact ⟨fun _ => ⟨rfl, hfam⟩, fun h => absurd h (by simpa using hshort)⟩
    | true =>
      rw [htakes] at hfamily
      by_cases hcut : i + inst.size ≥ maxDwords
      · rw [decide_eq_true hcut] at hfamily ⊢
        obtain ⟨hfam, hopcode⟩ := Prod.mk.inj hfamily
        refine ⟨fun h => ?_, fun _ => ⟨hfam, hopcode⟩⟩
        rw [if_pos rfl] at h
        omega
      · rw [decide_eq_false hcut] at hfamily ⊢
        obtain ⟨hfam, -⟩ := Prod.mk.inj hfamily
        refine ⟨fun _ => ⟨rfl, hfam⟩, fun h => ?_⟩
        rw [if_pos rfl] at h
        omega

end Sizes

/-! ## Tiles -/

section Tiles

/-- Where the instructions begin, one behind the other. -/
def sweep (code : Code) (maxDwords : ℕ) : ℕ → ℕ
  | 0 => 0
  | n + 1 =>
    if sweep code maxDwords n < maxDwords then
      sweep code maxDwords n + (decodeInst code maxDwords (sweep code maxDwords n)).size
    else sweep code maxDwords n

def Tile (code : Code) (maxDwords i : ℕ) : Prop := ∃ n, sweep code maxDwords n = i

theorem sweep_mono (h : n ≤ k) : sweep code maxDwords n ≤ sweep code maxDwords k := by
  induction h with
  | refl => exact Nat.le_refl _
  | step _ ih =>
    refine Nat.le_trans ih ?_
    rw [sweep]
    split
    · exact Nat.le_add_right _ _
    · exact Nat.le_refl _

theorem sweep_le (n : ℕ) : sweep code maxDwords n ≤ maxDwords := by
  induction n with
  | zero => exact Nat.zero_le _
  | succ n ih =>
    rw [sweep]
    split
    · exact decodeInst_size_le ‹_›
    · exact ih

theorem sweep_succ (h : sweep code maxDwords n < maxDwords) : sweep code maxDwords (n + 1) =
    sweep code maxDwords n + (decodeInst code maxDwords (sweep code maxDwords n)).size := by
  rw [sweep, if_pos h]

theorem Tile.behind (hi : Tile code maxDwords i) (hj : Tile code maxDwords j) (h : i < j) :
    i + (decodeInst code maxDwords i).size ≤ j := by
  obtain ⟨n, rfl⟩ := hi
  obtain ⟨k, rfl⟩ := hj
  have hnk : n < k := by
    by_contra hle
    exact absurd (@sweep_mono code maxDwords _ _ (Nat.le_of_not_lt hle)) (by omega)
  have hlt : sweep code maxDwords n < maxDwords := Nat.lt_of_lt_of_le h (sweep_le k)
  rw [← sweep_succ hlt]
  exact sweep_mono hnk

theorem Tile.next (hi : Tile code maxDwords i) (h : i < maxDwords) :
    Tile code maxDwords (i + (decodeInst code maxDwords i).size) := by
  obtain ⟨n, rfl⟩ := hi
  exact ⟨n + 1, sweep_succ h⟩

end Tiles

/-! ## Where the scan stops -/

section Stops

/-- Where a relative transfer goes. -/
def jumpTarget (inst : Inst) : ℤ := (inst.pc : ℤ) + inst.size + simm16 (inst.raw.getD 0 0)

def CodeEndAt (code : Code) (maxDwords e : ℕ) : Prop :=
  (decodeInst code maxDwords e).enc = .kSopp ∧ (decodeInst code maxDwords e).opcode = 0x1F

def ScanEndsAt (code : Code) (maxDwords e : ℕ) : Prop :=
  (decodeInst code maxDwords e).enc = .kSopp ∧ (decodeInst code maxDwords e).opcode ∈ [0x01, 0x1B, 0x1E] ∧
    ∀ j ≤ e, Tile code maxDwords j → isBranch (decodeInst code maxDwords j) = true → ∀ t : ℕ,
      jumpTarget (decodeInst code maxDwords j) = t → t < maxDwords → t < e + (decodeInst code maxDwords e).size

/-- `furthest_target` before the instruction `n` of the sweep. -/
structure SweptTo (code : Code) (maxDwords n far : ℕ) : Prop where
  from_ : far = 0 ∨ ∃ k < n, isBranch (decodeInst code maxDwords (sweep code maxDwords k)) = true ∧
    jumpTarget (decodeInst code maxDwords (sweep code maxDwords k)) = far ∧ far < maxDwords
  bound : ∀ k < n, isBranch (decodeInst code maxDwords (sweep code maxDwords k)) = true → ∀ t : ℕ,
    jumpTarget (decodeInst code maxDwords (sweep code maxDwords k)) = t → t < maxDwords → t ≤ far

theorem furthestTarget_spec (maxDwords far : ℕ) (inst : Inst) : far ≤ furthestTarget maxDwords far inst ∧
      (isBranch inst = true → ∀ t : ℕ, jumpTarget inst = t → t < maxDwords → t ≤ furthestTarget maxDwords far inst) ∧
      (furthestTarget maxDwords far inst = far ∨ (isBranch inst = true ∧
        jumpTarget inst = furthestTarget maxDwords far inst ∧ furthestTarget maxDwords far inst < maxDwords)) := by
  unfold furthestTarget jumpTarget
  dsimp only
  generalize (inst.pc : ℤ) + inst.size + simm16 (inst.raw.getD 0 0) = target
  split
  · rename_i h
    refine ⟨by omega, fun _ t ht _ => by omega, .inr ⟨h.1, by omega, h.2.2.2⟩⟩
  · rename_i h
    refine ⟨Nat.le_refl _, fun hbranch t ht hlt => ?_, .inl rfl⟩
    by_contra hgt
    exact h ⟨hbranch, by omega, by omega, by omega⟩

theorem SweptTo.next (h : SweptTo code maxDwords n far) : SweptTo code maxDwords (n + 1)
    (furthestTarget maxDwords far (decodeInst code maxDwords (sweep code maxDwords n))) := by
  obtain ⟨hle, hbranch, hcase⟩ :=
    furthestTarget_spec maxDwords far (decodeInst code maxDwords (sweep code maxDwords n))
  constructor
  · rcases hcase with heq | hnew
    · rw [heq]
      rcases h.from_ with hzero | ⟨k, hk, hfrom⟩
      · exact .inl hzero
      · exact .inr ⟨k, Nat.lt_succ_of_lt hk, hfrom⟩
    · exact .inr ⟨n, Nat.lt_succ_self n, hnew⟩
  · intro k hk hkbranch t ht hlt
    rcases Nat.lt_or_eq_of_le (Nat.le_of_lt_succ hk) with hkn | rfl
    · exact Nat.le_trans (h.bound k hkn hkbranch t ht hlt) hle
    · exact hbranch hkbranch t ht hlt

/-- **Where the scan stops**: at the end of the code, or at an end of the program that nothing it follows jumps
past. -/
theorem endsScan_iff (hn : sweep code maxDwords n < maxDwords) (h : SweptTo code maxDwords (n + 1) far) :
    endsScan true far (decodeInst code maxDwords (sweep code maxDwords n)) = true ↔
      CodeEndAt code maxDwords (sweep code maxDwords n) ∨ ScanEndsAt code maxDwords (sweep code maxDwords n) := by
  have hfar : (decodeInst code maxDwords (sweep code maxDwords n)).pc +
      (decodeInst code maxDwords (sweep code maxDwords n)).size > far ↔
      ∀ j ≤ sweep code maxDwords n, Tile code maxDwords j → isBranch (decodeInst code maxDwords j) = true → ∀ t : ℕ,
        jumpTarget (decodeInst code maxDwords j) = t → t < maxDwords →
          t < sweep code maxDwords n + (decodeInst code maxDwords (sweep code maxDwords n)).size := by
    rw [decodeInst_pc]
    constructor
    · rintro hgt j hj ⟨k, rfl⟩ hbranch t ht hlt
      have hk : k < n + 1 := by
        by_contra hle
        have hsize := @decodeInst_size_pos code maxDwords _ hn
        have hmono := @sweep_mono code maxDwords _ _ (Nat.le_of_not_lt hle)
        rw [sweep_succ hn] at hmono
        omega
      exact Nat.lt_of_le_of_lt (h.bound k hk hbranch t ht hlt) hgt
    · intro hall
      rcases h.from_ with rfl | ⟨k, hk, hbranch, ht, hlt⟩
      · have hsize := @decodeInst_size_pos code maxDwords _ hn
        omega
      · exact hall _ (sweep_mono (Nat.le_of_lt_succ hk)) ⟨k, rfl⟩ hbranch far ht hlt
  unfold endsScan CodeEndAt ScanEndsAt
  rw [← hfar]
  simp only [Bool.and_eq_true, Bool.or_eq_true, decide_eq_true_eq, List.mem_cons, List.not_mem_nil, or_false, true_and]
  rw [and_or_left, or_assoc]
  exact or_congr_right (and_congr_right fun _ => and_comm)

theorem mem_decodeLoop_iff {turns : ℕ} (h : SweptTo code maxDwords n far)
    (hturns : maxDwords ≤ sweep code maxDwords n + turns) :
    inst ∈ decodeLoop code maxDwords true turns (sweep code maxDwords n) far ↔
      ∃ m ≥ n, sweep code maxDwords m < maxDwords ∧ inst = decodeInst code maxDwords (sweep code maxDwords m) ∧
        ∀ k, n ≤ k → k < m → ¬(CodeEndAt code maxDwords (sweep code maxDwords k) ∨
          ScanEndsAt code maxDwords (sweep code maxDwords k)) := by
  induction turns generalizing n far with
  | zero =>
    rw [decodeLoop]
    refine ⟨fun hmem => absurd hmem List.not_mem_nil, ?_⟩
    rintro ⟨m, hm, hlt, -⟩
    have hmono := @sweep_mono code maxDwords _ _ hm
    omega
  | succ turns ih =>
    rw [decodeLoop]
    split
    · rename_i hlt
      dsimp only
      have hsucc := sweep_succ hlt
      have hsize := @decodeInst_size_pos code maxDwords _ hlt
      have hnext := h.next
      have hiff := ih hnext (by omega)
      rw [hsucc] at hiff
      have hstop := endsScan_iff hlt hnext
      -- the first instruction, or one behind it if the scan goes on
      have hsplit : (∃ m ≥ n, sweep code maxDwords m < maxDwords ∧
          inst = decodeInst code maxDwords (sweep code maxDwords m) ∧ ∀ k, n ≤ k → k < m →
            ¬(CodeEndAt code maxDwords (sweep code maxDwords k) ∨ ScanEndsAt code maxDwords (sweep code maxDwords k))) ↔
          inst = decodeInst code maxDwords (sweep code maxDwords n) ∨
            (¬(CodeEndAt code maxDwords (sweep code maxDwords n) ∨ ScanEndsAt code maxDwords (sweep code maxDwords n)) ∧
              ∃ m ≥ n + 1, sweep code maxDwords m < maxDwords ∧
                inst = decodeInst code maxDwords (sweep code maxDwords m) ∧ ∀ k, n + 1 ≤ k → k < m →
                  ¬(CodeEndAt code maxDwords (sweep code maxDwords k) ∨
                    ScanEndsAt code maxDwords (sweep code maxDwords k))) := by
        constructor
        · rintro ⟨m, hm, hmlt, hinst, hnone⟩
          rcases Nat.lt_or_eq_of_le hm with hnm | rfl
          · exact .inr ⟨hnone n (Nat.le_refl n) hnm, m, hnm, hmlt, hinst, fun k hk => hnone k (by omega)⟩
          · exact .inl hinst
        · rintro (hinst | ⟨hno, m, hm, hmlt, hinst, hnone⟩)
          · exact ⟨n, Nat.le_refl n, hlt, hinst, fun k hk hkn => by omega⟩
          · refine ⟨m, by omega, hmlt, hinst, fun k hk hkm => ?_⟩
            rcases Nat.lt_or_eq_of_le hk with hnk | rfl
            · exact hnone k hnk hkm
            · exact hno
      rw [hsplit, List.mem_cons, ← hstop]
      refine or_congr_right ?_
      split
      · rename_i hbreak
        refine ⟨fun hmem => absurd hmem List.not_mem_nil, ?_⟩
        rintro ⟨hno, hrest⟩
        -- what is cut off reaches to the end
        have hcut := hbreak.resolve_right hno
        have hend : sweep code maxDwords n + (decodeInst code maxDwords (sweep code maxDwords n)).size = maxDwords := by
          unfold decodeInst
          rw [if_pos hcut]
          unfold cutInst
          dsimp only
          omega
        obtain ⟨m, hm, hmlt, -⟩ := hrest
        have hmono := @sweep_mono code maxDwords _ _ hm
        rw [hsucc] at hmono
        omega
      · rename_i hgo
        rw [hiff]
        exact ⟨fun hrest => ⟨fun hend => hgo (.inr hend), hrest⟩, fun hrest => hrest.2⟩
    · rename_i hge
      refine ⟨fun hmem => absurd hmem List.not_mem_nil, ?_⟩
      rintro ⟨m, hm, hlt, -⟩
      have hmono := @sweep_mono code maxDwords _ _ hm
      omega

/-- **The instructions of a scan that stops**: those of the sweep up to its first stop. -/
theorem mem_decode_iff : inst ∈ decode code maxDwords true ↔
    ∃ i < maxDwords, Tile code maxDwords i ∧ inst = decodeInst code maxDwords i ∧
      ∀ e < i, Tile code maxDwords e → ¬CodeEndAt code maxDwords e ∧ ¬ScanEndsAt code maxDwords e := by
  have hstart : SweptTo code maxDwords 0 0 := ⟨.inl rfl, fun k hk => absurd hk (Nat.not_lt_zero k)⟩
  have hiff := @mem_decodeLoop_iff code maxDwords 0 0 inst maxDwords hstart (Nat.le_add_left _ _)
  unfold decode
  refine hiff.trans ⟨?_, ?_⟩
  · rintro ⟨m, -, hlt, hinst, hnone⟩
    refine ⟨_, hlt, ⟨m, rfl⟩, hinst, ?_⟩
    rintro e he ⟨k, rfl⟩
    have hkm : k < m := by
      by_contra hle
      exact absurd (@sweep_mono code maxDwords _ _ (Nat.le_of_not_lt hle)) (by omega)
    exact not_or.mp (hnone k (Nat.zero_le k) hkm)
  · rintro ⟨i, hlt, ⟨m, rfl⟩, hinst, hnone⟩
    refine ⟨m, Nat.zero_le m, hlt, hinst, fun k _ hkm => not_or.mpr (hnone _ ?_ ⟨k, rfl⟩)⟩
    have hklt : sweep code maxDwords k < maxDwords := by
      have hmono := @sweep_mono code maxDwords _ _ (Nat.le_of_lt hkm)
      omega
    have hsize := @decodeInst_size_pos code maxDwords _ hklt
    have hmono := @sweep_mono code maxDwords _ _ (Nat.succ_le_of_lt hkm)
    rw [Nat.succ_eq_add_one, sweep_succ hklt] at hmono
    omega

end Stops

/-! ## Tiling -/

section Tiling

/-- An instruction that a scan may end behind: `s_code_end`, or an end of the program if it stops there. -/
def isEnding (stop : Bool) (inst : Inst) : Prop :=
  inst.enc = .kSopp ∧ (inst.opcode = 0x1F ∨ (stop = true ∧ inst.opcode ∈ [0x01, 0x1B, 0x1E]))

structure DecodeTiles (code : Code) (maxDwords : ℕ) (stop : Bool) : Prop where
  contiguous : ∀ flow, (listing flow).Contiguous (decode code maxDwords stop)
  ends : endFrom 0 (decode code maxDwords stop) = maxDwords ∨
    ∃ last, (decode code maxDwords stop).getLast? = some last ∧ isEnding stop last
  inside : endFrom 0 (decode code maxDwords stop) ≤ maxDwords
  sizes : ∀ inst ∈ decode code maxDwords stop, (inst.pc + encodedSize code inst.pc ≤ maxDwords →
      inst.size = encodedSize code inst.pc ∧ inst.enc = (classify (code inst.pc)).1) ∧
    (maxDwords < inst.pc + encodedSize code inst.pc → inst.enc = .kUnknown ∧ inst.opcode = 0)
  reads : ∀ code' : Code, (∀ d < maxDwords, code d = code' d) → decode code maxDwords stop = decode code' maxDwords stop

theorem mem_decodeLoop {stop : Bool} {turns : ℕ} (h : inst ∈ decodeLoop code maxDwords stop turns i far) :
    ∃ k < maxDwords, inst = decodeInst code maxDwords k := by
  induction turns generalizing i far with
  | zero => cases h
  | succ turns ih =>
    rw [decodeLoop] at h
    split at h
    · rename_i hlt
      rcases List.mem_cons.mp h with rfl | h
      · exact ⟨i, hlt, rfl⟩
      · split at h
        · cases h
        · exact ih h
    · cases h

theorem isEnding_of_endsScan {stop : Bool} (h : endsScan stop far inst = true) : isEnding stop inst := by
  unfold endsScan at h
  unfold isEnding
  simp only [Bool.and_eq_true, Bool.or_eq_true, decide_eq_true_eq] at h
  simp only [List.mem_cons, List.not_mem_nil, or_false]
  tauto

theorem endFrom_decodeLoop {stop : Bool} {turns : ℕ} (hi : i ≤ maxDwords) (hturns : maxDwords ≤ i + turns) :
    endFrom i (decodeLoop code maxDwords stop turns i far) = maxDwords ∨
      ∃ last, (decodeLoop code maxDwords stop turns i far).getLast? = some last ∧ isEnding stop last := by
  induction turns generalizing i far with
  | zero =>
    left
    rw [decodeLoop, endFrom]
    omega
  | succ turns ih =>
    rw [decodeLoop]
    split
    · rename_i hlt
      dsimp only
      split
      · rename_i hbreak
        rcases hbreak with hcut | hend
        · left
          rw [endFrom, endFrom]
          unfold decodeInst
          rw [if_pos hcut]
          unfold cutInst
          dsimp only
          omega
        · exact .inr ⟨_, rfl, isEnding_of_endsScan hend⟩
      · -- the scan goes on behind the instruction, with fewer dwords left
        have hsize := @decodeInst_size_pos code maxDwords i hlt
        have hle : i + (decodeInst code maxDwords i).size ≤ maxDwords := decodeInst_size_le hlt
        rcases @ih _ (furthestTarget maxDwords far (decodeInst code maxDwords i)) hle (by omega) with
          hend | ⟨last, hlast, hending⟩
        · exact .inl hend
        · refine .inr ⟨last, ?_, hending⟩
          rw [List.getLast?_cons, hlast]
          rfl
    · left
      rw [endFrom]
      omega

theorem decodeLoop_congr_code {stop : Bool} {turns : ℕ} (hcode : ∀ d < maxDwords, code d = code' d) :
    decodeLoop code maxDwords stop turns i far = decodeLoop code' maxDwords stop turns i far := by
  induction turns generalizing i far with
  | zero => rfl
  | succ turns ih =>
    rw [decodeLoop, decodeLoop]
    split
    · rename_i hlt
      have hsize : (decodeBase code i).size = (decodeBase code' i).size := by
        unfold decodeBase
        dsimp only
        rw [hcode i hlt]
      rw [decodeInst_congr (Nat.le_refl _) hlt (decodeInst_size_le hlt) hcode, hsize]
      dsimp only
      rw [ih]
    · rfl

theorem decodeTiles (code : Code) (maxDwords : ℕ) (stop : Bool) : DecodeTiles code maxDwords stop := by
  refine ⟨fun flow => contiguous_decode flow _ _ _, ?_, ?_, fun inst hinst => ?_, fun code' hcode => ?_⟩
  · exact endFrom_decodeLoop (Nat.zero_le _) (Nat.le_add_left _ _)
  · exact endFrom_decodeLoop_le (Nat.zero_le _)
  · obtain ⟨k, hk, rfl⟩ := mem_decodeLoop hinst
    rw [decodeInst_pc]
    exact decodeInst_spec code maxDwords k
  · exact decodeLoop_congr_code hcode

end Tiling

/-! ## What the control gets to -/

section Reach

inductive ReachedAt (code : Code) (maxDwords : ℕ) : ℕ → Prop
  | entry : ReachedAt code maxDwords 0
  | fall {i : ℕ} : ReachedAt code maxDwords i → i < maxDwords →
      (replayBranchKind (decodeInst code maxDwords i) = 0 ∨ replayBranchKind (decodeInst code maxDwords i) = 2) →
      ReachedAt code maxDwords (i + (decodeInst code maxDwords i).size)
  | jump {i t : ℕ} : ReachedAt code maxDwords i → i < maxDwords →
      (replayBranchKind (decodeInst code maxDwords i) = 1 ∨ replayBranchKind (decodeInst code maxDwords i) = 2) →
      jumpTarget (decodeInst code maxDwords i) = t → ReachedAt code maxDwords t

/-- Each instruction that the control gets to is in the program of a scan that stops. -/
def Complete (code : Code) (maxDwords : ℕ) : Prop :=
  ∀ i < maxDwords, ReachedAt code maxDwords i → decodeInst code maxDwords i ∈ decode code maxDwords true

/-- **The jumps that the scan accounts for**: a relative transfer that the control gets to goes to an instruction of
the sweep, past no `s_code_end`, and one that is no branch of SOPP goes past no end of the program that the
branches of SOPP up to it do not jump past. -/
def JumpsInside (code : Code) (maxDwords : ℕ) : Prop :=
  ∀ i t : ℕ, i < maxDwords → t < maxDwords → ReachedAt code maxDwords i →
    (replayBranchKind (decodeInst code maxDwords i) = 1 ∨ replayBranchKind (decodeInst code maxDwords i) = 2) →
    jumpTarget (decodeInst code maxDwords i) = t →
    Tile code maxDwords t ∧ (∀ e < t, Tile code maxDwords e → ¬CodeEndAt code maxDwords e) ∧
      (isBranch (decodeInst code maxDwords i) = false → ∀ e < t, Tile code maxDwords e → ¬ScanEndsAt code maxDwords e)

theorem not_stop_of_falls {e : ℕ} (h : replayBranchKind (decodeInst code maxDwords e) = 0 ∨
    replayBranchKind (decodeInst code maxDwords e) = 2) : ¬CodeEndAt code maxDwords e ∧ ¬ScanEndsAt code maxDwords e := by
  have hends : ∀ inst : Inst, inst.enc = .kSopp → inst.opcode ∈ [0x01, 0x1b, 0x1e, 0x1f] →
      replayBranchKind inst = 3 := by
    intro inst henc hopcode
    unfold replayBranchKind
    rw [henc, if_neg (by decide), if_neg (by decide), if_neg (by decide), if_pos hopcode]
  constructor
  · rintro ⟨henc, hopcode⟩
    have hkind := hends _ henc (by rw [hopcode]; decide)
    omega
  · rintro ⟨henc, hopcode, -⟩
    have hmem : (decodeInst code maxDwords e).opcode ∈ [0x01, 0x1b, 0x1e, 0x1f] := by
      simp only [List.mem_cons, List.not_mem_nil, or_false] at hopcode ⊢
      omega
    have hkind := hends _ henc hmem
    omega

theorem decodeInst_mem_iff (hi : i < maxDwords) : decodeInst code maxDwords i ∈ decode code maxDwords true ↔
    Tile code maxDwords i ∧ ∀ e < i, Tile code maxDwords e → ¬CodeEndAt code maxDwords e ∧ ¬ScanEndsAt code maxDwords e := by
  rw [mem_decode_iff]
  constructor
  · rintro ⟨j, -, hj, heq, hnone⟩
    have hpc := congrArg Inst.pc heq
    rw [decodeInst_pc, decodeInst_pc] at hpc
    subst hpc
    exact ⟨hj, hnone⟩
  · rintro ⟨htile, hnone⟩
    exact ⟨i, hi, htile, rfl, hnone⟩

/-- **The scan has all that the control gets to** if the jumps are inside: one step of the control. -/
theorem complete_of_jumpsInside (h : JumpsInside code maxDwords) : Complete code maxDwords := by
  intro i hi hreach
  induction hreach with
  | entry =>
    rw [decodeInst_mem_iff hi]
    exact ⟨⟨0, rfl⟩, fun e he => absurd he (Nat.not_lt_zero e)⟩
  | @fall i hreach hlt hkind ih =>
    obtain ⟨htile, hnone⟩ := (decodeInst_mem_iff hlt).mp (ih hlt)
    rw [decodeInst_mem_iff hi]
    refine ⟨htile.next hlt, fun e he hetile => ?_⟩
    rcases Nat.lt_trichotomy e i with hei | rfl | hie
    · exact hnone e hei hetile
    · exact not_stop_of_falls hkind
    · -- nothing begins inside an instruction
      have hbehind := htile.behind hetile hie
      omega
  | @jump i t hreach hlt hkind htarget ih =>
    obtain ⟨htile, hnone⟩ := (decodeInst_mem_iff hlt).mp (ih hlt)
    obtain ⟨httile, hcode, hcall⟩ := h i t hlt hi hreach hkind htarget
    rw [decodeInst_mem_iff hi]
    refine ⟨httile, fun e he hetile => ⟨hcode e he hetile, ?_⟩⟩
    cases hbranch : isBranch (decodeInst code maxDwords i) with
    | false => exact hcall hbranch e he hetile
    | true =>
      intro hend
      rcases Nat.lt_or_ge e i with hei | hie
      · exact (hnone e hei hetile).2 hend
      · -- the scan has followed the branch
        have hinside := hend.2.2 i hie htile hbranch t htarget hi
        have hbehind := hetile.behind httile he
        omega

/-- **Decoding tiles the code, and is complete just if the jumps are inside.** -/
theorem decode_tiles_complete (code : Code) (maxDwords : ℕ) :
    (∀ stop, DecodeTiles code maxDwords stop) ∧ (Complete code maxDwords ↔ JumpsInside code maxDwords) := by
  refine ⟨decodeTiles code maxDwords, fun hcomplete => ?_, complete_of_jumpsInside⟩
  intro i t hi ht hreach hkind htarget
  obtain ⟨htile, hnone⟩ := (decodeInst_mem_iff ht).mp (hcomplete t ht (.jump hreach hi hkind htarget))
  exact ⟨htile, fun e he hetile => (hnone e he hetile).1, fun _ e he hetile => (hnone e he hetile).2⟩

/-- `s_call_b64` to dword 2, `s_endpgm`, `s_setpc_b64`. -/
def subroutineCode : Code := fun d => [0xBB000001, 0xBF810000, 0xBE802000].getD d 0

/-- **A call is not followed**: the control gets behind the `s_endpgm`, and the scan stops at it. -/
theorem call_past_end : ReachedAt subroutineCode 3 2 ∧ decodeInst subroutineCode 3 2 ∉ decode subroutineCode 3 true ∧
    ¬Complete subroutineCode 3 := by
  have hreach : ReachedAt subroutineCode 3 2 :=
    .jump .entry (by decide) (.inr (by decide +kernel)) (by decide +kernel)
  have hnot : decodeInst subroutineCode 3 2 ∉ decode subroutineCode 3 true := by decide +kernel
  exact ⟨hreach, hnot, fun h => hnot (h 2 (by decide) hreach)⟩

end Reach

end Prosperity.Rdna
