import Prosperity.Foundations.Words
import Prosperity.Gcn.ScalarIsa

/-!
# What the scalar walk knows

A register that the walk knows has the value that the instruction set gives it, as long as each step
that has an effect which the walk does not see meets no register and no lane that it knows: a mask that
a vector compare or a carry writes, an EXEC mask, a relative move, the time, a lane that is written over;
and as long as a constant of 64 bits is short, a load is aligned and inside its buffer, and the first
active lane is the first one.
-/

namespace Prosperity.Gcn

structure Sound (e : ScalarEval) (s : ScalarState) : Prop where
  sgpr : ∀ r ≤ 127, ∀ v, e.value r = some v → s.sgpr r = v
  lane : ∀ v, ∀ l < 64, ∀ x, e.laneSpill (v * 64 + l) = some x → s.vgpr v l = x

/-! ## Operands -/

section Operands

variable {isa : ScalarIsa} {inst : Inst} {e : ScalarEval} {s : ScalarState}

theorem inlineConst_table : ∀ field < 255, inlineConst field 0 = constSource field 0 ∨
    inlineConst field 0 = none := by decide +kernel

theorem inlineConst_of_ne {field : ℕ} (h : field ≠ 255) (literal : ℕ) :
    inlineConst field literal = inlineConst field 0 := by
  simp only [inlineConst, if_neg h]

theorem constSource_of_ne {field : ℕ} (h : field ≠ 255) (literal : ℕ) :
    constSource field literal = constSource field 0 := by
  simp only [constSource, if_neg h]

theorem constSource_of_inlineConst {field literal : ℕ} {v : UInt32}
    (h : inlineConst field literal = some v) : constSource field literal = some v := by
  by_cases hfield : field = 255
  · subst hfield
    exact h
  rw [inlineConst_of_ne hfield] at h
  rw [constSource_of_ne hfield]
  rcases Nat.lt_or_ge field 255 with hlt | hge
  · rcases inlineConst_table field hlt with heq | hnone
    · rw [← heq, h]
    · rw [hnone] at h
      cases h
  · -- No field of a scalar source is that large.
    have hnone : inlineConst field 0 = none := by
      rw [inlineConst]
      repeat rw [if_neg (by omega)]
    rw [hnone] at h
    cases h

theorem Sound.operand (h : Sound e s) {field : ℕ} {v : UInt32}
    (hsource : e.source field inst.literal = some v) : operand isa inst s field = v := by
  rw [ScalarEval.source] at hsource
  rw [Gcn.operand]
  split_ifs at hsource ⊢ with hreg
  · exact h.sgpr field hreg v hsource
  · rw [constSource_of_inlineConst hsource]
    rfl

end Operands

/-! ## Operations -/

theorem min_toInt32 (a b : UInt32) : (min a.toInt32 b.toInt32).toUInt32 = if a.toInt32 ≤ b.toInt32 then a else b := by
  change (if a.toInt32 ≤ b.toInt32 then a.toInt32 else b.toInt32).toUInt32 = _
  split_ifs <;> rfl

theorem max_toInt32 (a b : UInt32) : (max a.toInt32 b.toInt32).toUInt32 = if a.toInt32 ≤ b.toInt32 then b else a := by
  change (if a.toInt32 ≤ b.toInt32 then b.toInt32 else a.toInt32).toUInt32 = _
  split_ifs <;> rfl

theorem bfe_eq (a b : UInt32) : (if (b >>> 16) &&& 0x7F ≥ 32 then a >>> (b &&& 31)
      else (a >>> (b &&& 31)) &&& (((1 : UInt32) <<< ((b >>> 16) &&& 0x7F)) - 1)) =
    .ofNat (a.toNat / 2 ^ (b.toNat % 32) % 2 ^ (b.toNat / 2 ^ 16 % 128)) := by
  have hwidth : ((b >>> 16) &&& 0x7F).toNat = b.toNat / 2 ^ 16 % 128 := Words.toNat_width b
  generalize (b >>> 16) &&& 0x7F = width at hwidth ⊢
  rw [Words.shr32_eq, ← hwidth]
  have hlt : a.toNat / 2 ^ (b.toNat % 32) < 2 ^ 32 :=
    Nat.lt_of_le_of_lt (Nat.div_le_self _ _) a.toNat_lt
  split_ifs with h
  · have hle : 32 ≤ width.toNat := UInt32.le_iff_toNat_le.mp h
    rw [Nat.mod_eq_of_lt (Nat.lt_of_lt_of_le hlt (Nat.pow_le_pow_right (by decide) hle))]
  · have hlt' : width.toNat < 32 := by
      rw [ge_iff_le, UInt32.le_iff_toNat_le] at h
      exact Nat.not_le.mp h
    rw [← UInt32.toNat_inj, Words.toNat_and32 _ (Words.toNat_mask32 hlt'),
      UInt32.toNat_ofNat', UInt32.toNat_ofNat', Nat.mod_eq_of_lt hlt,
      Nat.mod_eq_of_lt (Nat.lt_of_le_of_lt (Nat.mod_le _ _) hlt)]

/-- **The results of SOP2** are those of the instruction set. -/
theorem sop2Result_of_sop2Value {op : ℕ} {a b v : UInt32} (h : sop2Value op a b = some v) :
    sop2Result op a b = some v := by
  unfold sop2Value at h
  split at h
  case h_1 => exact h ▸ congrArg some (min_toInt32 a b).symm
  case h_3 => exact h ▸ congrArg some (max_toInt32 a b).symm
  case h_5 => exact h ▸ congrArg some (bfe_eq a b).symm
  case h_18 => exact h ▸ congrArg some (Words.shl32_eq a b).symm
  case h_19 => exact h ▸ congrArg some (Words.shr32_eq a b).symm
  case h_20 => exact h ▸ congrArg some (Words.sar32_eq a b).symm
  case h_22 => cases h
  all_goals exact h

/-! ## Steps -/

section Steps

variable {isa : ScalarIsa} {guest : ScalarMemory} {codeBase : ℕ} {inst : Inst} {e e' : ScalarEval}
  {s s' : ScalarState} {vals : ℕ → Option UInt32} {n : ℕ}

/-- A step whose effects the walk sees: what it writes besides its destination is not known, and the
constants, loads and lanes are as the walk takes them. -/
structure Covered (isa : ScalarIsa) (inst : Inst) (e : ScalarEval) (s : ScalarState) : Prop where
  implicit : ∀ r ≤ 127, implicitWrites inst s r → e.value r = none
  lanes : isWritelane inst = false → ∀ v, ∀ l < 64, isa.vgprWrites inst s v l → e.laneSpill (v * 64 + l) = none
  constant : inst.enc = .kSop1 → inst.opcode = 4 → 127 ≤ inst.raw0 &&& 0xFF →
    operandHi isa inst s (inst.raw0 &&& 0xFF) = 0
  load : inst.enc = .kSmrd → ∀ n, smrdDwords (decodeSmrd inst.raw0).op = some n →
    ∀ address, e.smrdAddress inst = some address → address % 4 = 0 ∧ (isBufferLoad (decodeSmrd inst.raw0).op = true →
        loadOffset inst s + n * 4 ≤ bufferBytes (s.sgpr ((decodeSmrd inst.raw0).sbase * 2 + 1))
          (s.sgpr ((decodeSmrd inst.raw0).sbase * 2 + 2)))
  offset : inst.enc = .kSmrd → ∀ sgpr, decodeSmrdOffset inst = .inSgpr sgpr → sgpr ≤ 127
  firstLane : isReadfirstlane inst = true → firstLane s = 0

theorem Sound.assigns (h : Sound e s) (hstep : isa.Step guest codeBase inst s s')
    (hcovered : Covered isa inst e s) (hwrite : isWritelane inst = false)
    (hassigns : ScalarEval.Assigns e e' (namedWrites inst).1 n vals) (hn : (namedWrites inst).2 ≤ n)
    (hvals : ∀ i < n, ∀ v, vals i = some v → i < (namedWrites inst).2 ∧
      ¬implicitWrites inst s ((namedWrites inst).1 + i) ∧
        scalarResult isa guest codeBase inst s i = some v) : Sound e' s' := by
  constructor
  · intro r hr v hv
    rw [hassigns.value] at hv
    split_ifs at hv with hrange
    · -- A register of the destination.
      obtain ⟨i, rfl⟩ := Nat.exists_eq_add_of_le hrange.1
      rw [Nat.add_sub_cancel_left] at hv
      obtain ⟨hi, himplicit, hresult⟩ := hvals i (by omega) v hv
      exact hstep.result i v hi himplicit hresult
    · have hregs : kRegs = 136 := rfl
      have hkept : ¬sgprWrites inst s r := by
        rintro (himplicit | hnamed)
        · rw [hcovered.implicit r hr himplicit] at hv
          cases hv
        · exact hrange ⟨hnamed.1, by omega, by omega⟩
      rw [hstep.kept r hkept]
      exact h.sgpr r hr v hv
  · intro v l hl x hx
    rw [hassigns.laneSpill] at hx
    rw [hstep.keptLanes hwrite v l fun hw => ?_]
    · exact h.lane v l hl x hx
    · rw [hcovered.lanes hwrite v l hl hw] at hx
      cases hx

theorem not_isWritelane_of_scalar (h : inst.enc ≠ .kVop2) (h' : inst.enc ≠ .kVop3) : isWritelane inst = false := by
  simp [isWritelane, h, h']

theorem mem_lt_64 {op : ℕ} {ops : List ℕ} (hmem : op ∈ ops) (hops : ∀ op ∈ ops, op < 64) : op < 64 := hops op hmem

theorem sopWritesPair_table : ∀ op < 64, sop1WritesPair op = sop1DestIs64 op ∧ sop2WritesPair op = sop2DestIs64 op := by
  decide +kernel

theorem sop1WritesPair_eq (op : ℕ) : sop1WritesPair op = sop1DestIs64 op := by
  rcases Nat.lt_or_ge op 64 with hlt | hge
  · exact (sopWritesPair_table op hlt).1
  · rw [sop1WritesPair, decide_eq_false (by omega), sop1DestIs64]
    exact (decide_eq_false fun hmem => absurd (mem_lt_64 hmem (by decide)) (Nat.not_lt.mpr hge)).symm

theorem sop2WritesPair_eq (op : ℕ) : sop2WritesPair op = sop2DestIs64 op := by
  rcases Nat.lt_or_ge op 64 with hlt | hge
  · exact (sopWritesPair_table op hlt).2
  · rw [sop2WritesPair, decide_eq_false (by omega), sop2DestIs64]
    exact (decide_eq_false fun hmem => absurd (mem_lt_64 hmem (by decide)) (Nat.not_lt.mpr hge)).symm

theorem Sound.operandHi (h : Sound e s) {field : ℕ} {v : UInt32}
    (hconst : 127 ≤ field → operandHi isa inst s field = 0) (hsource : e.sourceHi field = some v) :
    operandHi isa inst s field = v := by
  rw [ScalarEval.sourceHi] at hsource
  by_cases hfield : field ≤ 126
  · rw [if_pos hfield, ScalarEval.source, if_pos (by omega)] at hsource
    rw [Gcn.operandHi, if_pos hfield]
    exact h.sgpr _ (by omega) v hsource
  · rw [if_neg hfield] at hsource
    rw [hconst (by omega)]
    exact Option.some.inj hsource

theorem not_implicitWrites_sop1 {r : ℕ} (henc : inst.enc = .kSop1)
    (hop : inst.opcode = 3 ∨ inst.opcode = 4 ∨ inst.opcode = 31) : ¬implicitWrites inst s r := by
  rcases hop with hop | hop | hop <;>
    simp [implicitWrites, usesBranchStack, writesExec, writesVcc, henc, hop]

theorem Sound.sop1Results (h : Sound e s) (hcovered : Covered isa inst e s) (henc : inst.enc = .kSop1)
    {i : ℕ} {v : UInt32} (hv : e.sop1Results inst codeBase i = some v) :
    (inst.opcode = 3 ∨ inst.opcode = 4 ∨ inst.opcode = 31) ∧ scalarResult isa guest codeBase inst s i = some v := by
  simp only [ScalarEval.sop1Results] at hv
  simp only [scalarResult, henc]
  by_cases hmov : inst.opcode = 0x03
  · rw [if_pos hmov] at hv
    rw [if_pos hmov]
    exact ⟨.inl hmov, congrArg some (h.operand hv)⟩
  rw [if_neg hmov] at hv
  rw [if_neg hmov]
  by_cases hpair : inst.opcode = 0x04
  · rw [if_pos hpair] at hv
    rw [if_pos hpair]
    obtain ⟨⟨lo, hi⟩, hsources, rfl⟩ := Option.map_eq_some_iff.mp hv
    obtain ⟨lo', hlo, hhi⟩ := Option.bind_eq_some_iff.mp hsources
    obtain ⟨hi', hhi, heq⟩ := Option.map_eq_some_iff.mp hhi
    cases heq
    refine ⟨.inr (.inl hpair), ?_⟩
    rw [h.operand hlo, h.operandHi (hcovered.constant henc hpair) hhi]
  rw [if_neg hpair] at hv
  rw [if_neg hpair]
  by_cases hpc : inst.opcode = 0x1f
  · rw [if_pos hpc] at hv
    rw [if_pos hpc]
    obtain ⟨p, hp, rfl⟩ := Option.map_eq_some_iff.mp hv
    split_ifs at hp with hbase
    cases hp
    refine ⟨.inr (.inr hpc), ?_⟩
    rw [Nat.shiftRight_eq_div_pow]
    split_ifs <;> rfl
  · rw [if_neg hpc] at hv
    cases hv

theorem Sound.step_sop1 (h : Sound e s) (hstep : isa.Step guest codeBase inst s s')
    (hcovered : Covered isa inst e s) (henc : inst.enc = .kSop1) : Sound (e.step inst guest codeBase) s' := by
  have hnamed : namedWrites inst = (namedSdst inst, if sop1DestIs64 inst.opcode then 2 else 1) := by
    rw [namedWrites, henc, ← sop1WritesPair_eq]
  have hassigns : ScalarEval.Assigns e (e.step inst guest codeBase) (namedWrites inst).1
      (namedWrites inst).2 (e.sop1Results inst codeBase) := by
    rw [ScalarEval.step, henc, hnamed]
    exact ScalarEval.assigns_stepSop1 codeBase
  refine h.assigns hstep hcovered (not_isWritelane_of_scalar (by simp [henc]) (by simp [henc]))
    hassigns (Nat.le_refl _) ?_
  intro i hi v hv
  obtain ⟨hop, hresult⟩ := h.sop1Results hcovered henc hv
  exact ⟨hi, not_implicitWrites_sop1 henc hop, hresult⟩

theorem simm16_eq (w : ℕ) : ScalarEval.simm16 w = (Int16.ofNat w).toInt32.toUInt32 := rfl

theorem Sound.unchanged (h : Sound e s) (hstep : isa.Step guest codeBase inst s s')
    (hcovered : Covered isa inst e s) (hwrite : isWritelane inst = false)
    (hnone : (namedWrites inst).2 = 0) : Sound e s' :=
  have hassigns : ScalarEval.Assigns e e (namedWrites inst).1 0 fun _ => none :=
    ScalarEval.assigns_none _
  h.assigns hstep hcovered hwrite hassigns (by omega) fun i hi => absurd hi (Nat.not_lt_zero i)

theorem Sound.step_sopk (h : Sound e s) (hstep : isa.Step guest codeBase inst s s')
    (hcovered : Covered isa inst e s) (henc : inst.enc = .kSopk) : Sound (e.step inst guest codeBase) s' := by
  have hwrite : isWritelane inst = false :=
    not_isWritelane_of_scalar (by simp [henc]) (by simp [henc])
  have hnamed : namedWrites inst = (namedSdst inst,
      if inst.opcode = 0 ∨ inst.opcode = 2 ∨ inst.opcode = 15 ∨ inst.opcode = 16 ∨ inst.opcode = 18
      then 1 else 0) := by
    rw [namedWrites, henc]
  rw [ScalarEval.step, henc]
  cases hkeeps : ScalarEval.sopkKeeps inst.opcode with
  | true =>
    have hop := hkeeps
    rw [ScalarEval.sopkKeeps, decide_eq_true_iff] at hop
    have hstay : e.stepSopk inst = e := by
      simp only [ScalarEval.stepSopk]
      rw [if_neg (by omega), if_neg (by omega), if_neg (by omega), if_pos hkeeps]
    dsimp only
    rw [hstay]
    refine h.unchanged hstep hcovered hwrite ?_
    rw [hnamed]
    exact if_neg (by omega)
  | false =>
    have hassigns : ScalarEval.Assigns e (e.stepSopk inst) (namedWrites inst).1 1
        fun _ => e.sopkResult inst := by
      rw [hnamed]
      exact ScalarEval.assigns_stepSopk hkeeps
    refine h.assigns hstep hcovered hwrite hassigns ?_ ?_
    · rw [hnamed]
      dsimp only
      split_ifs <;> omega
    · intro i hi v hv
      obtain rfl : i = 0 := by omega
      have hvalue : ∀ x, e.value (namedSdst inst) = some x → s.sgpr (namedSdst inst) = x := by
        have hle : namedSdst inst ≤ 127 := by
          rw [namedSdst]
          exact Nat.and_le_right
        exact h.sgpr _ hle
      simp only [ScalarEval.sopkResult] at hv
      have himplicit : inst.opcode = 0 ∨ inst.opcode = 15 ∨ inst.opcode = 16 →
          ¬implicitWrites inst s ((namedWrites inst).1 + 0) := by
        rintro (hop | hop | hop) <;>
          simp [implicitWrites, usesBranchStack, writesExec, writesVcc, henc, hop]
      have hcount : inst.opcode = 0 ∨ inst.opcode = 15 ∨ inst.opcode = 16 →
          0 < (namedWrites inst).2 := by
        intro hop
        rw [hnamed]
        dsimp only
        rw [if_pos (by omega)]
        exact Nat.one_pos
      simp only [scalarResult, henc, ← simm16_eq]
      by_cases hmovk : inst.opcode = 0
      · rw [if_pos hmovk] at hv
        rw [if_pos hmovk]
        exact ⟨hcount (.inl hmovk), himplicit (.inl hmovk), hv⟩
      rw [if_neg hmovk] at hv
      rw [if_neg hmovk]
      by_cases haddk : inst.opcode = 15
      · rw [if_pos haddk] at hv
        rw [if_pos haddk]
        obtain ⟨x, hx, rfl⟩ := Option.map_eq_some_iff.mp hv
        rw [hvalue x hx]
        exact ⟨hcount (.inr (.inl haddk)), himplicit (.inr (.inl haddk)), rfl⟩
      rw [if_neg haddk] at hv
      rw [if_neg haddk]
      by_cases hmulk : inst.opcode = 16
      · rw [if_pos hmulk] at hv
        rw [if_pos hmulk]
        obtain ⟨x, hx, rfl⟩ := Option.map_eq_some_iff.mp hv
        rw [hvalue x hx]
        exact ⟨hcount (.inr (.inr hmulk)), himplicit (.inr (.inr hmulk)), rfl⟩
      · rw [if_neg hmulk] at hv
        cases hv

theorem Sound.step_sop2 (h : Sound e s) (hstep : isa.Step guest codeBase inst s s')
    (hcovered : Covered isa inst e s) (henc : inst.enc = .kSop2) : Sound (e.step inst guest codeBase) s' := by
  have hnamed : namedWrites inst = (namedSdst inst, if sop2DestIs64 inst.opcode then 2 else 1) := by
    rw [namedWrites, henc, ← sop2WritesPair_eq]
  have hassigns : ScalarEval.Assigns e (e.step inst guest codeBase) (namedWrites inst).1
      (namedWrites inst).2 (e.sop2Results inst) := by
    rw [ScalarEval.step, henc, hnamed]
    exact ScalarEval.assigns_stepSop2
  refine h.assigns hstep hcovered (not_isWritelane_of_scalar (by simp [henc]) (by simp [henc]))
    hassigns (Nat.le_refl _) ?_
  intro i hlt v hv
  simp only [ScalarEval.sop2Results] at hv
  split_ifs at hv with hi
  obtain ⟨a, ha, hb⟩ := Option.bind_eq_some_iff.mp hv
  obtain ⟨b, hb, hvalue⟩ := Option.bind_eq_some_iff.mp hb
  have hresult := sop2Result_of_sop2Value hvalue
  refine ⟨hlt, ?_, ?_⟩
  · -- The fork is the only SOP2 that writes more, and no result of it is known.
    rintro (hfork | himplicit)
    · have hop : inst.opcode = 43 := by simpa [usesBranchStack, henc] using hfork
      rw [hop] at hvalue
      cases hvalue
    · simp [writesExec, writesVcc, henc] at himplicit
  · simp only [scalarResult, henc]
    rw [if_pos hi, h.operand ha, h.operand hb]
    exact hresult

theorem Sound.sgpr_of_known (h : Sound e s) {r : ℕ} (hr : r ≤ 127) (hknown : e.known r = true) :
    e.sgpr r = s.sgpr r := by
  refine (h.sgpr r hr _ ?_).symm
  rw [ScalarEval.value, if_pos hknown]

theorem base_eq (lo hi : UInt32) (k : ℕ) :
    ((hi.toNat &&& (2 ^ k - 1)) <<< 32) ||| lo.toNat = hi.toNat % 2 ^ k * 2 ^ 32 + lo.toNat := by
  rw [Nat.and_two_pow_sub_one_eq_mod, Nat.or_comm, or_shiftLeft lo.toNat_lt]

theorem Sound.smrdAddress (h : Sound e s) (hcovered : Covered isa inst e s) (henc : inst.enc = .kSmrd)
    {address : ℕ} (haddress : e.smrdAddress inst = some address) :
    address = (s.sgpr ((decodeSmrd inst.raw0).sbase * 2 + 1)).toNat %
        2 ^ (if isBufferLoad (decodeSmrd inst.raw0).op then 12 else 16) * 2 ^ 32 +
          (s.sgpr ((decodeSmrd inst.raw0).sbase * 2)).toNat + loadOffset inst s := by
  have hbase : (decodeSmrd inst.raw0).sbase ≤ 63 := Nat.and_le_right
  simp only [ScalarEval.smrdAddress] at haddress
  obtain ⟨hall, haddress⟩ := Option.ite_none_right_eq_some.mp haddress
  obtain ⟨offset, hoffset, haddr⟩ := Option.map_eq_some_iff.mp haddress
  -- Its base pair is known, and so is its offset.
  rw [ScalarEval.allKnown, decide_eq_true_iff, List.all_eq_true] at hall
  have hknown : ∀ i < 2, e.known ((decodeSmrd inst.raw0).sbase * 2 + i) = true := by
    intro i hi
    refine hall.2 i (List.mem_range.mpr ?_)
    split_ifs <;> omega
  have hlo := h.sgpr_of_known (by omega) (hknown 0 (by omega))
  have hhi := h.sgpr_of_known (by omega) (hknown 1 (by omega))
  rw [Nat.add_zero] at hlo
  have hoff : loadOffset inst s = offset := by
    rw [loadOffset]
    cases hdec : decodeSmrdOffset inst with
    | dwords n =>
      rw [hdec] at hoffset
      exact Option.some.inj hoffset
    | inSgpr sgpr =>
      simp only [hdec] at hoffset
      split_ifs at hoffset with hregs
      rw [← Option.some.inj hoffset, h.sgpr_of_known (hcovered.offset henc sgpr hdec) hregs.2]
  rw [hoff, ← haddr]
  split_ifs with hbuffer
  · rw [ScalarEval.vbufferBase, hlo, hhi]
    exact congrArg (· + offset) (base_eq _ _ 12)
  · rw [ScalarEval.ptr, hlo, hhi]
    exact congrArg (· + offset) (base_eq _ _ 16)

theorem Sound.loadResult (h : Sound e s) (hcovered : Covered isa inst e s) (henc : inst.enc = .kSmrd)
    {k i : ℕ} (hi : i < k) (hk : smrdDwords (decodeSmrd inst.raw0).op = some k) {address : ℕ}
    (haddress : e.smrdAddress inst = some address) : loadResult guest inst s i = guest.dword (address + i * 4) := by
  obtain ⟨haligned, hbuffer⟩ := hcovered.load henc k hk address haddress
  have haddr := h.smrdAddress hcovered henc haddress
  have hdiv : address / 4 * 4 = address := Nat.div_mul_cancel (Nat.dvd_of_mod_eq_zero haligned)
  simp only [Gcn.loadResult]
  split_ifs at haddr ⊢ with hop hrange
  · rw [← haddr, hdiv]
  · have hcovers := hbuffer hop
    omega
  · rw [← haddr, hdiv]

theorem Sound.step_smrd (h : Sound e s) (hstep : isa.Step guest codeBase inst s s')
    (hcovered : Covered isa inst e s) (henc : inst.enc = .kSmrd) : Sound (e.step inst guest codeBase) s' := by
  have hwrite : isWritelane inst = false :=
    not_isWritelane_of_scalar (by simp [henc]) (by simp [henc])
  have hnamed : namedWrites inst =
      ((decodeSmrd inst.raw0).sdst, (smrdDwords (decodeSmrd inst.raw0).op).getD 0) := by
    rw [namedWrites, henc]
  rw [ScalarEval.step, henc]
  dsimp only
  cases hk : smrdDwords (decodeSmrd inst.raw0).op with
  | none =>
    have hstay : e.stepSmrd inst guest = e := by
      simp only [ScalarEval.stepSmrd, hk]
    rw [hstay]
    exact h.unchanged hstep hcovered hwrite (by rw [hnamed, hk]; rfl)
  | some k =>
    have hcount : (namedWrites inst).2 = k := by rw [hnamed, hk]; rfl
    have hassigns : ScalarEval.Assigns e (e.stepSmrd inst guest) (namedWrites inst).1 k
        (e.smrdResults inst guest k) := by
      rw [hnamed]
      exact ScalarEval.assigns_stepSmrd hk
    refine h.assigns hstep hcovered hwrite hassigns (Nat.le_of_eq hcount) ?_
    · intro i hi v hv
      obtain ⟨address, haddress, hv⟩ := Option.bind_eq_some_iff.mp hv
      split_ifs at hv
      cases hv
      refine ⟨by omega, ?_, ?_⟩
      · -- The time is no load.
        have hop : (decodeSmrd inst.raw0).op ≠ 30 := by
          intro hop
          rw [hop] at hk
          cases hk
        simp [implicitWrites, usesBranchStack, writesExec, writesVcc, henc, hop]
      · simp only [scalarResult, henc, hk, Option.map_some]
        rw [h.loadResult hcovered henc hi hk haddress]

theorem not_implicitWrites_readlane {r : ℕ}
    (hread : isReadlane inst = true ∨ isReadfirstlane inst = true) : ¬implicitWrites inst s r := by
  simp only [isReadlane, isReadfirstlane, decide_eq_true_eq] at hread
  rcases hread with (⟨henc, hop⟩ | ⟨henc, hop⟩) | ⟨henc, hop⟩ | ⟨henc, hop⟩ <;>
    simp [implicitWrites, usesBranchStack, writesExec, writesVcc, henc, hop]

theorem Sound.readlaneResult (h : Sound e s) (hcovered : Covered isa inst e s) {v : UInt32}
    (hv : e.readlaneResult inst = some v) :
    256 ≤ laneSrc0 inst ∧ s.vgpr (laneSrc0 inst - 256) (readLane isa inst s) = v := by
  simp only [ScalarEval.readlaneResult] at hv
  obtain ⟨lane, hlane, hv⟩ := Option.bind_eq_some_iff.mp hv
  obtain ⟨hsrc, hv⟩ := Option.ite_none_right_eq_some.mp hv
  have hmask : lane.toNat &&& 63 = lane.toNat % 64 := Nat.and_two_pow_sub_one_eq_mod _ 6
  rw [hmask] at hv
  have hparked := h.lane _ _ (Nat.mod_lt _ (by decide)) _ hv
  refine ⟨hsrc.1, ?_⟩
  rw [readLane]
  split_ifs at hlane ⊢ with hfirst
  · -- The first active lane is the first one.
    cases hlane
    rw [hcovered.firstLane hfirst]
    exact hparked
  · rw [h.operand hlane]
    exact hparked

theorem namedWrites_lanes (henc : inst.enc = .kVop1 ∨ inst.enc = .kVop2 ∨ inst.enc = .kVop3) : namedWrites inst =
      if isWritelane inst then (0, 0) else if isReadlane inst ∨ isReadfirstlane inst then (laneDst inst, 1)
      else if inst.enc = .kVop3 ∧ inst.opcode < 256 then (laneDst inst, 2)
      else if inst.enc = .kVop3 ∧ vop3bWritesSdst inst.opcode then ((inst.raw0 >>> 8) &&& 0x7F, 2) else (0, 0) := by
  rcases henc with henc | henc | henc <;> simp only [namedWrites, henc]

theorem scalarResult_lanes (henc : inst.enc = .kVop1 ∨ inst.enc = .kVop2 ∨ inst.enc = .kVop3) (i : ℕ) :
    scalarResult isa guest codeBase inst s i = if (isReadlane inst ∨ isReadfirstlane inst) ∧ 256 ≤ laneSrc0 inst then
        some (s.vgpr (laneSrc0 inst - 256) (readLane isa inst s)) else none := by
  rcases henc with henc | henc | henc <;> simp only [scalarResult, henc]

theorem laneSpill_forget_range (first n slot : ℕ) :
    ((List.range n).foldl (fun e i => e.forget (first + i)) e).laneSpill slot =
      if first ≤ slot ∧ slot < first + n then none else e.laneSpill slot := by
  induction n with
  | zero => rw [if_neg (by omega)]; rfl
  | succ n ih =>
    rw [List.range_succ, List.foldl_append, List.foldl_cons, List.foldl_nil]
    change (if slot = first + n then none else _) = _
    rw [ih]
    split_ifs <;> first | rfl | omega

theorem Sound.step_writelane (h : Sound e s) (hstep : isa.Step guest codeBase inst s s')
    (hcovered : Covered isa inst e s) (henc : inst.enc = .kVop1 ∨ inst.enc = .kVop2 ∨ inst.enc = .kVop3)
    (hwrite : isWritelane inst = true) : Sound (e.stepWritelane inst) s' := by
  have hnamed : namedWrites inst = (0, 0) := by rw [namedWrites_lanes henc, if_pos hwrite]
  constructor
  · intro r hr v hv
    rw [ScalarEval.value_stepWritelane] at hv
    have hkept : ¬sgprWrites inst s r := by
      rintro (himplicit | hdest)
      · rw [hcovered.implicit r hr himplicit] at hv
        cases hv
      · rw [hnamed] at hdest
        omega
    rw [hstep.kept r hkept]
    exact h.sgpr r hr v hv
  · intro v l hl x hx
    rw [hstep.writelane hwrite]
    dsimp only
    have hmask : ∀ lane : UInt32, lane.toNat &&& 63 = lane.toNat % 64 := fun lane =>
      Nat.and_two_pow_sub_one_eq_mod _ 6
    rw [ScalarEval.stepWritelane] at hx
    cases hlane : e.source (laneSrc1 inst) inst.literal with
    | none =>
      -- Any lane of the VGPR may have been written.
      simp only [hlane, laneSpill_forget_range] at hx
      split_ifs at hx with hslot
      rw [if_neg fun heq => hslot (by omega)]
      exact h.lane v l hl x hx
    | some lane =>
      have hindex : (Gcn.operand isa inst s (laneSrc1 inst)).toNat % 64 = lane.toNat % 64 := by
        rw [h.operand hlane]
      have hmod : lane.toNat % 64 < 64 := Nat.mod_lt _ (by decide)
      have hslot : v * 64 + l = laneDst inst * 64 + lane.toNat % 64 ↔ v = laneDst inst ∧ l = lane.toNat % 64 := by omega
      simp only [hlane, hmask] at hx
      rw [hindex]
      cases hvalue : e.source (laneSrc0 inst) inst.literal with
      | none =>
        simp only [hvalue, ScalarEval.forget] at hx
        split_ifs at hx with hsame
        rw [if_neg fun heq => hsame (hslot.mpr heq)]
        exact h.lane v l hl x hx
      | some y =>
        simp only [hvalue, ScalarEval.park] at hx
        split_ifs at hx with hsame
        · rw [if_pos (hslot.mp hsame), h.operand hvalue]
          exact Option.some.inj hx
        · rw [if_neg fun heq => hsame (hslot.mpr heq)]
          exact h.lane v l hl x hx

theorem Sound.step_lanes (h : Sound e s) (hstep : isa.Step guest codeBase inst s s') (hcovered : Covered isa inst e s)
    (henc : inst.enc = .kVop1 ∨ inst.enc = .kVop2 ∨ inst.enc = .kVop3) : Sound (e.step inst guest codeBase) s' := by
  rw [ScalarEval.step_lanes henc]
  rcases e.stepLaneOp_cases henc with ⟨hwrite, heq⟩ | ⟨hwrite, hread, heq⟩ |
    ⟨hwrite, hread, hsdst, heq⟩ | ⟨hwrite, hread, hsdst, heq⟩
  · rw [heq]
    exact h.step_writelane hstep hcovered henc hwrite
  · have hnamed : namedWrites inst = (laneDst inst, 1) := by
      rw [namedWrites_lanes henc, hwrite, if_neg Bool.false_ne_true, if_pos hread]
    have hassigns : ScalarEval.Assigns e (e.stepReadlane inst) (namedWrites inst).1 1
        fun _ => e.readlaneResult inst := by
      rw [hnamed]
      exact ScalarEval.assigns_stepReadlane
    rw [heq]
    refine h.assigns hstep hcovered hwrite hassigns (by rw [hnamed]) ?_
    intro i hi v hv
    obtain ⟨hsrc, hvalue⟩ := h.readlaneResult hcovered hv
    refine ⟨by rw [hnamed]; exact hi, not_implicitWrites_readlane hread, ?_⟩
    rw [scalarResult_lanes henc, if_pos ⟨hread, hsrc⟩, hvalue]
  · -- A predicate or a carry goes to a pair of registers, which is cleared.
    have hnamed : namedWrites inst =
        (if inst.opcode < 0x100 then laneDst inst else (inst.raw0 >>> 8) &&& 0x7F, 2) := by
      rw [namedWrites_lanes henc, hwrite, if_neg Bool.false_ne_true, if_neg hread]
      by_cases hcmp : inst.opcode < 256
      · rw [if_pos ⟨hsdst.1, hcmp⟩, if_pos hcmp]
      · rw [if_neg fun hv => hcmp hv.2, if_pos ⟨hsdst.1, hsdst.2.resolve_left hcmp⟩, if_neg hcmp]
    have hassigns : ScalarEval.Assigns e (e.clears
        (if inst.opcode < 0x100 then laneDst inst else (inst.raw0 >>> 8) &&& 0x7F) 2)
        (namedWrites inst).1 2 fun _ => none := by
      rw [hnamed]
      exact ScalarEval.assigns_clears _ 2
    rw [heq]
    exact h.assigns hstep hcovered hwrite hassigns (by rw [hnamed]) fun i _ v hv => by cases hv
  · rw [heq]
    refine h.unchanged hstep hcovered hwrite ?_
    rw [namedWrites_lanes henc, hwrite, if_neg Bool.false_ne_true, if_neg hread,
      if_neg fun hv => hsdst ⟨hv.1, .inl hv.2⟩, if_neg fun hv => hsdst ⟨hv.1, .inr hv.2⟩]

/-- **A covered step** keeps what is known right. -/
theorem Sound.step (h : Sound e s) (hstep : isa.Step guest codeBase inst s s')
    (hcovered : Covered isa inst e s) : Sound (e.step inst guest codeBase) s' := by
  by_cases hlanes : inst.enc = .kVop1 ∨ inst.enc = .kVop2 ∨ inst.enc = .kVop3
  · exact h.step_lanes hstep hcovered hlanes
  cases henc : inst.enc with
  | kSop1 => exact h.step_sop1 hstep hcovered henc
  | kSopk => exact h.step_sopk hstep hcovered henc
  | kSop2 => exact h.step_sop2 hstep hcovered henc
  | kSmrd => exact h.step_smrd hstep hcovered henc
  | kVop1 => exact absurd (.inl henc) hlanes
  | kVop2 => exact absurd (.inr (.inl henc)) hlanes
  | kVop3 => exact absurd (.inr (.inr henc)) hlanes
  | _ =>
    rw [ScalarEval.step_other (by simp [henc]) hlanes]
    exact h.unchanged hstep hcovered (by simp [isWritelane, henc]) (by simp [namedWrites, henc])

end Steps

/-! ## Runs -/

/-- The states of the walk and of the registers behind a straight-line program, from user data on; each
of its steps is `ok` in the states before it. -/
inductive ScalarRun (isa : ScalarIsa) (guest : ScalarMemory) (codeBase : ℕ) (userData : ℕ → UInt32)
    (ok : Inst → ScalarEval → ScalarState → Prop) : List Inst → ScalarEval → ScalarState → Prop where
  | start {s : ScalarState} : (∀ i < 16, s.sgpr i = userData i) →
      ScalarRun isa guest codeBase userData ok [] (ScalarEval.start userData) s
  | step {insts : List Inst} {e : ScalarEval} {s s' : ScalarState} {inst : Inst} :
      ScalarRun isa guest codeBase userData ok insts e s → isa.Step guest codeBase inst s s' →
      ok inst e s → ScalarRun isa guest codeBase userData ok (insts ++ [inst])
        (e.step inst guest codeBase) s'

theorem Sound.start {userData : ℕ → UInt32} {s : ScalarState} (h : ∀ i < 16, s.sgpr i = userData i) :
    Sound (ScalarEval.start userData) s := by
  constructor
  · intro r _ v hv
    obtain ⟨hr, hv⟩ := Option.ite_none_right_eq_some.mp hv
    have hlt : r < 16 := of_decide_eq_true hr
    rw [h r hlt, ← Option.some.inj hv]
    exact (if_pos hlt).symm
  · intro v l _ x hx
    cases hx

theorem Sound.of_run {isa : ScalarIsa} {guest : ScalarMemory} {codeBase : ℕ} {userData : ℕ → UInt32}
    {insts : List Inst} {e : ScalarEval} {s : ScalarState}
    (h : ScalarRun isa guest codeBase userData (Covered isa) insts e s) : Sound e s := by
  induction h with
  | start hdata => exact .start hdata
  | step _ hstep hcovered ih => exact ih.step hstep hcovered

/-- An instruction set whose vector instructions write no VGPR. -/
def plainIsa : ScalarIsa where
  special _ _ := 0
  constHi field _ := if field ≤ 192 then 0 else 0xFFFFFFFF
  vgprWrites _ _ _ _ := False
  constHi_int _ _ _ _ := rfl

/-- `s_mov_b32 s20, s3`. -/
def moveInst : Inst := ⟨.kBase, .kSop1, 0x03, 0xBE940303, 0, 1, 0, false, 0, .kNone⟩

def movedState : ScalarState := ⟨fun r => if r = 20 then 3 else .ofNat r, fun _ _ => 0⟩

/-- `s_mov_b64 s[4:5], -1`. -/
def onesInst : Inst := ⟨.kBase, .kSop1, 0x04, 0xBE8404C1, 0, 1, 0, false, 0, .kNone⟩

def onesState : ScalarState :=
  ⟨fun r => if r = 4 ∨ r = 5 then 0xFFFFFFFF else 0, fun _ _ => 0⟩

end Prosperity.Gcn
