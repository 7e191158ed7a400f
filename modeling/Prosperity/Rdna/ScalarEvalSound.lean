import Mathlib.Tactic.IntervalCases
import Prosperity.Foundations.Words
import Prosperity.Rdna.ScalarIsa
import Prosperity.Rdna.ScalarSteps

/-!
# What the RDNA scalar walk knows

A register that the walk knows has the value that the instruction set gives it, as long as each step
that has an effect which the walk does not see meets nothing that it knows: a lane read, a compare or a
carry, an EXEC mask, a relative move, a return address, the time, the upper dword of some pairs, SCC
behind a SOP1; and as long as a constant of 64 bits is short, a load is aligned and inside its buffer,
and no `s_getreg_b32` and none of the opcodes is met that the walk takes for a shift and an addition.
-/

namespace Prosperity.Rdna

open Gcn (Enc ScalarMemory)

/-- What the walk knows is right. Of the null register it may know anything. -/
structure Sound (e : ScalarEval) (s : ScalarState) : Prop where
  sgpr : ∀ r ≤ 127, r ≠ 125 → ∀ v, e.reg r = some v → s.sgpr r = v
  scc : ∀ b, e.scc = some b → s.scc = b

def pairSources (inst : Inst) : List ℕ :=
  match inst.enc with
  | .kSop1 => if inst.opcode = 0x04 then [inst.ssrc0] else []
  | .kSop2 =>
    if inst.opcode = 0x0b then [inst.ssrc0, inst.ssrc1]
    else if inst.opcode ∈ [0x1f, 0x21, 0x23, 0x29, 0x2a] then [inst.ssrc0]
    else []
  | .kSopc => if inst.opcode = 0x12 ∨ inst.opcode = 0x13 then [inst.ssrc0, inst.ssrc1] else []
  | _ => []

def unknownSource (inst : Inst) (e : ScalarEval) : Prop :=
  e.source inst.ssrc0 inst.literal = none ∨ e.source inst.ssrc1 inst.literal = none

/-- The dwords behind its destination field that an instruction writes and the walk steps over: those of
`s_call_b64` and of the subvector loops, the time, an atomic's result, and the upper dword of a bit field
mask and of a signed bit field of an unknown source. -/
def overlooked (inst : Inst) (e : ScalarEval) (i : ℕ) : Prop :=
  (inst.enc = .kSopk ∧ (inst.opcode = 0x16 ∨ inst.opcode = 0x1b ∨ inst.opcode = 0x1c)) ∨
    (inst.enc = .kSmrd ∧ smemLoadCount inst.opcode = 0) ∨
    (inst.enc = .kSop2 ∧ i = 1 ∧ (inst.opcode = 0x25 ∨ (inst.opcode = 0x2a ∧ unknownSource inst e)))

/-- A step whose effects the walk sees. -/
structure Seen (isa : ScalarIsa) (guest : ScalarMemory) (inst : Inst) (e : ScalarEval)
    (s : ScalarState) : Prop where
  /-- What is written besides the destination is not known. -/
  implicit : ∀ r ≤ 127, implicitWrites inst s r → e.reg r = none
  dest : ∀ i, overlooked inst e i → InDest (destField inst) (destWidth inst) (destField inst + i) →
    e.reg (destField inst + i) = none
  scc : inst.enc = .kSop1 → sop1WritesScc inst.opcode = true → e.scc = none
  getreg : inst.enc = .kSopk → inst.opcode = 0x12 → inst.sdst = 125
  shiftAdd : inst.enc = .kSop2 → 0x2f ≤ inst.opcode → inst.opcode ≤ 0x32 → unknownSource inst e
  constant : ∀ field ∈ pairSources inst, 127 ≤ field → isa.pair s field inst.literal = (operand isa inst s field, 0)
  select : inst.enc = .kSop2 → inst.opcode = 0x0b → inst.sdst ≠ inst.ssrc0 + 1 ∧ inst.sdst ≠ inst.ssrc1 + 1
  load : inst.enc = .kSmrd → ∀ address, e.smemAddress inst guest = some address →
    (decodeSmem inst).sbase ≠ 124 ∧ 4 ∣ (s.sgpr (decodeSmem inst).sbase).toNat ∧
      (0x08 ≤ inst.opcode → 0 ≤ (decodeSmem inst).offset ∧
        ((s.read (decodeSmem inst).soffset).toNat / 4 * 4 : ℤ) + (decodeSmem inst).offset / 4 * 4 +
            smemLoadCount inst.opcode * 4 ≤
          bufferBytes (s.read ((decodeSmem inst).sbase + 1)) (s.read ((decodeSmem inst).sbase + 2)))

/-! ## Operands -/

section Operands

variable {isa : ScalarIsa} {inst : Inst} {e : ScalarEval} {s : ScalarState} {field : ℕ}

theorem inlineConst_table : ∀ field < 255, inlineConst field 0 = constSource field 0 ∨
    inlineConst field 0 = none := by decide +kernel

theorem constSource_of_inlineConst {literal : ℕ} {v : UInt32}
    (h : inlineConst field literal = some v) : constSource field literal = some v := by
  by_cases hfield : field = 255
  · subst hfield
    exact h
  have hinline : inlineConst field literal = inlineConst field 0 := by
    simp only [inlineConst, if_neg hfield]
  have hconst : constSource field literal = constSource field 0 := by
    simp only [constSource, if_neg hfield]
  rw [hinline] at h
  rw [hconst]
  rcases Nat.lt_or_ge field 255 with hlt | hge
  · rcases inlineConst_table field hlt with heq | hnone
    · rw [← heq, h]
    · rw [hnone] at h
      cases h
  · -- No field of a scalar source is that large.
    have hnone : inlineConst field 0 = none := by
      rw [inlineConst]
      repeat rw [if_neg (by omega)]
    rw [hnone] at h
    cases h

theorem Sound.read (h : Sound e s) {r : ℕ} (hr : r ≤ 127) (hnull : r ≠ 125) {v : UInt32}
    (hv : e.reg r = some v) : s.read r = v := by
  rw [ScalarState.read, if_neg hnull]
  exact h.sgpr r hr hnull v hv

theorem Sound.operand (h : Sound e s) {v : UInt32} (hsource : e.source field inst.literal = some v) :
    operand isa inst s field = v := by
  rw [ScalarEval.source] at hsource
  rw [Rdna.operand]
  by_cases hnull : field = 125
  · rw [if_pos hnull] at hsource
    rw [if_pos (by omega), ScalarState.read, if_pos hnull]
    exact Option.some.inj hsource
  rw [if_neg hnull] at hsource
  by_cases hreg : field ≤ 127
  · rw [if_pos hreg] at hsource ⊢
    exact h.read hreg hnull hsource
  · rw [if_neg hreg] at hsource ⊢
    rw [constSource_of_inlineConst hsource]
    rfl

/-- **A source of 64 bits**, by its halves. -/
theorem Sound.operandPair_fst (h : Sound e s)
    (hconst : 127 ≤ field → isa.pair s field inst.literal = (Rdna.operand isa inst s field, 0))
    {lo : UInt32} (hlo : e.source field inst.literal = some lo) : (operandPair isa inst s field).1 = lo := by
  rw [Rdna.operandPair]
  by_cases hnull : field = 125
  · rw [if_pos hnull]
    rw [ScalarEval.source, if_pos hnull] at hlo
    exact Option.some.inj hlo
  rw [if_neg hnull]
  by_cases hreg : field ≤ 126
  · rw [if_pos hreg]
    rw [ScalarEval.source, if_neg hnull, if_pos (by omega)] at hlo
    exact h.read (by omega) hnull hlo
  · rw [if_neg hreg, hconst (by omega)]
    exact h.operand hlo

theorem Sound.operandPair_snd (h : Sound e s)
    (hconst : 127 ≤ field → isa.pair s field inst.literal = (Rdna.operand isa inst s field, 0))
    {hi : UInt32} (hhi : e.sourceHi field = some hi) : (operandPair isa inst s field).2 = hi := by
  rw [ScalarEval.sourceHi] at hhi
  rw [Rdna.operandPair]
  by_cases hnull : field = 125
  · rw [if_pos hnull] at hhi ⊢
    exact Option.some.inj hhi
  rw [if_neg hnull] at hhi ⊢
  by_cases hreg : field ≤ 126
  · rw [if_pos hreg] at hhi ⊢
    rw [ScalarEval.source] at hhi
    by_cases hnext : field + 1 = 125
    · rw [if_pos hnext] at hhi
      change s.read (field + 1) = hi
      rw [ScalarState.read, if_pos hnext]
      exact Option.some.inj hhi
    · rw [if_neg hnext, if_pos (by omega)] at hhi
      exact h.read (by omega) hnext hhi
  · rw [if_neg hreg] at hhi ⊢
    rw [hconst (by omega)]
    exact Option.some.inj hhi

theorem Sound.operand64 (h : Sound e s)
    (hconst : 127 ≤ field → isa.pair s field inst.literal = (Rdna.operand isa inst s field, 0))
    {lo hi : UInt32} (hlo : e.source field inst.literal = some lo) (hhi : e.sourceHi field = some hi) :
    operand64 isa inst s field = (widen lo hi).toNat := by
  rw [Rdna.operand64, h.operandPair_fst hconst hlo, h.operandPair_snd hconst hhi, widen, Words.toNat_halves]

end Operands

/-! ## Operations -/

section Operations

variable {op : ℕ} {a b : UInt32}

theorem carry_eq (n : ℕ) : (decide (n >>> 32 ≠ 0)) = decide (2 ^ 32 ≤ n) := by
  rw [decide_eq_decide, Nat.shiftRight_eq_div_pow, Nat.div_ne_zero_iff]
  simp

theorem sop2Carry_eq (hop : op = 0x04 ∨ op = 0x05) (scc : Bool) :
    sop2Result op a b scc = some ((sop2Carry op a b scc).1, some (sop2Carry op a b scc).2) := by
  have ha := a.toNat_lt
  have hb := b.toNat_lt
  have hc : (if scc then 1 else 0 : UInt32).toNat = if scc then 1 else 0 := by cases scc <;> rfl
  have hle : (if scc then 1 else 0 : ℕ) ≤ 1 := by cases scc <;> decide
  rcases hop with rfl | rfl
  · simp only [sop2Result, sop2Carry, if_true, hc, carry_eq]
    congr 2
    rw [← UInt32.toNat_inj, UInt32.toNat_add, UInt32.toNat_add, hc, UInt32.toNat_ofNat']
    omega
  · simp only [sop2Result, sop2Carry, hc, if_neg (by decide : ¬(0x05 = 0x04))]
    congr 2
    rw [← UInt32.toNat_inj, UInt32.toNat_sub, UInt32.toNat_sub, hc, UInt32.toNat_ofNat']
    omega

/-- **The results of SOP2** on single dwords, and SCC behind them. -/
theorem sop2Result_of_sop2Value {value : UInt32} (scc : Bool) (hadd : ¬(0x2f ≤ op ∧ op ≤ 0x32))
    (h : sop2Value op a b = some value) : ∃ flag, sop2Result op a b scc = some (value, flag) ∧
      ∀ c, sop2Scc op a b value = some (some c) → flag = some c := by
  -- Most operations set SCC to whether their result is not zero.
  have hlogic : ∀ v : UInt32, v = value → sop2Scc op a b value = some (some (decide (value ≠ 0))) →
      sop2Result op a b scc = some (v, some (decide (v ≠ 0))) →
      ∃ flag, sop2Result op a b scc = some (value, flag) ∧
        ∀ c, sop2Scc op a b value = some (some c) → flag = some c := by
    rintro v rfl hscc hresult
    refine ⟨_, hresult, fun c hc => ?_⟩
    rw [hscc] at hc
    exact Option.some.inj hc
  unfold sop2Value at h
  split at h
  case h_1 =>
    refine ⟨_, congrArg (fun v => some (v, _)) (Option.some.inj h), fun c hc => ?_⟩
    rw [← carry_eq]
    exact Option.some.inj hc
  case h_2 | h_4 =>
    refine ⟨none, congrArg (fun v => some (v, none)) (Option.some.inj h), fun c hc => ?_⟩
    cases (Option.some.inj hc : none = some c)
  case h_3 =>
    refine ⟨_, congrArg (fun v => some (v, _)) (Option.some.inj h), fun c hc => ?_⟩
    exact Option.some.inj hc
  case h_13 => exact hlogic _ ((Words.shl32_eq a b).symm.trans (Option.some.inj h)) rfl rfl
  case h_14 => exact hlogic _ ((Words.shr32_eq a b).symm.trans (Option.some.inj h)) rfl rfl
  case h_15 => exact hlogic _ ((Words.sar32_eq a b).symm.trans (Option.some.inj h)) rfl rfl
  case h_16 =>
    refine ⟨none, congrArg (fun v => some (v, none)) (Option.some.inj h), fun c hc => ?_⟩
    cases (hc : none = some (some c))
  case h_17 => exact hlogic _ ((Words.bfe32_eq a b).symm.trans (Option.some.inj h)) rfl rfl
  case h_18 | h_19 | h_20 | h_21 => exact absurd ⟨by decide, by decide⟩ hadd
  case h_22 => cases h
  all_goals exact hlogic _ (Option.some.inj h) rfl rfl

theorem sop2Result64_bfe (hop : op = 0x29 ∨ op = 0x2a) (wide : UInt64) :
    sop2Result64 op wide.toNat b.toNat = some (bfe64 op wide b).toNat := by
  have hoff : (b &&& 0x3F).toUInt64.toNat = b.toNat % 64 := Words.toNat_amount b
  have hwidth : ((b >>> 16) &&& 0x7F).toUInt64.toNat = b.toNat / 2 ^ 16 % 128 := by
    rw [UInt32.toNat_toUInt64, Words.toNat_and32 _ (k := 7) rfl, UInt32.toNat_shiftRight, Nat.shiftRight_eq_div_pow]
    rfl
  have hshift : (wide >>> (b &&& 0x3F).toUInt64).toNat = wide.toNat / 2 ^ (b.toNat % 64) :=
    Words.toNat_shr64 wide b
  simp only [bfe64]
  generalize ((b >>> 16) &&& 0x7F).toUInt64 = width at hwidth ⊢
  generalize wide >>> (b &&& 0x3F).toUInt64 = r at hshift ⊢
  have hfield := Words.toNat_bfe64 r width
  rw [hshift, hwidth] at hfield
  generalize (if width < 64 then r &&& ((1 <<< width) - 1) else r) = x at hfield ⊢
  have hzero : width = 0 → x.toNat = 0 := by
    rintro rfl
    rw [hfield, ← hwidth]
    exact Nat.mod_one _
  rcases hop with rfl | rfl
  · rw [sop2Result64, ← hfield]
    by_cases hw : width = 0
    · rw [if_pos hw, hzero hw]
      rfl
    · rw [if_neg hw, if_neg fun h => absurd h.1 (by decide)]
  · rw [sop2Result64, ← hfield, ← hwidth]
    rw [← hwidth] at hfield
    refine congrArg some ?_
    rw [signedField]
    by_cases hw : width = 0
    · rw [if_pos hw, if_neg fun h => h.1 (by rw [hw]; rfl)]
      exact hzero hw
    have hpos : width.toNat ≠ 0 := fun h => hw (UInt64.toNat_inj.mp h)
    rw [if_neg hw]
    by_cases hlt : width < 64
    · have hlt' : width.toNat < 64 := UInt64.lt_iff_toNat_lt.mp hlt
      obtain ⟨hsign, hvalue⟩ := Words.toNat_sext64 hw hlt (x := x)
        (by rw [hfield]; exact Nat.mod_lt _ (Nat.two_pow_pos _))
      by_cases hset : 2 ^ (width.toNat - 1) ≤ x.toNat
      · rw [if_pos ⟨hpos, hset⟩, if_pos ⟨rfl, hlt, hsign.mpr hset⟩, hvalue, Nat.min_eq_left hlt'.le]
      · rw [if_neg fun h => hset h.2, if_neg fun h => hset (hsign.mp h.2.2)]
    · -- The field goes past the last bit, so nothing is left to extend.
      have hge : 64 ≤ width.toNat := Nat.not_lt.mp fun h => hlt (UInt64.lt_iff_toNat_lt.mpr h)
      rw [Nat.min_eq_right hge, Nat.sub_self, Nat.add_zero, ite_self, if_neg fun h => hlt h.2.1]

theorem sop2Result64_shift (hop : op = 0x1f ∨ op = 0x21 ∨ op = 0x23) (wide : UInt64) :
    sop2Result64 op wide.toNat b.toNat = some (shift64 op wide b).toNat := by
  rcases hop with rfl | rfl | rfl
  · exact congrArg some (Words.toNat_shl64 wide b).symm
  · exact congrArg some (Words.toNat_shr64 wide b).symm
  · refine congrArg some ?_
    rw [shift64, if_neg (by decide), if_neg (by decide), Words.toNat_sar64, UInt64.ofNat_toNat]

theorem toInt32_eq_iff : a.toInt32.toInt = b.toInt32.toInt ↔ a = b := by
  rw [Int32.toInt_inj]
  exact ⟨fun h => congrArg Int32.toUInt32 h, fun h => congrArg UInt32.toInt32 h⟩

/-- **The results of SOPC** on single dwords. -/
theorem sopcResult_of_sopcCompare {c : Bool} (h : sopcCompare op a b = some c) : sopcResult op a b = some c := by
  unfold sopcCompare at h
  split at h
  case h_15 => cases h
  all_goals
    rw [← Option.some.inj h]
    refine congrArg some (decide_eq_decide.mpr ?_)
  case h_1 => exact toInt32_eq_iff
  case h_2 => exact UInt32.toNat_inj
  case h_3 => exact not_congr toInt32_eq_iff
  case h_4 => exact not_congr UInt32.toNat_inj
  case h_5 | h_7 => exact Int32.lt_iff_toInt_lt.symm
  case h_6 | h_8 => exact Int32.le_iff_toInt_le.symm
  case h_9 | h_11 => exact UInt32.lt_iff_toNat_lt.symm
  case h_10 | h_12 => exact UInt32.le_iff_toNat_le.symm
  case h_13 => exact (Words.toNat_bit a b).symm
  case h_14 => exact Bool.not_eq_false _ ▸ (not_congr (Words.toNat_bit a b)).symm

/-- **The SOPK compares.** -/
theorem sopkResult_eq {w : ℕ} (hop : 0x03 ≤ op ∧ op ≤ 0x0e) :
    sopkResult op a w = some (sopkCompare op a (UInt16.ofNat w).toInt16.toInt32.toUInt32
      (UInt16.ofNat w).toUInt32) := by
  have hsimm : ((UInt16.ofNat w).toInt16.toInt32.toUInt32.toInt32).toInt = (Int16.ofNat w).toInt :=
    Int16.toInt_toInt32 _
  have himm : (UInt16.ofNat w).toUInt32.toNat = w % 2 ^ 16 := by
    rw [UInt16.toNat_toUInt32, UInt16.toNat_ofNat']
  obtain ⟨hlow, hhigh⟩ := hop
  interval_cases op
  all_goals
    refine congrArg some (decide_eq_decide.mpr ?_)
    try rw [← hsimm]
    try rw [← himm]
  · exact Int32.toInt_inj
  · exact not_congr Int32.toInt_inj
  · exact Int32.lt_iff_toInt_lt.symm
  · exact Int32.le_iff_toInt_le.symm
  · exact Int32.lt_iff_toInt_lt.symm
  · exact Int32.le_iff_toInt_le.symm
  · exact UInt32.toNat_inj
  · exact not_congr UInt32.toNat_inj
  · exact UInt32.lt_iff_toNat_lt.symm
  · exact UInt32.le_iff_toNat_le.symm
  · exact UInt32.lt_iff_toNat_lt.symm
  · exact UInt32.le_iff_toNat_le.symm

end Operations

/-! ## Steps -/

section Steps

variable {isa : ScalarIsa} {guest : ScalarMemory} {codeAddr : ℕ} {inst : Inst} {e : ScalarEval}
  {s s' : ScalarState} {r i d : ℕ} {v : UInt32} {o x : Option UInt32} {u : Update}

theorem mem_setDest : (r, o) ∈ setDest d i x ↔ d ≠ 125 ∧ r = d + i ∧ o = x := by
  rw [setDest]
  split_ifs with h
  · simp [h]
  · simp [h]

theorem assign_some {ws : List (ℕ × Option UInt32)} (h : (e.assign ws).reg r = some v) :
    (r, some v) ∈ ws ∨ (e.reg r = some v ∧ (r < kRegs → r ∉ ws.map Prod.fst)) := by
  induction ws generalizing e with
  | nil => exact .inr ⟨h, fun _ => List.not_mem_nil⟩
  | cons w ws ih =>
    rcases ih h with hmem | ⟨hbefore, hnot⟩
    · exact .inl (List.mem_cons_of_mem _ hmem)
    rw [ScalarEval.reg_write] at hbefore
    by_cases hw : w.1 < kRegs ∧ r = w.1
    · rw [if_pos hw] at hbefore
      rw [hw.2, ← hbefore]
      exact .inl (List.mem_cons_self ..)
    · rw [if_neg hw] at hbefore
      refine .inr ⟨hbefore, fun hlt hmem => ?_⟩
      rcases List.mem_cons.mp hmem with heq | hrest
      · exact hw ⟨heq ▸ hlt, heq⟩
      · exact hnot hlt hrest

structure Right (s' : ScalarState) (u : Update) : Prop where
  writes : ∀ r v, (r, some v) ∈ u.writes → r ≤ 127 → s'.sgpr r = v
  scc : ∀ c, u.scc = some (some c) → s'.scc = c

theorem right_one {flag : Option (Option Bool)} (hvalue : d ≠ 125 → ∀ v, x = some v → s'.sgpr d = v)
    (hscc : ∀ c, flag = some (some c) → s'.scc = c) :
    Right s' { writes := setDest d 0 x, scc := flag } := by
  refine ⟨fun r v hmem _ => ?_, hscc⟩
  obtain ⟨hnull, rfl, hv⟩ := mem_setDest.mp hmem
  exact hvalue hnull v hv.symm

theorem right_two {flag : Option (Option Bool)} {y : Option UInt32} (hlow : d ≠ 125 → ∀ v, x = some v → s'.sgpr d = v)
    (hhigh : d ≠ 125 → ∀ v, y = some v → s'.sgpr (d + 1) = v) (hscc : ∀ c, flag = some (some c) → s'.scc = c) :
    Right s' { writes := setDest d 0 x ++ setDest d 1 y, scc := flag } := by
  refine ⟨fun r v hmem _ => ?_, hscc⟩
  rcases List.mem_append.mp hmem with hmem | hmem
  · obtain ⟨hnull, rfl, hv⟩ := mem_setDest.mp hmem
    exact hlow hnull v hv.symm
  · obtain ⟨hnull, rfl, hv⟩ := mem_setDest.mp hmem
    exact hhigh hnull v hv.symm

theorem right_clear (d n : ℕ) (flag : Option (Option Bool)) (hscc : flag = none ∨ flag = some none) :
    Right s' { writes := (List.range n).flatMap fun i => setDest d i none, scc := flag } := by
  refine ⟨fun r v hmem _ => ?_, fun c hc => ?_⟩
  · obtain ⟨i, -, hmem⟩ := List.mem_flatMap.mp hmem
    cases (mem_setDest.mp hmem).2.2
  · rcases hscc with rfl | rfl
    · cases hc
    · cases (Option.some.inj hc : none = some c)

theorem not_implicitWrites (h : (inst.enc = .kSop1 ∧ inst.opcode ∈ [0x03, 0x04, 0x1f]) ∨ inst.enc = .kSop2 ∨
      (inst.enc = .kSopk ∧ inst.opcode ≠ 0x1b ∧ inst.opcode ≠ 0x1c) ∨ inst.enc = .kSmrd) (r : ℕ) :
    ¬implicitWrites inst s r := by
  rcases h with ⟨henc, hop⟩ | henc | ⟨henc, h1, h2⟩ | henc
  · simp only [List.mem_cons, List.not_mem_nil, or_false] at hop
    rcases hop with hop | hop | hop <;>
      simp [implicitWrites, writesExec, relativeDest, vectorWrites, henc, hop]
  · simp [implicitWrites, writesExec, relativeDest, vectorWrites, henc]
  · simp [implicitWrites, writesExec, relativeDest, vectorWrites, henc, h1, h2]
  · simp [implicitWrites, writesExec, relativeDest, vectorWrites, henc]

/-- **A step** keeps what is known right if what it writes is right, and what it leaves alone of its
destination was not known or stays as it was. -/
theorem Sound.update (h : Sound e s) (hstep : isa.Step guest codeAddr inst s s')
    (hseen : Seen isa guest inst e s) (hu : e.update inst guest codeAddr = u) (hright : Right s' u)
    (hdest : ∀ i, InDest (destField inst) (destWidth inst) (destField inst + i) →
      destField inst + i ≤ 127 → destField inst + i ≠ 125 → destField inst + i ∉ u.writes.map Prod.fst →
      ∀ v, e.reg (destField inst + i) = some v → s'.sgpr (destField inst + i) = v)
    (hsccKept : u.scc = none → mayWriteScc inst = true → e.scc = none) : Sound (e.step inst guest codeAddr) s' := by
  rw [ScalarEval.step, hu]
  constructor
  · intro r hr hnull v hv
    rcases assign_some hv with hmem | ⟨hbefore, hnot⟩
    · exact hright.writes r v hmem hr
    by_cases hmay : mayWrite inst s r
    · rcases hmay with himplicit | hin
      · rw [hseen.implicit r hr himplicit] at hbefore
        cases hbefore
      · obtain ⟨i, rfl⟩ := Nat.exists_eq_add_of_le hin.2.1
        exact hdest i hin hr hnull (hnot (by rw [kRegs]; omega)) v hbefore
    · rw [hstep.kept r hmay]
      exact h.sgpr r hr hnull v hbefore
  · intro b hb
    rw [ScalarEval.apply] at hb
    cases hflag : u.scc with
    | some flag =>
      rw [hflag] at hb
      exact hright.scc b (hflag.trans (congrArg some hb))
    | none =>
      rw [hflag] at hb
      have hbefore : e.scc = some b := hb
      by_cases hmay : mayWriteScc inst = true
      · rw [hsccKept hflag hmay] at hbefore
        cases hbefore
      · rw [hstep.keptScc (by simpa using hmay)]
        exact h.scc b hbefore

theorem sop1Width_le (op : ℕ) : sop1Width op ≤ sop1WriteDwords op := by
  rw [sop1Width]
  split_ifs with hpair hnone
  · simp only [List.mem_cons, List.not_mem_nil, or_false] at hpair
    rcases hpair with h | h | h | h | h | h | h | h | h | h | h | h | h | h | h | h | h | h | h | h |
      h | h | h | h | h <;> rw [h] <;> decide
  · exact Nat.zero_le _
  · rw [sop1WriteDwords]
    split_ifs with hone hzero
    · exact le_rfl
    · simp only [List.mem_cons, List.not_mem_nil, or_false] at hzero
      exact absurd hzero hnone
    · exact Nat.le_succ 1

theorem Sound.right_sop1 (h : Sound e s) (hstep : isa.Step guest codeAddr inst s s')
    (hseen : Seen isa guest inst e s) (henc : inst.enc = .kSop1) : Right s' (e.updateSop1 inst codeAddr) := by
  have hfield : destField inst = inst.sdst := if_neg (by simp [henc])
  have hwidth : destWidth inst = sop1Width inst.opcode := by rw [destWidth, henc]
  -- What the instruction set gives the followed opcodes.
  have hresult : ∀ i v, inst.opcode ∈ [0x03, 0x04, 0x1f] → inst.sdst ≠ 125 →
      i < sop1Width inst.opcode → scalarResult isa guest codeAddr inst s i = some v →
      s'.sgpr (inst.sdst + i) = v := by
    intro i v hop hnull hi hscalar
    have hgiven := hstep.result i v
    rw [hfield, hwidth] at hgiven
    exact hgiven ⟨hnull, Nat.le_add_right _ _, by omega⟩
      (not_implicitWrites (.inl ⟨henc, hop⟩) _) hscalar
  rw [ScalarEval.updateSop1]
  by_cases hmov : inst.opcode = 0x03
  · rw [if_pos hmov]
    refine right_one (fun hnull v hv => ?_) fun c hc => by cases hc
    refine hresult 0 v (by simp [hmov]) hnull (by rw [hmov]; decide) ?_
    have hsource : Rdna.operand isa inst s inst.ssrc0 = v := h.operand hv
    simp only [scalarResult, henc, if_pos hmov, hsource]
  rw [if_neg hmov]
  by_cases hpair : inst.opcode = 0x04
  · rw [if_pos hpair]
    cases hlo : e.source inst.ssrc0 inst.literal with
    | none => exact right_two (fun _ v hv => by cases hv) (fun _ v hv => by cases hv) fun c hc => by cases hc
    | some lo =>
      cases hhi : e.sourceHi inst.ssrc0 with
      | none =>
        exact right_two (fun _ v hv => by cases hv) (fun _ v hv => by cases hv) fun c hc => by cases hc
      | some hi =>
        have hconst := hseen.constant inst.ssrc0 (by simp [pairSources, henc, hpair])
        have hscalar : ∀ i, scalarResult isa guest codeAddr inst s i =
            some (if i = 0 then lo else hi) := by
          intro i
          simp only [scalarResult, henc, if_neg hmov, if_pos hpair, h.operandPair_fst hconst hlo,
            h.operandPair_snd hconst hhi]
        refine right_two (fun hnull v hv => ?_) (fun hnull v hv => ?_) fun c hc => by cases hc
        · exact hresult 0 v (by simp [hpair]) hnull (by rw [hpair]; decide) ((hscalar 0).trans hv)
        · exact hresult 1 v (by simp [hpair]) hnull (by rw [hpair]; decide) ((hscalar 1).trans hv)
  rw [if_neg hpair]
  by_cases hpc : inst.opcode = 0x1f ∧ codeAddr ≠ 0
  · rw [if_pos hpc]
    have hscalar : ∀ i, scalarResult isa guest codeAddr inst s i =
        some (.ofNat ((codeAddr + (inst.pc + 1) * 4) % 2 ^ 64 / 2 ^ (32 * i))) := by
      intro i
      simp only [scalarResult, henc, if_neg hmov, if_neg hpair, if_pos hpc.1]
    refine right_two (fun hnull v hv => ?_) (fun hnull v hv => ?_) fun c hc => by cases hc
    · refine hresult 0 v (by simp [hpc.1]) hnull (by rw [hpc.1]; decide) ((hscalar 0).trans ?_)
      rw [← hv, Words.toUInt32_low, UInt64.toNat_ofNat']
      simp
    · refine hresult 1 v (by simp [hpc.1]) hnull (by rw [hpc.1]; decide) ((hscalar 1).trans ?_)
      rw [← hv, Words.toUInt32_high, UInt64.toNat_ofNat']
  · rw [if_neg hpc]
    exact right_clear _ _ _ (.inl rfl)

theorem Sound.step_sop1 (h : Sound e s) (hstep : isa.Step guest codeAddr inst s s')
    (hseen : Seen isa guest inst e s) (henc : inst.enc = .kSop1) : Sound (e.step inst guest codeAddr) s' := by
  have hfield : destField inst = inst.sdst := if_neg (by simp [henc])
  have hwidth : destWidth inst = sop1Width inst.opcode := by rw [destWidth, henc]
  have hu : e.update inst guest codeAddr = e.updateSop1 inst codeAddr := by
    rw [ScalarEval.update, henc]
  refine h.update hstep hseen hu (h.right_sop1 hstep hseen henc) ?_ ?_
  · intro i hin _ _ hnot
    rw [hfield, hwidth] at hin
    rw [hfield] at hnot
    have hle := sop1Width_le inst.opcode
    exact absurd ((fills_updateSop1 _).mpr ⟨hin.1, hin.2.1, by have := hin.2.2; omega⟩) hnot
  · intro _ hmay
    rw [mayWriteScc, henc] at hmay
    exact hseen.scc henc hmay

/-! ### SOP2 -/

theorem sop2Width_of_value {op : ℕ} {a b value : UInt32} (h : sop2Value op a b = some value) : sop2Width op = 1 := by
  unfold sop2Value at h
  split at h
  case h_22 => cases h
  all_goals rfl

theorem sop2Width_cases (op : ℕ) : sop2Width op = 1 ∨ (sop2Width op = 2 ∧
    (op = 0x0b ∨ (0x0f ≤ op ∧ op ≤ 0x25 ∧ op % 2 = 1) ∨ op = 0x29 ∨ op = 0x2a)) := by
  rw [sop2Width]
  split_ifs with h
  · exact .inr ⟨rfl, h⟩
  · exact .inl rfl

theorem sop2Wide_table : ∀ op < 64, sop2Wide op = true ∨ sop2Width op = 1 ∨ (op = 0x0A ∨ op = 0x0B) ∨ op = 0x25 ∨
    op = 0x2a := by decide +kernel

theorem fills_two_updateSop2 (henc : inst.enc = .kSop2) (hwide : sop2Width inst.opcode = 2)
    (hover : ¬overlooked inst e 1) : Fills inst.sdst 2 (e.updateSop2 inst).writes := by
  have hop := ((sop2Width_cases inst.opcode).resolve_left (by omega)).2
  simp only [overlooked, henc, true_and, not_or, not_and] at hover
  obtain ⟨-, -, hmask, hfield⟩ := hover
  rw [ScalarEval.updateSop2]
  by_cases hselect : inst.opcode = 0x0A ∨ inst.opcode = 0x0B
  · have hpair : inst.opcode = 0x0B := by omega
    rw [if_pos hselect, ScalarEval.updateCselect]
    split
    · simp only [if_pos hpair]
      exact fills_two
    · simp only [if_pos hpair]
      exact fills_two
  rw [if_neg hselect]
  split
  · split
    · rw [ScalarEval.updateWide]
      split <;> exact fills_two
    · split
      · rw [ScalarEval.updateWide]
        split <;> exact fills_two
      · rename_i hbfe hshift
        rw [ScalarEval.updateNarrow, if_neg (by omega)]
        split
        · rename_i hvalue
          rw [sop2Width_of_value hvalue] at hwide
          cases hwide
        · rw [if_pos (by rw [Nat.and_one_is_mod]; omega)]
          exact fills_two
  · rename_i hsources
    have hunknown : unknownSource inst e := by
      rw [unknownSource]
      cases h0 : e.source inst.ssrc0 inst.literal with
      | none => exact .inl rfl
      | some a =>
        cases h1 : e.source inst.ssrc1 inst.literal with
        | none => exact .inr rfl
        | some b => exact absurd h1 (hsources a b h0)
    have hlisted : sop2Wide inst.opcode = true := by
      have hne : inst.opcode ≠ 0x2a := fun heq => hfield heq hunknown
      rcases sop2Wide_table inst.opcode (by omega) with h | h | h | h | h
      · exact h
      · rw [h] at hwide
        cases hwide
      · exact absurd h hselect
      · exact absurd h hmask
      · exact absurd h hne
    rw [if_pos hlisted]
    exact fills_two

theorem right_clearPair (d : ℕ) {flag : Option (Option Bool)} (hscc : flag = none ∨ flag = some none)
    (p : Prop) [Decidable p] :
    Right s' { writes := setDest d 0 none ++ if p then setDest d 1 none else [], scc := flag } := by
  refine ⟨fun r v hmem _ => ?_, fun c hc => ?_⟩
  · rcases List.mem_append.mp hmem with hmem | hmem
    · cases (mem_setDest.mp hmem).2.2
    · split_ifs at hmem
      · cases (mem_setDest.mp hmem).2.2
      · cases hmem
  · rcases hscc with rfl | rfl
    · cases hc
    · cases (Option.some.inj hc : none = some c)

theorem sgpr_sop2 (hstep : isa.Step guest codeAddr inst s s') (henc : inst.enc = .kSop2)
    (hnull : inst.sdst ≠ 125) (hi : i < sop2Width inst.opcode)
    (hscalar : scalarResult isa guest codeAddr inst s i = some v) : s'.sgpr (inst.sdst + i) = v := by
  have hgiven := hstep.result i v
  rw [show destField inst = inst.sdst from if_neg (by simp [henc]),
    show destWidth inst = sop2Width inst.opcode by rw [destWidth, henc]] at hgiven
  exact hgiven ⟨hnull, Nat.le_add_right _ _, by omega⟩ (not_implicitWrites (.inr (.inl henc)) _) hscalar

theorem Sound.right_cselect (h : Sound e s) (hstep : isa.Step guest codeAddr inst s s')
    (hseen : Seen isa guest inst e s) (henc : inst.enc = .kSop2)
    (hop : inst.opcode = 0x0a ∨ inst.opcode = 0x0b) : Right s' (e.updateCselect inst) := by
  rw [ScalarEval.updateCselect]
  cases hscc : e.scc with
  | none => exact right_clearPair _ (.inl rfl) _
  | some scc =>
    have hselected := h.scc scc hscc
    dsimp only
    rcases hop with hop | hop
    · rw [if_neg (by omega : ¬inst.opcode = 0x0b), List.append_nil]
      refine right_one (fun hnull v hv => ?_) fun c hc => by cases hc
      refine sgpr_sop2 hstep henc hnull (i := 0) (by rw [hop]; decide) ?_
      have hsource : Rdna.operand isa inst s (if scc then inst.ssrc0 else inst.ssrc1) = v := h.operand hv
      simp only [scalarResult, henc, if_pos hop, hselected, hsource]
    · rw [if_pos hop]
      have hconst := hseen.constant (if scc then inst.ssrc0 else inst.ssrc1) (by
        rw [pairSources, henc]
        cases scc <;> simp [hop])
      have hscalar : ∀ i, scalarResult isa guest codeAddr inst s i =
          some (if i = 0 then (operandPair isa inst s (if scc then inst.ssrc0 else inst.ssrc1)).1
            else (operandPair isa inst s (if scc then inst.ssrc0 else inst.ssrc1)).2) := by
        intro i
        simp only [scalarResult, henc, if_neg (by omega : ¬inst.opcode = 0x0a), if_pos hop, hselected]
      refine right_two (fun hnull v hv => ?_) (fun hnull v hv => ?_) fun c hc => by cases hc
      · refine sgpr_sop2 hstep henc hnull (i := 0) (by rw [hop]; decide) ((hscalar 0).trans ?_)
        exact congrArg some (h.operandPair_fst hconst hv)
      · refine sgpr_sop2 hstep henc hnull (i := 1) (by rw [hop]; decide) ((hscalar 1).trans ?_)
        refine congrArg some (h.operandPair_snd hconst ?_)
        -- The first write is not to the second dword of the source.
        have hne := hseen.select henc hop
        have hkept : (e.assign (setDest inst.sdst 0 (e.source (if scc then inst.ssrc0 else inst.ssrc1)
            inst.literal))).reg ((if scc then inst.ssrc0 else inst.ssrc1) + 1) =
              e.reg ((if scc then inst.ssrc0 else inst.ssrc1) + 1) := by
          refine ScalarEval.reg_assign_of_notMem fun _ hmem => ?_
          obtain ⟨⟨r, o⟩, hw, heq⟩ := List.mem_map.mp hmem
          obtain ⟨-, hfirst, -⟩ := mem_setDest.mp hw
          cases scc <;> simp at heq <;> omega
        rw [← hv, ScalarEval.sourceHi, ScalarEval.sourceHi, ScalarEval.source, ScalarEval.source, hkept]

/-- **SOP2 on 64 bits.** -/
theorem Sound.right_wide (h : Sound e s) (hstep : isa.Step guest codeAddr inst s s')
    (hseen : Seen isa guest inst e s) (henc : inst.enc = .kSop2)
    (hop : inst.opcode ∈ [0x1f, 0x21, 0x23, 0x29, 0x2a]) {a b : UInt32} {f : UInt64 → UInt64}
    (ha : e.source inst.ssrc0 inst.literal = some a) (hb : e.source inst.ssrc1 inst.literal = some b)
    (hf : ∀ wide, sop2Result64 inst.opcode wide.toNat b.toNat = some (f wide).toNat) :
    Right s' (e.updateWide inst a f) := by
  rw [ScalarEval.updateWide]
  cases hhi : e.sourceHi inst.ssrc0 with
  | none => exact right_two (fun _ v hv => by cases hv) (fun _ v hv => by cases hv) fun c hc => by cases hc
  | some hi =>
    have hpair : inst.opcode ≠ 0x0a ∧ inst.opcode ≠ 0x0b ∧ sop2Width inst.opcode = 2 := by
      simp only [List.mem_cons, List.not_mem_nil, or_false] at hop
      rcases hop with hop | hop | hop | hop | hop <;> rw [hop] <;> decide
    have hconst := hseen.constant inst.ssrc0 (by
      rw [pairSources, henc]
      simp only [if_neg hpair.2.1, if_pos hop]
      exact List.mem_singleton_self _)
    have hvalue : sop2Result64 inst.opcode (Rdna.operand64 isa inst s inst.ssrc0)
        (Rdna.operand isa inst s inst.ssrc1).toNat = some (f (widen a hi)).toNat := by
      rw [h.operand64 hconst ha hhi, h.operand hb, hf]
    have hscalar : ∀ i, scalarResult isa guest codeAddr inst s i =
        some (.ofNat ((f (widen a hi)).toNat / 2 ^ (32 * i))) := by
      intro i
      simp only [scalarResult, henc, if_neg hpair.1, if_neg hpair.2.1, if_pos hpair.2.2, hvalue, Option.map_some]
    refine right_two (fun hnull v hv => ?_) (fun hnull v hv => ?_) fun c hc => ?_
    · refine sgpr_sop2 hstep henc hnull (i := 0) (by omega) ((hscalar 0).trans ?_)
      rw [← hv, Words.toUInt32_low]
      simp
    · refine sgpr_sop2 hstep henc hnull (i := 1) (by omega) ((hscalar 1).trans ?_)
      rw [← hv, Words.toUInt32_high]
    · refine hstep.resultScc c ?_
      simp only [sccResult, henc, if_pos hpair.2.2, hvalue, Option.map_some]
      rw [← Option.some.inj hc]
      refine congrArg some (decide_eq_decide.mpr (not_congr ?_))
      rw [← UInt64.toNat_inj]
      rfl

/-- **SOP2 on single dwords.** -/
theorem Sound.right_narrow (h : Sound e s) (hstep : isa.Step guest codeAddr inst s s')
    (hseen : Seen isa guest inst e s) (henc : inst.enc = .kSop2)
    (hselect : ¬(inst.opcode = 0x0a ∨ inst.opcode = 0x0b)) {a b : UInt32}
    (ha : e.source inst.ssrc0 inst.literal = some a)
    (hb : e.source inst.ssrc1 inst.literal = some b) : Right s' (e.updateNarrow inst a b) := by
  rw [not_or] at hselect
  have hgiven : ∀ value flag, sop2Width inst.opcode = 1 → sop2Result inst.opcode a b s.scc = some (value, flag) →
      (inst.sdst ≠ 125 → ∀ v, some value = some v → s'.sgpr inst.sdst = v) ∧
        ∀ c, flag = some c → s'.scc = c := by
    intro value flag hwidth hresult
    have hone : ¬sop2Width inst.opcode = 2 := by omega
    refine ⟨fun hnull v hv => sgpr_sop2 hstep henc hnull (i := 0) (by omega) ?_, fun c hc => ?_⟩
    · simp only [scalarResult, henc, if_neg hselect.1, if_neg hselect.2, if_neg hone, h.operand ha,
        h.operand hb, hresult, Option.map_some, hv]
    · refine hstep.resultScc c ?_
      simp only [sccResult, henc, if_neg hone, h.operand ha, h.operand hb, hresult, Option.bind_some, hc]
  rw [ScalarEval.updateNarrow]
  by_cases hcarry : inst.opcode = 0x04 ∨ inst.opcode = 0x05
  · rw [if_pos hcarry]
    cases hscc : e.scc with
    | none => exact right_one (fun _ v hv => by cases hv) fun c hc => by cases hc
    | some scc =>
      have hresult := sop2Carry_eq (a := a) (b := b) hcarry scc
      rw [← h.scc scc hscc] at hresult ⊢
      obtain ⟨hvalue, hflag⟩ := hgiven _ _ (by rcases hcarry with h | h <;> rw [h] <;> decide) hresult
      exact right_one hvalue fun c hc => hflag c (Option.some.inj hc)
  rw [if_neg hcarry]
  cases hvalue : sop2Value inst.opcode a b with
  | none => exact right_clearPair _ (.inr rfl) _
  | some value =>
    have hadd : ¬(0x2f ≤ inst.opcode ∧ inst.opcode ≤ 0x32) := by
      rintro ⟨hlow, hhigh⟩
      rcases hseen.shiftAdd henc hlow hhigh with hnone | hnone
      · rw [ha] at hnone
        cases hnone
      · rw [hb] at hnone
        cases hnone
    obtain ⟨flag, hresult, hscc⟩ := sop2Result_of_sop2Value s.scc hadd hvalue
    obtain ⟨hdest, hflag⟩ := hgiven value flag (sop2Width_of_value hvalue) hresult
    exact right_one hdest fun c hc => hflag c (hscc c hc)

theorem updateSop2_scc_none (h : (e.updateSop2 inst).scc = none)
    (hkeeps : sop2KeepsScc inst.opcode = false) : e.scc = none := by
  have hselect : ¬(inst.opcode = 0x0A ∨ inst.opcode = 0x0B) := by
    rintro (hop | hop) <;> rw [hop] at hkeeps <;> cases hkeeps
  have hwide : ∀ a f, (e.updateWide inst a f).scc ≠ none := by
    intro a f
    rw [ScalarEval.updateWide]
    split
    · exact Option.some_ne_none _
    · exact Option.some_ne_none _
  rw [ScalarEval.updateSop2, if_neg hselect] at h
  cases ha : e.source inst.ssrc0 inst.literal with
  | none =>
    rw [ha] at h
    cases h
  | some a =>
    cases hb : e.source inst.ssrc1 inst.literal with
    | none =>
      rw [ha, hb] at h
      cases h
    | some b =>
      rw [ha, hb] at h
      dsimp only at h
      split at h
      · exact absurd h (hwide _ _)
      split at h
      · exact absurd h (hwide _ _)
      rw [ScalarEval.updateNarrow] at h
      split at h
      · split at h
        · assumption
        · cases h
      split at h
      · -- Only the multiplication leaves SCC alone here.
        rename_i hvalue
        have hmul : inst.opcode = 0x26 := by
          unfold sop2Value at hvalue
          split at hvalue
          case h_16 => assumption
          case h_22 => cases hvalue
          all_goals
            rename_i hop
            rw [hop] at h
            cases h
        rw [hmul] at hkeeps
        cases hkeeps
      · cases h

theorem Sound.step_sop2 (h : Sound e s) (hstep : isa.Step guest codeAddr inst s s')
    (hseen : Seen isa guest inst e s) (henc : inst.enc = .kSop2) : Sound (e.step inst guest codeAddr) s' := by
  have hfield : destField inst = inst.sdst := if_neg (by simp [henc])
  have hwidth : destWidth inst = sop2Width inst.opcode := by rw [destWidth, henc]
  have hu : e.update inst guest codeAddr = e.updateSop2 inst := by rw [ScalarEval.update, henc]
  refine h.update hstep hseen hu ?_ ?_ ?_
  · rw [ScalarEval.updateSop2]
    by_cases hselect : inst.opcode = 0x0A ∨ inst.opcode = 0x0B
    · rw [if_pos hselect]
      exact h.right_cselect hstep hseen henc hselect
    rw [if_neg hselect]
    cases ha : e.source inst.ssrc0 inst.literal with
    | none => exact right_clearPair _ (.inr rfl) _
    | some a =>
      cases hb : e.source inst.ssrc1 inst.literal with
      | none => exact right_clearPair _ (.inr rfl) _
      | some b =>
        dsimp only
        split
        · rename_i hbfe
          refine h.right_wide hstep hseen henc (by simp; omega) ha hb fun wide => ?_
          exact sop2Result64_bfe hbfe wide
        · split
          · rename_i hshift
            refine h.right_wide hstep hseen henc (by simp; omega) ha hb fun wide => ?_
            exact sop2Result64_shift hshift wide
          · exact h.right_narrow hstep hseen henc hselect ha hb
  · intro i hin _ _ hnot v hv
    by_cases hover : overlooked inst e i
    · rw [hseen.dest i hover hin] at hv
      cases hv
    rw [hfield, hwidth] at hin
    rw [hfield] at hnot
    refine absurd ?_ hnot
    have hlt : i < sop2Width inst.opcode := by have := hin.2.2; omega
    obtain ⟨m, hpos, -, hfills⟩ : FillsUpTo inst.sdst (sop2WriteDwords inst.opcode)
      (e.updateSop2 inst).writes := fillsUpTo_updateSop2
    rcases sop2Width_cases inst.opcode with hone | ⟨htwo, -⟩
    · exact (hfills _).mpr ⟨hin.1, hin.2.1, by omega⟩
    · rcases Nat.eq_zero_or_pos i with rfl | hi
      · exact (hfills _).mpr ⟨hin.1, hin.2.1, by omega⟩
      · obtain rfl : i = 1 := by omega
        exact (fills_two_updateSop2 henc htwo hover _).mpr ⟨hin.1, hin.2.1, by omega⟩
  · intro hnone hmay
    rw [mayWriteScc, henc] at hmay
    exact updateSop2_scc_none hnone (by simpa using hmay)

/-! ### SOPK and SOPC -/

theorem right_nothing {flag : Option (Option Bool)} (hscc : ∀ c, flag = some (some c) → s'.scc = c) :
    Right s' { writes := [], scc := flag } :=
  ⟨fun _ _ hmem _ => absurd hmem List.not_mem_nil, hscc⟩

theorem Sound.read_of_source (h : Sound e s) {field literal : ℕ} (hfield : field ≤ 127)
    (hv : e.source field literal = some v) : s.read field = v := by
  rw [ScalarEval.source] at hv
  by_cases hnull : field = 125
  · rw [if_pos hnull] at hv
    rw [ScalarState.read, if_pos hnull]
    exact Option.some.inj hv
  · rw [if_neg hnull, if_pos hfield] at hv
    exact h.read hfield hnull hv

theorem sgpr_sopk (hstep : isa.Step guest codeAddr inst s s') (henc : inst.enc = .kSopk)
    (hop : inst.opcode ∈ [0x00, 0x02, 0x0f, 0x10]) (hnull : inst.sdst ≠ 125)
    (hscalar : scalarResult isa guest codeAddr inst s 0 = some v) : s'.sgpr inst.sdst = v := by
  have hgiven := hstep.result 0 v
  rw [show destField inst = inst.sdst from if_neg (by simp [henc]),
    show destWidth inst = sopkWidth inst.opcode by rw [destWidth, henc]] at hgiven
  simp only [List.mem_cons, List.not_mem_nil, or_false] at hop
  have hwidth : sopkWidth inst.opcode = 1 := by
    rcases hop with hop | hop | hop | hop <;> rw [hop] <;> rfl
  refine hgiven ⟨hnull, Nat.le_add_right _ _, by omega⟩ (not_implicitWrites ?_ _) hscalar
  exact .inr (.inr (.inl ⟨henc, by omega, by omega⟩))

theorem Sound.right_sopk (h : Sound e s) (hstep : isa.Step guest codeAddr inst s s')
    (hseen : Seen isa guest inst e s) (henc : inst.enc = .kSopk) : Right s' (e.updateSopk inst) := by
  have hlt := sdst_lt inst
  simp only [ScalarEval.updateSopk]
  by_cases hmove : inst.opcode = 0x00
  · rw [if_pos hmove]
    refine right_one (fun hnull v hv => ?_) fun c hc => by cases hc
    refine sgpr_sopk hstep henc (by simp [hmove]) hnull ?_
    simp only [scalarResult, henc, if_pos hmove]
    exact hv
  rw [if_neg hmove]
  by_cases hcmov : inst.opcode = 0x02
  · rw [if_pos hcmov]
    cases hscc : e.scc with
    | none => exact right_one (fun _ v hv => by cases hv) fun c hc => by cases hc
    | some scc =>
      cases scc with
      | false => exact right_nothing fun c hc => by cases hc
      | true =>
        refine right_one (fun hnull v hv => ?_) fun c hc => by cases hc
        refine sgpr_sopk hstep henc (by simp [hcmov]) hnull ?_
        simp only [scalarResult, henc, if_neg hmove, if_pos hcmov, h.scc true hscc, if_true]
        exact hv
  rw [if_neg hcmov]
  by_cases hcompare : inst.opcode ≥ 0x03 ∧ inst.opcode ≤ 0x0E
  · rw [if_pos hcompare]
    refine right_nothing fun c hc => hstep.resultScc c ?_
    obtain ⟨value, hsource, rfl⟩ := Option.map_eq_some_iff.mp (Option.some.inj hc)
    simp only [sccResult, henc, h.read_of_source (by omega) hsource]
    exact sopkResult_eq hcompare
  rw [if_neg hcompare]
  by_cases harith : inst.opcode = 0x0F ∨ inst.opcode = 0x10
  · rw [if_pos harith]
    have hflag : ∀ c, (if inst.opcode = 0x0F then some none else none : Option (Option Bool)) =
        some (some c) → s'.scc = c := by
      intro c hc
      split at hc
      · cases (Option.some.inj hc : none = some c)
      · cases hc
    cases hsource : e.source inst.sdst 0 with
    | none => exact right_nothing hflag
    | some value =>
      refine right_one (fun hnull v hv => ?_) hflag
      have hread := h.read_of_source (by omega) hsource
      rcases harith with hop | hop
      · refine sgpr_sopk hstep henc (by simp [hop]) hnull ?_
        rw [if_pos hop] at hv
        simp only [scalarResult, henc, if_neg hmove, if_neg hcmov, if_pos hop, hread]
        exact hv
      · have hne : ¬inst.opcode = 0x0f := by omega
        refine sgpr_sopk hstep henc (by simp [hop]) hnull ?_
        rw [if_neg hne] at hv
        simp only [scalarResult, henc, if_neg hmove, if_neg hcmov, if_neg hne, if_pos hop, hread]
        exact hv
  rw [if_neg harith]
  by_cases hget : inst.opcode = 0x12
  · rw [if_pos hget]
    exact right_one (fun hnull => absurd (hseen.getreg henc hget) hnull) fun c hc => by cases hc
  · rw [if_neg hget]
    exact right_nothing fun c hc => by cases hc

theorem Sound.dest_sopk (h : Sound e s) (hstep : isa.Step guest codeAddr inst s s')
    (henc : inst.enc = .kSopk) (hover : ¬overlooked inst e 0)
    (hwidth : sopkWidth inst.opcode = 1) (hnull : inst.sdst ≠ 125)
    (hnot : inst.sdst ∉ (e.updateSopk inst).writes.map Prod.fst) (hv : e.reg inst.sdst = some v) :
    s'.sgpr inst.sdst = v := by
  have hlt := sdst_lt inst
  have hone : ∀ x, inst.sdst ∈ (setDest inst.sdst 0 x).map Prod.fst := fun x =>
    (fills_one _).mpr ⟨hnull, le_rfl, by omega⟩
  have hop : inst.opcode = 0x00 ∨ inst.opcode = 0x02 ∨ inst.opcode = 0x0f ∨ inst.opcode = 0x10 ∨
      inst.opcode = 0x12 := by
    simp only [overlooked, henc, true_and, not_or] at hover
    rw [sopkWidth] at hwidth
    split at hwidth
    · rename_i hmem
      simp only [List.mem_cons, List.not_mem_nil, or_false] at hmem
      omega
    · split at hwidth <;> omega
  rcases hop with hop | hop | hop | hop | hop <;>
    simp only [ScalarEval.updateSopk, hop] at hnot
  · exact absurd (hone _) hnot
  · cases hscc : e.scc with
    | none =>
      rw [hscc] at hnot
      exact absurd (hone _) hnot
    | some scc =>
      cases scc with
      | true =>
        rw [hscc] at hnot
        exact absurd (hone _) hnot
      | false =>
        -- The move is not taken.
        refine (sgpr_sopk hstep henc (by simp [hop]) hnull ?_).trans (h.sgpr _ (by omega) hnull v hv)
        simp [scalarResult, henc, hop, h.scc false hscc]
  · have hsource : e.source inst.sdst 0 = some v := by
      rw [ScalarEval.source, if_neg hnull, if_pos (by omega), hv]
    simp only [hsource] at hnot
    exact absurd (hone _) hnot
  · have hsource : e.source inst.sdst 0 = some v := by
      rw [ScalarEval.source, if_neg hnull, if_pos (by omega), hv]
    simp only [hsource] at hnot
    exact absurd (hone _) hnot
  · exact absurd (hone _) hnot

theorem Sound.step_sopk (h : Sound e s) (hstep : isa.Step guest codeAddr inst s s')
    (hseen : Seen isa guest inst e s) (henc : inst.enc = .kSopk) : Sound (e.step inst guest codeAddr) s' := by
  have hfield : destField inst = inst.sdst := if_neg (by simp [henc])
  have hwidth : destWidth inst = sopkWidth inst.opcode := by rw [destWidth, henc]
  have hu : e.update inst guest codeAddr = e.updateSopk inst := by rw [ScalarEval.update, henc]
  refine h.update hstep hseen hu (h.right_sopk hstep hseen henc) ?_ ?_
  · intro i hin _ hnull hnot v hv
    by_cases hover : overlooked inst e i
    · rw [hseen.dest i hover hin] at hv
      cases hv
    rw [hfield, hwidth] at hin
    rw [hfield] at hnot hv ⊢
    have hone : sopkWidth inst.opcode = 1 := by
      have hlt := hin.2.2
      rw [sopkWidth] at hlt ⊢
      split
      · rfl
      · rename_i hmem
        rw [if_neg hmem] at hlt
        split at hlt
        · rename_i hcall
          exact absurd (.inl ⟨henc, .inl hcall⟩) hover
        · omega
    obtain rfl : i = 0 := by have := hin.2.2; omega
    exact h.dest_sopk hstep henc hover hone hin.1 hnot hv
  · intro hnone hmay
    simp only [mayWriteScc, henc, decide_eq_true_eq] at hmay
    simp only [ScalarEval.updateSopk, if_neg (by omega : ¬inst.opcode = 0x00),
      if_neg (by omega : ¬inst.opcode = 0x02)] at hnone
    split at hnone
    · cases hnone
    · rw [if_pos (by omega)] at hnone
      simp only [if_pos (by omega : inst.opcode = 0x0F)] at hnone
      cases hnone

theorem Sound.step_sopc (h : Sound e s) (hstep : isa.Step guest codeAddr inst s s')
    (hseen : Seen isa guest inst e s) (henc : inst.enc = .kSopc) : Sound (e.step inst guest codeAddr) s' := by
  have hu : e.update inst guest codeAddr = e.updateSopc inst := by rw [ScalarEval.update, henc]
  refine h.update hstep hseen hu (right_nothing fun c hc => hstep.resultScc c ?_) ?_ ?_
  · replace hc := Option.some.inj hc
    simp only [sccResult, henc]
    cases ha : e.source inst.ssrc0 inst.literal with
    | none =>
      rw [ha] at hc
      cases hc
    | some a =>
      cases hb : e.source inst.ssrc1 inst.literal with
      | none =>
        rw [ha, hb] at hc
        cases hc
      | some b =>
        rw [ha, hb] at hc
        dsimp only at hc
        by_cases hpair : inst.opcode = 0x12 ∨ inst.opcode = 0x13
        · rw [if_pos hpair] at hc
          have hconst : ∀ field ∈ [inst.ssrc0, inst.ssrc1], 127 ≤ field →
              isa.pair s field inst.literal = (Rdna.operand isa inst s field, 0) := by
            intro field hfield
            refine hseen.constant field ?_
            simpa only [pairSources, henc, if_pos hpair] using hfield
          cases haHi : e.sourceHi inst.ssrc0 with
          | none =>
            rw [haHi] at hc
            cases hc
          | some aHi =>
            cases hbHi : e.sourceHi inst.ssrc1 with
            | none =>
              rw [haHi, hbHi] at hc
              cases hc
            | some bHi =>
              rw [haHi, hbHi] at hc
              have hequal : (Rdna.operand64 isa inst s inst.ssrc0 = Rdna.operand64 isa inst s inst.ssrc1) ↔
                  (a = b ∧ aHi = bHi) := by
                rw [h.operand64 (hconst _ (by simp)) ha haHi, h.operand64 (hconst _ (by simp)) hb hbHi,
                  widen, widen, Words.toNat_halves, Words.toNat_halves]
                have := a.toNat_lt
                have := b.toNat_lt
                rw [← UInt32.toNat_inj, ← UInt32.toNat_inj]
                omega
              rw [← Option.some.inj hc]
              rcases hpair with hop | hop
              · simp [hop, hequal]
              · simp [hop, hequal]
        · rw [if_neg hpair] at hc
          rw [not_or] at hpair
          rw [if_neg hpair.1, if_neg hpair.2, h.operand ha, h.operand hb]
          exact sopcResult_of_sopcCompare hc
  · intro i hin
    rw [show destWidth inst = 0 by rw [destWidth, henc]] at hin
    have := hin.2.2
    omega
  · intro hnone
    cases hnone

/-! ### SMEM -/

theorem simm21_of_nonneg {w : ℕ} (h : 0 ≤ simm21 w) : simm21 w = ((w &&& 0xFFFFF : ℕ) : ℤ) := by
  have hlow : w &&& 0xFFFFF = w % 2 ^ 20 := Nat.and_two_pow_sub_one_eq_mod w 20
  have hwide : w &&& 0x1FFFFF = w % 2 ^ 21 := Nat.and_two_pow_sub_one_eq_mod w 21
  rw [simm21, hwide] at h ⊢
  rw [hlow]
  split_ifs at h ⊢ <;> omega

theorem Sound.sgpr_of_known (h : Sound e s) {n : ℕ} (hall : e.allKnown d n = true) (hi : i < n)
    (hle : d + i ≤ 127) (hnull : d + i ≠ 125) : e.sgpr (d + i) = s.sgpr (d + i) := by
  rw [ScalarEval.allKnown, decide_eq_true_eq] at hall
  have hknown := List.all_eq_true.mp hall.2 i (List.mem_range.mpr hi)
  obtain ⟨v, hv⟩ := Option.isSome_iff_exists.mp hknown
  rw [ScalarEval.sgpr, hv, h.sgpr _ hle hnull v hv]
  rfl

/-- **A load** that the walk makes reads what the instruction set reads. -/
theorem Sound.loadResult (h : Sound e s) (hseen : Seen isa guest inst e s) (henc : inst.enc = .kSmrd)
    {address : ℕ} (haddress : e.smemAddress inst guest = some address) (hi : i < smemLoadCount inst.opcode) :
    loadResult guest inst s i = guest.dword (address + i * 4) := by
  obtain ⟨hbase, haligned, hbuffer⟩ := hseen.load henc address haddress
  have hop : (decodeSmem inst).op = inst.opcode := rfl
  have hsbase : (decodeSmem inst).sbase ≤ 126 ∧ (decodeSmem inst).sbase % 2 = 0 := by
    have hle : inst.word0 &&& 0x3F ≤ 0x3F := Nat.and_le_right
    have heq : (decodeSmem inst).sbase = (inst.word0 &&& 0x3F) * 2 := rfl
    omega
  have hsoffset : (decodeSmem inst).soffset ≤ 127 := Nat.lt_succ_iff.mp (field_lt _)
  simp only [ScalarEval.smemAddress, hop, decide_eq_true_eq] at haddress
  obtain ⟨hall, haddress⟩ := Option.ite_none_right_eq_some.mp haddress
  obtain ⟨soffset, hoffset, haddress⟩ := Option.bind_eq_some_iff.mp haddress
  have hread := h.read_of_source hsoffset hoffset
  have himmediate : (if inst.opcode ≥ 0x08 then ((inst.word1 &&& 0xFFFFF : ℕ) : ℤ)
      else (decodeSmem inst).offset) = (decodeSmem inst).offset := by
    split_ifs with hbuf
    · exact (simm21_of_nonneg (hbuffer hbuf).1).symm
    · rfl
  rw [himmediate, Words.toNat_aligned, ← hread] at haddress
  obtain ⟨hrange, haddress⟩ := Option.ite_none_left_eq_some.mp haddress
  obtain ⟨-, haddress⟩ := Option.ite_none_right_eq_some.mp haddress
  rw [not_or] at hrange
  -- The base is the one of the registers, and aligned.
  have hptr : e.ptr (decodeSmem inst).sbase = (s.read ((decodeSmem inst).sbase + 1)).toNat % 2 ^ 16 * 2 ^ 32 +
        (s.read (decodeSmem inst).sbase).toNat := by
    have hlow := h.sgpr_of_known hall (i := 0) (by split <;> decide) (by omega) (by omega)
    have hhigh := h.sgpr_of_known hall (i := 1) (by split <;> decide) (by omega) (by omega)
    rw [Nat.add_zero] at hlow
    rw [ScalarEval.ptr, hlow, hhigh, ScalarState.read, ScalarState.read, if_neg (by omega),
      if_neg (by omega), show 0xFFFF = 2 ^ 16 - 1 from rfl, Nat.and_two_pow_sub_one_eq_mod, Nat.or_comm,
      or_shiftLeft (s.sgpr _).toNat_lt]
  have hmultiple : 4 ∣ (s.read (decodeSmem inst).sbase).toNat := by
    rw [ScalarState.read, if_neg (by omega)]
    exact haligned
  simp only [Rdna.loadResult, hop]
  rw [if_neg]
  · congr 1
    rw [← Option.some.inj haddress, hptr]
    have hnonneg := hrange.1
    push_cast at hnonneg ⊢
    omega
  · rintro ⟨hbuf, hout⟩
    have hin := (hbuffer hbuf).2
    omega

theorem Sound.step_smem (h : Sound e s) (hstep : isa.Step guest codeAddr inst s s')
    (hseen : Seen isa guest inst e s) (henc : inst.enc = .kSmrd) : Sound (e.step inst guest codeAddr) s' := by
  have hfield : destField inst = (decodeSmem inst).sdst := if_pos henc
  have hwidth : destWidth inst = smemWidth inst.opcode := by rw [destWidth, henc]
  have hu : e.update inst guest codeAddr = e.updateSmem inst guest := by rw [ScalarEval.update, henc]
  refine h.update hstep hseen hu ⟨?_, fun c hc => by cases hc⟩ ?_ fun _ hmay => ?_
  · intro r v hmem _
    simp only [ScalarEval.updateSmem, List.mem_append] at hmem
    -- A load first forgets its registers, and learns them again if the address is known.
    rcases hmem with hmem | hmem
    · obtain ⟨i, -, hmem⟩ := List.mem_flatMap.mp hmem
      cases (mem_setDest.mp hmem).2.2
    cases haddress : e.smemAddress inst guest with
    | none =>
      rw [haddress] at hmem
      cases hmem
    | some address =>
      rw [haddress] at hmem
      obtain ⟨i, hi, hmem⟩ := List.mem_flatMap.mp hmem
      obtain ⟨hnull, rfl, hv⟩ := mem_setDest.mp hmem
      have hlt : i < smemLoadCount inst.opcode := List.mem_range.mp hi
      have hcount : smemLoadCount inst.opcode ≠ 0 := by omega
      have hgiven := hstep.result i v
      rw [hfield, hwidth, smemWidth, if_pos hcount] at hgiven
      refine hgiven ⟨hnull, Nat.le_add_right _ _, by omega⟩
        (not_implicitWrites (.inr (.inr (.inr henc))) _) ?_
      simp only [scalarResult, henc, if_pos hcount]
      rw [h.loadResult hseen henc haddress hlt, hv]
  · intro i hin _ _ hnot v hv
    by_cases hcount : smemLoadCount inst.opcode = 0
    · -- The time is written behind the walk's back.
      rw [hseen.dest i (.inr (.inl ⟨henc, hcount⟩)) hin] at hv
      cases hv
    · rw [hfield, hwidth, smemWidth, if_pos hcount] at hin
      rw [hfield] at hnot
      exact absurd ((fills_updateSmem _).mpr ⟨hin.1, hin.2.1, hin.2.2⟩) hnot
  · rw [mayWriteScc, henc] at hmay
    cases hmay

/-- **A step** whose effects the walk sees keeps what it knows right. -/
theorem Sound.step (h : Sound e s) (hstep : isa.Step guest codeAddr inst s s')
    (hseen : Seen isa guest inst e s) : Sound (e.step inst guest codeAddr) s' := by
  cases henc : inst.enc with
  | kSop1 => exact h.step_sop1 hstep hseen henc
  | kSop2 => exact h.step_sop2 hstep hseen henc
  | kSopk => exact h.step_sopk hstep hseen henc
  | kSopc => exact h.step_sopc hstep hseen henc
  | kSmrd => exact h.step_smem hstep hseen henc
  | _ =>
    -- The walk steps over the instruction.
    refine h.update hstep hseen (u := {}) (by rw [ScalarEval.update, henc])
      (right_nothing fun c hc => by cases hc) ?_ fun _ hmay => ?_
    · intro i hin
      rw [show destWidth inst = 0 by rw [destWidth, henc]] at hin
      have := hin.2.2
      omega
    · rw [mayWriteScc, henc] at hmay
      cases hmay

end Steps

/-! ## Runs -/

/-- The states of the walk and of the registers behind a straight-line program, from registers that have
what the walk takes them to hold; each of its steps is `ok` in the states before it. -/
inductive ScalarRun (isa : ScalarIsa) (guest : ScalarMemory) (codeAddr : ℕ) (start : ScalarEval)
    (ok : Inst → ScalarEval → ScalarState → Prop) : Program → ScalarEval → ScalarState → Prop where
  | start {s : ScalarState} : (∀ r v, start.reg r = some v → s.sgpr r = v) →
      ScalarRun isa guest codeAddr start ok [] start s
  | step {insts : Program} {e : ScalarEval} {s s' : ScalarState} {inst : Inst} :
      ScalarRun isa guest codeAddr start ok insts e s → isa.Step guest codeAddr inst s s' →
      ok inst e s → ScalarRun isa guest codeAddr start ok (insts ++ [inst])
        (e.step inst guest codeAddr) s'

section Runs

variable {isa : ScalarIsa} {guest : ScalarMemory} {codeAddr : ℕ} {userData : ℕ → UInt32}
  {userSgprs userSgprBase : ℕ} {systemUserDataAddr : UInt64} {program : Program} {e : ScalarEval}
  {s : ScalarState}

theorem Sound.of_run (h : ScalarRun isa guest codeAddr
    (ScalarEval.start userData userSgprs userSgprBase systemUserDataAddr) (Seen isa guest) program e s) :
    Sound e s := by
  induction h with
  | start hdata => exact ⟨fun r _ _ v hv => hdata r v hv, fun b hb => by cases hb⟩
  | step _ hstep hseen ih => exact ih.step hstep hseen

end Runs

/-- An instruction set whose open parts are zero. -/
def plainIsa : ScalarIsa where
  special _ _ := 0
  pair _ field _ :=
    if field ≤ 192 then (.ofNat (field - 128), 0) else (.ofNat (2 ^ 32 - (field - 192)), 0xFFFFFFFF)
  pair_int _ _ _ _ _ := rfl

/-- One user data register, `s8`. -/
def userStart : ScalarEval := ScalarEval.start (fun _ => 1) 1 8 0

def userState : ScalarState := ⟨fun r => (userStart.reg r).getD 0, false⟩

theorem userStart_run (ok : Inst → ScalarEval → ScalarState → Prop) :
    ScalarRun plainIsa ⟨fun _ _ => false, fun _ => 0⟩ 0 userStart ok [] userStart userState := by
  refine .start fun r v hv => ?_
  change (userStart.reg r).getD 0 = v
  rw [hv]
  rfl

/-- The state behind an instruction that gives `s20` a value. -/
def givenState (v : UInt32) : ScalarState := ⟨fun r => if r = 20 then v else userState.sgpr r, false⟩

/-- `s_mov_b32 s20, s8`. -/
def moveInst : Inst := ⟨.kSop1, 0x03, [0xBE940308], 1, 0, false, 0, .kNone⟩

/-- `s_lshl2_add_u32 s20, s8, 0`. -/
def shiftAddInst : Inst := ⟨.kSop2, 0x2f, [0x97948008], 1, 0, false, 0, .kNone⟩

end Prosperity.Rdna
