import Prosperity.Rdna.OperandModifiers

/-!
# SDWA and DPP act on operands and result

An instruction with a modifier is the plain one on the operands that the modifier gives, with the result where
it says. The emitters get that right where the opcode has its sources and its destination as dwords or floats,
and look at every bit of a DPP control but the masks and the signs.
-/

namespace Prosperity.Rdna

open Gcn (Enc)

/-! ## What the modifiers say -/

/-- The bits of a part, extended by zeros or by their sign. -/
def selected (raw : Dword) (sel : ℕ) (sext : Bool) : Dword :=
  if sel ≥ 6 then raw
  else if sext then (raw.extractLsb' (selOff sel) (selBits sel)).signExtend 32
  else (raw.extractLsb' (selOff sel) (selBits sel)).setWidth 32

def signed (half neg abs : Bool) (v : Dword) : Dword :=
  let sign := if half then 0x8000#32 else 0x80000000#32
  let v := if abs then v &&& ~~~sign else v
  if neg then v ^^^ sign else v

/-- The bit `i` of a register that gets the result in a part: the part, the bits above and below it. -/
def placedBit (dstSel dstUnused : ℕ) (result previous : Dword) (i : ℕ) : Bool :=
  if selOff dstSel ≤ i ∧ i < selOff dstSel + selBits dstSel then result.getLsbD (i - selOff dstSel)
  else if dstUnused = 2 then previous.getLsbD i
  else if dstUnused = 1 ∧ selOff dstSel ≤ i then result.getLsbD (selBits dstSel - 1)
  else false

/-- The register that has the bits. -/
def placed (dstSel dstUnused : ℕ) (result previous : Dword) : Dword :=
  if dstSel ≥ 6 then result
  else
    (List.range 32).foldl (fun v i => if placedBit dstSel dstUnused result previous i then v ||| (1#32 <<< i) else v) 0

def dppSelected (ctrl l : ℕ) : Option (Option ℕ) :=
  let n := ctrl % 16
  if ctrl ≤ 0xFF then some (some (l / 4 * 4 + ctrl / 4 ^ (l % 4) % 4))
  else if 0x101 ≤ ctrl ∧ ctrl ≤ 0x10F then some (if l % 16 + n < 16 then some (l + n) else none)
  else if 0x111 ≤ ctrl ∧ ctrl ≤ 0x11F then some (if n ≤ l % 16 then some (l - n) else none)
  else if 0x121 ≤ ctrl ∧ ctrl ≤ 0x12F then some (some (l / 16 * 16 + (l % 16 + 16 - n) % 16))
  else if ctrl = 0x140 then some (some (l / 16 * 16 + (15 - l % 16)))
  else if ctrl = 0x141 then some (some (l / 8 * 8 + (7 - l % 8)))
  else if 0x160 ≤ ctrl ∧ ctrl ≤ 0x16F then some (some (l ^^^ n))
  else none

def dppSource (inst : Inst) (w : Wave) : Operand := fun l =>
  match dppSelected (dppCtrl inst) l with
  | some (some lane) => w.exchange lane (inst.word1 &&& 0xFF)
  | _ => 0#32

def dppEnabled (inst : Inst) (l : Fin 64) : Bool :=
  inst.word1.testBit (28 + l / 16) && inst.word1.testBit (24 + l % 16 / 4)

/-! ## The plain instruction on modified operands -/

def halfSources (inst : Inst) : Bool :=
  match inst.enc with
  | .kVop1 => inst.opcode = 0x0b
  | .kVop2 => vop2Half inst.opcode
  | _ => vopcHalf inst.opcode

def floatResult (inst : Inst) : Bool :=
  let op := inst.opcode
  match inst.enc with
  | .kVop1 =>
    op ∈ [0x05, 0x06, 0x0b, 0x0e, 0x11, 0x12, 0x13, 0x14, 0x33, 0x35, 0x36] || (0x20 ≤ op && op ≤ 0x2e)
  | .kVop2 => op ∈ [0x03, 0x04, 0x05, 0x08, 0x0f, 0x10, 0x1F, 0x20, 0x21, 0x2B, 0x2C, 0x2D]
  | _ => false

/-- The opcode writes the vector register `vdst`. -/
def writesVdst (inst : Inst) : Bool :=
  match inst.enc with
  | .kVop1 => inst.opcode ≠ 0x00 && inst.opcode ≠ 0x02
  | .kVop2 => true
  | _ => false

section Reference

variable (E : ValuOps)

def plainValu (inst : Inst) (compareDst : ℕ) (s0 s1 : Operand) (w : Wave) : Option Wave :=
  match inst.enc with
  | .kVop1 => plainVop1 E inst.opcode inst.vdst inst.raw0 s0 s0 w
  | .kVop2 => vop2Body E inst.opcode inst.vdst inst.literal ⟨s0, s1, s0, s1, s0, s1⟩ w
  | .kVopc => plainVopc E inst.opcode compareDst s0 s1 s0 s1 w
  | _ => none

def sdwaModified (half : Bool) (field sel : ℕ) (sext neg abs : Bool) (w : Wave) : Operand := fun l =>
  signed half neg abs (selected (if half then rdnaF16Bits E field 0 w l else srcRaw E field 0 w l) sel sext)

def outputValue (float : Bool) (omod : ℕ) (clamp : Bool) (v : Dword) : Dword :=
  if float then
    let v := if omod ≠ 0 then E.fmul v (omodFactor omod) else v
    if clamp then E.clamp01 v else v
  else v

def modifiedValu (inst : Inst) (w : Wave) : Option Wave :=
  match inst.extension with
  | .kSdwa =>
    let sd := decodeSdwa inst inst.vsrc1
    let half := halfSources inst
    let s0 := sdwaModified E half sd.src0 sd.src0Sel sd.src0Sext sd.src0Neg sd.src0Abs w
    let s1 := sdwaModified E half sd.src1 sd.src1Sel sd.src1Sext sd.src1Neg sd.src1Abs w
    (plainValu E inst (sdwaCompareDst inst) s0 s1 w).map fun w' =>
      { w' with
        vgpr := fun l r =>
          if writesVdst inst ∧ r = inst.vdst ∧ w.active l then
            placed sd.dstSel sd.dstUnused (outputValue E (floatResult inst) sd.omod sd.clamp (w'.vgpr l r)) (w.vgpr l r)
          else w'.vgpr l r }
  | .kDpp =>
    let half := halfSources inst
    let s0 := fun l => signed half (inst.word1.testBit 20) (inst.word1.testBit 21) (dppSource inst w l)
    let s1 := fun l => signed half (inst.word1.testBit 22) (inst.word1.testBit 23) (w.vgpr l inst.vsrc1)
    (plainValu E inst 106 s0 s1 w).map fun w' =>
      { w' with vgpr := fun l r => if dppEnabled inst l then w'.vgpr l r else w.vgpr l r }
  | _ => none

end Reference

/-! ## The instructions whose modifiers are followed -/

def plainHalf (field : ℕ) (neg abs : Bool) : Bool := !neg && !abs && !(240 ≤ field && field ≤ 248)

def sdwaKept (inst : Inst) : Bool :=
  let sd := decodeSdwa inst inst.vsrc1
  let output := floatResult inst || (sd.omod = 0 && !sd.clamp)
  match inst.enc with
  | .kVop1 =>
    output && (!halfSources inst || plainHalf sd.src0 sd.src0Neg sd.src0Abs) && (writesVdst inst || sd.dstSel = 6)
  | .kVop2 =>
    output &&
      (!halfSources inst || (plainHalf sd.src0 sd.src0Neg sd.src0Abs && plainHalf sd.src1 sd.src1Neg sd.src1Abs)) &&
      ((inst.opcode ≠ 0x20 && inst.opcode ≠ 0x21) || inst.literal = 0)
  | _ => !vopcHalf inst.opcode && vopcServed inst.opcode

def dppKept (inst : Inst) : Bool :=
  (inst.word1 >>> 20) &&& 0xF = 0 && (inst.word1 >>> 24) &&& 0xFF = 0xFF &&
    match inst.enc with
    | .kVop1 => true
    | .kVop2 => inst.opcode ≠ 0x01 && !rdnaSharedVop2 inst.opcode
    | _ => false

def ModifiersKept (inst : Inst) : Prop :=
  (inst.extension = .kSdwa ∧ sdwaKept inst = true) ∨ (inst.extension = .kDpp ∧ dppKept inst = true)

instance (inst : Inst) : Decidable (ModifiersKept inst) := inferInstanceAs (Decidable (_ ∨ _))

/-! ## Parts of registers -/

section Parts

variable {raw result previous v : Dword} {sel i bits : ℕ}

theorem sel_cases (h : sel < 6) :
    (selBits sel = 8 ∧ selOff sel + 8 ≤ 32) ∨ (selBits sel = 16 ∧ selOff sel + 16 ≤ 32) := by
  unfold selBits selOff
  split <;> omega

theorem getLsbD_byteMask (i : ℕ) : (0xFF#32).getLsbD i = decide (i < 8) := by
  by_cases hi : i < 32
  · revert i
    decide
  · rw [BitVec.getLsbD_of_ge _ _ (by omega)]
    simp only [Bool.false_eq, decide_eq_false_iff_not]
    omega

theorem getLsbD_wordMask (i : ℕ) : (0xFFFF#32).getLsbD i = decide (i < 16) := by
  by_cases hi : i < 32
  · revert i
    decide
  · rw [BitVec.getLsbD_of_ge _ _ (by omega)]
    simp only [Bool.false_eq, decide_eq_false_iff_not]
    omega

theorem getLsbD_selMask (h : sel < 6) (i : ℕ) :
    (if selBits sel = 8 then 0xFF#32 else 0xFFFF#32).getLsbD i = decide (i < selBits sel) := by
  rcases sel_cases h with ⟨hbits, -⟩ | ⟨hbits, -⟩
  · rw [if_pos hbits, hbits]
    exact getLsbD_byteMask i
  · rw [if_neg (by omega), hbits]
    exact getLsbD_wordMask i

theorem getLsbD_bitFieldSExtract (hi : i < 32) (hbits : 0 < bits) (hle : bits ≤ 32) :
    (bitFieldSExtract v bits).getLsbD i = if i < bits then v.getLsbD i else v.getLsbD (bits - 1) := by
  unfold bitFieldSExtract
  rw [BitVec.getLsbD_signExtend]
  by_cases hlt : i < bits
  · simp [hi, hlt]
  · rw [if_neg hlt, if_neg hlt, BitVec.msb_setWidth]
    simp [hi, hbits, show bits - 1 < 32 by omega]

/-- **A part is read** as its modifier says. -/
theorem sdwaSelect_eq (raw : Dword) (sel : ℕ) (sext : Bool) : sdwaSelect raw sel sext = selected raw sel sext := by
  unfold sdwaSelect selected
  split
  · rfl
  · rename_i hsel
    have hlt : sel < 6 := by omega
    cases sext with
    | true =>
      rw [if_pos rfl, if_neg (show ¬(!true) = true by decide)]
      unfold bitFieldSExtract
      congr 1
      apply BitVec.eq_of_getLsbD_eq
      intro i hi
      rcases sel_cases hlt with ⟨hbits, hle⟩ | ⟨hbits, hle⟩
      · simp [hi]
      · simp [hi]
    | false =>
      rw [if_neg Bool.false_ne_true, if_pos (show (!false) = true by decide)]
      apply BitVec.eq_of_getLsbD_eq
      intro i hi
      rw [BitVec.getLsbD_and, getLsbD_selMask hlt, BitVec.getLsbD_ushiftRight, BitVec.getLsbD_setWidth,
        BitVec.getLsbD_extractLsb']
      simp [hi, Bool.and_comm]

theorem getLsbD_foldl (p : ℕ → Bool) (n i : ℕ) (hi : i < 32) :
    ((List.range n).foldl (fun (v : Dword) k => if p k then v ||| (1#32 <<< k) else v) 0).getLsbD i =
      (decide (i < n) && p i) := by
  induction n with
  | zero => simp
  | succ n ih =>
    rw [List.range_succ, List.foldl_append, List.foldl_cons, List.foldl_nil]
    have hone : (1#32 <<< n).getLsbD i = decide (i = n) := by
      rw [BitVec.getLsbD_shiftLeft, BitVec.getLsbD_one]
      by_cases heq : i = n
      · simp [heq] at hi ⊢
        exact hi
      · by_cases hlt : i < n
        · simp [hlt, heq]
        · simp [heq, show i - n ≠ 0 by omega]
    by_cases hp : p n
    · rw [if_pos hp, BitVec.getLsbD_or, ih, hone]
      by_cases heq : i = n
      · simp [heq, hp]
      · simp [heq, show i < n + 1 ↔ i < n by omega]
    · rw [if_neg hp, ih]
      by_cases heq : i = n
      · simp [heq, hp]
      · simp [show i < n + 1 ↔ i < n by omega]

/-- **A result is placed** as its modifier says. -/
theorem sdwaResult_eq {dstSel dstUnused : ℕ} (h : dstSel < 6) :
    sdwaResult dstSel dstUnused result previous = placed dstSel dstUnused result previous := by
  apply BitVec.eq_of_getLsbD_eq
  intro i hi
  unfold placed
  rw [if_neg (by omega), getLsbD_foldl _ 32 i hi]
  simp only [hi, decide_true, Bool.true_and]
  have hbits : 0 < selBits dstSel ∧ selOff dstSel + selBits dstSel ≤ 32 := by
    rcases sel_cases h with ⟨hbits, hle⟩ | ⟨hbits, hle⟩ <;> rw [hbits] <;> omega
  have hmask := getLsbD_selMask h
  unfold sdwaResult placedBit
  dsimp only
  -- the value in the part, then the bits of the register before
  have hvalue : ((if dstUnused = 1 then bitFieldSExtract result (selBits dstSel)
      else result &&& if selBits dstSel = 8 then 0xFF#32 else 0xFFFF#32) <<< selOff dstSel).getLsbD i =
      (!decide (i < selOff dstSel) && if i - selOff dstSel < selBits dstSel then result.getLsbD (i - selOff dstSel)
        else decide (dstUnused = 1) && result.getLsbD (selBits dstSel - 1)) := by
    rw [BitVec.getLsbD_shiftLeft]
    simp only [hi, decide_true, Bool.true_and]
    congr 1
    by_cases hone : dstUnused = 1
    · rw [if_pos hone, getLsbD_bitFieldSExtract (by omega) hbits.1 (by omega)]
      simp [hone]
    · rw [if_neg hone, BitVec.getLsbD_and, hmask]
      by_cases hin : i - selOff dstSel < selBits dstSel
      · simp [hin]
      · simp [hin, hone]
  by_cases htwo : dstUnused = 2
  · rw [if_pos htwo, BitVec.getLsbD_or, hvalue, BitVec.getLsbD_and, BitVec.getLsbD_not, BitVec.getLsbD_shiftLeft, hmask]
    subst htwo
    by_cases hlow : i < selOff dstSel
    · simp [hi, hlow, show ¬(selOff dstSel ≤ i) by omega]
    · by_cases hin : i - selOff dstSel < selBits dstSel
      · simp [hi, hlow, hin, show selOff dstSel ≤ i ∧ i < selOff dstSel + selBits dstSel by omega]
      · simp [hi, hlow, hin, show ¬i < selOff dstSel + selBits dstSel by omega]
  · rw [if_neg htwo, hvalue, if_neg htwo]
    by_cases hlow : i < selOff dstSel
    · simp [hlow, show ¬(selOff dstSel ≤ i) by omega]
    · by_cases hin : i - selOff dstSel < selBits dstSel
      · simp [hlow, hin, show selOff dstSel ≤ i ∧ i < selOff dstSel + selBits dstSel by omega]
      · by_cases hone : dstUnused = 1
        · simp [hlow, hin, hone, show ¬i < selOff dstSel + selBits dstSel by omega, show selOff dstSel ≤ i by omega]
        · simp [hlow, hin, hone, show ¬i < selOff dstSel + selBits dstSel by omega]

end Parts

/-! ## Lanes of a row -/

section Lanes

variable {ctrl l : ℕ}

theorem quad_lane (hl : l < 64) :
    (l &&& 0xFFFFFFFC) ||| ((ctrl >>> ((l &&& 3) <<< 1)) &&& 3) = l / 4 * 4 + ctrl / 4 ^ (l % 4) % 4 := by
  have hquad : ∀ l < 64, ∀ s < 4, (l &&& 0xFFFFFFFC) ||| s = l / 4 * 4 + s := by decide +kernel
  have hthree : ∀ n : ℕ, n &&& 3 = n % 4 := fun n => Nat.and_two_pow_sub_one_eq_mod n 2
  have hpow : 2 ^ (l % 4 * 2 ^ 1) = 4 ^ (l % 4) := by
    rw [Nat.mul_comm, Nat.pow_mul]
    exact congrArg (fun b => b ^ (l % 4)) (show 2 ^ 2 ^ 1 = 4 by decide)
  rw [hthree, hthree, hquad l hl _ (Nat.mod_lt _ (by decide)), Nat.shiftRight_eq_div_pow, Nat.shiftLeft_eq, hpow]

theorem dppLane_eq (hctrl : ctrl < 512) (hl : l < 64) : dppSelected ctrl l = (dppLane ctrl).map fun sel =>
        match sel.2 with
        | none => some (sel.1 l)
        | some valid => if valid l then some (sel.1 l) else none := by
  have hamount : ctrl &&& 0xF = ctrl % 16 := Nat.and_two_pow_sub_one_eq_mod ctrl 4
  have hlt : ctrl % 16 < 16 := Nat.mod_lt _ (by decide)
  -- each kind of control over all lanes and amounts
  have hshl : ∀ l < 64, ∀ n < 16, (if l % 16 + n < 16 then some (l + n) else none) =
      if (l &&& 15) < 16 - n then some ((l &&& 0xFFFFFFF0) ||| ((l &&& 15) + n)) else none := by decide +kernel
  have hshr : ∀ l < 64, ∀ n < 16, (if n ≤ l % 16 then some (l - n) else none) =
      if (l &&& 15) ≥ n then some ((l &&& 0xFFFFFFF0) ||| (((l &&& 15) + 2 ^ 32 - n) % 2 ^ 32)) else none := by
    decide +kernel
  have hror : ∀ l < 64, ∀ n < 16, l / 16 * 16 + (l % 16 + 16 - n) % 16 =
      (l &&& 0xFFFFFFF0) ||| if (l &&& 15) ≥ n then ((l &&& 15) + 2 ^ 32 - n) % 2 ^ 32 else (l &&& 15) + (16 - n) := by
    decide +kernel
  have hmirror : ∀ l < 64, l / 16 * 16 + (15 - l % 16) = (l &&& (0xFFFFFFFF - 15)) ||| (15 - (l &&& 15)) := by
    decide +kernel
  have hhalf : ∀ l < 64, l / 8 * 8 + (7 - l % 8) = (l &&& (0xFFFFFFFF - 7)) ||| (7 - (l &&& 7)) := by decide +kernel
  unfold dppSelected dppLane
  dsimp only
  rw [hamount]
  by_cases h₁ : ctrl ≤ 0xFF
  · simp only [if_pos h₁, Option.map_some, quad_lane hl]
  by_cases h₂ : 0x101 ≤ ctrl ∧ ctrl ≤ 0x10F
  · simp only [if_neg h₁, if_pos h₂, Option.map_some, hshl l hl _ hlt, decide_eq_true_eq]
  by_cases h₃ : 0x111 ≤ ctrl ∧ ctrl ≤ 0x11F
  · simp only [if_neg h₁, if_neg h₂, if_pos h₃, Option.map_some, hshr l hl _ hlt, decide_eq_true_eq]
  by_cases h₄ : 0x121 ≤ ctrl ∧ ctrl ≤ 0x12F
  · simp only [if_neg h₁, if_neg h₂, if_neg h₃, if_pos h₄, Option.map_some, hror l hl _ hlt]
  by_cases h₅ : ctrl = 0x140
  · subst h₅
    simp [hmirror l hl]
  by_cases h₆ : ctrl = 0x141
  · subst h₆
    simp [hhalf l hl]
  have h₈ : ¬(ctrl = 0x140 ∨ ctrl = 0x141) := not_or.mpr ⟨h₅, h₆⟩
  by_cases h₇ : 0x160 ≤ ctrl ∧ ctrl ≤ 0x16F
  · simp only [if_neg h₁, if_neg h₂, if_neg h₃, if_neg h₄, if_neg h₅, if_neg h₆, if_pos h₇, if_neg h₈, Option.map_some]
  · simp only [if_neg h₁, if_neg h₂, if_neg h₃, if_neg h₄, if_neg h₅, if_neg h₆, if_neg h₇, if_neg h₈, Option.map_none]

/-- **A lane is read** as the control says. -/
theorem dppSrc0_eq {E : ValuOps} {inst : Inst} {w : Wave} {s0 : Operand} (h : dppSrc0 E inst w = some s0) :
    s0 = dppSource inst w := by
  have hctrl : dppCtrl inst < 512 := Nat.lt_of_le_of_lt Nat.and_le_right (by decide)
  have hlane := fun l : Fin 64 => dppLane_eq hctrl l.isLt
  unfold dppSrc0 at h
  dsimp only at h
  split at h
  · cases h
  · funext l
    have hl := hlane l
    unfold dppSource
    split at h
    · cases h
    · rename_i lane hdpp
      obtain rfl := Option.some.inj h
      rw [hdpp] at hl
      rw [hl]
      rfl
    · rename_i lane valid hdpp
      split at h
      · cases h
      · obtain rfl := Option.some.inj h
        rw [hdpp] at hl
        rw [hl]
        dsimp only [Option.map_some]
        by_cases hvalid : valid l = true
        · rw [if_pos hvalid, if_pos hvalid]
        · rw [if_neg hvalid, if_neg hvalid]

end Lanes

/-! ## Destinations -/

section Destinations

variable {E : ValuOps} {w w₁ : Wave} {vdst r omod : ℕ} {v : Operand} {clamp : Bool}

@[simp] theorem Wave.setVg_sgpr : (w.setVg r v).sgpr = w.sgpr := rfl

@[simp] theorem Wave.setVg_active : (w.setVg r v).active = w.active := rfl

theorem Wave.setVg_vgpr (l : Fin 64) (q : ℕ) :
    (w.setVg r v).vgpr l q = if q = r ∧ w.active l = true then v l else w.vgpr l q := rfl

theorem Wave.setMask_active {flags : Fin 64 → Bool} {wave64 : Bool} : (w.setMask wave64 106 flags).active = w.active := by
  funext l
  have hl : l.val / 32 < 2 := by omega
  unfold Wave.setMask
  cases wave64 <;>
    simp [Wave.active, Wave.flag, Wave.setSg, Function.update_of_ne (show 126 + l.val / 32 ≠ 106 by omega),
      Function.update_of_ne (show 126 + l.val / 32 ≠ 107 by omega)]

@[simp] theorem applyOutput_sgpr : (applyOutput E vdst omod clamp w).sgpr = w.sgpr := by
  unfold applyOutput
  dsimp only
  split <;> split <;> rfl

theorem applyOutput_vgpr (l : Fin 64) (r : ℕ) : (applyOutput E vdst omod clamp w).vgpr l r =
      if r = vdst ∧ w.active l = true then outputValue E true omod clamp (w.vgpr l r) else w.vgpr l r := by
  unfold applyOutput outputValue
  dsimp only
  by_cases hr : r = vdst ∧ w.active l = true
  · obtain ⟨rfl, hactive⟩ := hr
    by_cases homod : omod ≠ 0 <;> cases clamp <;> simp [homod, hactive, Wave.setVg_vgpr]
  · by_cases homod : omod ≠ 0 <;> cases clamp <;> simp [homod, hr, Wave.setVg_vgpr]

theorem applyOutput_id : applyOutput E vdst 0 false w = w := rfl

theorem storeSdwaResult_vgpr {sd : SdwaMod} {previous : Operand} (l : Fin 64) (r : ℕ) :
    (storeSdwaResult vdst sd previous w).vgpr l r =
      if r = vdst ∧ w.active l = true then placed sd.dstSel sd.dstUnused (w.vgpr l r) (previous l) else w.vgpr l r := by
  unfold storeSdwaResult
  split
  · rename_i hsel
    unfold placed
    rw [if_pos hsel]
    split <;> rfl
  · rename_i hsel
    unfold Wave.setVg
    dsimp only
    by_cases hr : r = vdst ∧ w.active l = true
    · rw [if_pos hr, if_pos hr, sdwaResult_eq (by omega), hr.1]
    · rw [if_neg hr, if_neg hr]

@[simp] theorem storeSdwaResult_sgpr {sd : SdwaMod} {previous : Operand} :
    (storeSdwaResult vdst sd previous w).sgpr = w.sgpr := by
  unfold storeSdwaResult
  split <;> rfl

theorem active_of_sgpr (h : w₁.sgpr = w.sgpr) : w₁.active = w.active := by
  funext l
  unfold Wave.active Wave.flag
  rw [h]

/-- **The result belongs** where the modifier says. -/
theorem store_eq {sd : SdwaMod} {float : Bool} (hactive : w₁.active = w.active)
    (hout : float = true ∨ sd.omod = 0 ∧ sd.clamp = false) :
    storeSdwaResult vdst sd (fun l => w.vgpr l vdst) (applyOutput E vdst sd.omod sd.clamp w₁) =
      { w₁ with
        vgpr := fun l r =>
          if r = vdst ∧ w.active l = true then
            placed sd.dstSel sd.dstUnused (outputValue E float sd.omod sd.clamp (w₁.vgpr l r)) (w.vgpr l r)
          else w₁.vgpr l r } := by
  have hvalue : ∀ v, outputValue E true sd.omod sd.clamp v = outputValue E float sd.omod sd.clamp v := by
    intro v
    rcases hout with rfl | ⟨homod, hclamp⟩
    · rfl
    · rw [homod, hclamp]
      cases float <;> rfl
  refine Wave.ext ?_ ?_
  · funext l r
    rw [storeSdwaResult_vgpr, active_of_sgpr applyOutput_sgpr, hactive, applyOutput_vgpr, hactive, hvalue]
    by_cases hr : r = vdst ∧ w.active l = true
    · rw [if_pos hr, if_pos hr]
      dsimp only
      rw [if_pos hr, hr.1]
    · rw [if_neg hr, if_neg hr]
      exact (if_neg hr).symm
  · rw [storeSdwaResult_sgpr, applyOutput_sgpr]

end Destinations

/-! ## Instructions -/

section Instructions

variable {E : ValuOps} {inst : Inst} {w w' : Wave}

theorem sdwaSource_eq {half : Bool} {field sel : ℕ} {sext neg abs : Bool}
    (h : half = false ∨ plainHalf field neg abs = true) :
    sdwaSource E field sel sext neg abs w = sdwaModified E half field sel sext neg abs w := by
  funext l
  unfold sdwaSource sdwaModified
  rw [sdwaSelect_eq]
  rcases h with rfl | hplain
  · -- the sign of a float is bit 31
    have hmask : ~~~0x80000000#32 = 0x7FFFFFFF#32 := by decide
    simp [sdwaFloatMod, signed, hmask]
  · unfold plainHalf at hplain
    simp only [Bool.and_eq_true, Bool.not_eq_true', Bool.and_eq_false_imp, decide_eq_true_eq,
      decide_eq_false_iff_not] at hplain
    obtain ⟨⟨rfl, rfl⟩, hfield⟩ := hplain
    have hconst : ¬(240 ≤ field ∧ field ≤ 248) := fun h => hfield h.1 h.2
    cases half <;> simp [sdwaFloatMod, signed, rdnaF16Bits, hconst]

theorem raw0_of_extension (hdecoded : inst.extension = valuExtension inst.word0) :
    (inst.extension = .kSdwa → inst.raw0 = 249) ∧ (inst.extension = .kDpp → inst.raw0 = 250) := by
  unfold valuExtension at hdecoded
  unfold Inst.raw0
  constructor
  · intro h
    rw [h] at hdecoded
    split at hdecoded <;> first | assumption | cases hdecoded
  · intro h
    rw [h] at hdecoded
    split at hdecoded <;> first | assumption | cases hdecoded

theorem plainVop1_of_shared {op vdst raw0 : ℕ} {s0 : Operand} (h : sharedVop1 E op vdst s0 w = some w') :
    plainVop1 E op vdst raw0 s0 s0 w = some w' := by
  have hknown : vop1Known op = true := by
    unfold sharedVop1 at h
    by_contra hnot
    rw [if_pos (by simpa using hnot)] at h
    cases h
  unfold plainVop1
  rw [if_neg (by rintro rfl; revert hknown; decide), if_neg (by rintro rfl; revert hknown; decide),
    if_neg (by rintro rfl; revert hknown; decide)]
  split <;> exact h

theorem sharedVop1_active {op vdst : ℕ} {s0 : Operand} (hop : op ≠ 0x02) (h : sharedVop1 E op vdst s0 w = some w') :
    w'.active = w.active := by
  unfold sharedVop1 at h
  split at h
  · cases h
  · split at h
    · obtain rfl := Option.some.inj h
      rfl
    · obtain rfl := Option.some.inj h
      rfl

theorem vop2Body_active {op vdst literal : ℕ} {s : Vop2Sources} (h : vop2Body E op vdst literal s w = some w') :
    w'.active = w.active := by
  obtain ⟨r, -, rfl⟩ := Option.map_eq_some_iff.mp h
  split
  · rfl
  · rw [Wave.setMask_active, Wave.setVg_active]

theorem vop2Body_literal {op vdst literal : ℕ} {s : Vop2Sources}
    (h : (op ≠ 0x20 ∧ op ≠ 0x21 ∧ ¬(0x2b ≤ op ∧ op ≤ 0x2d)) ∨ literal = 0) :
    vop2Body E op vdst 0 s w = vop2Body E op vdst literal s w := by
  rcases h with ⟨h20, h21, hfma⟩ | rfl
  · unfold vop2Body vop2Result
    dsimp only
    have hmk : ¬(op = 0x20 ∨ op = 0x2C) := by omega
    have hak : ¬(op = 0x21 ∨ op = 0x2D) := by omega
    simp only [if_neg hmk, if_neg hak]
  · rfl

theorem vop2Body_field {op vdst literal : ℕ} {s0u s1u s0h s1h s0f s1f s0f' s1f' : Operand} (hone : op ≠ 0x01)
    (hshared : rdnaSharedVop2 op = false) : vop2Body E op vdst literal ⟨s0u, s1u, s0h, s1h, s0f, s1f⟩ w =
      vop2Body E op vdst literal ⟨s0u, s1u, s0h, s1h, s0f', s1f'⟩ w := by
  unfold vop2Body vop2Result
  dsimp only
  simp only [if_neg hone, hshared, Bool.false_eq_true, if_false]

theorem srcRaw_register (r literal : ℕ) : srcRaw E (256 + r) literal w = fun l => w.vgpr l r := by
  funext l
  unfold srcRaw
  rw [if_neg (by omega), if_neg (by omega), if_neg (by omega), if_neg (by omega), if_neg (by omega),
    if_neg (by omega), if_pos (by omega), Nat.add_sub_cancel_left]

theorem rdnaF16Bits_register (r literal : ℕ) : rdnaF16Bits E (256 + r) literal w = fun l => w.vgpr l r := by
  unfold rdnaF16Bits
  rw [if_neg (by omega), srcRaw_register]

theorem floatResult_of_no_destination (henc : inst.enc = .kVop1) (hwrites : ¬writesVdst inst = true) :
    floatResult inst = false := by
  unfold writesVdst at hwrites
  rw [henc] at hwrites
  unfold floatResult
  rw [henc]
  have hop : inst.opcode = 0x00 ∨ inst.opcode = 0x02 := by
    by_contra hnot
    refine hwrites ?_
    simp only [ne_eq, Bool.and_eq_true, decide_eq_true_eq]
    exact not_or.mp hnot
  rcases hop with hop | hop <;> rw [hop] <;> rfl

theorem sdwa_modified_vop1 (henc : inst.enc = .kVop1) (hraw : inst.raw0 = 0xF9) (hext : inst.extension = .kSdwa)
    (hkept : sdwaKept inst = true) (h : emitFamily E inst none w = some w') : modifiedValu E inst w = some w' := by
  unfold modifiedValu
  rw [hext]
  dsimp only
  unfold emitFamily at h
  unfold sdwaKept at hkept
  dsimp only at hkept
  rw [henc] at h hkept
  simp only [Bool.and_eq_true, Bool.or_eq_true, Bool.not_eq_true', decide_eq_true_eq] at hkept
  obtain ⟨⟨hout, hhalf⟩, hdst⟩ := hkept
  unfold emitVop1 at h
  dsimp only at h
  rw [if_pos hraw] at h
  split at h
  · cases h
  · obtain ⟨w₁, hshared, rfl⟩ := Option.map_eq_some_iff.mp h
    -- the source fields do not depend on `vsrc1`
    have hhalf₀ : halfSources inst = false ∨
        plainHalf (decodeSdwa inst 0).src0 (decodeSdwa inst 0).src0Neg (decodeSdwa inst 0).src0Abs = true := hhalf
    rw [sdwaSource_eq hhalf₀] at hshared
    have hplain : plainVop1 E inst.opcode inst.vdst inst.raw0
        (sdwaModified E (halfSources inst) (decodeSdwa inst inst.vsrc1).src0 (decodeSdwa inst inst.vsrc1).src0Sel
          (decodeSdwa inst inst.vsrc1).src0Sext (decodeSdwa inst inst.vsrc1).src0Neg
          (decodeSdwa inst inst.vsrc1).src0Abs w)
        (sdwaModified E (halfSources inst) (decodeSdwa inst inst.vsrc1).src0 (decodeSdwa inst inst.vsrc1).src0Sel
          (decodeSdwa inst inst.vsrc1).src0Sext (decodeSdwa inst inst.vsrc1).src0Neg
          (decodeSdwa inst inst.vsrc1).src0Abs w) w = some w₁ := plainVop1_of_shared hshared
    unfold plainValu
    rw [henc]
    dsimp only
    rw [hplain, Option.map_some]
    refine congrArg some ?_
    by_cases hwrites : writesVdst inst = true
    · have hop : inst.opcode ≠ 0x02 := by
        unfold writesVdst at hwrites
        rw [henc] at hwrites
        simp only [ne_eq, Bool.and_eq_true, decide_eq_true_eq] at hwrites
        exact hwrites.2
      have hstore := @store_eq E w w₁ inst.vdst (decodeSdwa inst 0) (floatResult inst)
        (sharedVop1_active hop hshared) hout
      rw [hstore]
      simp only [hwrites, true_and]
      rfl
    · -- no vector destination: nothing is left of the modifier
      have hsel := hdst.resolve_left hwrites
      rw [floatResult_of_no_destination henc hwrites] at hout
      obtain ⟨homod, hclamp⟩ := hout.resolve_left Bool.false_ne_true
      have homod' : (decodeSdwa inst 0).omod = 0 := homod
      have hclamp' : (decodeSdwa inst 0).clamp = false := hclamp
      have hsel' : (decodeSdwa inst 0).dstSel = 6 := hsel
      rw [homod', hclamp', applyOutput_id]
      unfold storeSdwaResult
      rw [if_pos (by omega)]
      simp [hwrites]

theorem sdwa_modified_vop2 (henc : inst.enc = .kVop2) (hraw : inst.raw0 = 0xF9) (hext : inst.extension = .kSdwa)
    (hkept : sdwaKept inst = true) (h : emitFamily E inst none w = some w') : modifiedValu E inst w = some w' := by
  unfold modifiedValu
  rw [hext]
  dsimp only
  unfold emitFamily at h
  unfold sdwaKept at hkept
  dsimp only at hkept
  rw [henc] at h hkept
  simp only [Bool.and_eq_true, Bool.or_eq_true, Bool.not_eq_true', decide_eq_true_eq, ne_eq] at hkept
  obtain ⟨⟨hout, hhalf⟩, hliteral⟩ := hkept
  unfold emitVop2 at h
  dsimp only at h
  rw [if_pos hraw] at h
  split at h
  · cases h
  · rename_i hfma
    split at h
    · cases h
    · obtain ⟨w₁, hbody, rfl⟩ := Option.map_eq_some_iff.mp h
      rw [sdwaSource_eq (hhalf.imp_right And.left), sdwaSource_eq (hhalf.imp_right And.right),
        vop2Body_literal (hliteral.imp_left fun h => ⟨h.1, h.2, hfma⟩)] at hbody
      unfold plainValu
      rw [henc]
      dsimp only
      rw [hbody, Option.map_some, store_eq (vop2Body_active hbody) hout]
      have hwrites : writesVdst inst = true := by
        unfold writesVdst
        rw [henc]
      simp only [hwrites, true_and]

theorem sdwa_modified_vopc (henc : inst.enc = .kVopc) (hext : inst.extension = .kSdwa)
    (hkept : sdwaKept inst = true) (h : emitFamily E inst none w = some w') : modifiedValu E inst w = some w' := by
  unfold modifiedValu
  rw [hext]
  dsimp only
  unfold emitFamily at h
  unfold sdwaKept at hkept
  dsimp only at hkept
  rw [henc] at h hkept
  simp only [Bool.and_eq_true, Bool.not_eq_true'] at hkept
  obtain ⟨hhalf, hserved⟩ := hkept
  have hsources : halfSources inst = false := by
    unfold halfSources
    rw [henc]
    exact hhalf
  unfold emitVopc at h
  dsimp only at h
  rw [if_pos hext] at h
  split at h
  · cases h
  · obtain rfl := Option.some.inj h
    rw [sdwaSource_eq (.inl hsources), sdwaSource_eq (.inl hsources)]
    unfold plainValu plainVopc
    rw [henc]
    dsimp only
    have hwrites : writesVdst inst = false := by
      unfold writesVdst
      rw [henc]
    simp [hhalf, hserved, hwrites]

theorem sdwa_modified (hdecoded : inst.extension = valuExtension inst.word0) (hext : inst.extension = .kSdwa)
    (hkept : sdwaKept inst = true) (h : emitFamily E inst none w = some w') : modifiedValu E inst w = some w' := by
  have hraw := (raw0_of_extension hdecoded).1 hext
  cases henc : inst.enc
  case kVop1 => exact sdwa_modified_vop1 henc hraw hext hkept h
  case kVop2 => exact sdwa_modified_vop2 henc hraw hext hkept h
  case kVopc => exact sdwa_modified_vopc henc hext hkept h
  all_goals
    unfold emitFamily at h
    rw [henc] at h
    cases h

theorem dpp_bits {m : ℕ} (hsigns : (m >>> 20) &&& 0xF = 0) (hmasks : (m >>> 24) &&& 0xFF = 0xFF) :
    (∀ i < 4, m.testBit (20 + i) = false) ∧ ∀ i < 8, m.testBit (24 + i) = true := by
  constructor
  · intro i hi
    have hbit := congrArg (fun n : ℕ => n.testBit i) hsigns
    have hone : ∀ i < 4, (0xF : ℕ).testBit i = true := by decide
    simpa [Nat.testBit_and, Nat.testBit_shiftRight, hone i hi] using hbit
  · intro i hi
    have hbit := congrArg (fun n : ℕ => n.testBit i) hmasks
    have hone : ∀ i < 8, (0xFF : ℕ).testBit i = true := by decide
    simpa [Nat.testBit_and, Nat.testBit_shiftRight, hone i hi] using hbit

theorem dpp_modified {s0 : Operand} (hdecoded : inst.extension = valuExtension inst.word0)
    (hext : inst.extension = .kDpp) (hkept : dppKept inst = true) (hs0 : dppSrc0 E inst w = some s0)
    (h : emitFamily E inst (some s0) w = some w') : modifiedValu E inst w = some w' := by
  have hraw := (raw0_of_extension hdecoded).2 hext
  unfold dppKept at hkept
  simp only [Bool.and_eq_true, decide_eq_true_eq] at hkept
  obtain ⟨⟨hsigns, hmasks⟩, hfamily⟩ := hkept
  obtain ⟨hoff, hon⟩ := dpp_bits hsigns hmasks
  have henabled : ∀ l : Fin 64, dppEnabled inst l = true := by
    intro l
    have hrow := hon (4 + l / 16) (by omega)
    have hbank := hon (l % 16 / 4) (by omega)
    unfold dppEnabled
    rw [show 28 + l.val / 16 = 24 + (4 + l.val / 16) by omega, hrow, hbank]
    rfl
  have hunsigned : ∀ v, signed (halfSources inst) false false v = v := fun v => rfl
  unfold modifiedValu
  rw [hext]
  dsimp only
  rw [hoff 0 (by decide), hoff 1 (by decide), hoff 2 (by decide), hoff 3 (by decide)]
  simp only [hunsigned, henabled, if_true]
  obtain rfl := dppSrc0_eq hs0
  have hplain : plainValu E inst 106 (dppSource inst w) (fun l => w.vgpr l inst.vsrc1) w = some w' := by
    unfold emitFamily at h
    unfold plainValu
    cases henc : inst.enc
    case kVop1 =>
      rw [henc] at h
      exact plainVop1_of_shared h
    case kVop2 =>
      rw [henc] at h hfamily
      simp only [ne_eq, Bool.and_eq_true, decide_eq_true_eq, Bool.not_eq_true'] at hfamily
      unfold emitVop2 at h
      dsimp only at h
      rw [if_neg (by omega), srcRaw_register, rdnaF16Bits_register, Option.getD_some] at h
      rw [← h]
      exact vop2Body_field hfamily.1 hfamily.2
    all_goals rw [henc] at h hfamily; cases hfamily
  rw [hplain, Option.map_some]

/-- **SDWA and DPP act on operands and result alone**: where their modifiers are followed, what is emitted is the
plain instruction on the modified operands. -/
theorem modifiers_act_on_operands (E : ValuOps) (inst : Inst) (w w' : Wave)
    (hdecoded : inst.extension = valuExtension inst.word0) (hemit : emitValu E inst w = some w')
    (hkept : ModifiersKept inst) : modifiedValu E inst w = some w' := by
  unfold emitValu at hemit
  rcases hkept with ⟨hext, hkept⟩ | ⟨hext, hkept⟩
  · rw [hext] at hemit
    dsimp only at hemit
    split at hemit
    · cases hemit
    · exact sdwa_modified hdecoded hext hkept hemit
  · rw [hext] at hemit
    dsimp only at hemit
    obtain ⟨s0, hs0, hfamily⟩ := Option.bind_eq_some_iff.mp hemit
    exact dpp_modified hdecoded hext hkept hs0 hfamily

end Instructions

/-! ## Two instructions -/

/-- A sum with zero, and nothing else. -/
def plainOps : ValuOps where
  unary _ a := a
  binary _ _ a b := if b = 0#32 then a else b
  compare _ _ _ a b := a = b
  firstLane _ s := s ⟨0, Nat.zero_lt_succ 63⟩
  special _ _ := 0#32
  fadd a b := if b = 0#32 then a else b
  fsub a _ := a
  fmul a _ := a
  fma a _ _ := a
  nmax a _ := a
  nmin a _ := a
  ldexp a _ := a
  clamp01 a := a
  unpackHalf a := a
  packHalf a := a
  wave64 := true
  subgroup := true

/-- All lanes are active; `v0` is marked, `v1` holds 1.0. -/
def markedWave : Wave where
  vgpr _ r := if r = 0 then 0xAAAA5555#32 else if r = 1 then 0x3F800000#32 else 0#32
  sgpr r := if r = 126 ∨ r = 127 then 0xFFFFFFFF#32 else 0#32

/-- `v_add_nc_u32_sdwa v0, v1, v2` of the highest byte of `v1`, into the high word. -/
def addSdwa : Inst := ⟨.kVop2, 0x25, [0x4A0004F9, 0x06031501], 2, 0, false, 0, .kSdwa⟩

/-- The byte goes to the high word, and the low one stays. -/
theorem modifiers_act_on_operands_byte :
    (modifiedValu plainOps addSdwa markedWave).map (fun w => w.vgpr 0 0) = some 0x003F5555#32 := by
  have hvalue : (emitValu plainOps addSdwa markedWave).map (fun w => w.vgpr 0 0) = some 0x003F5555#32 := by
    decide +kernel
  obtain ⟨w', hemit, hw'⟩ := Option.map_eq_some_iff.mp hvalue
  rw [modifiers_act_on_operands plainOps addSdwa markedWave w' (by decide) hemit (by decide), Option.map_some, hw']

/-- `v_add_f32_dpp v0, v1, v2` of the lane to the left, with BOUND_CTRL. -/
def addDpp : Inst := ⟨.kVop2, 0x03, [0x060004FA, 0xFF091101], 2, 0, false, 0, .kDpp⟩

/-- The shared emitter adds zero in the place of the other lane. -/
theorem modifiers_lost : ¬∀ (E : ValuOps) (inst : Inst) (w w' : Wave),
    inst.extension = valuExtension inst.word0 → inst.extension = .kSdwa ∨ inst.extension = .kDpp →
      emitValu E inst w = some w' → modifiedValu E inst w = some w' := by
  intro hall
  have hzero : (emitValu plainOps addDpp markedWave).map (fun w => w.vgpr 1 0) = some 0#32 := by decide +kernel
  have hone : (modifiedValu plainOps addDpp markedWave).map (fun w => w.vgpr 1 0) = some 0x3F800000#32 := by
    decide +kernel
  obtain ⟨w', hemit, hw'⟩ := Option.map_eq_some_iff.mp hzero
  rw [hall plainOps addDpp markedWave w' (by decide) (.inr rfl) hemit, Option.map_some, hw'] at hone
  exact absurd hone (by decide)

end Prosperity.Rdna
