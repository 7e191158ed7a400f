import Mathlib.Data.Fintype.Basic
import Mathlib.Tactic.FinCases
import Prosperity.Cpu.Mmio
import Prosperity.Foundations.Words

/-!
# The emulated stores are stores

A store that the handler takes is the whole effect of the instruction at the program counter: the bytes there
encode it, the address and the value reported are its own, and the program counter goes on by its length. Any
other call leaves the context as it was.
-/

namespace Prosperity.Cpu

/-- The call is refused and leaves the context, or it reports the effect of an instruction that `Encoded` holds of
and leaves what `advance` makes of the context. -/
def Emulates {ρ ω : Type} (h : Handled ρ) (context : ρ) (Encoded : ω → UInt64 × UInt32 → Prop) (advance : ω → ρ) : Prop :=
  (h.taken = false ∧ h.context = context) ∨
    (h.taken = true ∧ ∃ word store, Encoded word store ∧ h.reports = [store] ∧ h.context = advance word)

theorem finish_cases {ρ : Type} (context advanced : ρ) (target address : UInt64) (value : UInt32)
    (write : UInt64 → UInt32 → Bool) : ((finish context advanced target address value write).taken = false ∧
        (finish context advanced target address value write).context = context) ∨
      ((finish context advanced target address value write).taken = true ∧
        (finish context advanced target address value write).reports = [(target, value)] ∧
        (finish context advanced target address value write).context = advanced) := by
  unfold finish
  split_ifs with hne htaken
  · exact .inl ⟨rfl, rfl⟩
  · rw [ne_eq, not_not] at hne
    exact .inr ⟨rfl, by rw [hne], rfl⟩
  · exact .inl ⟨rfl, rfl⟩

namespace X86

open Prosperity.X86

def codeBytes (code : ℕ → UInt8) (at_ n : ℕ) : List UInt8 := (List.range n).map fun i => code (at_ + i)

/-! ## Bytes and their fields -/

theorem exists_modrm (m : UInt8) : ∃ mod reg rm, m = modrm mod reg rm := by
  refine ⟨.ofNat 4 (m.toNat / 64), .ofNat 8 (m.toNat / 8), .ofNat 8 m.toNat, ?_⟩
  have hlt : m.toNat < 256 := m.toNat_lt
  rw [modrm, ← UInt8.toNat_inj, UInt8.toNat_ofNat']
  simp only [Fin.val_ofNat]
  omega

theorem exists_sib (m : UInt8) : ∃ scale index base, m = sib scale index base := exists_modrm m

@[simp] theorem modrm_shiftRight (mod : Fin 4) (reg rm : Fin 8) : modrm mod reg rm >>> 6 = .ofNat mod := by
  revert mod reg rm
  decide

@[simp] theorem modrm_reg (mod : Fin 4) (reg rm : Fin 8) : (modrm mod reg rm >>> 3) &&& 7 = .ofNat reg := by
  revert mod reg rm
  decide

@[simp] theorem modrm_rm (mod : Fin 4) (reg rm : Fin 8) : modrm mod reg rm &&& 7 = .ofNat rm := by
  revert mod reg rm
  decide

@[simp] theorem sib_shiftRight (scale : Fin 4) (index base : Fin 8) : sib scale index base >>> 6 = .ofNat scale :=
  modrm_shiftRight scale index base

@[simp] theorem sib_index (scale : Fin 4) (index base : Fin 8) : (sib scale index base >>> 3) &&& 7 = .ofNat index :=
  modrm_reg scale index base

@[simp] theorem sib_base (scale : Fin 4) (index base : Fin 8) : sib scale index base &&& 7 = .ofNat base :=
  modrm_rm scale index base

theorem modrm_opcode (mod : Fin 4) (reg rm : Fin 8) : modrm mod reg rm &&& 0x38 = 0 ↔ reg = 0 := by
  revert mod reg rm
  decide

theorem toUInt8_inj {n : ℕ} (h : n ≤ 256) (a b : Fin n) : UInt8.ofNat a = UInt8.ofNat b ↔ a = b := by
  rw [← UInt8.toNat_inj, UInt8.toNat_ofNat_of_lt' (Nat.lt_of_lt_of_le a.isLt h),
    UInt8.toNat_ofNat_of_lt' (Nat.lt_of_lt_of_le b.isLt h), Fin.ext_iff]

theorem toUInt64_scale (scale : Fin 4) : (UInt8.ofNat scale).toUInt64 = .ofNat scale := by
  revert scale
  decide

theorem register_ext (s : Regs) (bit : Bool) (r : Fin 8) :
    register s (.ofNat r ||| if bit = true then 8 else 0) = s.gpr (ext bit r) := by
  have hnum : Fin.ofNat 16 (UInt8.ofNat r ||| if bit = true then 8 else 0).toNat = ext bit r := by
    revert bit r
    decide
  exact congrArg s.gpr hnum

theorem index_eq_four (bit : Bool) (r : Fin 8) :
    (UInt8.ofNat r ||| if bit = true then 8 else 0) = 4 ↔ ext bit r = 4 := by
  revert bit r
  decide

theorem exists_rexByte (c : UInt8) (hrex : c &&& 0xF0 = 0x40) (hw : c &&& 8 = 0) : ∃ r x b, c = rexByte r x b := by
  obtain ⟨mod, reg, rm, rfl⟩ := exists_modrm c
  revert hw hrex mod reg rm
  decide

structure RexBits (rex : UInt8) (r x b : Bool) : Prop where
  r : rex &&& 4 ≠ 0 ↔ r = true
  x : rex &&& 2 ≠ 0 ↔ x = true
  b : rex &&& 1 ≠ 0 ↔ b = true

theorem rexBits_rexByte (r x b : Bool) : RexBits (rexByte r x b) r x b := by
  constructor <;> revert r x b <;> decide

theorem rexBits_zero : RexBits 0 false false false := by constructor <;> decide

/-! ## Operands -/

def Target.Is (t : Target) (s : Regs) (m : Mem) : Prop :=
  ∀ length, m.address s length = if t.ripRelative then t.target + (s.rip + .ofNat length) else t.target

section Operand

variable {s : Regs} {code : ℕ → UInt8} {rex : UInt8} {r x b : Bool} {mod : Fin 4} {reg rm : Fin 8} {at_ : ℕ}

theorem modrmTarget_reg (hrex : RexBits rex r x b) (hrm : rm ≠ 4) (hrip : ¬(mod = 0 ∧ rm = 5)) :
    modrmTarget s code rex (modrm mod reg rm) at_ = ⟨s.gpr (ext b rm), mod = 2, false, at_⟩ := by
  have hrm' : ¬UInt8.ofNat rm = 4 := mt (toUInt8_inj (by decide) rm 4).mp hrm
  have hrip' : ¬(UInt8.ofNat mod = 0 ∧ UInt8.ofNat rm = 5) := fun h =>
    hrip ⟨(toUInt8_inj (by decide) mod 0).mp h.1, (toUInt8_inj (by decide) rm 5).mp h.2⟩
  have htwo : (UInt8.ofNat mod = 2) = (mod = 2) := propext (toUInt8_inj (by decide) mod 2)
  simp only [modrmTarget, modrm_shiftRight, modrm_rm, hrex.b, if_neg hrm', if_neg hrip', register_ext, htwo]

theorem modrmTarget_rip : modrmTarget s code rex (modrm 0 reg 5) at_ = ⟨0, true, true, at_⟩ := by
  simp only [modrmTarget, modrm_shiftRight, modrm_rm]
  rfl

def scaled (s : Regs) (x : Bool) (index : Fin 8) (scale : Fin 4) : UInt64 :=
  match indexOf x index scale with
  | none => 0
  | some (r, scale) => s.gpr r <<< .ofNat scale

theorem modrmTarget_sib (hrex : RexBits rex r x b) {scale : Fin 4} {index base : Fin 8}
    (hsib : code at_ = sib scale index base) : modrmTarget s code rex (modrm mod reg 4) at_ =
      if mod = 0 ∧ base = 5 then ⟨scaled s x index scale, true, false, at_ + 1⟩
      else ⟨scaled s x index scale + s.gpr (ext b base), mod = 2, false, at_ + 1⟩ := by
  have hmod : ∀ n : Fin 4, (UInt8.ofNat mod = UInt8.ofNat n) = (mod = n) := fun n =>
    propext (toUInt8_inj (by decide) mod n)
  have hzero : (UInt8.ofNat mod = 0) = (mod = 0) := hmod 0
  have htwo : (UInt8.ofNat mod = 2) = (mod = 2) := hmod 2
  have hbase : (UInt8.ofNat base = 5) = (base = 5) := propext (toUInt8_inj (by decide) base 5)
  have hindex : (if (UInt8.ofNat index ||| if x = true then 8 else 0) ≠ 4 then
      s.gpr (ext x index) <<< UInt64.ofNat scale else 0) = scaled s x index scale := by
    have hfour := index_eq_four x index
    unfold scaled indexOf
    by_cases h : ext x index = 4
    · rw [if_neg (not_not.mpr (hfour.mpr h)), if_pos h]
    · rw [if_pos (mt hfour.mp h), if_neg h]
  have hrm : UInt8.ofNat (4 : Fin 8) = 4 := rfl
  simp only [modrmTarget, modrm_shiftRight, modrm_rm, hrm, if_true, hsib, sib_shiftRight, sib_index, sib_base,
    hrex.x, hrex.b, toUInt64_scale, register_ext, hindex, hzero, htwo, hbase]

theorem address_sib (s : Regs) (base : Base) (x : Bool) (index : Fin 8) (scale : Fin 4) (d : UInt64) (length : ℕ) :
    (⟨base, indexOf x index scale, d⟩ : Mem).address s length =
      (match base with
        | .none => 0
        | .reg r => s.gpr r
        | .rip => s.rip + .ofNat length) + scaled s x index scale + d := rfl

theorem displaced_none (t : UInt64) (rip : Bool) (n : ℕ) :
    displaced code (.ofNat (0 : Fin 4)) ⟨t, (0 : Fin 4) = 2, rip, n⟩ = ⟨t, false, rip, n⟩ := rfl

theorem displaced_8 (t : UInt64) (rip : Bool) (n : ℕ) :
    displaced code (.ofNat (1 : Fin 4)) ⟨t, (1 : Fin 4) = 2, rip, n⟩ = ⟨t + disp8 (code n), false, rip, n + 1⟩ := rfl

theorem displaced_32 (t : UInt64) (rip : Bool) (n : ℕ) :
    displaced code (.ofNat (2 : Fin 4)) ⟨t, (2 : Fin 4) = 2, rip, n⟩ =
      ⟨t + disp32 (code32 code n), true, rip, n + 4⟩ := rfl

theorem displaced_no_base (t : UInt64) (rip : Bool) (n : ℕ) :
    displaced code (.ofNat (0 : Fin 4)) ⟨t, true, rip, n⟩ = ⟨t + disp32 (code32 code n), true, rip, n + 4⟩ := rfl

/-- **The operand that the decoder reads** is encoded by the bytes that it takes. -/
theorem exists_operand (hrex : RexBits rex r x b) (hmod : mod ≠ 3) (hcode : code at_ = modrm mod reg rm) :
    ∃ n m, EncodesMem x b reg (codeBytes code at_ n) m ∧
      (displaced code (.ofNat mod) (modrmTarget s code rex (modrm mod reg rm) (at_ + 1))).length = at_ + n ∧
      (displaced code (.ofNat mod) (modrmTarget s code rex (modrm mod reg rm) (at_ + 1))).Is s m := by
  have hmods : ∀ mod : Fin 4, mod ≠ 3 → mod = 0 ∨ mod = 1 ∨ mod = 2 := by decide
  by_cases hrm : rm = 4
  · subst hrm
    obtain ⟨scale, index, base, hsib⟩ := exists_sib (code (at_ + 1))
    rw [modrmTarget_sib hrex hsib]
    by_cases hnone : mod = 0 ∧ base = 5
    · obtain ⟨rfl, rfl⟩ := hnone
      have henc := @EncodesMem.sibNoBase x b reg scale index (code (at_ + 2)) (code (at_ + 3))
        (code (at_ + 4)) (code (at_ + 5))
      rw [← hcode, ← hsib] at henc
      rw [if_pos ⟨rfl, rfl⟩, displaced_no_base]
      refine ⟨6, _, henc, rfl, fun length => (address_sib ..).trans ?_⟩
      exact congrArg (· + _) (UInt64.zero_add _)
    · rw [if_neg hnone]
      rcases hmods mod hmod with rfl | rfl | rfl
      · have henc := @EncodesMem.sib x b reg scale index base fun h => hnone ⟨rfl, h⟩
        rw [← hcode, ← hsib] at henc
        rw [displaced_none]
        refine ⟨2, _, henc, rfl, fun length => (address_sib ..).trans ?_⟩
        exact (UInt64.add_zero _).trans (UInt64.add_comm _ _)
      · have henc := @EncodesMem.sib8 x b reg scale index base (code (at_ + 2))
        rw [← hcode, ← hsib] at henc
        rw [displaced_8]
        refine ⟨3, _, henc, rfl, fun length => (address_sib ..).trans ?_⟩
        exact congrArg (· + _) (UInt64.add_comm _ _)
      · have henc := @EncodesMem.sib32 x b reg scale index base (code (at_ + 2)) (code (at_ + 3)) (code (at_ + 4))
          (code (at_ + 5))
        rw [← hcode, ← hsib] at henc
        rw [displaced_32]
        refine ⟨6, _, henc, rfl, fun length => (address_sib ..).trans ?_⟩
        exact congrArg (· + _) (UInt64.add_comm _ _)
  · by_cases hrip : mod = 0 ∧ rm = 5
    · obtain ⟨rfl, rfl⟩ := hrip
      have henc := @EncodesMem.rip x b reg (code (at_ + 1)) (code (at_ + 2)) (code (at_ + 3)) (code (at_ + 4))
      rw [← hcode] at henc
      rw [modrmTarget_rip, displaced_no_base]
      refine ⟨5, _, henc, rfl, fun length => ?_⟩
      change s.rip + .ofNat length + 0 + disp32 _ = 0 + disp32 _ + (s.rip + .ofNat length)
      rw [UInt64.add_zero, UInt64.zero_add]
      exact UInt64.add_comm _ _
    · rw [modrmTarget_reg hrex hrm hrip]
      rcases hmods mod hmod with rfl | rfl | rfl
      · have henc := @EncodesMem.base x b reg rm hrm fun h => hrip ⟨rfl, h⟩
        rw [← hcode] at henc
        rw [displaced_none]
        refine ⟨1, _, henc, rfl, fun length => ?_⟩
        exact (UInt64.add_zero _).trans (UInt64.add_zero _)
      · have henc := @EncodesMem.base8 x b reg rm (code (at_ + 1)) hrm
        rw [← hcode] at henc
        rw [displaced_8]
        exact ⟨2, _, henc, rfl, fun length => congrArg (· + _) (UInt64.add_zero _)⟩
      · have henc := @EncodesMem.base32 x b reg rm (code (at_ + 1)) (code (at_ + 2)) (code (at_ + 3)) (code (at_ + 4)) hrm
        rw [← hcode] at henc
        rw [displaced_32]
        exact ⟨5, _, henc, rfl, fun length => congrArg (· + _) (UInt64.add_zero _)⟩

end Operand

/-! ## Instructions -/

theorem codeBytes_add (code : ℕ → UInt8) (at_ n k : ℕ) :
    codeBytes code at_ (n + k) = codeBytes code at_ n ++ codeBytes code (at_ + n) k := by
  rw [codeBytes, List.range_add, List.map_append, List.map_map]
  congr 1
  exact List.map_congr_left fun i _ => congrArg code (Nat.add_assoc ..).symm

@[simp] theorem length_codeBytes (code : ℕ → UInt8) (at_ n : ℕ) : (codeBytes code at_ n).length = n := by
  rw [codeBytes, List.length_map, List.length_range]

def Stores (s : Regs) (code : ℕ → UInt8) (bytes : List UInt8) (store : UInt64 × UInt32) : Prop :=
  bytes = codeBytes code 0 bytes.length ∧ ∃ i, Encodes bytes i ∧ store = i.effect s bytes.length

/-- The context behind the instruction. -/
def advance (s : Regs) (bytes : List UInt8) : Regs := { s with rip := s.rip + .ofNat bytes.length }

section Instruction

variable {s : Regs} {code : ℕ → UInt8} {address : UInt64} {write : UInt64 → UInt32 → Bool}

theorem finish_emulates {n : ℕ} {i : Store} (h : Encodes (codeBytes code 0 n) i) :
    Emulates (finish s { s with rip := s.rip + .ofNat n } (i.mem.address s n) address (i.source.value s) write) s
      (Stores s code) (advance s) := by
  rcases finish_cases s { s with rip := s.rip + .ofNat n } (i.mem.address s n) address (i.source.value s) write with
    hrefused | ⟨htaken, hreports, hcontext⟩
  · exact .inl hrefused
  · refine .inr ⟨htaken, codeBytes code 0 n, _, ⟨?_, i, h, ?_⟩, hreports, ?_⟩
    · rw [length_codeBytes]
    · rw [length_codeBytes]
      rfl
    · rw [hcontext, advance, length_codeBytes]

/-- **The decoder from the opcode on**, behind the bytes of the prefix. -/
theorem handleOpcode_emulates {rex : UInt8} {r x b : Bool} {n : ℕ} (hbits : RexBits rex r x b)
    (hfront : EncodesRex (codeBytes code 0 n) r x b) :
    Emulates (handleOpcode s code rex n address write) s (Stores s code) (advance s) := by
  unfold handleOpcode
  dsimp only
  by_cases hop : code n ≠ 0x89 ∧ code n ≠ 0xC7
  · rw [if_pos hop]
    exact .inl ⟨rfl, rfl⟩
  by_cases hmodrm : code (n + 1) >>> 6 = 3 ∨ (code n = 0xC7 ∧ code (n + 1) &&& 0x38 ≠ 0)
  · rw [if_neg hop, if_pos hmodrm]
    exact .inl ⟨rfl, rfl⟩
  rw [if_neg hop, if_neg hmodrm]
  obtain ⟨mod, reg, rm, hcode⟩ := exists_modrm (code (n + 1))
  rw [hcode] at hmodrm ⊢
  rw [not_or, not_and, not_ne_iff, modrm_shiftRight, modrm_opcode] at hmodrm
  obtain ⟨k, m, henc, hlength, htarget⟩ := exists_operand (s := s) hbits
    (fun h => hmodrm.1 ((toUInt8_inj (by decide) mod 3).mpr h)) hcode
  rw [modrm_shiftRight]
  change (displaced code _ (modrmTarget s code rex _ (n + 2))).length = _ at hlength
  change Target.Is (displaced code _ (modrmTarget s code rex _ (n + 2))) s m at htarget
  generalize displaced code (.ofNat mod) (modrmTarget s code rex (modrm mod reg rm) (n + 2)) = t at hlength htarget ⊢
  have hbytes : codeBytes code 0 (n + 1 + k) = codeBytes code 0 n ++ code n :: codeBytes code (n + 1) k := by
    rw [codeBytes_add, codeBytes_add, List.append_assoc]
    simp [codeBytes]
  unfold storedValue
  by_cases himm : code n = 0xC7
  · -- a constant follows the operand
    obtain rfl : reg = 0 := hmodrm.2 himm
    have hall : codeBytes code 0 (n + 1 + k + 4) = codeBytes code 0 n ++ 0xC7 :: (codeBytes code (n + 1) k ++
        [code t.length, code (t.length + 1), code (t.length + 2), code (t.length + 3)]) := by
      rw [codeBytes_add, hbytes, himm, hlength, List.append_assoc, List.cons_append]
      simp [codeBytes, List.range_succ]
    have hstore := Encodes.imm (code t.length) (code (t.length + 1)) (code (t.length + 2)) (code (t.length + 3)) hfront henc
    rw [← hall] at hstore
    rw [if_pos himm]
    dsimp only
    rw [← htarget (t.length + 4), hlength]
    rw [hlength] at hstore
    exact @finish_emulates s code address write (n + 1 + k + 4) ⟨m, .imm (code32 code (n + 1 + k))⟩ hstore
  · -- the opcode is that of a register
    have hreg : code n = 0x89 := Classical.byContradiction fun h => hop ⟨h, himm⟩
    have hstore := Encodes.reg hfront henc
    rw [← hreg, ← hbytes] at hstore
    rw [if_neg himm]
    dsimp only
    rw [← htarget t.length, hlength, modrm_reg]
    have hr : (if rex &&& 4 ≠ 0 then 8 else 0 : UInt8) = if r = true then 8 else 0 := by
      simp only [hbits.r]
    rw [hr, register_ext]
    exact @finish_emulates s code address write (n + 1 + k) ⟨m, .reg (ext r reg)⟩ hstore

/-- **Every call** on x86-64 is refused, or does what the instruction at the program counter does. -/
theorem emulates : Emulates (handleMmioWrite s code address write) s (Stores s code) (advance s) := by
  unfold handleMmioWrite
  by_cases hrex : code 0 &&& 0xF0 = 0x40
  · by_cases hw : code 0 &&& 8 = 0
    · obtain ⟨r, x, b, hbyte⟩ := exists_rexByte (code 0) hrex hw
      have hfront := EncodesRex.rex r x b
      rw [← hbyte] at hfront
      have hbits := rexBits_rexByte r x b
      rw [← hbyte] at hbits
      rw [if_pos hrex, if_neg (not_not.mpr hw)]
      exact handleOpcode_emulates hbits hfront
    · rw [if_pos hrex, if_pos hw]
      exact .inl ⟨rfl, rfl⟩
  · rw [if_neg hrex]
    exact handleOpcode_emulates rexBits_zero EncodesRex.none

end Instruction

end X86

namespace A64

open Prosperity.A64

theorem high_of_and {w mask v : UInt32} {k n : ℕ} (hmask : mask.toNat = (2 ^ n - 1) <<< k) (h : w &&& mask = v) :
    w.toNat / 2 ^ k % 2 ^ n * 2 ^ k = v.toNat := by
  rw [← Words.and_field, ← hmask, ← UInt32.toNat_and, h]

section Fields

variable (w : UInt32)

theorem toNat_source : (w &&& 31).toNat = w.toNat % 32 := Words.toNat_and32 w (k := 5) rfl

theorem toNat_base : ((w >>> 5) &&& 31).toNat = w.toNat / 32 % 32 := by
  rw [Words.toNat_and32 _ (k := 5) rfl, UInt32.toNat_shiftRight, Nat.shiftRight_eq_div_pow]
  rfl

theorem scaledOffset : (((w >>> 10) &&& 0xFFF) * 4).toUInt64 = .ofNat (4 * (BitVec.ofNat 12 (w.toNat / 2 ^ 10)).toNat) := by
  have himm : ((w >>> 10) &&& 0xFFF).toNat = w.toNat / 2 ^ 10 % 2 ^ 12 := by
    rw [Words.toNat_and32 _ (k := 12) rfl, UInt32.toNat_shiftRight, Nat.shiftRight_eq_div_pow]
    rfl
  rw [← UInt64.toNat_inj, UInt32.toNat_toUInt64, UInt32.toNat_mul, himm, BitVec.toNat_ofNat, UInt64.toNat_ofNat']
  change _ * 4 % 2 ^ 32 = _
  omega

theorem signedOffset : ((w <<< 11).toInt32 >>> 23).toInt64.toUInt64 =
    .ofBitVec ((BitVec.ofNat 9 (w.toNat / 2 ^ 12)).signExtend 64) := by
  rw [← UInt64.toBitVec_inj]
  change ((w <<< 11).toInt32 >>> 23).toBitVec.signExtend 64 = (BitVec.ofNat 9 (w.toNat / 2 ^ 12)).signExtend 64
  apply BitVec.eq_of_toInt_eq
  rw [BitVec.toInt_signExtend_of_le (by decide), BitVec.toInt_signExtend_of_le (by decide), Int32.toBitVec_shiftRight,
    show (23 : Int32).toBitVec.smod 32 = 23#32 by decide, BitVec.toInt_sshiftRight', Int.shiftRight_eq_div_pow]
  have hshift : (w <<< 11).toInt32.toBitVec.toNat = w.toNat * 2 ^ 11 % 2 ^ 32 := by
    change (w <<< 11).toNat = _
    rw [UInt32.toNat_shiftLeft, Nat.shiftLeft_eq]
    rfl
  have hpow : ((2 ^ (23#32).toNat : ℕ) : ℤ) = 2 ^ 23 := rfl
  rw [hpow, BitVec.toInt_eq_toNat_cond, BitVec.toInt_eq_toNat_cond, hshift, BitVec.toNat_ofNat]
  split_ifs <;> omega

end Fields

def Stores (s : Regs) (word : UInt32) (store : UInt64 × UInt32) : Prop := ∃ i : Store, word = i.encode ∧ store = i.effect s

section Instruction

variable {s : Regs} {w : UInt32} {address : UInt64} {write : UInt64 → UInt32 → Bool}

theorem finish_emulates {i : Store} (h : w = i.encode) :
    Emulates (finish s { s with pc := s.pc + 4 } (i.effect s).1 address (i.effect s).2 write) s
      (fun word store => word = w ∧ Stores s word store) (fun _ => { s with pc := s.pc + 4 }) := by
  rcases finish_cases s { s with pc := s.pc + 4 } (i.effect s).1 address (i.effect s).2 write with
    hrefused | ⟨htaken, hreports, hcontext⟩
  · exact .inl hrefused
  · exact .inr ⟨htaken, w, _, ⟨rfl, i, h, rfl⟩, hreports, hcontext⟩

/-- **Every call** on aarch64 is refused, or does what the instruction does. -/
theorem emulates : Emulates (handleMmioWrite s w address write) s (fun word store => word = w ∧ Stores s word store)
      (fun _ => { s with pc := s.pc + 4 }) := by
  have hlt : w.toNat < 2 ^ 32 := w.toNat_lt
  have hrt : (w &&& 31).toNat < 32 := by
    rw [toNat_source]
    exact Nat.mod_lt _ (by decide)
  have hrn : ((w >>> 5) &&& 31).toNat < 32 := by
    rw [toNat_base]
    exact Nat.mod_lt _ (by decide)
  have hsource := toNat_source w
  have hbase := toNat_base w
  unfold handleMmioWrite
  dsimp only
  by_cases hstr : w &&& 0xFFC00000 = 0xB9000000
  · have hhigh := high_of_and (k := 22) (n := 10) rfl hstr
    change _ = 0xB9000000 at hhigh
    have henc : w = (Store.str (.ofNat 12 (w.toNat / 2 ^ 10)) ⟨_, hrn⟩ ⟨_, hrt⟩).encode := by
      rw [← UInt32.toNat_inj, Store.encode, UInt32.toNat_ofNat', BitVec.toNat_ofNat]
      dsimp only
      omega
    rw [if_pos hstr, scaledOffset]
    exact finish_emulates henc
  by_cases hstur : w &&& 0xFFE00C00 = 0xB8000000
  · -- the two fields that the mask of STUR holds
    have htop : w &&& 0xFFE00000 = 0xB8000000 := by
      calc w &&& 0xFFE00000 = w &&& 0xFFE00C00 &&& 0xFFE00000 := by rw [UInt32.and_assoc]; rfl
        _ = 0xB8000000 := by rw [hstur]; rfl
    have hlow : w &&& 0xC00 = 0 := by
      calc w &&& 0xC00 = w &&& 0xFFE00C00 &&& 0xC00 := by rw [UInt32.and_assoc]; rfl
        _ = 0 := by rw [hstur]; rfl
    have hhigh := high_of_and (k := 21) (n := 11) rfl htop
    have hzero := high_of_and (k := 10) (n := 2) rfl hlow
    change _ = 0xB8000000 at hhigh
    change _ = 0 at hzero
    have henc : w = (Store.stur (.ofNat 9 (w.toNat / 2 ^ 12)) ⟨_, hrn⟩ ⟨_, hrt⟩).encode := by
      rw [← UInt32.toNat_inj, Store.encode, UInt32.toNat_ofNat', BitVec.toNat_ofNat]
      dsimp only
      omega
    rw [if_neg hstr, if_pos hstur, signedOffset]
    exact finish_emulates henc
  by_cases hstlr : w &&& 0xFFFFFC00 = 0x889FFC00
  · have hhigh := high_of_and (k := 10) (n := 22) rfl hstlr
    change _ = 0x889FFC00 at hhigh
    have henc : w = (Store.stlr ⟨_, hrn⟩ ⟨_, hrt⟩).encode := by
      rw [← UInt32.toNat_inj, Store.encode, UInt32.toNat_ofNat']
      dsimp only
      omega
    rw [if_neg hstr, if_neg hstur, if_neg (not_not.mpr hstlr)]
    exact finish_emulates henc
  · rw [if_neg hstr, if_neg hstur, if_pos hstlr]
    exact .inl ⟨rfl, rfl⟩

end Instruction

end A64

/-- **Every call of `HandleMmioWrite`**, on both hosts, is refused and leaves the context, or the instruction at the
program counter is a store whose whole effect is what is reported, and the program counter goes on by its length. -/
theorem handleMmioWrite_emulates : (∀ s code address write,
      Emulates (X86.handleMmioWrite s code address write) s (X86.Stores s code) (X86.advance s)) ∧
    ∀ s w address write, Emulates (A64.handleMmioWrite s w address write) s
      (fun word store => word = w ∧ A64.Stores s word store) (fun _ => { s with pc := s.pc + 4 }) :=
  ⟨fun _ _ _ _ => X86.emulates, fun _ _ _ _ => A64.emulates⟩

end Prosperity.Cpu
