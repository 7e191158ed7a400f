import Prosperity.Foundations.Fixpoint
import Prosperity.Gcn.ControlFlow

/-!
# Uniform `v_readfirstlane`

`ProvenUniformReadFirstLane`: a fixed point over "this VGPR holds the same value in every active
lane", from which the translator takes a `v_readfirstlane` for a move of the lane's own value.
-/

namespace Prosperity.Gcn

/-! ## The pass -/

inductive VccState where
  | kVaries
  | kUniform
  | kExecOrZero
  deriving DecidableEq

section Pass

variable (uni : ℕ → Bool) (vcc : VccState) (inst : Inst)

def sourceUniform (field : ℕ) : Bool := field < 256 || uni (field - 256)

def src2 : ℕ := (inst.raw1 >>> 18) &&& 0x1FF

def sources : List ℕ :=
  match inst.enc with
  | .kVop1 => [src0 inst]
  | .kVop2 | .kVopc => [src0 inst, src1 inst]
  | .kVop3 => [src0 inst, src1 inst, src2 inst]
  | _ => []

/-- `src_u`. -/
def sourcesUniform : Bool := (sources inst).all (sourceUniform uni)

/-- `VgprWrites`: the first register and their number. -/
def vgprWrites : ℕ × ℕ :=
  let w := inst.raw0
  let w1 := inst.raw1
  match inst.enc with
  | .kVintrp => ((w >>> 18) &&& 0xFF, 1)
  | .kDs =>
    let op := inst.opcode
    ((w1 >>> 24) &&& 0xFF, if op = 54 ∨ op = 0x35 ∨ op = 0x20 then 1
      else if op = 55 ∨ op = 56 ∨ op = 118 then 2
      else if op = 119 then 4
      else 0)
  | .kMubuf =>
    let op := (w >>> 18) &&& 0x7F
    ((w1 >>> 8) &&& 0xFF, if op ≤ 0x03 then op + 1
      else if 0x08 ≤ op ∧ op ≤ 0x0c then 1
      else if op = 0x0d then 2
      else if op = 0x0e then 4
      else if op = 0x0f then 3
      else if ((0x30 ≤ op ∧ op ≤ 0x3f) ∨ (0x50 ≤ op ∧ op ≤ 0x5f)) ∧ (w >>> 14) &&& 1 ≠ 0 then 1
      else 0)
  | .kMtbuf =>
    let op := (w >>> 16) &&& 0x7
    ((w1 >>> 8) &&& 0xFF, if op ≤ 0x03 then op + 1 else 0)
  | .kMimg =>
    let op := (w >>> 18) &&& 0x7F
    let dmask := (w >>> 8) &&& 0xF
    ((w1 >>> 8) &&& 0xFF, if op = 0x08 ∨ op = 0x09 then 0
      else ((List.range 4).map fun b => (dmask >>> b) &&& 1).sum)
  | .kFlat =>
    let op := (w >>> 18) &&& 0x7F
    ((w1 >>> 24) &&& 0xFF, if 0x10 ≤ op ∧ op ≤ 0x17 then
        if op = 0x15 then 2 else if op = 0x16 then 4 else if op = 0x17 then 3 else 1
      else 0)
  | _ => (0, 0)

def setFrom (vdst : ℕ) (u : Bool) : List ℕ := if u then [] else [vdst]

/-- The registers that the pass takes for varying behind an instruction. -/
def clears : List ℕ :=
  match inst.enc with
  -- `v_readfirstlane_b32` and `v_readlane_b32` write an SGPR
  | .kVop1 => if inst.opcode = 0x02 then [] else setFrom (vdst inst) (sourcesUniform uni inst)
  | .kVop2 =>
    match inst.opcode with
    | 0x01 => []
    | 0x00 => setFrom (vdst inst) (sourcesUniform uni inst && vcc ≠ .kVaries)
    | 0x02 | 0x23 | 0x24 => [vdst inst]
    | 0x28 | 0x29 | 0x2a => setFrom (vdst inst) (sourcesUniform uni inst && vcc = .kUniform)
    | _ => setFrom (vdst inst) (sourcesUniform uni inst)
  | .kVop3 => setFrom (vdst inst) (sourcesUniform uni inst)
  | .kVintrp | .kDs | .kMubuf | .kMtbuf | .kMimg | .kFlat =>
    (List.range (vgprWrites inst).2).map ((vgprWrites inst).1 + ·)
  | _ => []

def sdst : ℕ := (inst.raw0 >>> 16) &&& 0x7F

/-- `s_mov_b64 vcc, exec` and `s_cselect_b64 vcc, exec, 0`. -/
def isVccExec : Bool :=
  (inst.enc = .kSop1 && inst.opcode = 0x04 && sdst inst = 106 && inst.raw0 &&& 0xFF = 126) ||
    (inst.enc = .kSop2 && inst.opcode = 0x0b && sdst inst = 106 && inst.raw0 &&& 0xFF = 126 &&
      (inst.raw0 >>> 8) &&& 0xFF = 128)

def isVccScalar : Bool :=
  (inst.enc = .kSop1 || inst.enc = .kSop2) && (sdst inst = 106 || sdst inst = 107)

def vccAfter : VccState :=
  match inst.enc with
  | .kSop1 | .kSop2 =>
    if isVccExec inst then .kExecOrZero else if isVccScalar inst then .kVaries else vcc
  | .kVop2 =>
    match inst.opcode with
    | 0x28 | 0x29 | 0x2a =>
      if sourcesUniform uni inst && vcc = .kUniform then .kUniform else .kVaries
    | 0x25 | 0x26 | 0x27 => if sourcesUniform uni inst then .kUniform else .kVaries
    | _ => vcc
  | .kVopc => if sourcesUniform uni inst then .kUniform else .kVaries
  | _ => vcc

def vccNext (live : Bool) : VccState :=
  if live = false then vcc else if branchKind inst ≠ 0 then .kVaries else vccAfter uni vcc inst

end Pass

def flags (uni : List Bool) (r : ℕ) : Bool := uni.getD r false

def clearAll (uni : List Bool) (regs : List ℕ) : List Bool :=
  regs.foldl (fun uni r => uni.set r false) uni

/-- One instruction of the loop over the program. -/
def passInst (st : List Bool × VccState) (x : Inst × Bool) : List Bool × VccState :=
  (if x.2 = false ∨ branchKind x.1 ≠ 0 then st.1
    else clearAll st.1 (clears (flags st.1) st.2 x.1),
    vccNext (flags st.1) st.2 x.1 x.2)

section Program

variable (program : Program) (reachable : List Bool)

def pass (uni : List Bool) : List Bool :=
  ((program.zip reachable).foldl passInst (uni, .kVaries)).1

/-- `v0` to `v2` seed the thread id. -/
def seededUniform : List Bool := List.replicate 3 false ++ List.replicate 253 true

def stableUniform : List Bool := untilStable (pass program reachable) 256 seededUniform

def isReadFirstLane (inst : Inst) : Bool := inst.enc = .kVop1 && inst.opcode = 0x02

def provenUniformReadFirstLane : List Bool :=
  (program.zip reachable).map fun x =>
    x.2 && branchKind x.1 = 0 && isReadFirstLane x.1 &&
      sourceUniform (flags (stableUniform program reachable)) (src0 x.1)

def vccAt (uni : ℕ → Bool) (k : ℕ) : VccState :=
  ((program.zip reachable).take k).foldl (fun vcc x => vccNext uni vcc x.1 x.2) .kVaries

end Program

/-! ## The fixed point -/

theorem flags_set_false (uni : List Bool) (r q : ℕ) : flags (uni.set r false) q = (flags uni q && q ≠ r) := by
  unfold flags
  rw [List.getD_eq_getElem?_getD, List.getD_eq_getElem?_getD, List.getElem?_set]
  by_cases hq : r = q
  · subst hq
    by_cases hlt : r < uni.length <;> simp [hlt]
  · simp [hq, Ne.symm hq]

theorem flags_clearAll (uni : List Bool) (regs : List ℕ) (q : ℕ) :
    flags (clearAll uni regs) q = (flags uni q && decide (q ∉ regs)) := by
  induction regs generalizing uni with
  | nil => simp [clearAll]
  | cons r regs ih =>
    rw [clearAll, List.foldl_cons, ← clearAll, ih, flags_set_false]
    simp [Bool.and_assoc]

theorem flags_clearAll_le (uni : List Bool) (regs : List ℕ) : flags (clearAll uni regs) ≤ flags uni := by
  intro q
  rw [flags_clearAll]
  exact Bool.and_le_left _ _

theorem flags_passInst_le (st : List Bool × VccState) (x : Inst × Bool) : flags (passInst st x).1 ≤ flags st.1 := by
  rw [passInst]
  dsimp only
  split
  · exact le_refl _
  · exact flags_clearAll_le _ _

def Shrinks (uni uni' : List Bool) : Prop := uni' = uni ∨ uni'.count true < uni.count true

theorem Shrinks.trans {a b c : List Bool} (h : Shrinks a b) (h' : Shrinks b c) : Shrinks a c := by
  rcases h with rfl | h
  · exact h'
  · rcases h' with rfl | h'
    · exact .inr h
    · exact .inr (Nat.lt_trans h' h)

theorem shrinks_set (uni : List Bool) (r : ℕ) : Shrinks uni (uni.set r false) := by
  by_cases hr : uni[r]? = some true
  · obtain ⟨hlt, hr⟩ := List.getElem?_eq_some_iff.mp hr
    have hpos : 0 < uni.count true := List.count_pos_iff.mpr (hr ▸ List.getElem_mem hlt)
    right
    rw [List.count_set hlt, hr]
    have hfalse : ((false : Bool) == true) = false := rfl
    simp only [beq_self_eq_true, if_true, hfalse, Bool.false_eq_true, if_false]
    omega
  · left
    apply List.ext_getElem?
    intro q
    rw [List.getElem?_set]
    split
    · subst q
      split
      · rename_i hlt
        rw [List.getElem?_eq_getElem hlt] at hr ⊢
        simpa using hr
      · rename_i hlt
        rw [List.getElem?_eq_none (Nat.le_of_not_lt hlt)]
    · rfl

theorem shrinks_clearAll (uni : List Bool) (regs : List ℕ) : Shrinks uni (clearAll uni regs) := by
  induction regs generalizing uni with
  | nil => exact .inl rfl
  | cons r regs ih => exact (shrinks_set uni r).trans (ih (uni.set r false))

theorem shrinks_foldl (l : List (Inst × Bool)) (st : List Bool × VccState) : Shrinks st.1 (l.foldl passInst st).1 := by
  induction l generalizing st with
  | nil => exact .inl rfl
  | cons x l ih =>
    refine Shrinks.trans ?_ (ih (passInst st x))
    rw [passInst]
    dsimp only
    split
    · exact .inl rfl
    · exact shrinks_clearAll _ _

section FixedPoint

variable {program : Program} {reachable : List Bool} {inst : Inst} {uni : List Bool} {k : ℕ}

/-- **The passes end in a fixed point.** -/
theorem pass_stableUniform :
    pass program reachable (stableUniform program reachable) = stableUniform program reachable := by
  refine stable_untilStable (μ := fun uni => uni.count true) (fun uni hchange => ?_) ?_
  · exact (shrinks_foldl (program.zip reachable) (uni, .kVaries)).resolve_left hchange
  · rw [seededUniform, List.count_append, List.count_replicate, List.count_replicate]
    decide

theorem stableUniform_le : flags (stableUniform program reachable) ≤ flags seededUniform := by
  refine untilStable_keeps (p := fun uni => flags uni ≤ flags seededUniform) (fun uni h => ?_)
    (le_refl _)
  exact le_trans (foldl_facts_le (g := fun st : List Bool × VccState => flags st.1)
    flags_passInst_le) h

theorem three_le_of_uniform {r : ℕ} (h : flags (stableUniform program reachable) r = true) : 3 ≤ r := by
  have hseed : flags (stableUniform program reachable) r ≤ flags seededUniform r :=
    stableUniform_le r
  rw [h] at hseed
  by_contra hlt
  have hr : r = 0 ∨ r = 1 ∨ r = 2 := by omega
  rcases hr with rfl | rfl | rfl <;> exact absurd hseed (by decide)

theorem vccAt_succ (u : ℕ → Bool) {live : Bool} (hk : program[k]? = some inst) (hlive : reachable[k]? = some live) :
    vccAt program reachable u (k + 1) = vccNext u (vccAt program reachable u k) inst live := by
  have hzip : (program.zip reachable)[k]? = some (inst, live) := by
    rw [List.getElem?_zip_eq_some]
    exact ⟨hk, hlive⟩
  rw [vccAt, List.take_add_one, hzip, List.foldl_append]
  rfl

theorem foldl_take_of_fixed (h : pass program reachable uni = uni) (k : ℕ) :
    flags (((program.zip reachable).take k).foldl passInst (uni, .kVaries)).1 = flags uni ∧
      (((program.zip reachable).take k).foldl passInst (uni, .kVaries)).2 =
        vccAt program reachable (flags uni) k := by
  have hflags := fun k => foldl_take_eq_of_foldl_eq (s := (uni, VccState.kVaries))
    (l := program.zip reachable) (g := fun st : List Bool × VccState => flags st.1)
    flags_passInst_le (congrArg flags h) k
  refine ⟨hflags k, ?_⟩
  induction k with
  | zero => rfl
  | succ k ih =>
    rw [vccAt, List.take_add_one, List.foldl_append, List.foldl_append]
    cases hx : (program.zip reachable)[k]? with
    | none => exact ih
    | some x =>
      change vccNext _ _ _ _ = vccNext _ _ _ _
      rw [ih, hflags k]
      rfl

/-- **No register of a fixed point is cleared** by a live instruction. -/
theorem not_uniform_of_clears (h : pass program reachable uni = uni)
    (hk : program[k]? = some inst) (hlive : reachable[k]? = some true) (hbranch : branchKind inst = 0) {r : ℕ}
    (hr : r ∈ clears (flags uni) (vccAt program reachable (flags uni) k) inst) : flags uni r = false := by
  have hzip : (program.zip reachable)[k]? = some (inst, true) := by
    rw [List.getElem?_zip_eq_some]
    exact ⟨hk, hlive⟩
  obtain ⟨hflags, hvcc⟩ := foldl_take_of_fixed h k
  obtain ⟨hnext, -⟩ := foldl_take_of_fixed h (k + 1)
  rw [List.take_add_one, hzip, List.foldl_append] at hnext
  rw [← hnext]
  change flags (passInst _ (inst, true)).1 r = false
  rw [passInst, if_neg (by simp [hbranch]), hflags, hvcc, flags_clearAll]
  simp [hr]

end FixedPoint

/-! ## Kinds of instructions -/

section Kinds

variable {u : ℕ → Bool} {vcc : VccState} {inst : Inst}

/-- The forms whose destination the pass takes for uniform where the sources are. -/
def isAlu (inst : Inst) : Bool :=
  (inst.enc = .kVop1 && inst.opcode ≠ 0x02) ||
    (inst.enc = .kVop2 && inst.opcode ∉ [0x01, 0x02, 0x23, 0x24]) || inst.enc = .kVop3

/-- `v_cndmask_b32` and the additions and subtractions with a carry. -/
def usesVcc (inst : Inst) : Bool := inst.enc = .kVop2 && inst.opcode ∈ [0x00, 0x28, 0x29, 0x2a]

/-- The vector instructions that the pass takes to write VCC. -/
def isCompare (inst : Inst) : Bool :=
  inst.enc = .kVopc || (inst.enc = .kVop2 && inst.opcode ∈ [0x25, 0x26, 0x27, 0x28, 0x29, 0x2a])

def touchesVcc (inst : Inst) : Bool := isCompare inst || isVccScalar inst

def ownResults (inst : Inst) : List ℕ :=
  match inst.enc with
  | .kVop2 => if inst.opcode ∈ [0x02, 0x23, 0x24] then [vdst inst] else []
  | .kVintrp | .kDs | .kMubuf | .kMtbuf | .kMimg | .kFlat =>
    (List.range (vgprWrites inst).2).map ((vgprWrites inst).1 + ·)
  | _ => []

theorem branchKind_of_enc (h : inst.enc ≠ .kSopp) : branchKind inst = 0 := if_pos h

theorem branchKind_of_isAlu (h : isAlu inst = true) : branchKind inst = 0 := by
  apply branchKind_of_enc
  intro henc
  simp [isAlu, henc] at h

theorem mem_setFrom {r : ℕ} {b : Bool} : r ∈ setFrom r b ↔ b = false := by
  cases b <;> simp [setFrom]

/-- **What a destination that stays uniform says** of the instruction. -/
theorem uniform_of_kept (halu : isAlu inst = true) (hkept : vdst inst ∉ clears u vcc inst) :
    (∀ field ∈ sources inst, sourceUniform u field = true) ∧ (usesVcc inst = true → vcc ≠ .kVaries) := by
  rw [← List.all_eq_true]
  change sourcesUniform u inst = true ∧ _
  unfold clears at hkept
  split at hkept
  · rename_i henc
    simp only [isAlu, henc] at halu
    rw [if_neg (by simpa using halu), mem_setFrom, Bool.not_eq_false] at hkept
    exact ⟨hkept, by simp [usesVcc, henc]⟩
  · rename_i henc
    split at hkept
    · rename_i hop
      simp [isAlu, henc, hop] at halu
    · -- `v_cndmask_b32`
      rw [mem_setFrom, Bool.not_eq_false, Bool.and_eq_true] at hkept
      exact ⟨hkept.1, fun _ => by simpa using hkept.2⟩
    · simp at hkept
    · simp at hkept
    · simp at hkept
    all_goals rw [mem_setFrom, Bool.not_eq_false] at hkept
    iterate 3
      · -- with a carry
        rw [Bool.and_eq_true, decide_eq_true_eq] at hkept
        exact ⟨hkept.1, fun _ hvaries => by simp [hkept.2] at hvaries⟩
    · refine ⟨hkept, fun huses => ?_⟩
      simp only [usesVcc, henc] at huses
      simp_all
  · rename_i henc
    rw [mem_setFrom, Bool.not_eq_false] at hkept
    exact ⟨hkept, by simp [usesVcc, henc]⟩
  all_goals simp_all [isAlu]

/-- **What the pass knows of VCC** it has from before, from EXEC or from a comparison of uniform
sources. -/
theorem vccAfter_cases (h : vccAfter u vcc inst ≠ .kVaries) :
    (touchesVcc inst = false ∧ vcc ≠ .kVaries) ∨ isVccExec inst = true ∨
      (isCompare inst = true ∧ (∀ field ∈ sources inst, sourceUniform u field = true) ∧
        (usesVcc inst = true → vcc ≠ .kVaries)) := by
  rw [← List.all_eq_true]
  change _ ∨ _ ∨ (_ ∧ sourcesUniform u inst = true ∧ _)
  unfold vccAfter at h
  split at h
  iterate 2
    · rename_i henc
      split at h
      · rename_i hexec
        exact .inr (.inl hexec)
      · split at h
        · exact absurd rfl h
        · rename_i hscalar
          exact .inl ⟨by simpa [touchesVcc, isCompare, henc] using hscalar, h⟩
  · rename_i henc
    split at h
    iterate 3
      · rename_i hop
        split at h
        · rename_i hu
          rw [Bool.and_eq_true, decide_eq_true_eq] at hu
          refine .inr (.inr ⟨by simp [isCompare, henc, hop], hu.1, fun _ hvaries => ?_⟩)
          simp [hu.2] at hvaries
        · exact absurd rfl h
    iterate 3
      · rename_i hop
        split at h
        · rename_i hu
          exact .inr (.inr ⟨by simp [isCompare, henc, hop], hu, by simp [usesVcc, henc, hop]⟩)
        · exact absurd rfl h
    · refine .inl ⟨?_, h⟩
      simp_all [touchesVcc, isCompare, isVccScalar]
  · rename_i henc
    split at h
    · rename_i hu
      exact .inr (.inr ⟨by simp [isCompare, henc], hu, by simp [usesVcc, henc]⟩)
    · exact absurd rfl h
  · refine .inl ⟨?_, h⟩
    simp_all [touchesVcc, isCompare, isVccScalar]

end Kinds

/-! ## What differs between lanes -/

/-- A VGPR, or VCC before the instruction at an index. -/
inductive Place where
  | vgpr (r : ℕ)
  | vcc (k : ℕ)

section Derivation

variable (program : Program) (reachable : List Bool)

def At (k : ℕ) (inst : Inst) : Prop := program[k]? = some inst ∧ reachable[k]? = some true

inductive Derived : Place → Prop where
  | seed {r : ℕ} : r ≤ 2 → Derived (.vgpr r)
  | own {k : ℕ} {inst : Inst} {r : ℕ} : At program reachable k inst → r ∈ ownResults inst → Derived (.vgpr r)
  | computed {k : ℕ} {inst : Inst} {r : ℕ} : At program reachable k inst → isAlu inst = true →
      256 + r ∈ sources inst → Derived (.vgpr r) → Derived (.vgpr (vdst inst))
  | chosen {k : ℕ} {inst : Inst} : At program reachable k inst → usesVcc inst = true →
      Derived (.vcc k) → Derived (.vgpr (vdst inst))
  | entry : Derived (.vcc 0)
  | branch {k : ℕ} {inst : Inst} : At program reachable k inst → branchKind inst ≠ 0 → Derived (.vcc (k + 1))
  | scalar {k : ℕ} {inst : Inst} : At program reachable k inst → isVccScalar inst = true →
      isVccExec inst = false → Derived (.vcc (k + 1))
  | compared {k : ℕ} {inst : Inst} {r : ℕ} : At program reachable k inst →
      isCompare inst = true → 256 + r ∈ sources inst → Derived (.vgpr r) → Derived (.vcc (k + 1))
  | carried {k : ℕ} {inst : Inst} : At program reachable k inst → isCompare inst = true →
      usesVcc inst = true → Derived (.vcc k) → Derived (.vcc (k + 1))
  | kept {k : ℕ} {inst : Inst} : At program reachable k inst → touchesVcc inst = false →
      Derived (.vcc k) → Derived (.vcc (k + 1))
  | dead {k : ℕ} {inst : Inst} : program[k]? = some inst → reachable[k]? = some false →
      Derived (.vcc k) → Derived (.vcc (k + 1))

end Derivation

section Derivation

variable {program : Program} {reachable : List Bool} {inst : Inst} {uni : List Bool} {k : ℕ}

def Place.Varies (program : Program) (reachable : List Bool) (u : ℕ → Bool) : Place → Prop
  | .vgpr r => u r = false
  | .vcc k => vccAt program reachable u k = .kVaries

theorem clears_of_ownResults {u : ℕ → Bool} {vcc : VccState} {r : ℕ} (h : r ∈ ownResults inst) :
    branchKind inst = 0 ∧ r ∈ clears u vcc inst := by
  unfold ownResults at h
  split at h
  · rename_i henc
    refine ⟨branchKind_of_enc (by simp [henc]), ?_⟩
    split at h
    · rename_i hop
      obtain rfl : r = vdst inst := by simpa using h
      simp only [List.mem_cons, List.not_mem_nil, or_false] at hop
      rcases hop with hop | hop | hop <;> simp [clears, henc, hop]
    · cases h
  iterate 6
    · rename_i henc
      refine ⟨branchKind_of_enc (by simp [henc]), ?_⟩
      simpa only [clears, henc] using h
  · cases h

theorem isVccScalar_of_isVccExec (h : isVccExec inst = true) : isVccScalar inst = true := by
  simp only [isVccExec, isVccScalar, Bool.or_eq_true, Bool.and_eq_true, decide_eq_true_eq] at h ⊢
  tauto

theorem not_isCompare_of_isVccScalar (h : isVccScalar inst = true) : isCompare inst = false := by
  simp only [isVccScalar, Bool.and_eq_true, Bool.or_eq_true, decide_eq_true_eq] at h
  obtain ⟨henc | henc, -⟩ := h <;> simp [isCompare, henc]

theorem isAlu_of_usesVcc (h : usesVcc inst = true) : isAlu inst = true := by
  simp only [usesVcc, Bool.and_eq_true, decide_eq_true_eq, List.mem_cons, List.not_mem_nil, or_false] at h
  obtain ⟨henc, hop | hop | hop | hop⟩ := h <;> simp [isAlu, henc, hop]

theorem vccAt_cases {u : ℕ → Bool} (hat : At program reachable k inst)
    (h : vccAt program reachable u (k + 1) ≠ .kVaries) :
    branchKind inst = 0 ∧ ((touchesVcc inst = false ∧ vccAt program reachable u k ≠ .kVaries) ∨ isVccExec inst = true ∨
        (isCompare inst = true ∧ (∀ field ∈ sources inst, sourceUniform u field = true) ∧
          (usesVcc inst = true → vccAt program reachable u k ≠ .kVaries))) := by
  rw [vccAt_succ u hat.1 hat.2, vccNext, if_neg (by simp)] at h
  split at h
  · exact absurd rfl h
  · rename_i hbranch
    exact ⟨by simpa using hbranch, vccAfter_cases h⟩

theorem uniform_of_fixed (hfixed : pass program reachable uni = uni)
    (hat : At program reachable k inst) (halu : isAlu inst = true) (hu : flags uni (vdst inst) = true) :
    (∀ field ∈ sources inst, sourceUniform (flags uni) field = true) ∧
      (usesVcc inst = true → vccAt program reachable (flags uni) k ≠ .kVaries) := by
  apply uniform_of_kept halu
  intro hclears
  have := not_uniform_of_clears hfixed hat.1 hat.2 (branchKind_of_isAlu halu) hclears
  simp [hu] at this

theorem sourceUniform_vgpr {u : ℕ → Bool} {r : ℕ} : sourceUniform u (256 + r) = u r := by
  simp [sourceUniform]

/-- **The pass takes nothing derived for uniform.** -/
theorem varies_of_derived (hfixed : pass program reachable uni = uni)
    (hseed : ∀ r, flags uni r = true → 3 ≤ r) {p : Place} (h : Derived program reachable p) :
    p.Varies program reachable (flags uni) := by
  induction h with
  | @seed r hr =>
    change flags uni r = false
    by_contra hu
    have := hseed r (by simpa using hu)
    omega
  | own hat hr =>
    obtain ⟨hbranch, hclears⟩ := clears_of_ownResults hr
    exact not_uniform_of_clears hfixed hat.1 hat.2 hbranch hclears
  | @computed k inst r hat halu hsource _ ih =>
    change flags uni (vdst inst) = false
    by_contra hu
    have hsources := (uniform_of_fixed hfixed hat halu (by simpa using hu)).1 _ hsource
    rw [sourceUniform_vgpr, show flags uni r = false from ih] at hsources
    cases hsources
  | @chosen k inst hat huses _ ih =>
    change flags uni (vdst inst) = false
    by_contra hu
    exact (uniform_of_fixed hfixed hat (isAlu_of_usesVcc huses) (by simpa using hu)).2 huses ih
  | entry => rfl
  | branch hat hbranch =>
    by_contra hvcc
    exact hbranch (vccAt_cases hat hvcc).1
  | scalar hat hscalar hexec =>
    by_contra hvcc
    have hcompare := not_isCompare_of_isVccScalar hscalar
    obtain ⟨-, ⟨htouches, -⟩ | hexec' | ⟨hcompare', -⟩⟩ := vccAt_cases hat hvcc
    · simp [touchesVcc, hscalar] at htouches
    · simp [hexec] at hexec'
    · simp [hcompare] at hcompare'
  | @compared k inst r hat hcompare hsource _ ih =>
    by_contra hvcc
    obtain ⟨-, ⟨htouches, -⟩ | hexec | ⟨-, hsources, -⟩⟩ := vccAt_cases hat hvcc
    · simp [touchesVcc, hcompare] at htouches
    · simp [not_isCompare_of_isVccScalar (isVccScalar_of_isVccExec hexec)] at hcompare
    · have hsource := hsources _ hsource
      rw [sourceUniform_vgpr, show flags uni r = false from ih] at hsource
      cases hsource
  | carried hat hcompare huses _ ih =>
    by_contra hvcc
    obtain ⟨-, ⟨htouches, -⟩ | hexec | ⟨-, -, hcarry⟩⟩ := vccAt_cases hat hvcc
    · simp [touchesVcc, hcompare] at htouches
    · simp [not_isCompare_of_isVccScalar (isVccScalar_of_isVccExec hexec)] at hcompare
    · exact hcarry huses ih
  | kept hat htouches _ ih =>
    by_contra hvcc
    rw [touchesVcc, Bool.or_eq_false_iff] at htouches
    obtain ⟨-, ⟨-, hbefore⟩ | hexec | ⟨hcompare, -⟩⟩ := vccAt_cases hat hvcc
    · exact hbefore ih
    · simp [isVccScalar_of_isVccExec hexec] at htouches
    · simp [hcompare] at htouches
  | @dead k inst hk hdead _ ih =>
    change vccAt program reachable (flags uni) (k + 1) = .kVaries
    rw [vccAt_succ (flags uni) hk hdead, vccNext, if_pos rfl]
    exact ih

end Derivation

/-! ## Steady steps -/

def Wave.vccBit (s : Wave) (l : Lane) : Bool :=
  if l.val < 32 then (s.scalar 106).testBit l.val else (s.scalar 107).testBit (l.val - 32)

/-- The computations of the instruction set that every lane does by itself. -/
structure Alu where
  /-- The source fields that a lane reads, which may depend on a scalar such as M0. -/
  reads : Inst → (ℕ → ℕ) → List ℕ
  value : Inst → Option (List ℕ → Bool → ℕ)
  /-- The bit for VCC. -/
  carry : Inst → Option (List ℕ → Bool → Bool)

def Alu.inputs (alu : Alu) (inst : Inst) (s : Wave) (l : Lane) : List ℕ :=
  (alu.reads inst s.scalar).map (s.operand · l)

def vccIn (inst : Inst) (s : Wave) (l : Lane) : Bool := usesVcc inst && s.vccBit l

/-- An instruction does what the instruction set says of it. -/
structure Computes (alu : Alu) (e : Event) : Prop where
  result : ∀ f, alu.value e.inst = some f → ∀ l, e.before.exec l = true →
    e.after.vgpr (vdst e.inst) l = f (alu.inputs e.inst e.before l) (vccIn e.inst e.before l)
  carried : ∀ g, alu.carry e.inst = some g → ∀ l, e.before.exec l = true →
    e.after.vccBit l = g (alu.inputs e.inst e.before l) (vccIn e.inst e.before l)
  /-- `s_mov_b64 vcc, exec` and `s_cselect_b64 vcc, exec, 0`. -/
  fromExec : isVccExec e.inst = true → (∀ l, e.after.vccBit l = e.before.exec l) ∨ ∀ l, e.after.vccBit l = false

def ReadsFrom (alu : Alu) (fields : List ℕ) (e : Event) : Prop :=
  ∀ field ∈ alu.reads e.inst e.before.scalar, 256 ≤ field →
    field ∈ fields ∧ ∀ l, e.before.exec l = true → e.before.reached (field - 256) l = true

section Steady

variable (isa : Isa) (alu : Alu) (program : Program) (reachable : List Bool)

/-- VCC goes on to an instruction that uses it. -/
def UsedAhead (k : ℕ) : Prop :=
  ∃ j inst, k ≤ j ∧ At program reachable j inst ∧ usesVcc inst = true ∧
    ∀ i inst', k ≤ i → i < j → At program reachable i inst' → branchKind inst' = 0 ∧ touchesVcc inst' = false

def Tracked (k : ℕ) : Prop := ¬ Derived program reachable (.vcc k) ∧ UsedAhead program reachable k

/-- A step that the pass accounts for. -/
structure Steady (e : Event) : Prop where
  /-- Only the ALU forms write a VGPR that is not derived, as their destination. -/
  named : ∀ r, isa.writes e.inst e.before.scalar r → ¬ Derived program reachable (.vgpr r) →
    isAlu e.inst = true ∧ r = vdst e.inst
  /-- They compute it lane by lane from the sources the pass looks at, or from what it held. -/
  lanewise : isAlu e.inst = true → isa.writes e.inst e.before.scalar (vdst e.inst) →
    ¬ Derived program reachable (.vgpr (vdst e.inst)) →
      (alu.value e.inst).isSome ∧ ReadsFrom alu ((256 + vdst e.inst) :: sources e.inst) e
  /-- So do comparisons and carries, where the pass goes by the VCC they write. -/
  compares : ∀ k, program[k]? = some e.inst → isCompare e.inst = true → Tracked program reachable (k + 1) →
      (alu.carry e.inst).isSome ∧ ReadsFrom alu (sources e.inst) e
  /-- A `v_readfirstlane` of a register that is not derived runs in lanes that the last write of
  the register reached. -/
  first : isReadFirstLane e.inst = true → ∀ r, src0 e.inst = 256 + r → ¬ Derived program reachable (.vgpr r) →
      ∀ l, e.before.exec l = true → e.before.reached r l = true
  /-- Between a write of VCC and its use control does not come from elsewhere. -/
  lands : ∀ (k : ℕ) inst, fetch program e.after.pc = some inst → program[k]? = some inst →
    Tracked program reachable k → ∃ j, k = j + 1 ∧ program[j]? = some e.inst
  /-- There no lane is woken, and nothing else writes VCC. -/
  keeps : ∀ k, program[k]? = some e.inst → Tracked program reachable (k + 1) →
    (∀ l, e.after.exec l = true → e.before.exec l = true) ∧
      (touchesVcc e.inst = false → ∀ l, e.after.vccBit l = e.before.vccBit l)

end Steady

/-! ## The lanes agree -/

section Soundness

variable {isa : Isa} {alu : Alu} {program : Program} {reachable : List Bool} {uni : List Bool}
  {u : ℕ → Bool} {inst : Inst} {s s' : Wave} {events : List Event} {k : ℕ}

/-- A register that is taken for uniform holds one value in the lanes its last write reached. -/
def Agreed (u : ℕ → Bool) (s : Wave) : Prop :=
  ∀ r, u r = true → ∀ l m, s.reached r l = true → s.reached r m = true → s.vgpr r l = s.vgpr r m

def VccAgrees (program : Program) (reachable : List Bool) (u : ℕ → Bool) (s : Wave) : Prop :=
  ∀ (k : ℕ) inst, fetch program s.pc = some inst → program[k]? = some inst →
    UsedAhead program reachable k → vccAt program reachable u k ≠ .kVaries →
      ∀ l m, s.exec l = true → s.exec m = true → s.vccBit l = s.vccBit m

theorem Wave.operand_wide {field : ℕ} (h : field < 256) (l m : Lane) : s.operand field l = s.operand field m := by
  simp only [operand, if_neg (Nat.not_le_of_lt h)]

theorem inputs_agree {fields : List ℕ} {e : Event} (hreads : ReadsFrom alu fields e)
    (hu : ∀ field ∈ fields, sourceUniform u field = true) (h : Agreed u e.before) {l m : Lane}
    (hl : e.before.exec l = true) (hm : e.before.exec m = true) :
    alu.inputs e.inst e.before l = alu.inputs e.inst e.before m := by
  apply List.map_congr_left
  intro field hfield
  by_cases hvgpr : 256 ≤ field
  · obtain ⟨hmem, hreached⟩ := hreads field hfield hvgpr
    obtain ⟨r, rfl⟩ := Nat.exists_eq_add_of_le hvgpr
    have hr := hu _ hmem
    rw [sourceUniform_vgpr] at hr
    rw [Nat.add_sub_cancel_left] at hreached
    rw [Wave.operand_vgpr, Wave.operand_vgpr]
    exact h r hr l m (hreached l hl) (hreached m hm)
  · exact Wave.operand_wide (Nat.lt_of_not_le hvgpr) l m

theorem vccIn_agree (h : VccAgrees program reachable u s) (hfetch : fetch program s.pc = some inst)
    (hat : At program reachable k inst)
    (hknown : usesVcc inst = true → vccAt program reachable u k ≠ .kVaries) {l m : Lane}
    (hl : s.exec l = true) (hm : s.exec m = true) : vccIn inst s l = vccIn inst s m := by
  rw [vccIn, vccIn]
  cases huses : usesVcc inst with
  | false => rfl
  | true =>
    have hahead : UsedAhead program reachable k :=
      ⟨k, inst, Nat.le_refl k, hat, huses, fun i _ hle hlt => absurd hlt (Nat.not_lt_of_le hle)⟩
    rw [h k inst hfetch hat.1 hahead (hknown huses) l m hl hm]

/-- **One instruction keeps the registers agreed.** -/
theorem agreed_step (hfixed : pass program reachable uni = uni)
    (hseed : ∀ r, flags uni r = true → 3 ≤ r) (hat : At program reachable k inst)
    (hstep : Step isa program inst s s') (hcomputes : Computes alu ⟨inst, s, s'⟩)
    (hsteady : Steady isa alu program reachable ⟨inst, s, s'⟩)
    (h : Agreed (flags uni) s) (hvcc : VccAgrees program reachable (flags uni) s) : Agreed (flags uni) s' := by
  intro r hr l m hl hm
  by_cases hwrites : isa.writes inst s.scalar r
  · -- the lanes that it wrote are the active ones
    have hderived : ¬ Derived program reachable (.vgpr r) := fun hderived => by
      have : flags uni r = false := varies_of_derived hfixed hseed hderived
      simp [hr] at this
    obtain ⟨halu, rfl⟩ := hsteady.named r hwrites hderived
    obtain ⟨hvalue, hreads⟩ := hsteady.lanewise halu hwrites hderived
    obtain ⟨f, hf⟩ := Option.isSome_iff_exists.mp hvalue
    obtain ⟨hsources, hknown⟩ := uniform_of_fixed hfixed hat halu hr
    rw [hstep.wrote _ hwrites] at hl hm
    have hfields : ∀ field ∈ (256 + vdst inst) :: sources inst,
        sourceUniform (flags uni) field = true := by
      intro field hfield
      rcases List.mem_cons.mp hfield with rfl | hfield
      · rwa [sourceUniform_vgpr]
      · exact hsources field hfield
    have hinputs := inputs_agree hreads hfields h hl hm
    have hbit := vccIn_agree hvcc hstep.fetched hat hknown hl hm
    dsimp only at hinputs
    rw [hcomputes.result f hf l hl, hcomputes.result f hf m hm]
    dsimp only
    rw [hinputs, hbit]
  · obtain ⟨hv, hreached⟩ := hstep.kept r hwrites
    rw [hreached] at hl hm
    rw [hv]
    exact h r hr l m hl hm

/-- **One instruction keeps VCC agreed.** -/
theorem vccAgrees_step (hc : Contiguous program) (hfixed : pass program reachable uni = uni)
    (hseed : ∀ r, flags uni r = true → 3 ≤ r) (hat : At program reachable k inst)
    (hstep : Step isa program inst s s') (hcomputes : Computes alu ⟨inst, s, s'⟩)
    (hsteady : Steady isa alu program reachable ⟨inst, s, s'⟩)
    (h : Agreed (flags uni) s) (hvcc : VccAgrees program reachable (flags uni) s) :
    VccAgrees program reachable (flags uni) s' := by
  intro k' inst' hfetch' hk' hahead hknown l m hl hm
  have hderived : ¬ Derived program reachable (.vcc k') := fun hderived =>
    hknown (varies_of_derived hfixed hseed hderived)
  have htracked : Tracked program reachable k' := ⟨hderived, hahead⟩
  obtain ⟨j, rfl, hj⟩ := hsteady.lands k' inst' hfetch' hk' htracked
  obtain rfl := ContiguousFrom.index_unique hc hj hat.1 rfl
  obtain ⟨hexec, hkeeps⟩ := hsteady.keeps j hj htracked
  have hl' := hexec l hl
  have hm' := hexec m hm
  obtain ⟨hbranch, ⟨htouches, hbefore⟩ | hfrom | ⟨hcompare, hsources, hcarry⟩⟩ :=
    vccAt_cases hat hknown
  · -- VCC is as before, and its use is still ahead
    have hahead' : UsedAhead program reachable j := by
      obtain ⟨i, use, hle, huse, huses, hbetween⟩ := hahead
      refine ⟨i, use, by omega, huse, huses, fun n inst'' hn hlt hat'' => ?_⟩
      rcases Nat.eq_or_lt_of_le hn with rfl | hn
      · obtain rfl : inst = inst'' := Option.some.inj (hat.1.symm.trans hat''.1)
        exact ⟨hbranch, htouches⟩
      · exact hbetween n inst'' hn hlt hat''
    have hbits := hvcc j inst hstep.fetched hat.1 hahead' hbefore l m hl' hm'
    have hkept := hkeeps htouches
    dsimp only at hkept
    rw [hkept l, hkept m, hbits]
  · -- VCC is EXEC or zero
    rcases hcomputes.fromExec hfrom with hbits | hbits
    · dsimp only at hbits hl' hm'
      rw [hbits l, hbits m, hl', hm']
    · dsimp only at hbits
      rw [hbits l, hbits m]
  · -- VCC comes from uniform sources
    obtain ⟨hvalue, hreads⟩ := hsteady.compares j hj hcompare htracked
    obtain ⟨g, hg⟩ := Option.isSome_iff_exists.mp hvalue
    have hinputs := inputs_agree hreads hsources h hl' hm'
    have hbit := vccIn_agree hvcc hstep.fetched hat hcarry hl' hm'
    have hcarried := hcomputes.carried g hg
    dsimp only at hinputs hcarried
    rw [hcarried l hl', hcarried m hm', hinputs, hbit]

/-- The state a run began with. -/
def startOf : List Event → Wave → Wave
  | [], s => s
  | e :: events, _ => startOf events e.before

/-- **The lanes agree in every state of a steady run** that begins with one value in each register
behind the thread id. -/
theorem agreed_run (hc : Contiguous program) (hfixed : pass program reachable uni = uni)
    (hseed : ∀ r, flags uni r = true → 3 ≤ r)
    (hreach : ∀ (k : ℕ) inst, program[k]? = some inst → Executed program inst → reachable[k]? = some true)
    (hrun : Run isa program events s) (hstart : Agreed (fun r => 3 ≤ r) (startOf events s))
    (hcomputes : ∀ e ∈ events, Computes alu e) (hsteady : ∀ e ∈ events, Steady isa alu program reachable e) :
    Agreed (flags uni) s ∧ VccAgrees program reachable (flags uni) s := by
  induction hrun with
  | @start s hpc =>
    refine ⟨fun r hr => hstart r (by simpa using hseed r hr), ?_⟩
    intro k inst hfetch hk hahead hknown
    -- at the first instruction nothing is known of VCC
    exfalso
    cases program with
    | nil => simp at hk
    | cons first rest =>
      rw [hpc, fetch, List.find?_cons_of_pos (by simp)] at hfetch
      obtain rfl := ContiguousFrom.index_unique hc hk (j := 0) (by simpa using hfetch) rfl
      exact hknown rfl
  | @step events inst s s' hrun hstep ih =>
    obtain ⟨h, hvcc⟩ := ih hstart (fun e he => hcomputes e (List.mem_cons_of_mem _ he))
      (fun e he => hsteady e (List.mem_cons_of_mem _ he))
    obtain ⟨k, hk⟩ := exists_index_of_fetch hstep.fetched
    have hat : At program reachable k inst :=
      ⟨hk, hreach k inst hk (hrun.executed hstep.fetched)⟩
    have hcomputes' := hcomputes _ List.mem_cons_self
    have hsteady' := hsteady _ List.mem_cons_self
    exact ⟨agreed_step hfixed hseed hat hstep hcomputes' hsteady' h hvcc,
      vccAgrees_step hc hfixed hseed hat hstep hcomputes' hsteady' h hvcc⟩

theorem startOf_append (later earlier : List Event) (e : Event) :
    startOf (later ++ e :: earlier) s = startOf earlier e.before := by
  induction later generalizing s with
  | nil => rfl
  | cons first later ih => exact ih

/-- What `v_readfirstlane` gives: the value in the lowest active lane, in lane 0 if none is
active. -/
def readFirstLane (s : Wave) (field : ℕ) : ℕ :=
  s.operand field (((List.finRange 64).find? s.exec).getD 0)

theorem exists_active_readFirstLane {l : Lane} (hl : s.exec l = true) (field : ℕ) :
    ∃ m, s.exec m = true ∧ readFirstLane s field = s.operand field m := by
  cases hfind : (List.finRange 64).find? s.exec with
  | none => exact absurd hl (List.find?_eq_none.mp hfind l (List.mem_finRange l))
  | some m => exact ⟨m, List.find?_some hfind, by rw [readFirstLane, hfind, Option.getD_some]⟩

theorem proven_cases (h : (provenUniformReadFirstLane program reachable)[k]? = some true)
    (hk : program[k]? = some inst) : reachable[k]? = some true ∧ isReadFirstLane inst = true ∧
      sourceUniform (flags (stableUniform program reachable)) (src0 inst) = true := by
  rw [provenUniformReadFirstLane, List.getElem?_map, Option.map_eq_some_iff] at h
  obtain ⟨⟨inst', live⟩, hzip, hproven⟩ := h
  obtain ⟨hk', hlive⟩ := List.getElem?_zip_eq_some.mp hzip
  obtain rfl : inst' = inst := Option.some.inj (hk'.symm.trans hk)
  simp only [Bool.and_eq_true] at hproven
  obtain ⟨⟨⟨rfl, -⟩, hfirst⟩, huniform⟩ := hproven
  exact ⟨hlive, hfirst, huniform⟩

theorem operand_eq_readFirstLane {field : ℕ} (hagreed : Agreed u s) (huniform : sourceUniform u field = true)
    (hreads : ∀ r, field = 256 + r → ∀ l, s.exec l = true → s.reached r l = true)
    {active : Lane} (hactive : s.exec active = true) {l : Lane} (hl : ∀ r, field = 256 + r → s.reached r l = true) :
    s.operand field l = readFirstLane s field := by
  obtain ⟨m, hm, hvalue⟩ := exists_active_readFirstLane hactive field
  rw [hvalue]
  by_cases hvgpr : 256 ≤ field
  · obtain ⟨r, rfl⟩ := Nat.exists_eq_add_of_le hvgpr
    rw [sourceUniform_vgpr] at huniform
    rw [Wave.operand_vgpr, Wave.operand_vgpr]
    exact hagreed r huniform l m (hl r rfl) (hreads r rfl m hm)
  · exact Wave.operand_wide (Nat.lt_of_not_le hvgpr) l m

end Soundness

/-! ## A choice by EXEC, and a lane index -/

section Programs

/-- `v_mov_b32 v3, s0`, `s_mov_b64 vcc, exec`, `v_cndmask_b32 v4, s0, v3`,
`v_readfirstlane_b32 s1, v4` and the end. -/
def choiceCode : Code := fun d =>
  [0x7E060200, 0xBEEA047E, 0x00080600, 0x7E020504, 0xBF810000].getD d 0

/-- `v_mbcnt_lo_u32_b32 v3, -1, 0` in its VOP3 spelling, `v_readfirstlane_b32 s0, v3` and the
end. -/
def countCode : Code := fun d => [0xD2460003, 0x000100C1, 0x7E000503, 0xBF810000].getD d 0

def choiceProgram : Program := decodeShader (fun _ => false) choiceCode 5 .kBase

def countProgram : Program := decodeShader (fun _ => false) countCode 4 .kBase

theorem choiceProgram_eq : choiceProgram = [⟨.kBase, .kVop1, 1, 0x7E060200, 0, 1, 0, false, 0, .kNone⟩,
      ⟨.kBase, .kSop1, 4, 0xBEEA047E, 0, 1, 1, false, 0, .kNone⟩,
      ⟨.kBase, .kVop2, 0, 0x00080600, 0, 1, 2, false, 0, .kNone⟩,
      ⟨.kBase, .kVop1, 2, 0x7E020504, 0, 1, 3, false, 0, .kNone⟩,
      ⟨.kBase, .kSopp, 1, 0xBF810000, 0, 1, 4, false, 0, .kNone⟩] := by
  decide +kernel

theorem countProgram_eq : countProgram = [⟨.kBase, .kVop3, 0x123, 0xD2460003, 0x000100C1, 2, 0, false, 0, .kNone⟩,
      ⟨.kBase, .kVop1, 2, 0x7E000503, 0, 1, 2, false, 0, .kNone⟩,
      ⟨.kBase, .kSopp, 1, 0xBF810000, 0, 1, 3, false, 0, .kNone⟩] := by
  decide +kernel

theorem executed_countProgram : ∀ inst ∈ countProgram, Executed countProgram inst := by
  rw [countProgram_eq]
  intro inst hinst
  have h0 : Executed countProgram _ := .first (by rw [countProgram_eq]; rfl)
  have h1 := h0.next (.on rfl) (by rw [countProgram_eq]; rfl)
  have h2 := h1.next (.on rfl) (by rw [countProgram_eq]; rfl)
  rw [countProgram_eq] at h0 h1 h2
  simp only [List.mem_cons, List.not_mem_nil, or_false] at hinst
  rcases hinst with rfl | rfl | rfl
  · exact h0
  · exact h1
  · exact h2

theorem proven_countProgram : provenUniformReadFirstLane countProgram (computeReachability countProgram) =
      [false, true, false] := by
  rw [countProgram, computeReachability_eq_replicate executed_countProgram, ← countProgram, countProgram_eq]
  decide +kernel

def aluIsa : Isa where
  writes inst _ r := (isAlu inst ∨ (laneOp inst).isSome) ∧ r = vdst inst
  writes_laneOp h _ _ := by simp [h]

/-- `v_mov_b32` and `v_cndmask_b32`. -/
def moveAlu : Alu where
  reads inst _ := sources inst
  value inst :=
    if inst.enc = .kVop1 ∧ inst.opcode = 0x01 then some fun values _ => values.getD 0 0
    else if inst.enc = .kVop2 ∧ inst.opcode = 0x00 then
      some fun values bit => if bit then values.getD 1 0 else values.getD 0 0
    else none
  carry _ := none

/-- All lanes run; `s0` and `s1` hold `x`, VCC the given halves, `v3` and `v4` the given values. -/
def laneWave (pc x vcc : ℕ) (v3 v4 : Lane → ℕ) : Wave where
  pc := pc
  exec _ := true
  scalar r := if r ≤ 1 then x else if r = 106 ∨ r = 107 then vcc else 0
  vgpr r := if r = 3 then v3 else if r = 4 then v4 else fun _ => 0
  reached _ _ := true

section Steps

variable {program : Program} {reachable : List Bool} {inst : Inst} {k pc pc' x vcc vcc' : ℕ}
  {v3 v4 v3' v4' : Lane → ℕ}

theorem lane_step (vcc' : ℕ) (v3' v4' : Lane → ℕ) (hfetch : fetch program pc = some inst) (hgoes : Goes inst pc')
    (h3 : v3' = v3 ∨ aluIsa.writes inst (laneWave pc x vcc v3 v4).scalar 3)
    (h4 : v4' = v4 ∨ aluIsa.writes inst (laneWave pc x vcc v3 v4).scalar 4)
    (hop : ∀ op, laneOp inst = some op → ∀ l, (laneWave pc' x vcc' v3' v4').vgpr (vdst inst) l =
      op.value ((laneWave pc x vcc v3 v4).operand (src0 inst) l)
        ((laneWave pc x vcc v3 v4).operand (src1 inst) l) l) :
    Step aluIsa program inst (laneWave pc x vcc v3 v4) (laneWave pc' x vcc' v3' v4') where
  fetched := hfetch
  goes := hgoes
  kept r hr := by
    refine ⟨?_, rfl⟩
    by_cases hr3 : r = 3
    · subst hr3
      exact h3.resolve_right hr
    · by_cases hr4 : r = 4
      · subst hr4
        exact h4.resolve_right hr
      · simp only [laneWave, if_neg hr3, if_neg hr4]
  wrote _ _ := rfl
  result op h l _ := hop op h l

theorem vccBit_ones (l : Lane) : (laneWave pc x (2 ^ 32 - 1) v3 v4).vccBit l = true := by
  have hones : ∀ l : Lane, (if l.val < 32 then (2 ^ 32 - 1).testBit l.val
      else (2 ^ 32 - 1).testBit (l.val - 32)) = true := by decide
  exact hones l

theorem lane_step_plain (vcc' : ℕ) (v3' v4' : Lane → ℕ) (hfetch : fetch program pc = some inst)
    (hgoes : Goes inst pc') (h3 : v3' = v3 ∨ aluIsa.writes inst (laneWave pc x vcc v3 v4).scalar 3)
    (h4 : v4' = v4 ∨ aluIsa.writes inst (laneWave pc x vcc v3 v4).scalar 4) (hop : laneOp inst = none) :
    Step aluIsa program inst (laneWave pc x vcc v3 v4) (laneWave pc' x vcc' v3' v4') :=
  lane_step vcc' v3' v4' hfetch hgoes h3 h4 fun op h => by simp [hop] at h

theorem computes_plain {e : Event} (hvalue : moveAlu.value e.inst = none)
    (hexec : isVccExec e.inst = false) : Computes moveAlu e where
  result f hf := by
    rw [hvalue] at hf
    cases hf
  carried g hg := by cases hg
  fromExec h := by
    rw [hexec] at h
    cases h

theorem steady_lane (hc : Contiguous program) (hk : program[k]? = some inst)
    (hvalue : isAlu inst = true → (moveAlu.value inst).isSome = true)
    (hcompare : isCompare inst = false) (hop : laneOp inst = none) (hvcc : touchesVcc inst = false → vcc' = vcc) :
    Steady aluIsa moveAlu program reachable
      ⟨inst, laneWave pc x vcc v3 v4, laneWave (inst.pc + inst.size) x vcc' v3' v4'⟩ where
  named r hwrites _ := by
    obtain ⟨halu, rfl⟩ := hwrites
    exact ⟨halu.resolve_right (by simp [hop]), rfl⟩
  lanewise halu _ _ :=
    ⟨hvalue halu, fun _ hfield _ => ⟨List.mem_cons_of_mem _ hfield, fun _ _ => rfl⟩⟩
  compares _ _ h _ := by
    dsimp only at h
    rw [hcompare] at h
    cases h
  first _ _ _ _ _ _ := rfl
  lands k' inst' hfetch hk' _ := by
    have hnext : program[k + 1]? = some inst' := (hc.fetch_next hk).symm.trans hfetch
    exact ⟨k, (hc.index_unique hnext hk' rfl).symm, hk⟩
  keeps _ _ _ := by
    refine ⟨fun _ h => h, fun h l => ?_⟩
    obtain rfl := hvcc h
    rfl

end Steps

end Programs

end Prosperity.Gcn
