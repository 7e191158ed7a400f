import Prosperity.Rdna.ScalarSlice

/-!
# The steps as the scalar slice has them

What the pass makes live for an instruction is all that its step reads, and a step writes what the pass
takes it to write, with one exception: the pass takes a SOP1 or SOP2 instruction that names the null
register as its destination for a write of register 125.
-/

namespace Prosperity.Rdna

open Gcn (Enc ScalarMemory)

/-! ## What a step writes -/

/-- The registers that `n` writes from a destination field on reach. -/
def destRange (sdst n : ℕ) : Finset ℕ := if sdst = 125 then ∅ else use ∅ sdst n

def stepWrites (inst : Inst) : Finset ℕ :=
  match inst.enc with
  | .kSop1 => destRange inst.sdst (possibleScalarWrites inst).2
  | .kSop2 => insert kScc (destRange inst.sdst (possibleScalarWrites inst).2)
  | .kSopk => insert kScc (destRange inst.sdst (possibleScalarWrites inst).2)
  | .kSopc => {kScc}
  | .kSmrd => destRange (decodeSmem inst).sdst (smemLoadCount inst.opcode)
  | _ => ∅

def stepKills (inst : Inst) : Finset ℕ :=
  match inst.enc with
  | .kSop1 | .kSop2 => destRange inst.sdst (min 1 (possibleScalarWrites inst).2)
  | .kSopc => {kScc}
  | .kSmrd => destRange (decodeSmem inst).sdst (smemLoadCount inst.opcode)
  | _ => ∅

/-- What an instruction makes live: its sources, and the registers of its descriptors. -/
def sliceUses (inst : Inst) : Finset ℕ :=
  match inst.enc with
  | .kMimg => use (use ∅ inst.srsrc inst.imageDwords) inst.ssamp 4
  | .kMubuf | .kMtbuf => useSrc (use ∅ inst.srsrc 4) inst.soff
  | .kFlat => use ∅ inst.saddr 2
  | .kSmrd =>
    let smem := decodeSmem inst
    useSrc (use ∅ smem.sbase (if smem.op ≥ 0x08 then 4 else 2)) smem.soffset
  | .kSop1 => if inst.opcode = 0x03 ∨ inst.opcode = 0x04 then useSrc ∅ inst.ssrc0 else ∅
  | .kSopk => insert kScc (use ∅ inst.sdst 1)
  | .kSopc => useSrc (useSrc ∅ inst.ssrc0) inst.ssrc1
  | .kSop2 =>
    let sources := useSrc (useSrc ∅ inst.ssrc0) inst.ssrc1
    if inst.opcode ∈ [0x04, 0x05, 0x0A, 0x0B] then insert kScc sources else sources
  | _ => ∅

def NamesNull (inst : Inst) : Prop :=
  (inst.enc = .kSop1 ∨ inst.enc = .kSop2) ∧ inst.sdst = 125 ∧ (possibleScalarWrites inst).2 ≠ 0 ∧ 125 ∉ sliceUses inst

/-- The instruction reads a descriptor. -/
def isConsumer (inst : Inst) : Bool := inst.enc ∈ [Enc.kMimg, .kMubuf, .kMtbuf, .kFlat, .kSmrd]

/-- What `PossibleScalarWrites` gives for a scalar ALU instruction, with SCC. -/
def possibleWrites (inst : Inst) : Finset ℕ :=
  let r := possibleScalarWrites inst
  match inst.enc with
  | .kSop1 => use ∅ r.1 r.2
  | .kSop2 | .kSopk | .kSopc => insert kScc (use ∅ r.1 r.2)
  | _ => ∅

section Sets

variable {live : Finset ℕ} {reg n field r : ℕ}

@[simp]
theorem mem_use : r ∈ use live reg n ↔ r ∈ live ∨ (r < kRegs ∧ reg ≤ r ∧ r < reg + n) := by
  rw [use, Finset.mem_union, Finset.mem_filter, Finset.mem_range, kScc]

@[simp]
theorem mem_useSrc : r ∈ useSrc live field ↔ r ∈ live ∨ (field ≤ 127 ∧ r < kRegs ∧ field ≤ r ∧ r < field + 2) := by
  rw [useSrc]
  split_ifs with h
  · simp [h]
  · simp [h]

theorem subset_use : live ⊆ use live reg n := fun _ hr => mem_use.mpr (.inl hr)

theorem subset_useSrc : live ⊆ useSrc live field := fun _ hr => mem_useSrc.mpr (.inl hr)

@[simp]
theorem mem_destRange : r ∈ destRange reg n ↔ reg ≠ 125 ∧ r < kRegs ∧ reg ≤ r ∧ r < reg + n := by
  rw [destRange]
  split_ifs with h
  · simp [h]
  · simp [h]

theorem anyLive_eq_false : anyLive live reg n = false ↔ ∀ r, r < kRegs → reg ≤ r → r < reg + n → r ∉ live := by
  rw [anyLive, decide_eq_false_iff_not, not_not, Finset.disjoint_left]
  simp

theorem field_lt (w : ℕ) : w &&& 0x7F < 128 := by
  rw [show 0x7F = 2 ^ 7 - 1 from rfl, Nat.and_two_pow_sub_one_eq_mod]
  exact Nat.mod_lt _ (by decide)

theorem sdst_lt (inst : Inst) : inst.sdst < 128 := field_lt _

end Sets

/-! ## One turn of the pass -/

section Turn

variable {inst : Inst} {live : Finset ℕ} {r : ℕ}

/-- What the pass takes a step to write on every occasion. -/
def sliceKills (inst : Inst) : Finset ℕ :=
  match inst.enc with
  | .kSop1 | .kSop2 => if (possibleScalarWrites inst).2 ≠ 0 then {inst.sdst} else ∅
  | .kSopc => {kScc}
  | .kSmrd => destRange (decodeSmem inst).sdst (smemLoadCount inst.opcode)
  | _ => ∅

theorem mem_stepKills_of_sliceKills (h : r ∈ sliceKills inst) (huses : r ∉ sliceUses inst) :
    r ∈ stepKills inst ∨ (NamesNull inst ∧ r = 125) := by
  have halu : (inst.enc = .kSop1 ∨ inst.enc = .kSop2) → (possibleScalarWrites inst).2 ≠ 0 →
      r = inst.sdst → r ∈ destRange inst.sdst (min 1 (possibleScalarWrites inst).2) ∨
        (NamesNull inst ∧ r = 125) := by
    intro henc hcount hr
    by_cases hnull : inst.sdst = 125
    · exact .inr ⟨⟨henc, hnull, hcount, hnull ▸ hr ▸ huses⟩, hr.trans hnull⟩
    · have hlt := sdst_lt inst
      exact .inl (mem_destRange.mpr ⟨hnull, by rw [kRegs]; omega, by omega, by omega⟩)
  cases henc : inst.enc <;> simp only [sliceKills, henc] at h
  case kSop1 | kSop2 =>
    simp only [stepKills, henc]
    by_cases hcount : (possibleScalarWrites inst).2 ≠ 0
    · rw [if_pos hcount, Finset.mem_singleton] at h
      exact halu (by simp [henc]) hcount h
    · rw [if_neg hcount] at h
      exact absurd h (Finset.notMem_empty r)
  case kSopc | kSmrd =>
    simp only [stepKills, henc]
    exact .inl h
  all_goals exact absurd h (Finset.notMem_empty r)

theorem stepKills_subset_stepWrites : stepKills inst ⊆ stepWrites inst := by
  intro r hr
  cases henc : inst.enc <;> simp only [stepKills, henc] at hr <;> simp only [stepWrites, henc]
  case kSop1 =>
    rw [mem_destRange] at hr ⊢
    omega
  case kSop2 =>
    rw [mem_destRange] at hr
    exact Finset.mem_insert_of_mem (mem_destRange.mpr (by omega))
  case kSopc | kSmrd => exact hr
  all_goals exact absurd hr (Finset.notMem_empty r)

theorem stepKills_subset_sliceKills : stepKills inst ⊆ sliceKills inst := by
  intro r hr
  cases henc : inst.enc <;> simp only [stepKills, henc] at hr <;> simp only [sliceKills, henc]
  case kSop1 | kSop2 =>
    rw [mem_destRange] at hr
    rw [if_pos (by omega), Finset.mem_singleton]
    omega
  case kSopc | kSmrd => exact hr
  all_goals exact absurd hr (Finset.notMem_empty r)

theorem lt_of_mem_stepKills (hr : r ∈ stepKills inst) (hscc : r ≠ kScc) : r < kRegs := by
  cases henc : inst.enc <;> simp only [stepKills, henc] at hr
  case kSop1 | kSop2 | kSmrd => exact (mem_destRange.mp hr).2.1
  case kSopc => exact absurd (Finset.mem_singleton.mp hr) hscc
  all_goals exact absurd hr (Finset.notMem_empty r)

theorem disjoint_destRange {sdst n : ℕ} (h : ¬(n ≠ 0 ∧ anyLive live sdst n = true)) :
    Disjoint (destRange sdst n) live := by
  rw [Finset.disjoint_left]
  intro r hr
  rw [mem_destRange] at hr
  have hn : n ≠ 0 := by omega
  have hany : anyLive live sdst n = false := by simpa [hn] using h
  exact anyLive_eq_false.mp hany r hr.2.1 hr.2.2.1 hr.2.2.2

theorem possibleScalarWrites_sop2_ne (h : inst.enc = .kSop2) : (possibleScalarWrites inst).2 ≠ 0 := by
  simp only [possibleScalarWrites, h, sop2WriteDwords]
  split_ifs <;> decide

theorem disjoint_insert_kScc {regs : Finset ℕ} (hscc : kScc ∉ live) (h : Disjoint regs live) :
    Disjoint (insert kScc regs) live := Finset.disjoint_insert_left.mpr ⟨hscc, h⟩

theorem not_disjoint_of_needed (halu : inst.enc ∈ [Enc.kSop1, .kSop2, .kSopk, .kSopc])
    (h : (inst.enc ≠ .kSopc ∧ (possibleScalarWrites inst).2 ≠ 0 ∧
        anyLive live (possibleScalarWrites inst).1 (possibleScalarWrites inst).2 = true) ∨
      (inst.enc ≠ .kSop1 ∧ kScc ∈ live)) : ¬Disjoint (possibleWrites inst) live := by
  have huse : use ∅ (possibleScalarWrites inst).1 (possibleScalarWrites inst).2 ⊆ possibleWrites inst := by
    cases henc : inst.enc <;> simp [henc] at halu <;> simp only [possibleWrites, henc]
    case kSop1 => exact Finset.Subset.refl _
    all_goals exact Finset.subset_insert _ _
  intro hdisjoint
  rcases h with ⟨-, -, hany⟩ | ⟨henc, hscc⟩
  · rw [anyLive, decide_eq_true_eq] at hany
    exact hany (hdisjoint.mono_left huse)
  · refine Finset.disjoint_left.mp hdisjoint (?_ : kScc ∈ possibleWrites inst) hscc
    cases hcase : inst.enc <;> simp [hcase] at halu henc <;> simp only [possibleWrites, hcase]
    all_goals exact Finset.mem_insert_self _ _

/-- **One turn**: what is left out, or kept without its step, writes nothing that is live. -/
theorem sliceTurn_cases (inst : Inst) (live : Finset ℕ) :
    (sliceTurn inst live = none ∧ isConsumer inst = false ∧ Disjoint (stepWrites inst) live) ∨
      (sliceTurn inst live = some (false, live ∪ sliceUses inst) ∧ isConsumer inst = true ∧
        Disjoint (stepWrites inst) live) ∨
      (sliceTurn inst live = some (true, (live \ sliceKills inst) ∪ sliceUses inst) ∧
        (isConsumer inst = true ∨ ¬Disjoint (possibleWrites inst) live)) := by
  cases henc : inst.enc
  case kMimg | kMubuf | kMtbuf | kFlat =>
    refine .inr (.inl ⟨?_, by simp [isConsumer, henc], by simp [stepWrites, henc]⟩)
    simp only [sliceTurn, henc]
    congr 2
    ext r
    simp [sliceUses, henc, or_assoc]
  case kSmrd =>
    have hop : (decodeSmem inst).op = inst.opcode := rfl
    by_cases hstep : smemLoadCount inst.opcode ≠ 0 ∧ (decodeSmem inst).sdst ≠ 125 ∧
        anyLive live (decodeSmem inst).sdst (smemLoadCount inst.opcode) = true
    · refine .inr (.inr ⟨?_, .inl (by simp [isConsumer, henc])⟩)
      simp only [sliceTurn, henc, hop, decide_eq_true hstep, if_true]
      congr 2
      ext r
      simp [sliceUses, sliceKills, henc, or_assoc, hop, hstep.2.1]
    · refine .inr (.inl ⟨?_, by simp [isConsumer, henc], ?_⟩)
      · simp only [sliceTurn, henc, hop, decide_eq_false hstep]
        congr 2
        ext r
        simp [sliceUses, henc, or_assoc, hop]
      · simp only [stepWrites, henc]
        -- A load into the null register writes nothing, whatever is live.
        by_cases hnull : (decodeSmem inst).sdst = 125
        · simp [destRange, hnull]
        · exact disjoint_destRange fun h => hstep ⟨h.1, hnull, h.2⟩
  case kSop1 =>
    simp only [sliceTurn, henc]
    split
    · rename_i hneeded
      refine .inr (.inr ⟨?_, .inr (not_disjoint_of_needed (by simp [henc]) (by rwa [henc]))⟩)
      have hcount : (possibleScalarWrites inst).2 ≠ 0 := by simp at hneeded; exact hneeded.1
      have hlt : inst.sdst < kScc := (sdst_lt inst).trans (by decide)
      congr 2
      ext r
      by_cases hop : inst.opcode = 0x03 ∨ inst.opcode = 0x04
      · simp [sliceUses, sliceKills, henc, hop, hcount, hlt, and_comm]
      · simp [sliceUses, sliceKills, henc, hop, hcount, hlt, and_comm]
    · rename_i hneeded
      refine .inl ⟨rfl, by simp [isConsumer, henc], ?_⟩
      simp only [stepWrites, henc]
      refine disjoint_destRange fun h => hneeded (.inl ⟨by simp, h.1, ?_⟩)
      simpa [possibleScalarWrites, henc] using h.2
  case kSop2 =>
    simp only [sliceTurn, henc]
    split
    · rename_i hneeded
      refine .inr (.inr ⟨?_, .inr (not_disjoint_of_needed (by simp [henc]) (by rwa [henc]))⟩)
      have hcount := possibleScalarWrites_sop2_ne henc
      have hlt : inst.sdst < kScc := (sdst_lt inst).trans (by decide)
      congr 2
      ext r
      by_cases hop : inst.opcode ∈ [0x04, 0x05, 0x0A, 0x0B]
      · simp only [sliceUses, sliceKills, henc, if_pos hop]
        simp [hcount, hlt, hop, and_comm, or_assoc, or_left_comm]
      · simp only [sliceUses, sliceKills, henc, if_neg hop]
        simp [hcount, hlt, hop, and_comm, or_assoc, or_left_comm]
    · rename_i hneeded
      rw [not_or] at hneeded
      refine .inl ⟨rfl, by simp [isConsumer, henc], ?_⟩
      simp only [stepWrites, henc]
      refine disjoint_insert_kScc (fun h => hneeded.2 ⟨by simp, h⟩) ?_
      refine disjoint_destRange fun h => hneeded.1 ⟨by simp, h.1, ?_⟩
      simpa [possibleScalarWrites, henc] using h.2
  case kSopk =>
    simp only [sliceTurn, henc]
    split
    · rename_i hneeded
      refine .inr (.inr ⟨?_, .inr (not_disjoint_of_needed (by simp [henc]) (by rwa [henc]))⟩)
      congr 2
      ext r
      simp [sliceUses, sliceKills, henc, or_left_comm]
    · rename_i hneeded
      rw [not_or] at hneeded
      refine .inl ⟨rfl, by simp [isConsumer, henc], ?_⟩
      simp only [stepWrites, henc]
      refine disjoint_insert_kScc (fun h => hneeded.2 ⟨by simp, h⟩) ?_
      refine disjoint_destRange fun h => hneeded.1 ⟨by simp, h.1, ?_⟩
      -- With no registers to write the first one does not matter.
      have hfirst : (possibleScalarWrites inst).1 = inst.sdst := by
        have hcount := h.1
        simp only [possibleScalarWrites, henc] at hcount ⊢
        split_ifs at hcount ⊢ <;> first | rfl | exact absurd rfl hcount
      rw [hfirst]
      exact h.2
  case kSopc =>
    simp only [sliceTurn, henc]
    split
    · rename_i hneeded
      refine .inr (.inr ⟨?_, .inr (not_disjoint_of_needed (by simp [henc]) (by rwa [henc]))⟩)
      congr 2
      ext r
      simp [sliceUses, sliceKills, henc, and_comm, or_assoc]
    · rename_i hneeded
      rw [not_or] at hneeded
      refine .inl ⟨rfl, by simp [isConsumer, henc], ?_⟩
      simp only [stepWrites, henc, Finset.disjoint_singleton_left]
      exact fun h => hneeded.2 ⟨by simp, h⟩
  all_goals
    exact .inl ⟨by simp only [sliceTurn, henc], by simp [isConsumer, henc], by simp [stepWrites, henc]⟩

end Turn

/-! ## What the updates write -/

section Updates

variable {e f : ScalarEval} {inst : Inst} {guest : ScalarMemory} {codeAddr sdst m n r : ℕ}
  {u : Update} {v w : Option UInt32}

/-- An update writes the `m` registers from a destination field on. -/
def Fills (sdst m : ℕ) (writes : List (ℕ × Option UInt32)) : Prop :=
  ∀ r, r ∈ writes.map Prod.fst ↔ sdst ≠ 125 ∧ sdst ≤ r ∧ r < sdst + m

theorem fills_nil : Fills sdst 0 [] := by
  intro r
  simp only [List.map_nil, List.not_mem_nil, false_iff]
  omega

theorem fills_one : Fills sdst 1 (setDest sdst 0 v) := by
  intro r
  rw [setDest]
  split_ifs with h
  · simp only [List.map_cons, List.map_nil, List.mem_singleton]
    omega
  · simp only [List.map_nil, List.not_mem_nil, false_iff]
    omega

theorem fills_two : Fills sdst 2 (setDest sdst 0 v ++ setDest sdst 1 w) := by
  intro r
  rw [setDest, setDest]
  split_ifs with h
  · simp only [List.map_append, List.map_cons, List.map_nil, List.mem_append, List.mem_singleton]
    omega
  · simp only [List.map_nil, List.append_nil, List.not_mem_nil, false_iff]
    omega

theorem fills_range (f : ℕ → Option UInt32) : Fills sdst n ((List.range n).flatMap fun i => setDest sdst i (f i)) := by
  intro r
  rw [List.mem_map]
  simp only [List.mem_flatMap, List.mem_range, setDest]
  constructor
  · rintro ⟨_, ⟨i, hi, hmem⟩, rfl⟩
    split_ifs at hmem with h
    · rw [List.mem_singleton.mp hmem]
      exact ⟨h, by omega, by omega⟩
    · exact absurd hmem List.not_mem_nil
  · rintro ⟨h, hle, hlt⟩
    exact ⟨(r, f (r - sdst)), ⟨r - sdst, by omega, by simp [h]; omega⟩, rfl⟩

theorem fills_append {ws vs : List (ℕ × Option UInt32)} (h : Fills sdst m ws) (h' : Fills sdst n vs)
    (hle : n ≤ m) : Fills sdst m (ws ++ vs) := by
  intro r
  rw [List.map_append, List.mem_append, h r, h' r]
  omega

theorem fills_updateSop1 : Fills inst.sdst (sop1WriteDwords inst.opcode) (e.updateSop1 inst codeAddr).writes := by
  rw [ScalarEval.updateSop1]
  split_ifs with hmov hpair hpc
  · rw [hmov]
    exact fills_one
  · rw [hpair]
    split <;> exact fills_two
  · rw [hpc.1]
    exact fills_two
  · exact fills_range _

/-- Between one dword and those that the pass expects. -/
def FillsUpTo (sdst n : ℕ) (writes : List (ℕ × Option UInt32)) : Prop :=
  ∃ m, 1 ≤ m ∧ m ≤ n ∧ Fills sdst m writes

theorem sop2WriteDwords_pos (op : ℕ) : 1 ≤ sop2WriteDwords op := by
  rw [sop2WriteDwords]
  split_ifs <;> decide

theorem sop2WriteDwords_wide {op : ℕ} (h : op = 0x0B ∨ op = 0x29 ∨ op = 0x2A ∨
    (op ≥ 0x0F ∧ op ≤ 0x23 ∧ op &&& 1 ≠ 0)) : sop2WriteDwords op = 2 := by
  rw [sop2WriteDwords]
  rw [Nat.and_one_is_mod] at h ⊢
  rw [if_neg (by omega)]
  split_ifs <;> omega

theorem fillsUpTo_one {op : ℕ} : FillsUpTo sdst (sop2WriteDwords op) (setDest sdst 0 v) :=
  ⟨1, le_rfl, sop2WriteDwords_pos op, fills_one⟩

theorem fillsUpTo_two {op : ℕ} (h : op = 0x0B ∨ op = 0x29 ∨ op = 0x2A ∨ (op ≥ 0x0F ∧ op ≤ 0x23 ∧ op &&& 1 ≠ 0)) :
    FillsUpTo sdst (sop2WriteDwords op) (setDest sdst 0 v ++ setDest sdst 1 w) :=
  ⟨2, by decide, (sop2WriteDwords_wide h).ge, fills_two⟩

theorem fillsUpTo_ite {op : ℕ} {p : Prop} [Decidable p] (h : p → op = 0x0B ∨ op = 0x29 ∨ op = 0x2A ∨
    (op ≥ 0x0F ∧ op ≤ 0x23 ∧ op &&& 1 ≠ 0)) :
    FillsUpTo sdst (sop2WriteDwords op) (setDest sdst 0 v ++ if p then setDest sdst 1 w else []) := by
  split_ifs with hp
  · exact fillsUpTo_two (h hp)
  · rw [List.append_nil]
    exact fillsUpTo_one

theorem fillsUpTo_updateWide {a : UInt32} {g : UInt64 → UInt64} (h : inst.opcode = 0x0B ∨
    inst.opcode = 0x29 ∨ inst.opcode = 0x2A ∨ (inst.opcode ≥ 0x0F ∧ inst.opcode ≤ 0x23 ∧ inst.opcode &&& 1 ≠ 0)) :
    FillsUpTo inst.sdst (sop2WriteDwords inst.opcode) (e.updateWide inst a g).writes := by
  rw [ScalarEval.updateWide]
  split <;> exact fillsUpTo_two h

theorem fillsUpTo_updateNarrow {a b : UInt32} :
    FillsUpTo inst.sdst (sop2WriteDwords inst.opcode) (e.updateNarrow inst a b).writes := by
  rw [ScalarEval.updateNarrow]
  split_ifs with hcarry hwide
  · split <;> exact fillsUpTo_one
  · split
    · exact fillsUpTo_one
    · exact fillsUpTo_two (hwide.imp_right fun h => h.imp_right .inr)
  · split
    · exact fillsUpTo_one
    · rw [List.append_nil]
      exact fillsUpTo_one

/-- **SOP2** always writes its first dword, and a second one only where the pass expects two. -/
theorem fillsUpTo_updateSop2 : FillsUpTo inst.sdst (sop2WriteDwords inst.opcode) (e.updateSop2 inst).writes := by
  rw [ScalarEval.updateSop2]
  by_cases hselect : inst.opcode = 0x0A ∨ inst.opcode = 0x0B
  · rw [if_pos hselect, ScalarEval.updateCselect]
    split
    · exact fillsUpTo_ite .inl
    · exact fillsUpTo_ite .inl
  rw [if_neg hselect]
  split
  · split
    · exact fillsUpTo_updateWide (by tauto)
    · split
      · rename_i hshift
        refine fillsUpTo_updateWide (.inr (.inr (.inr ?_)))
        rcases hshift with h | h | h <;> rw [h] <;> decide
      · exact fillsUpTo_updateNarrow
  · -- A source is not known.
    refine fillsUpTo_ite fun hwide => ?_
    simp only [sop2Wide, List.mem_cons, List.not_mem_nil, or_false, decide_eq_true_eq] at hwide
    rw [Nat.and_one_is_mod]
    omega

/-- **SOPK** writes one dword at most. -/
theorem fills_updateSopk (hone : inst.opcode ∈ [0x00, 0x02, 0x0F, 0x10, 0x12] → 1 ≤ n) :
    ∃ m ≤ n, Fills inst.sdst m (e.updateSopk inst).writes := by
  simp only [ScalarEval.updateSopk]
  split
  · rename_i h
    exact ⟨1, hone (by simp [h]), fills_one⟩
  split
  · rename_i h
    split
    · exact ⟨1, hone (by simp [h]), fills_one⟩
    · exact ⟨1, hone (by simp [h]), fills_one⟩
    · exact ⟨0, Nat.zero_le _, fills_nil⟩
  split
  · exact ⟨0, Nat.zero_le _, fills_nil⟩
  split
  · rename_i h
    split
    · exact ⟨1, hone (by simp only [List.mem_cons]; omega), fills_one⟩
    · exact ⟨0, Nat.zero_le _, fills_nil⟩
  split
  · rename_i h
    exact ⟨1, hone (by simp [h]), fills_one⟩
  · exact ⟨0, Nat.zero_le _, fills_nil⟩

theorem fills_updateSmem : Fills (decodeSmem inst).sdst (smemLoadCount inst.opcode)
    (e.updateSmem inst guest).writes := by
  simp only [ScalarEval.updateSmem]
  cases e.smemAddress inst guest with
  | none => exact fills_append (fills_range _) (n := 0) fills_nil (Nat.zero_le _)
  | some address => exact fills_append (fills_range _) (fills_range _) le_rfl

/-- **What an instruction writes** is what the pass expects, and all of it where the pass counts on it. -/
theorem update_writes (e : ScalarEval) (inst : Inst) (guest : ScalarMemory) (codeAddr : ℕ) :
    (∀ r ∈ (e.update inst guest codeAddr).writes.map Prod.fst, r < kRegs → r ∈ stepWrites inst) ∧
      ∀ r ∈ stepKills inst, r < kRegs → r ∈ (e.update inst guest codeAddr).writes.map Prod.fst := by
  cases henc : inst.enc <;> simp only [ScalarEval.update, stepWrites, stepKills, henc]
  case kSop1 =>
    have hfills : Fills inst.sdst (sop1WriteDwords inst.opcode) (e.updateSop1 inst codeAddr).writes :=
      fills_updateSop1
    refine ⟨fun r hr hlt => ?_, fun r hr hlt => ?_⟩
    · have hmem := (hfills r).mp hr
      simp only [mem_destRange, possibleScalarWrites, henc]
      omega
    · simp only [mem_destRange, possibleScalarWrites, henc] at hr
      exact (hfills r).mpr (by omega)
  case kSop2 =>
    obtain ⟨m, hpos, hle, hfills⟩ : FillsUpTo inst.sdst (sop2WriteDwords inst.opcode)
      (e.updateSop2 inst).writes := fillsUpTo_updateSop2
    refine ⟨fun r hr hlt => ?_, fun r hr hlt => ?_⟩
    · have hmem := (hfills r).mp hr
      simp only [Finset.mem_insert, mem_destRange, possibleScalarWrites, henc]
      omega
    · simp only [mem_destRange, possibleScalarWrites, henc] at hr
      exact (hfills r).mpr (by omega)
  case kSopk =>
    have hone : inst.opcode ∈ [0x00, 0x02, 0x0F, 0x10, 0x12] → 1 ≤ (possibleScalarWrites inst).2 := by
      intro hmem
      simp only [possibleScalarWrites, henc, if_pos hmem]
      split
      · exact Nat.le_succ 1
      · exact le_rfl
    obtain ⟨m, hle, hfills⟩ := fills_updateSopk (e := e) hone
    refine ⟨fun r hr hlt => ?_, fun r hr _ => absurd hr (Finset.notMem_empty r)⟩
    have hmem := (hfills r).mp hr
    rw [Finset.mem_insert, mem_destRange]
    omega
  case kSopc =>
    refine ⟨fun r hr _ => absurd hr List.not_mem_nil, fun r hr hlt => ?_⟩
    -- SCC is no register.
    rw [Finset.mem_singleton.mp hr] at hlt
    exact absurd hlt (lt_irrefl _)
  case kSmrd =>
    have hfills : Fills (decodeSmem inst).sdst (smemLoadCount inst.opcode)
        (e.updateSmem inst guest).writes := fills_updateSmem
    refine ⟨fun r hr hlt => ?_, fun r hr hlt => ?_⟩
    · have hmem := (hfills r).mp hr
      rw [mem_destRange]
      omega
    · rw [mem_destRange] at hr
      exact (hfills r).mpr (by omega)
  all_goals
    exact ⟨fun r hr _ => absurd hr List.not_mem_nil, fun r hr _ => absurd hr (Finset.notMem_empty r)⟩

theorem updateSop1_scc : (e.updateSop1 inst codeAddr).scc = none := by
  rw [ScalarEval.updateSop1]
  split_ifs
  · rfl
  · split <;> rfl
  · rfl
  · rfl

theorem update_scc (e : ScalarEval) (inst : Inst) (guest : ScalarMemory) (codeAddr : ℕ) :
    (kScc ∉ stepWrites inst → (e.update inst guest codeAddr).scc = none) ∧
      (kScc ∈ stepKills inst → ∃ scc, (e.update inst guest codeAddr).scc = some scc) := by
  have hrange : ∀ sdst n, kScc ∉ destRange sdst n := by
    intro sdst n h
    exact absurd (mem_destRange.mp h).2.1 (lt_irrefl _)
  cases henc : inst.enc <;> simp only [ScalarEval.update, stepWrites, stepKills, henc]
  case kSop1 => exact ⟨fun _ => updateSop1_scc, fun h => absurd h (hrange _ _)⟩
  case kSop2 => exact ⟨fun h => absurd (Finset.mem_insert_self _ _) h, fun h => absurd h (hrange _ _)⟩
  case kSopk =>
    exact ⟨fun h => absurd (Finset.mem_insert_self _ _) h, fun h => absurd h (Finset.notMem_empty _)⟩
  case kSopc => exact ⟨fun h => absurd (Finset.mem_singleton_self _) h, fun _ => ⟨_, rfl⟩⟩
  case kSmrd => exact ⟨fun _ => rfl, fun h => absurd h (hrange _ _)⟩
  all_goals exact ⟨fun _ => trivial, fun h => absurd h (Finset.notMem_empty _)⟩

end Updates

/-! ## What an update depends on -/

section Sources

variable {e f : ScalarEval} {inst : Inst} {guest : ScalarMemory} {codeAddr field s n : ℕ}
  {live : Finset ℕ} {ws : List (ℕ × Option UInt32)}

def SameSource (field : ℕ) (e f : ScalarEval) : Prop :=
  field ≤ 127 → ∀ r, field ≤ r → r < field + 2 → e.reg r = f.reg r

theorem SameSource.source (h : SameSource field e f) (literal : ℕ) :
    e.source field literal = f.source field literal := by
  rw [ScalarEval.source, ScalarEval.source]
  split_ifs with hnull hreg
  · rfl
  · exact h hreg field le_rfl (by omega)
  · rfl

theorem SameSource.sourceHi (h : SameSource field e f) : e.sourceHi field = f.sourceHi field := by
  rw [ScalarEval.sourceHi, ScalarEval.sourceHi]
  split_ifs with hnull hreg
  · rfl
  · rw [ScalarEval.source, ScalarEval.source]
    split_ifs with hnext hlt
    · rfl
    · exact h (by omega) (field + 1) (by omega) (by omega)
    · rfl
  · rfl

theorem SameSource.assign (h : SameSource field e f) : SameSource field (e.assign ws) (f.assign ws) :=
  fun hfield r hle hlt => ScalarEval.reg_assign_congr (.inr (h hfield r hle hlt))

/-- The value of a live register, or of SCC. -/
def ScalarEval.slot (e : ScalarEval) (r : ℕ) : Option UInt32 :=
  if r = kScc then e.scc.map fun scc => if scc then 1 else 0 else e.reg r

theorem slot_of_lt {r : ℕ} (h : r < kRegs) : e.slot r = e.reg r := if_neg h.ne

theorem scc_eq_of_slot (h : e.slot kScc = f.slot kScc) : e.scc = f.scc := by
  rw [ScalarEval.slot, ScalarEval.slot, if_pos rfl, if_pos rfl] at h
  revert h
  rcases e.scc with _ | _ | _ <;> rcases f.scc with _ | _ | _ <;> simp

def SameOn (live : Finset ℕ) (e f : ScalarEval) : Prop := ∀ r ∈ live, e.slot r = f.slot r

theorem SameOn.mono {regs : Finset ℕ} (h : SameOn live e f) (hsub : regs ⊆ live) : SameOn regs e f :=
  fun r hr => h r (hsub hr)

theorem SameOn.sameSource (h : SameOn (useSrc live field) e f) : SameSource field e f := by
  intro hfield r hle hlt
  have hr : r < kRegs := by rw [kRegs]; omega
  have hslot := h r (mem_useSrc.mpr (.inr ⟨hfield, hr, hle, hlt⟩))
  rwa [slot_of_lt hr, slot_of_lt hr] at hslot

theorem SameOn.reg (h : SameOn live e f) (hsub : use ∅ s n ⊆ live) {i : ℕ} (hi : i < n)
    (hlt : s + i < kRegs) : e.reg (s + i) = f.reg (s + i) := by
  have hslot := h _ (hsub (mem_use.mpr (.inr ⟨hlt, Nat.le_add_right s i, by omega⟩)))
  rwa [slot_of_lt hlt, slot_of_lt hlt] at hslot

theorem SameOn.allKnown (h : SameOn live e f) (hsub : use ∅ s n ⊆ live) : e.allKnown s n = f.allKnown s n := by
  rw [ScalarEval.allKnown, ScalarEval.allKnown, decide_eq_decide]
  refine and_congr_right fun hle => ?_
  simp only [List.all_eq_true, List.mem_range]
  refine forall₂_congr fun i hi => ?_
  rw [h.reg hsub hi (by omega)]

theorem SameOn.ptr (h : SameOn live e f) (hsub : use ∅ s n ⊆ live) (hn : 2 ≤ n)
    (hle : s + n ≤ kRegs) : e.ptr s = f.ptr s := by
  have hlow := h.reg hsub (i := 0) (by omega) (by omega)
  have hhigh := h.reg hsub (i := 1) (by omega) (by omega)
  rw [ScalarEval.ptr, ScalarEval.ptr, ScalarEval.sgpr, ScalarEval.sgpr, ScalarEval.sgpr, ScalarEval.sgpr, hhigh]
  rw [Nat.add_zero] at hlow
  rw [hlow]

theorem SameOn.smemAddress (h : SameOn (sliceUses inst) e f) (henc : inst.enc = .kSmrd) :
    e.smemAddress inst guest = f.smemAddress inst guest := by
  simp only [sliceUses, henc] at h
  have hbase : use ∅ (decodeSmem inst).sbase (if (decodeSmem inst).op ≥ 0x08 then 4 else 2) ⊆
      useSrc (use ∅ (decodeSmem inst).sbase (if (decodeSmem inst).op ≥ 0x08 then 4 else 2))
        (decodeSmem inst).soffset := subset_useSrc
  have hoffset : SameSource (decodeSmem inst).soffset e f := h.sameSource
  have hknown := h.allKnown hbase
  simp only [ScalarEval.smemAddress, decide_eq_true_eq]
  rw [hknown, hoffset.source]
  by_cases hall : f.allKnown (decodeSmem inst).sbase
      (if (decodeSmem inst).op ≥ 0x08 then 4 else 2) = true
  · have hle := hall
    simp only [ScalarEval.allKnown, decide_eq_true_eq] at hle
    rw [h.ptr hbase (by split <;> decide) hle.1]
  · rw [if_neg hall, if_neg hall]

theorem updateSop1_congr (h : SameOn (sliceUses inst) e f) (henc : inst.enc = .kSop1) :
    e.updateSop1 inst codeAddr = f.updateSop1 inst codeAddr := by
  simp only [sliceUses, henc] at h
  have hsource : inst.opcode = 0x03 ∨ inst.opcode = 0x04 → SameSource inst.ssrc0 e f := by
    intro hop
    rw [if_pos hop] at h
    exact h.sameSource
  rw [ScalarEval.updateSop1, ScalarEval.updateSop1]
  by_cases hmov : inst.opcode = 0x03
  · rw [if_pos hmov, if_pos hmov, (hsource (.inl hmov)).source]
  by_cases hpair : inst.opcode = 0x04
  · rw [(hsource (.inr hpair)).source, (hsource (.inr hpair)).sourceHi]
  · rw [if_neg hmov, if_neg hmov, if_neg hpair, if_neg hpair]

theorem updateCselect_congr (h0 : SameSource inst.ssrc0 e f) (h1 : SameSource inst.ssrc1 e f)
    (hscc : e.scc = f.scc) : e.updateCselect inst = f.updateCselect inst := by
  rw [ScalarEval.updateCselect, ScalarEval.updateCselect, hscc]
  cases f.scc with
  | none => rfl
  | some scc =>
    have hsource : SameSource (if scc then inst.ssrc0 else inst.ssrc1) e f := by
      cases scc with
      | true => exact h0
      | false => exact h1
    -- The second dword is read behind the first write, which is the same.
    simp only [hsource.source, hsource.assign.sourceHi]

theorem updateNarrow_congr (a b : UInt32) (hscc : inst.opcode = 0x04 ∨ inst.opcode = 0x05 → e.scc = f.scc) :
    e.updateNarrow inst a b = f.updateNarrow inst a b := by
  rw [ScalarEval.updateNarrow, ScalarEval.updateNarrow]
  by_cases hcarry : inst.opcode = 0x04 ∨ inst.opcode = 0x05
  · rw [hscc hcarry]
  · rw [if_neg hcarry, if_neg hcarry]

theorem updateSop2_congr (h : SameOn (sliceUses inst) e f) (henc : inst.enc = .kSop2) :
    e.updateSop2 inst = f.updateSop2 inst := by
  simp only [sliceUses, henc] at h
  have hscc : inst.opcode ∈ [0x04, 0x05, 0x0A, 0x0B] → e.scc = f.scc := by
    intro hop
    rw [if_pos hop] at h
    exact scc_eq_of_slot (h _ (Finset.mem_insert_self _ _))
  have hsources : SameOn (useSrc (useSrc ∅ inst.ssrc0) inst.ssrc1) e f := by
    split at h
    · exact h.mono (Finset.subset_insert _ _)
    · exact h
  have h0 : SameSource inst.ssrc0 e f := (hsources.mono subset_useSrc).sameSource
  have h1 : SameSource inst.ssrc1 e f := hsources.sameSource
  rw [ScalarEval.updateSop2, ScalarEval.updateSop2]
  by_cases hselect : inst.opcode = 0x0A ∨ inst.opcode = 0x0B
  · rw [if_pos hselect, if_pos hselect]
    exact updateCselect_congr h0 h1 (hscc (by simp; omega))
  · have hnarrow : ∀ a b, e.updateNarrow inst a b = f.updateNarrow inst a b := fun a b =>
      updateNarrow_congr a b fun hop => hscc (by simp; omega)
    rw [if_neg hselect, if_neg hselect, h0.source, h1.source]
    simp only [ScalarEval.updateWide, h0.sourceHi, hnarrow]

theorem updateSopk_congr (h : SameOn (sliceUses inst) e f) (henc : inst.enc = .kSopk) :
    e.updateSopk inst = f.updateSopk inst := by
  simp only [sliceUses, henc] at h
  have hscc : e.scc = f.scc := scc_eq_of_slot (h _ (Finset.mem_insert_self _ _))
  have hsource : e.source inst.sdst 0 = f.source inst.sdst 0 := by
    have hlt := sdst_lt inst
    have hreg := (h.mono (Finset.subset_insert _ _)).reg (s := inst.sdst) (n := 1) (i := 0)
      (Finset.Subset.refl _) one_pos (by rw [kRegs]; omega)
    rw [ScalarEval.source, ScalarEval.source]
    rw [Nat.add_zero] at hreg
    rw [hreg]
  simp only [ScalarEval.updateSopk, hscc, hsource]

theorem updateSopc_congr (h : SameOn (sliceUses inst) e f) (henc : inst.enc = .kSopc) :
    e.updateSopc inst = f.updateSopc inst := by
  simp only [sliceUses, henc] at h
  have h0 : SameSource inst.ssrc0 e f := (h.mono subset_useSrc).sameSource
  have h1 : SameSource inst.ssrc1 e f := h.sameSource
  simp only [ScalarEval.updateSopc, h0.source, h1.source, h0.sourceHi, h1.sourceHi]

/-- **An update depends on what the pass makes live.** -/
theorem update_congr (h : SameOn (sliceUses inst) e f) :
    e.update inst guest codeAddr = f.update inst guest codeAddr := by
  cases henc : inst.enc <;> simp only [ScalarEval.update, henc]
  case kSop1 => exact updateSop1_congr h henc
  case kSop2 => exact updateSop2_congr h henc
  case kSopk => exact updateSopk_congr h henc
  case kSopc => exact updateSopc_congr h henc
  case kSmrd => simp only [ScalarEval.updateSmem, h.smemAddress henc]

end Sources

/-! ## The steps of the pass -/

section Steps

variable {e f : ScalarEval} {inst : Inst} {r : ℕ}

theorem slot_apply_kScc (e : ScalarEval) (u : Update) : (e.apply u).slot kScc =
      match u.scc with
      | some scc => scc.map fun scc => if scc then 1 else 0
      | none => e.slot kScc := by
  rw [ScalarEval.slot, ScalarEval.slot, if_pos rfl, if_pos rfl, ScalarEval.apply]
  cases u.scc <;> rfl

theorem slot_apply_of_ne (hr : r ≠ kScc) (e : ScalarEval) (u : Update) :
    (e.apply u).slot r = (e.assign u.writes).reg r := if_neg hr

/-- **The steps as the pass has them.** -/
def sliceTracked (guest : ScalarMemory) (codeAddr : ℕ) : Tracked Inst ScalarEval ℕ (Option UInt32) where
  step inst e := e.step inst guest codeAddr
  reg := ScalarEval.slot
  reads := sliceUses
  writes := stepWrites
  kills := stepKills
  frame {inst r} hr e := by
    rw [ScalarEval.step]
    by_cases hscc : r = kScc
    · rw [hscc] at hr ⊢
      rw [slot_apply_kScc, (update_scc e inst guest codeAddr).1 hr]
    · rw [slot_apply_of_ne hscc, ScalarEval.reg_assign_of_notMem, ScalarEval.slot, if_neg hscc]
      exact fun hlt hmem => hr ((update_writes e inst guest codeAddr).1 r hmem hlt)
  determined {inst e f r} hreads hold := by
    have hupdate : e.update inst guest codeAddr = f.update inst guest codeAddr := update_congr hreads
    rw [ScalarEval.step, ScalarEval.step, hupdate]
    by_cases hscc : r = kScc
    · rw [hscc] at hold ⊢
      rw [slot_apply_kScc, slot_apply_kScc]
      by_cases hkill : kScc ∈ stepKills inst
      · obtain ⟨scc, hsome⟩ := (update_scc f inst guest codeAddr).2 hkill
        rw [hsome]
      · rw [hold hkill]
    · rw [slot_apply_of_ne hscc, slot_apply_of_ne hscc]
      apply ScalarEval.reg_assign_congr
      rw [ScalarEval.slot, ScalarEval.slot, if_neg hscc, if_neg hscc] at hold
      by_cases hkill : r ∈ stepKills inst
      · have hlt := lt_of_mem_stepKills hkill hscc
        exact .inl ⟨hlt, (update_writes f inst guest codeAddr).2 r hkill hlt⟩
      · exact .inr (hold hkill)

end Steps

end Prosperity.Rdna
