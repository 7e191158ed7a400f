import Mathlib.Data.Set.Insert
import Prosperity.Foundations.DataFlow
import Prosperity.Rdna.Reachability
import Prosperity.Rdna.ScalarEvalSound
import Prosperity.Rdna.ScalarWrites

/-!
# The indices of relative moves

`PlanMovrelIndices` follows M0 through a program: a small set of values for each scalar register, carried
along the branches of the SOPP family until nothing changes, or given up when the budget runs out. At a
relative move whose M0 has a set, the plan has the set.

The sets miss what an instruction writes that is in no range of `PossibleScalarWrites`, and that the null
register reads as zero. The registers that such a write has reached are `Stained`.
-/

namespace Prosperity.Rdna

open Gcn (Enc ScalarMemory)

/-! ## Value sets -/

def kMaxIndexValues : ℕ := 64

def kTrackedSgprs : ℕ := 128

/-- A sorted list of values, or `none` for any. -/
abbrev ValueSet := Option (List UInt32)

namespace ValueSet

def add (set : ValueSet) (v : UInt32) : ValueSet :=
  set.bind fun values =>
    let values := if v ∈ values then values else values.orderedInsert (· ≤ ·) v
    if kMaxIndexValues < values.length then none else some values

def join (a b : ValueSet) : ValueSet := a.bind fun _ => b.bind fun values => values.foldl add a

end ValueSet

abbrev ScalarSets := ℕ → ValueSet

section Transfer

variable (state : ScalarSets) (inst : Inst)

def movOperand (src : ℕ) : ValueSet :=
  if src < kTrackedSgprs then state src
  else if 128 ≤ src ∧ src ≤ 192 then some [.ofNat (src - 128)]
  else if 193 ≤ src ∧ src ≤ 208 then some [-.ofNat (src - 192)]
  else if src = 255 then some [.ofNat inst.literal]
  else none

/-- The operations of `Apply` on two values. -/
def applyValue (op : ℕ) (x y : UInt32) : Option UInt32 :=
  match op with
  | 0x00 | 0x02 => some (x + y)
  | 0x0e => some (x &&& y)
  | 0x1e => some (x <<< (y &&& 31))
  | 0x20 => some (x >>> (y &&& 31))
  | 0x26 => some (x * y)
  | _ => none

def applyPairs (op : ℕ) (a b : List UInt32) : ValueSet :=
  (a.flatMap fun x => b.map fun y => applyValue op x y).foldl (fun out v => v.bind out.add) (some [])

/-- The numbers below `n`, as words. -/
def wordsBelow (n : ℕ) : List UInt32 := (List.range n).map .ofNat

def applySets (op : ℕ) (a b : ValueSet) : ValueSet :=
  if op = 0x27 then
    match b with
    | some [v] =>
      let offset := v &&& 31
      let width := (v >>> 16) &&& 0x7F
      if width > 6 ∨ offset + width > 32 then none else (wordsBelow (2 ^ width.toNat)).foldl ValueSet.add (some [])
    | _ => none
  else
    let pairs : ValueSet := a.bind fun as => b.bind fun bs => applyPairs op as bs
    match b with
    | some [v] =>
      if op = 0x0e ∧ v.toNat < kMaxIndexValues then
        ((wordsBelow (v.toNat + 1)).filter fun x => x &&& ~~~v = 0).foldl ValueSet.add (some [])
      else pairs
    | _ => pairs

/-- The instruction is one that `Step` models. -/
def isModelled : Bool :=
  (inst.enc = .kSopk ∧ inst.opcode = 0x00) ∨ (inst.enc = .kSop1 ∧ inst.opcode = 0x03) ∨
    (inst.enc = .kSop2 ∧ inst.opcode ∈ [0x00, 0x02, 0x0e, 0x1e, 0x20, 0x26, 0x27])

def movResult : ValueSet :=
  match inst.enc with
  | .kSopk => some [(UInt16.ofNat inst.word0).toInt16.toInt32.toUInt32]
  | .kSop1 => movOperand state inst inst.ssrc0
  | _ => applySets inst.opcode (movOperand state inst inst.ssrc0) (movOperand state inst inst.ssrc1)

def movStep : ScalarSets := fun r =>
  if r < kTrackedSgprs ∧ InRange inst r then
    if isModelled inst ∧ r = inst.sdst then movResult state inst else none
  else state r

end Transfer

/-! ## Blocks -/

/-- `s_endpgm` and the SOPP instructions that the plan takes for branches. -/
def isSoppBranch (inst : Inst) : Bool := inst.enc = .kSopp ∧ 0x02 ≤ inst.opcode ∧ inst.opcode ≤ 0x09

def isSoppEnd (inst : Inst) : Bool := inst.enc = .kSopp ∧ inst.opcode = 0x01

def branchPc (inst : Inst) : ℕ := (((inst.pc : ℤ) + inst.size + simm16 (inst.raw.getD 0 0)) % 2 ^ 32).toNat

/-- The first index of an instruction at `pc`. -/
def indexAt (program : Program) (pc : ℕ) : Option ℕ := program.findIdx? fun inst => inst.pc = pc

def leadersOf (program : Program) (inst : Inst) (i : ℕ) : List ℕ :=
  if isSoppBranch inst ∨ isSoppEnd inst then
    (if i + 1 < program.length then [i + 1] else []) ++
      if isSoppBranch inst then (indexAt program (branchPc inst)).toList else []
  else []

def movLeaders (program : Program) : List ℕ :=
  ((0 :: program.zipIdx.flatMap fun (inst, i) => leadersOf program inst i).mergeSort (· ≤ ·)).dedup

def blockInsts (program : Program) (b : ℕ) : Program :=
  (program.take (blockEnd (movLeaders program) program.length b)).drop (blockStart (movLeaders program) b)

/-- The successors of a block. -/
def movSucc (program : Program) (b : ℕ) : List ℕ :=
  match program[blockEnd (movLeaders program) program.length b - 1]? with
  | none => []
  | some inst =>
    (if isSoppBranch inst then
        (program.zipIdx.filter fun (target, _) => target.pc = branchPc inst).map fun (_, k) =>
          blockAt (movLeaders program) k
      else []) ++
      if ¬(inst.enc = .kSopp ∧ (inst.opcode = 0x02 ∨ inst.opcode = 0x01)) ∧
        b + 1 < (movLeaders program).length then [b + 1] else []

/-- The fixpoint that the plan computes. -/
def movProblem (program : Program) : FlowProblem ScalarSets where
  succ := movSucc program
  transfer b state := (blockInsts program b).foldl movStep state
  join a b := fun r => (a r).join (b r)
  same a b := (List.range kTrackedSgprs).all fun r => b r = a r

/-- `v_movreld_b32`, `v_movrels_b32` and `v_movrelsd_b32`. -/
def isMovrel (inst : Inst) : Bool := inst.enc = .kVop1 ∧ 0x42 ≤ inst.opcode ∧ inst.opcode ≤ 0x44

def movEntries : Program → ScalarSets → List (ℕ × List UInt32)
  | [], _ => []
  | inst :: rest, state =>
    (if isMovrel inst then
        match state 124 with
        | some (v :: values) => [(inst.pc, v :: values)]
        | _ => []
      else []) ++ movEntries rest (movStep state inst)

/-- The facts when the turns end. -/
def movFlow (program : Program) : FlowState ScalarSets :=
  (movProblem program).run (fun _ => none) (64 * (movLeaders program).length + 64)

def planMovrelIndices (program : Program) : List (ℕ × List UInt32) :=
  if program.any isMovrel then
    if (movFlow program).work = [] then
      (List.range (movLeaders program).length).flatMap fun b =>
        match (movFlow program).at_ b with
        | none => []
        | some state => movEntries (blockInsts program b) state
    else []
  else []

/-! ## Runs -/

def movSources (inst : Inst) : List ℕ :=
  match inst.enc with
  | .kSop1 => [inst.ssrc0]
  | .kSop2 =>
    if inst.opcode = 0x27 then [inst.ssrc1]
    else if inst.opcode = 0x0e ∧ 128 ≤ inst.ssrc1 ∧ inst.ssrc1 < 192 then []
    else [inst.ssrc0, inst.ssrc1]
  | _ => []

/-- The registers that a write has reached which the plan misses: one that is in no range of
`PossibleScalarWrites`, or that names the null register. -/
def stainedBehind (inst : Inst) (s : ScalarState) (stained : Set ℕ) : Set ℕ := fun r =>
  (InRange inst r ∧ isModelled inst = true ∧ r = inst.sdst ∧
      (r = 125 ∨ ∃ field ∈ movSources inst, field < 128 ∧ field ∈ stained)) ∨
    (¬InRange inst r ∧ (mayWrite inst s r ∨ r ∈ stained))

/-- The control goes where the plan has an edge: on, but not behind an `s_branch`, or by a SOPP branch to
the first dword of an instruction. -/
def Charted (program : Program) (inst : Inst) (pc : ℕ) : Prop :=
  (pc = inst.pc + inst.size ∧ ¬(inst.enc = .kSopp ∧ (inst.opcode = 0x02 ∨ inst.opcode = 0x01))) ∨
    (isSoppBranch inst = true ∧ pc = branchPc inst ∧ ∃ target ∈ program, target.pc = pc)

/-- The runs of a program, from any registers, with the stained ones; each transfer of the control is
`ok`. -/
inductive ShaderRun (isa : ScalarIsa) (guest : ScalarMemory) (codeAddr : ℕ) (program : Program)
    (ok : Inst → ℕ → Prop) : Control → ScalarState → Set ℕ → Prop where
  | start (s : ScalarState) : ShaderRun isa guest codeAddr program ok ⟨0, []⟩ s ∅
  | step {c c' : Control} {s s' : ScalarState} {stained : Set ℕ} {inst : Inst} :
      ShaderRun isa guest codeAddr program ok c s stained → fetch program c.pc = some inst →
      Step program c c' → isa.Step guest codeAddr inst s s' → ok inst c'.pc →
      ShaderRun isa guest codeAddr program ok c' s' (stainedBehind inst s stained)

/-! ## Sets -/

namespace ValueSet

variable {a b set : ValueSet} {v w : UInt32} {values : List UInt32}

def Has (set : ValueSet) (v : UInt32) : Prop := ∀ values, set = some values → v ∈ values

def Le (a b : ValueSet) : Prop := ∀ v, Has a v → Has b v

theorem has_none : Has none v := fun _ h => by cases h

theorem has_some : Has (some values) v ↔ v ∈ values :=
  ⟨fun h => h values rfl, fun h _ heq => Option.some.inj heq ▸ h⟩

theorem has_add : Has (set.add v) w ↔ Has set w ∨ w = v ∨ set.add v = none := by
  cases set with
  | none =>
    refine iff_of_true (fun _ h => by cases h) (.inl has_none)
  | some values =>
    have hmem : w ∈ (if v ∈ values then values else values.orderedInsert (· ≤ ·) v) ↔ w ∈ values ∨ w = v := by
      split_ifs with hv
      · exact ⟨.inl, fun h => h.elim id fun h => h ▸ hv⟩
      · rw [List.mem_orderedInsert, or_comm]
    rw [add, Option.bind_some]
    generalize (if v ∈ values then values else values.orderedInsert (· ≤ ·) v) = grown at hmem
    dsimp only
    split_ifs with hlong
    · exact iff_of_true has_none (.inr (.inr rfl))
    · rw [has_some, has_some, hmem]
      simp

theorem le_add : Le set (set.add v) := fun _ h => has_add.mpr (.inl h)

theorem has_add_self : Has (set.add v) v := has_add.mpr (.inr (.inl rfl))

theorem le_foldl_add : Le set (values.foldl add set) := by
  induction values generalizing set with
  | nil => exact fun _ h => h
  | cons v values ih => exact fun w h => ih w (le_add w h)

theorem has_foldl_add (h : v ∈ values) : Has (values.foldl add set) v := by
  induction values generalizing set with
  | nil => cases h
  | cons w values ih =>
    rcases List.mem_cons.mp h with rfl | h
    · show Has (values.foldl add (set.add v)) v
      exact le_foldl_add v has_add_self
    · exact ih h

theorem le_join_left : Le a (a.join b) := by
  intro v h
  cases a with
  | none => exact has_none
  | some as =>
    cases b with
    | none => exact has_none
    | some bs => exact le_foldl_add v h

theorem le_join_right : Le b (a.join b) := by
  intro v h
  cases a with
  | none => exact has_none
  | some as =>
    cases b with
    | none => exact has_none
    | some bs => exact has_foldl_add (has_some.mp h)

end ValueSet

open ValueSet

section Sets

variable {isa : ScalarIsa} {guest : ScalarMemory} {codeAddr : ℕ} {inst : Inst} {s s' : ScalarState}
  {state : ScalarSets} {stained : Set ℕ} {field op : ℕ} {a b : ValueSet} {x y v : UInt32}

def Holds (state : ScalarSets) (s : ScalarState) (stained : Set ℕ) : Prop :=
  ∀ r < kTrackedSgprs, r ∉ stained → ∀ v, (r ≠ 125 → v = s.sgpr r) → Has (state r) v

theorem Holds.operand (h : Holds state s stained) (hclean : field < 128 → field ∉ stained) :
    Has (movOperand state inst field) (operand isa inst s field) := by
  rw [movOperand, Rdna.operand, kTrackedSgprs]
  by_cases hreg : field < 128
  · rw [if_pos hreg, if_pos (show field ≤ 127 by omega)]
    refine h field hreg (hclean hreg) _ fun hnull => ?_
    rw [ScalarState.read, if_neg hnull]
  · rw [if_neg hreg, if_neg (show ¬field ≤ 127 by omega)]
    have hconst : ∀ v, inlineConst field inst.literal = some v →
        (constSource field inst.literal).getD (isa.special s field) = v := fun v hv => by
      rw [constSource_of_inlineConst hv]
      rfl
    split_ifs with hpos hneg hlit
    · rw [has_some, List.mem_singleton]
      apply hconst
      rw [inlineConst]
      by_cases hzero : field = 128
      · rw [if_pos hzero, hzero]
        rfl
      · rw [if_neg hzero, if_pos (by omega)]
    · rw [has_some, List.mem_singleton]
      apply hconst
      rw [inlineConst, if_neg (by omega), if_neg (by omega), if_pos (by omega)]
    · rw [has_some, List.mem_singleton]
      apply hconst
      rw [hlit]
      rfl
    · exact has_none

theorem has_foldl_bind_add {l : List (Option UInt32)} {set : ValueSet} (h : Has set v ∨ some v ∈ l) :
    Has (l.foldl (fun out v => v.bind out.add) set) v := by
  induction l generalizing set with
  | nil => exact h.resolve_right List.not_mem_nil
  | cons w l ih =>
    apply ih
    rcases h with h | h
    · left
      cases w with
      | none => exact has_none
      | some w => exact le_add v h
    · rcases List.mem_cons.mp h with rfl | h
      · exact .inl has_add_self
      · exact .inr h

theorem has_applyPairs {as bs : List UInt32} (hx : x ∈ as) (hy : y ∈ bs) (hv : applyValue op x y = some v) :
    Has (applyPairs op as bs) v := by
  refine has_foldl_bind_add (.inr ?_)
  exact List.mem_flatMap.mpr ⟨x, hx, List.mem_map.mpr ⟨y, hy, hv⟩⟩

theorem mem_wordsBelow {n : ℕ} (h : x.toNat < n) : x ∈ wordsBelow n :=
  List.mem_map.mpr ⟨x.toNat, List.mem_range.mpr h, UInt32.ofNat_toNat⟩

theorem has_applySets_bfe (hb : Has b y) (hv : sop2Value 0x27 x y = some v) : Has (applySets 0x27 a b) v := by
  unfold applySets
  rw [if_pos rfl]
  split
  · rename_i w
    obtain rfl := List.mem_singleton.mp (has_some.mp hb)
    dsimp only
    split_ifs with hwide
    · exact has_none
    · refine has_foldl_add (mem_wordsBelow ?_)
      obtain rfl := Option.some.inj hv
      rw [Words.bfe32_eq, UInt32.toNat_ofNat', Words.toNat_width]
      exact Nat.lt_of_le_of_lt (Nat.mod_le _ _) (Nat.mod_lt _ (Nat.two_pow_pos _))
  · exact has_none

theorem and_of_and_not_eq_zero (x y : UInt32) : (x &&& y) &&& ~~~y = 0 := by
  rw [UInt32.and_assoc, UInt32.and_not_self]
  exact UInt32.and_zero

/-- **The pairs**, or all the values under a small mask. -/
theorem has_applySets (hop : op ≠ 0x27) (ha : Has a x ∨ (op = 0x0e ∧ ∃ w, b = some [w] ∧ w.toNat < 64))
    (hb : Has b y) (hv : applyValue op x y = some v) : Has (applySets op a b) v := by
  have hpairs : Has a x → Has (a.bind fun as => b.bind fun bs => applyPairs op as bs) v := by
    intro hx
    cases a with
    | none => exact has_none
    | some as =>
      cases b with
      | none => exact has_none
      | some bs => exact has_applyPairs (has_some.mp hx) (has_some.mp hb) hv
  have hmask : ∀ w, op = 0x0e → b = some [w] → w.toNat < 64 →
      Has (((wordsBelow (w.toNat + 1)).filter fun x => x &&& ~~~w = 0).foldl ValueSet.add (some [])) v := by
    rintro w rfl rfl -
    obtain rfl := List.mem_singleton.mp (has_some.mp hb)
    obtain rfl : x &&& y = v := Option.some.inj hv
    refine has_foldl_add (List.mem_filter.mpr ⟨mem_wordsBelow ?_, ?_⟩)
    · rw [UInt32.toNat_and]
      exact Nat.lt_succ_of_le Nat.and_le_right
    · exact decide_eq_true (and_of_and_not_eq_zero x y)
  unfold applySets
  rw [if_neg hop]
  dsimp only
  split
  · rename_i w
    split_ifs with hsmall
    · exact hmask w hsmall.1 rfl hsmall.2
    · refine hpairs (ha.resolve_right ?_)
      rintro ⟨hand, w', hw', hlt⟩
      obtain rfl := List.singleton_inj.mp (Option.some.inj hw')
      exact hsmall ⟨hand, hlt⟩
  · rename_i hnot
    refine hpairs (ha.resolve_right ?_)
    rintro ⟨-, w, rfl, -⟩
    exact hnot w rfl

theorem Holds.result (h : Holds state s stained) (hstep : isa.Step guest codeAddr inst s s')
    (hmodelled : isModelled inst = true) (hnull : inst.sdst ≠ 125)
    (hclean : ∀ field ∈ movSources inst, field < 128 → field ∉ stained) :
    Has (movResult state inst) (s'.sgpr inst.sdst) := by
  rw [isModelled, decide_eq_true_eq] at hmodelled
  rcases hmodelled with ⟨henc, hop⟩ | ⟨henc, hop⟩ | ⟨henc, hop⟩
  · have hv := sgpr_sopk hstep henc (by simp [hop]) hnull (v := (Int16.ofNat inst.word0).toInt32.toUInt32)
      (by simp [scalarResult, henc, hop])
    rw [hv, movResult, henc, has_some, List.mem_singleton]
    rfl
  · have hdest : destField inst = inst.sdst := if_neg (by simp [henc])
    have hwidth : destWidth inst = 1 := by simp [destWidth, henc, hop, sop1Width]
    have hv := hstep.result 0 (Rdna.operand isa inst s inst.ssrc0)
    rw [hdest, hwidth] at hv
    have hgiven := hv ⟨hnull, Nat.le_refl _, by omega⟩
      (not_implicitWrites (.inl ⟨henc, by simp [hop]⟩) _) (by simp [scalarResult, henc, hop])
    rw [Nat.add_zero] at hgiven
    rw [hgiven, movResult, henc]
    exact h.operand (hclean inst.ssrc0 (by simp [movSources, henc]))
  · -- The operations on two sources.
    obtain ⟨v, hvalue⟩ : ∃ v, sop2Value inst.opcode (Rdna.operand isa inst s inst.ssrc0)
        (Rdna.operand isa inst s inst.ssrc1) = some v := by
      simp only [List.mem_cons, List.not_mem_nil, or_false] at hop
      rcases hop with hop | hop | hop | hop | hop | hop | hop <;> rw [hop] <;> exact ⟨_, rfl⟩
    have hadd : ¬(0x2f ≤ inst.opcode ∧ inst.opcode ≤ 0x32) := by
      simp only [List.mem_cons, List.not_mem_nil, or_false] at hop
      omega
    obtain ⟨flag, hresult, -⟩ := sop2Result_of_sop2Value s.scc hadd hvalue
    have hwidth : sop2Width inst.opcode = 1 := sop2Width_of_value hvalue
    have hscalar : scalarResult isa guest codeAddr inst s 0 = some v := by
      have hcselect : inst.opcode ≠ 0x0a ∧ inst.opcode ≠ 0x0b := by
        simp only [List.mem_cons, List.not_mem_nil, or_false] at hop
        omega
      simp [scalarResult, henc, hcselect.1, hcselect.2, hwidth, hresult]
    have hv := sgpr_sop2 hstep henc hnull (i := 0) (by omega) hscalar
    rw [Nat.add_zero] at hv
    rw [hv, movResult, henc]
    dsimp only
    by_cases hbfe : inst.opcode = 0x27
    · rw [hbfe] at hvalue ⊢
      exact has_applySets_bfe (h.operand (hclean inst.ssrc1 (by simp [movSources, henc, hbfe]))) hvalue
    have happly : applyValue inst.opcode (Rdna.operand isa inst s inst.ssrc0) (Rdna.operand isa inst s inst.ssrc1) =
        some v := by
      rw [← hvalue]
      simp only [List.mem_cons, List.not_mem_nil, or_false] at hop
      rcases hop with hop | hop | hop | hop | hop | hop | hop
      case inr.inr.inr.inr.inr.inr => exact absurd hop hbfe
      all_goals rw [hop]; rfl
    by_cases hmask : inst.opcode = 0x0e ∧ 128 ≤ inst.ssrc1 ∧ inst.ssrc1 < 192
    · -- A constant mask: its set is that of the mask alone.
      obtain ⟨hand, hlo, hhi⟩ := hmask
      have hconst : movOperand state inst inst.ssrc1 = some [.ofNat (inst.ssrc1 - 128)] := by
        rw [movOperand, if_neg (show ¬inst.ssrc1 < kTrackedSgprs from Nat.not_lt.mpr hlo), if_pos ⟨hlo, by omega⟩]
      refine has_applySets hbfe (.inr ⟨hand, _, hconst, ?_⟩) (h.operand fun hlt => by omega) happly
      rw [UInt32.toNat_ofNat', Nat.mod_eq_of_lt (by omega)]
      omega
    · have hsources : movSources inst = [inst.ssrc0, inst.ssrc1] := by
        rw [movSources, henc]
        dsimp only
        rw [if_neg hbfe, if_neg hmask]
      rw [hsources] at hclean
      exact has_applySets hbfe (.inl (h.operand (hclean _ (by simp)))) (h.operand (hclean _ (by simp))) happly

/-- **An instruction** keeps the sets right, but for the stained registers. -/
theorem Holds.step (h : Holds state s stained) (hstep : isa.Step guest codeAddr inst s s') :
    Holds (movStep state inst) s' (stainedBehind inst s stained) := by
  intro r hr hclean v hv
  rw [movStep]
  by_cases hin : InRange inst r
  · rw [if_pos ⟨hr, hin⟩]
    split_ifs with hresult
    · obtain ⟨hmodelled, rfl⟩ := hresult
      have hnull : inst.sdst ≠ 125 := fun hnull => hclean (.inl ⟨hin, hmodelled, rfl, .inl hnull⟩)
      rw [hv hnull]
      refine h.result hstep hmodelled hnull fun field hfield hlt hstained => ?_
      exact hclean (.inl ⟨hin, hmodelled, rfl, .inr ⟨field, hfield, hlt, hstained⟩⟩)
    · exact has_none
  · rw [if_neg fun hboth => hin hboth.2]
    have hkept : ¬mayWrite inst s r := fun hmay => hclean (.inr ⟨hin, .inl hmay⟩)
    refine h r hr (fun hstained => hclean (.inr ⟨hin, .inr hstained⟩)) v fun hnull => ?_
    rw [hv hnull, hstep.kept r hkept]

theorem Holds.mono {state' : ScalarSets} (h : Holds state s stained)
    (hle : ∀ r < kTrackedSgprs, Le (state r) (state' r)) : Holds state' s stained :=
  fun r hr hclean v hv => hle r hr v (h r hr hclean v hv)

theorem lawful_movProblem (program : Program) :
    (movProblem program).Lawful fun a b => ∀ r < kTrackedSgprs, Le (a r) (b r) where
  refl _ _ _ _ h := h
  trans _ _ _ hab hbc r hr v h := hbc r hr v (hab r hr v h)
  left _ _ _ _ := le_join_left
  right _ _ _ _ := le_join_right
  same a b h r hr v hv := by
    have heq := List.all_eq_true.mp h r (List.mem_range.mpr hr)
    rw [decide_eq_true_eq] at heq
    rwa [← heq]

end Sets

/-! ## Where the control is -/

section Control

variable {program : Program} {inst target : Inst} {i k : ℕ}

/-- How the plan sees a program. -/
def plainListing : Listing Inst := listing fun _ => .ordinary

theorem getElem_zipIdx (h : program[k]? = some inst) : (inst, k) ∈ program.zipIdx := by
  rw [List.mem_zipIdx_iff_getElem?]
  exact h

theorem lt_of_pc_lt (hcont : plainListing.Contiguous program) (hi : program[i]? = some inst)
    (hk : program[k]? = some target) : inst.pc < target.pc ↔ i < k := by
  obtain ⟨hilt, rfl⟩ := List.getElem?_eq_some_iff.mp hi
  obtain ⟨hklt, rfl⟩ := List.getElem?_eq_some_iff.mp hk
  have hsorted := List.pairwise_iff_getElem.mp hcont.sorted
  have hsize : ∀ j (hj : j < program.length), 0 < (program[j]).size := fun j hj =>
    hcont.size_pos (List.getElem_mem hj)
  have hless : ∀ j l (hj : j < program.length) (hl : l < program.length), j < l →
      (program[j]).pc < (program[l]).pc := fun j l hj hl hjl => by
    have : (program[j]).pc + (program[j]).size ≤ (program[l]).pc := hsorted j l hj hl hjl
    have := hsize j hj
    omega
  rcases Nat.lt_trichotomy i k with hlt | rfl | hgt
  · exact iff_of_true (hless i k hilt hklt hlt) hlt
  · simp
  · exact iff_of_false (Nat.not_lt.mpr (Nat.le_of_lt (hless k i hklt hilt hgt))) (Nat.not_lt.mpr hgt.le)

theorem eq_of_pc_eq (hcont : plainListing.Contiguous program) (hi : program[i]? = some inst)
    (hk : program[k]? = some target) (hpc : inst.pc = target.pc) : i = k := by
  have hlt := lt_of_pc_lt hcont hi hk
  have hgt := lt_of_pc_lt hcont hk hi
  omega

theorem fetch_of_pc (hcont : plainListing.Contiguous program) (hk : program[k]? = some target)
    (hfetch : fetch program target.pc = some inst) : inst = target := by
  have hmem := List.mem_of_getElem? hk
  have hfirst : inst.pc ≤ target.pc :=
    Listing.fetch_first (L := plainListing) hcont hfetch hmem (Nat.le_refl _)
  obtain ⟨hinst, hle⟩ := Listing.fetch_some (L := plainListing) hfetch
  obtain ⟨j, hj⟩ := List.mem_iff_getElem?.mp hinst
  have heq := eq_of_pc_eq hcont hj hk (Nat.le_antisymm hfirst hle)
  subst heq
  exact Option.some.inj (hj.symm.trans hk)

theorem next_pc {pc : ℕ} (hcont : plainListing.ContiguousFrom pc program) (hi : program[i]? = some inst)
    (hnext : program[i + 1]? = some target) : target.pc = inst.pc + inst.size := by
  induction program generalizing pc i with
  | nil => cases hi
  | cons first rest ih =>
    obtain ⟨hpc, -, hrest⟩ := hcont
    cases i with
    | zero =>
      obtain rfl : first = inst := Option.some.inj hi
      cases rest with
      | nil => cases hnext
      | cons second rest =>
        obtain rfl : second = target := Option.some.inj hnext
        have hsecond : second.pc = pc + first.size := hrest.1
        have hfirst : first.pc = pc := hpc
        omega
    | succ i => exact ih hrest hi hnext

theorem fetch_behind (hcont : plainListing.Contiguous program) (hi : program[i]? = some inst)
    (hfetch : fetch program (inst.pc + inst.size) = some target) : program[i + 1]? = some target := by
  obtain ⟨hmem, hle⟩ := Listing.fetch_some (L := plainListing) hfetch
  obtain ⟨k, hk⟩ := List.mem_iff_getElem?.mp hmem
  have hsize : 0 < inst.size := hcont.size_pos (List.mem_of_getElem? hi)
  have hlater : i < k := (lt_of_pc_lt hcont hi hk).mp (by
    have : inst.pc + inst.size ≤ target.pc := hle
    omega)
  have hlt : i + 1 < program.length := by
    have := (List.getElem?_eq_some_iff.mp hk).1
    omega
  have hnext : program[i + 1]? = some program[i + 1] := List.getElem?_eq_getElem hlt
  have hpc := next_pc hcont hi hnext
  rw [← hpc] at hfetch
  rw [fetch_of_pc hcont hnext hfetch]
  exact hnext

end Control

/-! ## Blocks of the plan -/

section Blocks

variable {program : Program} {inst target : Inst} {i k : ℕ}

theorem mem_movLeaders : k ∈ movLeaders program ↔
    k = 0 ∨ ∃ inst i, program[i]? = some inst ∧ k ∈ leadersOf program inst i := by
  simp only [movLeaders, List.mem_dedup, List.mem_mergeSort, List.mem_cons, List.mem_flatMap, Prod.exists,
    List.mem_zipIdx_iff_getElem?]

theorem leaders_movLeaders (hpos : 0 < program.length) : Leaders (movLeaders program) program.length where
  sorted := by
    have hsorted := List.pairwise_mergeSort' (· ≤ ·)
      (0 :: program.zipIdx.flatMap fun (inst, i) => leadersOf program inst i)
    exact (hsorted.sublist (List.dedup_sublist _)).imp₂
      (fun a b hab hne => Nat.lt_of_le_of_ne hab hne) (List.nodup_dedup _)
  zero := mem_movLeaders.mpr (.inl rfl)
  lt k hk := by
    rcases mem_movLeaders.mp hk with rfl | ⟨inst, i, -, hk⟩
    · exact hpos
    · rw [leadersOf] at hk
      split_ifs at hk with hends hlt hbranch hbranch
      all_goals simp only [List.nil_append, List.append_nil, List.mem_append, List.mem_cons,
        List.not_mem_nil, or_false, Option.mem_toList] at hk
      · rcases hk with rfl | hk
        · exact hlt
        · exact (List.findIdx?_eq_some_iff_getElem.mp hk).1
      · exact hk ▸ hlt
      · exact (List.findIdx?_eq_some_iff_getElem.mp hk).1

theorem behind_mem_leaders (hi : program[i]? = some inst) (hlt : i + 1 < program.length)
    (hbranch : isSoppBranch inst = true) : i + 1 ∈ movLeaders program := by
  refine mem_movLeaders.mpr (.inr ⟨inst, i, hi, ?_⟩)
  rw [leadersOf, if_pos (.inl hbranch), if_pos hlt]
  exact List.mem_append_left _ (List.mem_singleton_self _)

theorem target_mem_leaders (hcont : plainListing.Contiguous program) (hi : program[i]? = some inst)
    (hbranch : isSoppBranch inst = true) (hk : program[k]? = some target) (hpc : target.pc = branchPc inst) :
    k ∈ movLeaders program := by
  refine mem_movLeaders.mpr (.inr ⟨inst, i, hi, ?_⟩)
  have hindex : indexAt program (branchPc inst) = some k := by
    obtain ⟨hlt, rfl⟩ := List.getElem?_eq_some_iff.mp hk
    rw [indexAt, List.findIdx?_eq_some_iff_getElem]
    refine ⟨hlt, decide_eq_true hpc, fun j hj => ?_⟩
    rw [decide_eq_true_eq]
    intro heq
    have := eq_of_pc_eq hcont (List.getElem?_eq_getElem (Nat.lt_trans hj hlt)) hk (heq.trans hpc.symm)
    omega
  rw [leadersOf, if_pos (.inl hbranch), if_pos hbranch, hindex]
  exact List.mem_append_right _ (List.mem_singleton_self _)

end Blocks

/-! ## Soundness of the plan -/

section Soundness

variable {isa : ScalarIsa} {guest : ScalarMemory} {codeAddr : ℕ} {program : Program} {inst target : Inst}
  {s s' : ScalarState} {stained : Set ℕ} {i k b pc : ℕ} {values : List UInt32} {c : Control}

def stateBefore (program : Program) (state : ScalarSets) (k : ℕ) : ScalarSets :=
  ((program.take k).drop (blockStart (movLeaders program) (blockAt (movLeaders program) k))).foldl movStep state

def Found (program : Program) (k : ℕ) (s : ScalarState) (stained : Set ℕ) : Prop :=
  ∃ state, (movFlow program).at_ (blockAt (movLeaders program) k) = some state ∧
    Holds (stateBefore program state k) s stained

theorem foldl_behind {state : ScalarSets} (hi : program[i]? = some inst) (hpos : 0 < program.length) :
    ((program.take (i + 1)).drop (blockStart (movLeaders program) (blockAt (movLeaders program) i))).foldl
      movStep state = movStep (stateBefore program state i) inst := by
  have hle := (leaders_movLeaders hpos).blockStart_le i
  obtain ⟨hlt, rfl⟩ := List.getElem?_eq_some_iff.mp hi
  rw [stateBefore, ← List.take_concat_get' program i hlt, List.drop_append_of_le_length, List.foldl_append]
  · rfl
  · rw [List.length_take]
    omega

theorem found_of_succ (hdone : (movFlow program).work = []) (hpos : 0 < program.length)
    (hi : program[i]? = some inst) (hend : blockEnd (movLeaders program) program.length
      (blockAt (movLeaders program) i) = i + 1) (hk : k ∈ movLeaders program)
    (hsucc : blockAt (movLeaders program) k ∈ movSucc program (blockAt (movLeaders program) i))
    (hfound : Found program i s stained) (hstep : isa.Step guest codeAddr inst s s') :
    Found program k s' (stainedBehind inst s stained) := by
  obtain ⟨state, hat, hholds⟩ := hfound
  have hclosed := FlowProblem.closed_of_done (lawful_movProblem program) _ _ hdone
  obtain ⟨state', hat', hle⟩ := hclosed.2 _ state hat _ hsucc
  have htransfer : (movProblem program).transfer (blockAt (movLeaders program) i) state =
      movStep (stateBefore program state i) inst := by
    rw [← foldl_behind hi hpos]
    change (blockInsts program _).foldl movStep state = _
    rw [blockInsts, hend]
  have hempty : stateBefore program state' k = state' := by
    rw [stateBefore, (leaders_movLeaders hpos).blockStart_of_mem hk, List.drop_eq_nil_of_le]
    · rfl
    · rw [List.length_take]
      exact Nat.min_le_left _ _
  refine ⟨state', hat', ?_⟩
  rw [hempty]
  rw [htransfer] at hle
  exact (hholds.step hstep).mono hle

/-- **On**: the control goes to the next instruction. -/
theorem Found.on (hdone : (movFlow program).work = []) (hi : program[i]? = some inst)
    (hnext : program[i + 1]? = some target) (hon : ¬(inst.enc = .kSopp ∧ (inst.opcode = 0x02 ∨ inst.opcode = 0x01)))
    (hfound : Found program i s stained) (hstep : isa.Step guest codeAddr inst s s') :
    Found program (i + 1) s' (stainedBehind inst s stained) := by
  have hlt : i + 1 < program.length := (List.getElem?_eq_some_iff.mp hnext).1
  have hpos : 0 < program.length := by omega
  have hleaders := leaders_movLeaders hpos
  by_cases hmem : i + 1 ∈ movLeaders program
  · obtain ⟨hblock, hend, hblocks⟩ := hleaders.blockAt_succ_of_mem hmem
    refine found_of_succ hdone hpos hi hend hmem ?_ hfound hstep
    rw [movSucc, hend, Nat.add_sub_cancel, hi, hblock]
    dsimp only
    rw [if_pos (⟨hon, hblocks⟩ : _ ∧ _)]
    exact List.mem_append_right _ (List.mem_singleton_self _)
  · -- The next instruction is in the same block.
    obtain ⟨state, hat, hholds⟩ := hfound
    have hblock := Leaders.blockAt_succ_of_notMem hmem
    refine ⟨state, hblock ▸ hat, ?_⟩
    rw [stateBefore, hblock, foldl_behind hi hpos]
    exact hholds.step hstep

/-- **A branch** to the first dword of an instruction. -/
theorem Found.branch (hcont : plainListing.Contiguous program) (hdone : (movFlow program).work = [])
    (hi : program[i]? = some inst) (hbranch : isSoppBranch inst = true) (hk : program[k]? = some target)
    (hpc : target.pc = branchPc inst) (hfound : Found program i s stained)
    (hstep : isa.Step guest codeAddr inst s s') : Found program k s' (stainedBehind inst s stained) := by
  have hilt : i < program.length := (List.getElem?_eq_some_iff.mp hi).1
  have hpos : 0 < program.length := by omega
  have hleaders := leaders_movLeaders hpos
  have hend : blockEnd (movLeaders program) program.length (blockAt (movLeaders program) i) = i + 1 := by
    rcases Nat.lt_or_ge (i + 1) program.length with hlt | hge
    · exact (hleaders.blockAt_succ_of_mem (behind_mem_leaders hi hlt hbranch)).2.1
    · rw [hleaders.blockEnd_of_last (by omega)]
      omega
  refine found_of_succ hdone hpos hi hend (target_mem_leaders hcont hi hbranch hk hpc) ?_ hfound hstep
  rw [movSucc, hend, Nat.add_sub_cancel, hi]
  dsimp only
  rw [if_pos hbranch]
  refine List.mem_append_left _ (List.mem_map.mpr ⟨(target, k), ?_, rfl⟩)
  exact List.mem_filter.mpr ⟨getElem_zipIdx hk, decide_eq_true hpc⟩

/-- **A charted run** stays in the plan's sets. -/
theorem found_of_run (hcont : plainListing.Contiguous program) (hdone : (movFlow program).work = [])
    (hrun : ShaderRun isa guest codeAddr program (Charted program) c s stained)
    (hfetch : fetch program c.pc = some inst) : ∃ k, program[k]? = some inst ∧ Found program k s stained := by
  induction hrun generalizing inst with
  | start s =>
    have hmem := (Listing.fetch_some (L := plainListing) hfetch).1
    have hpos : 0 < program.length := List.length_pos_of_mem hmem
    have hclosed := FlowProblem.closed_of_done (lawful_movProblem program) _ _ hdone
    obtain ⟨state, hat, hle⟩ := hclosed.1
    have hfirst : program[0]? = some program[0] := List.getElem?_eq_getElem hpos
    have hzero : (program[0]).pc = 0 := by
      cases program with
      | nil => cases hmem
      | cons first rest => exact hcont.1
    have hleaders := leaders_movLeaders hpos
    have hblock : blockAt (movLeaders program) 0 = 0 := by
      have hstart := hleaders.blockStart_of_mem hleaders.zero
      have hlt := hleaders.blockAt_lt 0
      by_contra hne
      rw [blockStart, List.getD_eq_getElem _ _ hlt] at hstart
      have := List.pairwise_iff_getElem.mp hleaders.sorted 0 _ (by omega) hlt (Nat.pos_of_ne_zero hne)
      omega
    refine ⟨0, ?_, state, by rw [hblock]; exact hat, ?_⟩
    · rw [← fetch_of_pc hcont hfirst (hzero ▸ hfetch)] at hfirst
      exact hfirst
    · rw [stateBefore, List.take_zero, List.drop_nil]
      exact fun r hr _ v _ => hle r hr v has_none
  | step hrun hfetch' _ hisa hchart ih =>
    obtain ⟨i, hi, hfound⟩ := ih hfetch'
    rcases hchart with ⟨hpc, hon⟩ | ⟨hbranch, hpc, target, htarget, htpc⟩
    · rw [hpc] at hfetch
      have hnext := fetch_behind hcont hi hfetch
      exact ⟨i + 1, hnext, hfound.on hdone hi hnext hon hisa⟩
    · obtain ⟨k, hk⟩ := List.mem_iff_getElem?.mp htarget
      rw [← htpc] at hfetch
      obtain rfl := fetch_of_pc hcont hk hfetch
      exact ⟨k, hk, hfound.branch hcont hdone hi hbranch hk (htpc.trans hpc) hisa⟩

theorem mem_movEntries {insts : Program} {state : ScalarSets} (h : (pc, values) ∈ movEntries insts state) :
    ∃ before inst behind, insts = before ++ inst :: behind ∧ inst.pc = pc ∧
      before.foldl movStep state 124 = some values := by
  induction insts generalizing state with
  | nil => cases h
  | cons first rest ih =>
    rw [movEntries] at h
    rcases List.mem_append.mp h with h | h
    · split at h
      · split at h
        · rename_i v vs hstate
          obtain ⟨rfl, rfl⟩ := Prod.mk.inj (List.mem_singleton.mp h)
          exact ⟨[], first, rest, rfl, rfl, hstate⟩
        · cases h
      · cases h
    · obtain ⟨before, inst, behind, rfl, hpc, hstate⟩ := ih h
      exact ⟨first :: before, inst, behind, rfl, hpc, hstate⟩

/-- **An entry of the plan** is the set of M0 before the instruction with its address. -/
theorem mem_plan (hcont : plainListing.Contiguous program) (h : (pc, values) ∈ planMovrelIndices program)
    (hk : program[k]? = some inst) (hpc : inst.pc = pc) :
    (movFlow program).work = [] ∧ ∃ state, (movFlow program).at_ (blockAt (movLeaders program) k) = some state ∧
        stateBefore program state k 124 = some values := by
  have hpos : 0 < program.length := by
    have := (List.getElem?_eq_some_iff.mp hk).1
    omega
  have hleaders := leaders_movLeaders hpos
  rw [planMovrelIndices] at h
  split at h
  · split at h
    · rename_i hdone
      obtain ⟨b, hb, h⟩ := List.mem_flatMap.mp h
      rw [List.mem_range] at hb
      split at h
      · cases h
      · rename_i state hat
        obtain ⟨before, inst', behind, hinsts, hpc', hstate⟩ := mem_movEntries h
        -- The index of the instruction is that of its block and the instructions before it.
        have hget : ∀ j, (blockInsts program b)[j]? =
            if blockStart (movLeaders program) b + j < blockEnd (movLeaders program) program.length b then
              program[blockStart (movLeaders program) b + j]? else none := fun j => by
          rw [blockInsts, List.getElem?_drop, List.getElem?_take]
        have hat' : (blockInsts program b)[before.length]? = some inst' := by
          rw [hinsts, List.getElem?_append_right (Nat.le_refl _), Nat.sub_self]
          rfl
        rw [hget] at hat'
        split at hat'
        · rename_i hlt
          obtain rfl := eq_of_pc_eq hcont hat' hk (hpc'.trans hpc.symm)
          have hblock := hleaders.blockAt_eq hb (Nat.le_add_right _ before.length) hlt
          refine ⟨hdone, state, by rw [hblock]; exact hat, ?_⟩
          have htake : (program.take (blockStart (movLeaders program) b + before.length)).drop
              (blockStart (movLeaders program) b) = before := by
            have hbefore : (blockInsts program b).take before.length = before := by
              rw [hinsts, List.take_left']
              rfl
            refine Eq.trans ?_ hbefore
            rw [blockInsts, List.take_drop, List.take_take, Nat.min_eq_left (Nat.le_of_lt hlt)]
          rw [stateBefore, hblock, htake]
          exact hstate
        · cases hat'
    · cases h
  · cases h

end Soundness

/-- `s_mov_b32 m0, 3`, a relative move and the end. -/
def indexCode (i : ℕ) : ℕ := [0xBEFC0383, 0x7E008700, 0xBF810000].getD i 0

def noMemory : ScalarMemory := ⟨fun _ _ => false, fun _ => 0⟩

theorem shaderRun_mov {program : Program} {ok : Inst → ℕ → Prop} {c : Control} {s : ScalarState}
    (s' : ScalarState) {stained : Set ℕ} {inst : Inst}
    (hrun : ShaderRun plainIsa noMemory 0 program ok c s stained) (hfetch : fetch program c.pc = some inst)
    (henc : inst.enc = .kSop1) (hop : inst.opcode = 0x03) (hok : ok inst (inst.pc + inst.size))
    (hkept : ∀ r, ¬(inst.sdst ≠ 125 ∧ r = inst.sdst) → s'.sgpr r = s.sgpr r)
    (hgiven : inst.sdst ≠ 125 → s'.sgpr inst.sdst = operand plainIsa inst s inst.ssrc0) (hscc : s'.scc = s.scc) :
    ShaderRun plainIsa noMemory 0 program ok ⟨inst.pc + inst.size, c.returns⟩ s' (stainedBehind inst s stained) := by
  have hdest : destField inst = inst.sdst := if_neg (by simp [henc])
  have hwidth : destWidth inst = 1 := by simp [destWidth, henc, hop, sop1Width]
  have hflow : (blocks program).flow inst = .ordinary := by
    change flowOf (hasCall program) inst = .ordinary
    simp [flowOf, henc, hop]
  refine .step hrun hfetch (.other hfetch (by simp [isCall, henc]) (.on hflow)) ?_ hok
  refine ⟨fun r hr => hkept r fun h => hr (.inr ?_), fun i v hin _ hv => ?_, fun _ => hscc,
    fun b hb => ?_⟩
  · rw [hdest, hwidth]
    exact ⟨h.1, by omega, by omega⟩
  · rw [hdest, hwidth] at hin
    rw [hdest]
    have hzero : i = 0 := by
      have := hin.2.2
      omega
    subst hzero
    simp only [scalarResult, henc, hop, if_true, Option.some.injEq] at hv
    rw [Nat.add_zero, hgiven hin.1, hv]
  · simp [sccResult, henc] at hb

/-- `s_mov_b32 null, 5`, `s_mov_b32 m0, null`, a relative move and the end. -/
def nullIndexCode (i : ℕ) : ℕ := [0xBEFD0385, 0xBEFC037D, 0x7E008700, 0xBF810000].getD i 0

end Prosperity.Rdna
