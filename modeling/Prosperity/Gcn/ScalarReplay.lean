import Prosperity.Foundations.Liveness
import Prosperity.Gcn.DescriptorVersions

/-!
# Replaying scalar programs

The descriptors of a draw are found by walking the scalar part of its shaders. A program's walk is
compiled once: a table of what each instruction reads and writes gives the registers that are live before
it, and a step is left out that writes none of them. What the consumers of descriptors read is captured
on the way.
-/

namespace Prosperity.Gcn

/-! ## Consumers -/

def isSmrdConsumer (inst : Inst) : Bool :=
  inst.enc = .kSmrd ∧ (smrdDwords (decodeSmrd inst.raw0).op).isSome

def isResourceConsumer (inst : Inst) : Bool :=
  inst.enc = .kMimg ∨ inst.enc = .kMubuf ∨ inst.enc = .kMtbuf

def resourceSgpr (inst : Inst) : ℕ := ((inst.raw1 >>> 16) &&& 0x1F) * 4

def samplerSgpr (inst : Inst) : ℕ := ((inst.raw1 >>> 21) &&& 0x1F) * 4

/-- Some registers in a row, with what is known of them. -/
structure Window where
  first : ℕ := 0
  value : List (Option UInt32) := []
  deriving DecidableEq

/-- `ScalarConsumer`: its two windows are the registers that it reads. -/
structure ScalarConsumer where
  index : ℕ
  version : ℕ
  regs : Window
  sampler : Window
  src : ℕ

def capture (first count : ℕ) (e : ScalarEval) : Window :=
  ⟨first, (List.range (min count (kRegs - min first kRegs))).map fun i => e.value (first + i)⟩

/-! ## Effects -/

abbrev SgprSet := Finset ℕ

def addRange (set : SgprSet) (first count : ℕ) : SgprSet :=
  set ∪ (Finset.range kRegs).filter fun r => first ≤ r ∧ r < first + count

def addSource (set : SgprSet) (field : ℕ) : SgprSet := if field ≤ 127 then insert field set else set

structure StepEffects where
  reads : SgprSet := ∅
  writes : SgprSet := ∅
  sources : SgprSet := ∅
  keep : Bool := false

def effectsOf (inst : Inst) : StepEffects :=
  let w := inst.raw0
  let op := inst.opcode
  let sdst := (w >>> 16) &&& 0x7F
  match inst.enc with
  | .kSop1 =>
    let ssrc0 := w &&& 0xFF
    let reads := if op = 0x03 ∨ op = 0x04 then addSource ∅ ssrc0 else ∅
    { reads := if op = 0x04 ∧ ssrc0 ≤ 126 then insert (ssrc0 + 1) reads else reads
      writes := addRange ∅ sdst (if sop1DestIs64 op then 2 else 1) }
  | .kSopk =>
    if (op ≥ 0x03 ∧ op ≤ 0x0e) ∨ op = 0x11 ∨ op = 0x13 ∨ op = 0x15 then {}
    else { reads := if op = 0x0f ∨ op = 0x10 then {sdst} else ∅, writes := {sdst} }
  | .kSop2 =>
    { reads := addSource (addSource ∅ (w &&& 0xFF)) ((w >>> 8) &&& 0xFF)
      writes := addRange ∅ sdst (if sop2DestIs64 op then 2 else 1) }
  | .kVop1 | .kVop2 | .kVop3 =>
    let dst := laneDst inst
    if isWritelane inst then
      { reads := addSource (addSource ∅ (laneSrc0 inst)) (laneSrc1 inst), keep := true }
    else if isReadlane inst ∨ isReadfirstlane inst then
      { reads := if ¬(inst.enc = .kVop1 ∨ op = 0x182) then addSource ∅ (laneSrc1 inst) else ∅
        writes := addRange ∅ dst 1
        sources := addRange ∅ dst 1 }
    else if inst.enc = .kVop3 ∧ (op < 0x100 ∨ vop3bWritesSdst op) then
      { writes := addRange ∅ (if op < 0x100 then dst else (w >>> 8) &&& 0x7F) 2 }
    else {}
  | .kSmrd =>
    let s := decodeSmrd w
    match smrdDwords s.op with
    | none => {}
    | some dwords =>
      let reads := addRange ∅ (s.sbase * 2) (if isBufferLoad s.op then 4 else 2)
      { reads :=
          match decodeSmrdOffset inst with
          | .inSgpr sgpr => if sgpr < kRegs then insert sgpr reads else reads
          | .dwords _ => reads
        writes := addRange ∅ s.sdst dwords
        sources := addRange ∅ s.sdst dwords }
  | _ => {}

/-! ## The compiled walk -/

structure ReplayOp where
  index : ℕ
  version : ℕ
  captureBefore : Bool
  step : Bool
  captureAfter : Bool

/-- The loop of `PlanReplay` over the instructions. -/
def planForward : ℕ → DescriptorVersions → List Inst → List ReplayOp
  | _, _, [] => []
  | index, versions, inst :: insts =>
    let s := decodeSmrd inst.raw0
    ⟨index, if isSmrdConsumer inst then versions.of (s.sbase * 2) (if s.op ≤ 0x04 then 2 else 4) else 0,
      isSmrdConsumer inst, false, isResourceConsumer inst⟩ ::
      planForward (index + 1) (versions.note inst) insts

/-- The loop back, with the live registers and source addresses before the instructions. -/
def planBackward (prune : Bool) : List (Inst × ReplayOp) → List ReplayOp × SgprSet × SgprSet
  | [] => ([], ∅, ∅)
  | (inst, op) :: rest =>
    let (ops, live, liveSources) := planBackward prune rest
    let srsrc := resourceSgpr inst
    let mimg := inst.enc = .kMimg
    let live := if op.captureAfter then addRange live srsrc (if mimg then 8 else 4) else live
    let live := if op.captureAfter ∧ mimg then addRange live (samplerSgpr inst) 4 else live
    let liveSources := if op.captureAfter then addRange liveSources srsrc 1 else liveSources
    let e := effectsOf inst
    let step : Bool := ¬prune ∨ e.keep ∨ ¬Disjoint e.writes live ∨ ¬Disjoint e.sources liveSources
    let live := if step then (live \ e.writes) ∪ e.reads else live
    let live := if op.captureBefore then addRange live ((decodeSmrd inst.raw0).sbase * 2) 4 else live
    ({ op with step } :: ops, live, liveSources)

def planReplay (insts : List Inst) (prune : Bool) : List ReplayOp :=
  (planBackward prune (insts.zip (planForward 0 {} insts))).1.filter fun op =>
    op.step || op.captureBefore || op.captureAfter

section Replay

variable (guest : ScalarMemory) (codeBase : ℕ)

def captureSmrd (inst : Inst) (e : ScalarEval) : Window :=
  capture ((decodeSmrd inst.raw0).sbase * 2) 4 e

def captureResource (inst : Inst) (e : ScalarEval) : Window × Window :=
  (capture (resourceSgpr inst) (if inst.enc = .kMimg then 8 else 4) e,
    if inst.enc = .kMimg then capture (samplerSgpr inst) 4 e else {})

/-- The loop of `BuildReplay`. -/
def buildLoop (insts : List Inst) : List ReplayOp → ScalarEval → List ScalarConsumer
  | [], _ => []
  | op :: plan, e =>
    match insts[op.index]? with
    | none => buildLoop insts plan e
    | some inst =>
      let before : List ScalarConsumer :=
        if op.captureBefore then [⟨op.index, op.version, captureSmrd inst e, {}, 0⟩] else []
      let e := if op.step then e.step inst guest codeBase else e
      let after : List ScalarConsumer :=
        if op.captureAfter then
          let regs := captureResource inst e
          [⟨op.index, 0, regs.1, regs.2, if resourceSgpr inst < kRegs then e.src (resourceSgpr inst) else 0⟩]
        else []
      before ++ after ++ buildLoop insts plan e

def buildReplay (insts : List Inst) (plan : List ReplayOp) (userData : ℕ → UInt32) :
    List ScalarConsumer := buildLoop guest codeBase insts plan (ScalarEval.start userData)

/-- What the consumers read if every instruction steps. -/
def evaluateAll : List Inst → ScalarEval → List (Inst × Window × Window)
  | [], _ => []
  | inst :: insts, e =>
    (if isSmrdConsumer inst then [(inst, captureSmrd inst e, {})] else []) ++
      (if isResourceConsumer inst then
        [(inst, captureResource inst (e.step inst guest codeBase))] else []) ++
      evaluateAll insts (e.step inst guest codeBase)

end Replay

def vectorTouchesScalarFile (inst : Inst) : Bool :=
  match inst.enc with
  | .kVop1 => inst.opcode = 0x02
  | .kVop2 => inst.opcode = 0x01 ∨ inst.opcode = 0x02
  | .kVop3 =>
    inst.opcode < 0x100 ∨ inst.opcode = 0x101 ∨ inst.opcode = 0x102 ∨ inst.opcode = 0x182 ∨ vop3bWritesSdst inst.opcode
  | _ => false

/-- The walk has to see the instruction. -/
def isScalarInst (inst : Inst) : Bool :=
  inst.enc ∈ [Enc.kSop1, .kSopk, .kSop2, .kSmrd, .kMimg, .kMubuf, .kMtbuf] ∨ vectorTouchesScalarFile inst

def reachedInsts (program : Program) (reachable : List Bool) : List Inst :=
  ((program.zip reachable).filter fun p => p.2).map Prod.fst

/-- The instructions that the walk steps, of `CachedScalarInfo`. -/
def scalarInsts (program : Program) (reachable : List Bool) : List Inst :=
  (reachedInsts program reachable).filter isScalarInst

/-! ## The table describes the steps -/

section Mirror

variable {guest : ScalarMemory} {codeBase : ℕ} {inst : Inst} {e f : ScalarEval} {set : SgprSet}
  {first n field r : ℕ}

theorem mem_addRange : r ∈ addRange set first n ↔ r ∈ set ∨ (r < kRegs ∧ first ≤ r ∧ r < first + n) := by
  rw [addRange, Finset.mem_union, Finset.mem_filter, Finset.mem_range]

theorem mem_addSource : r ∈ addSource set field ↔ r ∈ set ∨ (field ≤ 127 ∧ r = field) := by
  rw [addSource]
  split_ifs with h
  · rw [Finset.mem_insert, or_comm]
    simp [h]
  · simp [h]

theorem and_mask_lt (w : ℕ) {mask : ℕ} (k : ℕ) (h : mask = 2 ^ k - 1) : w &&& mask < 2 ^ k := by
  rw [h, Nat.and_two_pow_sub_one_eq_mod]
  exact Nat.mod_lt _ (Nat.two_pow_pos k)

structure SameOn (set : SgprSet) (e f : ScalarEval) : Prop where
  laneSpill : e.laneSpill = f.laneSpill
  value : ∀ r ∈ set, e.value r = f.value r

theorem SameOn.source (h : SameOn set e f) (field : ℕ) (hfield : field ≤ 127 → field ∈ set) (literal : ℕ) :
    e.source field literal = f.source field literal := by
  rw [ScalarEval.source, ScalarEval.source]
  split_ifs with hle
  · exact h.value _ (hfield hle)
  · rfl

structure Mirrors (guest : ScalarMemory) (codeBase : ℕ) (inst : Inst) (effects : StepEffects)
    (first n : ℕ) (results : ScalarEval → ℕ → Option UInt32) : Prop where
  writes : effects.writes = addRange ∅ first n
  assigns : ∀ e, ScalarEval.Assigns e (e.step inst guest codeBase) first n (results e)
  determined : ∀ {e f}, SameOn effects.reads e f → ∀ i < n, results e i = results f i

theorem mirrors_sop1 (henc : inst.enc = .kSop1) :
    Mirrors guest codeBase inst (effectsOf inst) ((inst.raw0 >>> 16) &&& 0x7F)
      (if sop1DestIs64 inst.opcode then 2 else 1) fun e => e.sop1Results inst codeBase := by
  refine ⟨by simp only [effectsOf, henc], ?_, ?_⟩
  · intro e
    rw [ScalarEval.step, henc]
    exact ScalarEval.assigns_stepSop1 codeBase
  · intro e f hsame i _
    simp only [effectsOf, henc] at hsame
    have hlo : inst.opcode = 0x03 ∨ inst.opcode = 0x04 →
        e.source (inst.raw0 &&& 0xFF) inst.literal = f.source (inst.raw0 &&& 0xFF) inst.literal := by
      intro hop
      refine hsame.source _ (fun hfield => ?_) _
      have hmem : inst.raw0 &&& 0xFF ∈ addSource ∅ (inst.raw0 &&& 0xFF) :=
        mem_addSource.mpr (.inr ⟨hfield, rfl⟩)
      rw [if_pos hop]
      split_ifs
      · exact Finset.mem_insert_of_mem hmem
      · exact hmem
    have hhi : inst.opcode = 0x04 →
        e.sourceHi (inst.raw0 &&& 0xFF) = f.sourceHi (inst.raw0 &&& 0xFF) := by
      intro hop
      rw [ScalarEval.sourceHi, ScalarEval.sourceHi]
      split_ifs with hfield
      · refine hsame.source _ (fun _ => ?_) _
        rw [if_pos ⟨hop, hfield⟩]
        exact Finset.mem_insert_self _ _
      · rfl
    simp only [ScalarEval.sop1Results]
    by_cases hmov : inst.opcode = 0x03
    · rw [if_pos hmov, if_pos hmov]
      exact hlo (.inl hmov)
    by_cases hpair : inst.opcode = 0x04
    · rw [hlo (.inr hpair), hhi hpair]
    · rw [if_neg hmov, if_neg hmov, if_neg hpair, if_neg hpair]

theorem mirrors_none (hwrites : (effectsOf inst).writes = ∅)
    (hstep : ∀ e : ScalarEval, e.step inst guest codeBase = e) :
    Mirrors guest codeBase inst (effectsOf inst) 0 0 fun _ _ => none := by
  refine ⟨?_, ?_, fun _ i hi => absurd hi (Nat.not_lt_zero i)⟩
  · rw [hwrites]
    ext r
    simp [mem_addRange]
  · intro e
    rw [hstep]
    exact ScalarEval.assigns_none 0

theorem singleton_eq_addRange {s : ℕ} (h : s < kRegs) : {s} = addRange ∅ s 1 := by
  ext r
  rw [Finset.mem_singleton, mem_addRange]
  simp only [Finset.notMem_empty, false_or]
  omega

theorem mirrors_sopk (henc : inst.enc = .kSopk) : ∃ first n results,
    Mirrors guest codeBase inst (effectsOf inst) first n results := by
  have hlt : (inst.raw0 >>> 16) &&& 0x7F < 2 ^ 7 := and_mask_lt _ 7 rfl
  have hregs : kRegs = 136 := rfl
  cases hkeeps : ScalarEval.sopkKeeps inst.opcode with
  | true =>
    refine ⟨0, 0, _, mirrors_none ?_ ?_⟩
    · rw [ScalarEval.sopkKeeps, decide_eq_true_iff] at hkeeps
      simp only [effectsOf, henc]
      rw [if_pos hkeeps]
    · intro e
      simp only [ScalarEval.step, henc, ScalarEval.stepSopk]
      have hop := hkeeps
      rw [ScalarEval.sopkKeeps, decide_eq_true_iff] at hop
      rw [if_neg (by omega), if_neg (by omega), if_neg (by omega), if_pos hkeeps]
  | false =>
    refine ⟨(inst.raw0 >>> 16) &&& 0x7F, 1, fun e _ => e.sopkResult inst, ?_, ?_, ?_⟩
    · rw [ScalarEval.sopkKeeps, decide_eq_false_iff_not] at hkeeps
      simp only [effectsOf, henc]
      rw [if_neg hkeeps]
      exact singleton_eq_addRange (by omega)
    · intro e
      rw [ScalarEval.step, henc]
      exact ScalarEval.assigns_stepSopk hkeeps
    · intro e f hsame i _
      rw [ScalarEval.sopkKeeps, decide_eq_false_iff_not] at hkeeps
      simp only [effectsOf, henc] at hsame
      rw [if_neg hkeeps] at hsame
      have hvalue : inst.opcode = 0x0f ∨ inst.opcode = 0x10 →
          e.value ((inst.raw0 >>> 16) &&& 0x7F) = f.value ((inst.raw0 >>> 16) &&& 0x7F) := by
        intro hop
        refine hsame.value _ ?_
        simp only [if_pos hop]
        exact Finset.mem_singleton_self _
      simp only [ScalarEval.sopkResult]
      split_ifs with hmovk haddk hmulk
      · rfl
      · rw [hvalue (.inl haddk)]
      · rw [hvalue (.inr hmulk)]
      · rfl

theorem mirrors_sop2 (henc : inst.enc = .kSop2) :
    Mirrors guest codeBase inst (effectsOf inst) ((inst.raw0 >>> 16) &&& 0x7F)
      (if sop2DestIs64 inst.opcode then 2 else 1) fun e => e.sop2Results inst := by
  refine ⟨by simp only [effectsOf, henc], ?_, ?_⟩
  · intro e
    rw [ScalarEval.step, henc]
    exact ScalarEval.assigns_stepSop2
  · intro e f hsame i _
    simp only [effectsOf, henc] at hsame
    have ha := hsame.source (inst.raw0 &&& 0xFF)
      (fun h => mem_addSource.mpr (.inl (mem_addSource.mpr (.inr ⟨h, rfl⟩)))) inst.literal
    have hb := hsame.source ((inst.raw0 >>> 8) &&& 0xFF)
      (fun h => mem_addSource.mpr (.inr ⟨h, rfl⟩)) inst.literal
    simp only [ScalarEval.sop2Results]
    rw [ha, hb]

theorem effectsOf_lanes (henc : inst.enc = .kVop1 ∨ inst.enc = .kVop2 ∨ inst.enc = .kVop3) : effectsOf inst =
      if isWritelane inst then
        { reads := addSource (addSource ∅ (laneSrc0 inst)) (laneSrc1 inst), keep := true }
      else if isReadlane inst ∨ isReadfirstlane inst then
        { reads :=
            if ¬(inst.enc = .kVop1 ∨ inst.opcode = 0x182) then addSource ∅ (laneSrc1 inst) else ∅
          writes := addRange ∅ (laneDst inst) 1
          sources := addRange ∅ (laneDst inst) 1 }
      else if inst.enc = .kVop3 ∧ (inst.opcode < 0x100 ∨ vop3bWritesSdst inst.opcode) then
        { writes :=
            addRange ∅ (if inst.opcode < 0x100 then laneDst inst else (inst.raw0 >>> 8) &&& 0x7F) 2 }
      else {} := by
  rcases henc with henc | henc | henc <;> simp only [effectsOf, henc]

theorem readlane_reads (hread : isReadlane inst = true) : ¬(inst.enc = .kVop1 ∨ inst.opcode = 0x182) := by
  rw [isReadlane, decide_eq_true_iff] at hread
  rcases hread with ⟨henc, hop⟩ | ⟨henc, hop⟩ <;> simp [henc, hop]

theorem mirrors_lanes (henc : inst.enc = .kVop1 ∨ inst.enc = .kVop2 ∨ inst.enc = .kVop3)
    (hwrite : isWritelane inst = false) : ∃ first n results,
    Mirrors guest codeBase inst (effectsOf inst) first n results := by
  have heffects := effectsOf_lanes henc
  rw [hwrite, if_neg Bool.false_ne_true] at heffects
  have hcases := fun e : ScalarEval => e.stepLaneOp_cases henc
  simp only [hwrite, Bool.false_eq_true, false_and, false_or, true_and] at hcases
  by_cases hread : isReadlane inst = true ∨ isReadfirstlane inst = true
  · rw [if_pos hread] at heffects
    simp only [hread, not_true, false_and, or_false, true_and] at hcases
    refine ⟨laneDst inst, 1, fun e _ => e.readlaneResult inst, by rw [heffects], ?_, ?_⟩
    · intro e
      rw [ScalarEval.step_lanes henc, hcases]
      exact ScalarEval.assigns_stepReadlane
    · intro e f hsame i _
      rw [heffects] at hsame
      rw [ScalarEval.readlaneResult, ScalarEval.readlaneResult, hsame.laneSpill]
      cases hfirst : isReadfirstlane inst with
      | true => rfl
      | false =>
        have hreads := readlane_reads (hread.resolve_right (by simp [hfirst]))
        simp only [if_pos hreads] at hsame
        have hlane := hsame.source _ (fun h => mem_addSource.mpr (.inr ⟨h, rfl⟩)) inst.literal
        rw [if_neg Bool.false_ne_true, if_neg Bool.false_ne_true, hlane]
  rw [if_neg hread] at heffects
  simp only [hread, not_false_eq_true, false_and, false_or, true_and] at hcases
  by_cases hclear : inst.enc = .kVop3 ∧ (inst.opcode < 0x100 ∨ vop3bWritesSdst inst.opcode = true)
  · rw [if_pos hclear] at heffects
    simp only [hclear.1, hclear.2, and_self, not_true, false_and, or_false, true_and] at hcases
    refine ⟨_, 2, fun _ _ => none, by rw [heffects], ?_, fun _ _ _ => rfl⟩
    intro e
    rw [ScalarEval.step_lanes henc, hcases]
    exact ScalarEval.assigns_clears _ 2
  · rw [if_neg hclear] at heffects
    refine ⟨0, 0, _, mirrors_none (by rw [heffects]) fun e => ?_⟩
    have hnone := (hcases e).resolve_left fun h => hclear h.1
    rw [ScalarEval.step_lanes henc, hnone.2]
    rfl

theorem allKnown_eq (s n : ℕ) : e.allKnown s n = decide (s + n ≤ kRegs ∧ ∀ i < n, (e.value (s + i)).isSome = true) := by
  rw [ScalarEval.allKnown]
  refine decide_eq_decide.mpr (and_congr_right fun _ => ?_)
  rw [List.all_eq_true]
  refine forall_congr' fun i => ?_
  rw [List.mem_range]
  refine imp_congr_right fun _ => ?_
  rw [ScalarEval.value]
  split_ifs with h <;> simp [h]

theorem value_eq_some {v : UInt32} : e.value r = some v ↔ e.known r = true ∧ e.sgpr r = v := by
  rw [ScalarEval.value]
  split_ifs with h <;> simp [h]

theorem sgpr_congr (h : e.value r = f.value r) (hsome : (e.value r).isSome = true) : e.sgpr r = f.sgpr r := by
  obtain ⟨v, hv⟩ := Option.isSome_iff_exists.mp hsome
  rw [(value_eq_some.mp hv).2, (value_eq_some.mp (h ▸ hv)).2]

theorem smrdAddress_congr (hsame : SameOn set e f) (hbase : ∀ r < kRegs, (decodeSmrd inst.raw0).sbase * 2 ≤ r →
      r < (decodeSmrd inst.raw0).sbase * 2 + (if isBufferLoad (decodeSmrd inst.raw0).op then 4 else 2) → r ∈ set)
    (hoffset : ∀ sgpr, decodeSmrdOffset inst = .inSgpr sgpr → sgpr < kRegs → sgpr ∈ set) :
    e.smrdAddress inst = f.smrdAddress inst := by
  have hoff : ∀ sgpr, decodeSmrdOffset inst = .inSgpr sgpr →
      (if sgpr < kRegs ∧ e.known sgpr then some (e.sgpr sgpr).toNat else none) =
        if sgpr < kRegs ∧ f.known sgpr then some (f.sgpr sgpr).toNat else none := by
    intro sgpr hin
    by_cases hlt : sgpr < kRegs
    · have hvalue := congrArg (Option.map UInt32.toNat) (hsame.value sgpr (hoffset sgpr hin hlt))
      simp only [ScalarEval.value] at hvalue
      simp only [hlt, true_and]
      split_ifs at hvalue ⊢ <;> first | exact hvalue | cases hvalue
    · rw [if_neg fun h => hlt h.1, if_neg fun h => hlt h.1]
  simp only [ScalarEval.smrdAddress, allKnown_eq]
  generalize hn : (if isBufferLoad (decodeSmrd inst.raw0).op = true then 4 else 2) = n at hbase ⊢
  generalize (decodeSmrd inst.raw0).sbase * 2 = base at hbase ⊢
  have hvalue : base + n ≤ kRegs → ∀ i < n, e.value (base + i) = f.value (base + i) := fun hle i hi =>
    hsame.value _ (hbase _ (by omega) (by omega) (by omega))
  have hknown : (base + n ≤ kRegs ∧ ∀ i < n, (e.value (base + i)).isSome = true) ↔
      base + n ≤ kRegs ∧ ∀ i < n, (f.value (base + i)).isSome = true :=
    and_congr_right fun hle => forall₂_congr fun i hi => by rw [hvalue hle i hi]
  have htwo : 2 ≤ n := by
    rw [← hn]
    split_ifs <;> decide
  by_cases hall : base + n ≤ kRegs ∧ ∀ i < n, (e.value (base + i)).isSome = true
  · have h0 : e.sgpr base = f.sgpr base :=
      sgpr_congr (hvalue hall.1 0 (by omega)) (hall.2 0 (by omega))
    have h1 : e.sgpr (base + 1) = f.sgpr (base + 1) :=
      sgpr_congr (hvalue hall.1 1 (by omega)) (hall.2 1 (by omega))
    rw [decide_eq_true hall, decide_eq_true (hknown.mp hall), if_pos rfl, if_pos rfl,
      ScalarEval.vbufferBase, ScalarEval.vbufferBase, ScalarEval.ptr, ScalarEval.ptr, h0, h1]
    cases hdec : decodeSmrdOffset inst with
    | dwords k => rfl
    | inSgpr sgpr =>
      dsimp only
      rw [hoff sgpr hdec]
  · rw [decide_eq_false hall, decide_eq_false fun h => hall (hknown.mpr h),
      if_neg Bool.false_ne_true, if_neg Bool.false_ne_true]

theorem mirrors_smrd (henc : inst.enc = .kSmrd) : ∃ first n results,
    Mirrors guest codeBase inst (effectsOf inst) first n results := by
  cases hdwords : smrdDwords (decodeSmrd inst.raw0).op with
  | none =>
    refine ⟨0, 0, _, mirrors_none ?_ ?_⟩
    · simp only [effectsOf, henc, hdwords]
    · intro e
      simp only [ScalarEval.step, henc, ScalarEval.stepSmrd, hdwords]
  | some dwords =>
    refine ⟨(decodeSmrd inst.raw0).sdst, dwords, fun e => e.smrdResults inst guest dwords, ?_, ?_, ?_⟩
    · simp only [effectsOf, henc, hdwords]
    · intro e
      rw [ScalarEval.step, henc]
      exact ScalarEval.assigns_stepSmrd hdwords
    · intro e f hsame i _
      simp only [effectsOf, henc, hdwords] at hsame
      have haddress : e.smrdAddress inst = f.smrdAddress inst := by
        refine smrdAddress_congr hsame ?_ ?_
        · intro r hlt hge hend
          have hmem : r ∈ addRange ∅ ((decodeSmrd inst.raw0).sbase * 2)
              (if isBufferLoad (decodeSmrd inst.raw0).op then 4 else 2) :=
            mem_addRange.mpr (.inr ⟨hlt, hge, hend⟩)
          cases decodeSmrdOffset inst with
          | dwords k => exact hmem
          | inSgpr sgpr =>
            dsimp only
            by_cases hregs : sgpr < kRegs
            · rw [if_pos hregs]
              exact Finset.mem_insert_of_mem hmem
            · rw [if_neg hregs]
              exact hmem
        · intro sgpr hin hlt
          simp only [hin]
          rw [if_pos hlt]
          exact Finset.mem_insert_self _ _
      simp only [ScalarEval.smrdResults]
      rw [haddress]

/-- **Every entry of the table** describes its step, but for those that park a scalar. -/
theorem exists_mirrors (guest : ScalarMemory) (codeBase : ℕ) (h : (effectsOf inst).keep = false) :
    ∃ first n results, Mirrors guest codeBase inst (effectsOf inst) first n results := by
  have hlanes : ∀ henc : inst.enc = .kVop1 ∨ inst.enc = .kVop2 ∨ inst.enc = .kVop3,
      ∃ first n results, Mirrors guest codeBase inst (effectsOf inst) first n results := by
    intro henc
    refine mirrors_lanes henc ?_
    rw [effectsOf_lanes henc] at h
    by_contra hwrite
    rw [if_pos (Bool.not_eq_false _ ▸ hwrite)] at h
    cases h
  have hnone : ∀ hwrites : (effectsOf inst).writes = ∅, (∀ e : ScalarEval, e.step inst guest codeBase = e) →
      ∃ first n results, Mirrors guest codeBase inst (effectsOf inst) first n results :=
    fun hwrites hstep => ⟨0, 0, _, mirrors_none hwrites hstep⟩
  cases henc : inst.enc with
  | kSop1 => exact ⟨_, _, _, mirrors_sop1 henc⟩
  | kSopk => exact mirrors_sopk henc
  | kSop2 => exact ⟨_, _, _, mirrors_sop2 henc⟩
  | kSmrd => exact mirrors_smrd henc
  | kVop1 => exact hlanes (.inl henc)
  | kVop2 => exact hlanes (.inr (.inl henc))
  | kVop3 => exact hlanes (.inr (.inr henc))
  | _ =>
    -- The other encodings leave the registers alone.
    exact hnone (by simp only [effectsOf, henc]) fun e =>
      ScalarEval.step_other (by simp [henc]) (by simp [henc])

theorem keep_isWritelane (h : (effectsOf inst).keep = true) :
    (inst.enc = .kVop1 ∨ inst.enc = .kVop2 ∨ inst.enc = .kVop3) ∧ isWritelane inst = true := by
  have henc : inst.enc = .kVop1 ∨ inst.enc = .kVop2 ∨ inst.enc = .kVop3 := by
    cases henc : inst.enc with
    | kVop1 => exact .inl rfl
    | kVop2 => exact .inr (.inl rfl)
    | kVop3 => exact .inr (.inr rfl)
    | kSopk =>
      simp only [effectsOf, henc] at h
      split_ifs at h
    | kSmrd =>
      simp only [effectsOf, henc] at h
      split at h <;> cases h
    | _ =>
      simp only [effectsOf, henc] at h
      cases h
  refine ⟨henc, ?_⟩
  rw [effectsOf_lanes henc] at h
  split_ifs at h with hwrite
  exact hwrite

theorem step_writelane (henc : inst.enc = .kVop1 ∨ inst.enc = .kVop2 ∨ inst.enc = .kVop3)
    (hwrite : isWritelane inst = true) : e.step inst guest codeBase = e.stepWritelane inst := by
  have hstep : e.stepLaneOp inst = some (e.stepWritelane inst) := by
    have hcases := e.stepLaneOp_cases henc
    simp only [hwrite, Bool.true_eq_false, false_and, or_false, true_and] at hcases
    exact hcases
  rw [ScalarEval.step_lanes henc, hstep]
  rfl

theorem laneSpill_foldl_forget (h : e.laneSpill = f.laneSpill) (slots : List ℕ) :
    (slots.foldl ScalarEval.forget e).laneSpill = (slots.foldl ScalarEval.forget f).laneSpill := by
  induction slots generalizing e f with
  | nil => exact h
  | cons slot slots ih =>
    refine ih ?_
    rw [ScalarEval.forget, ScalarEval.forget, h]

theorem laneSpill_stepWritelane (h : e.laneSpill = f.laneSpill)
    (h0 : e.source (laneSrc0 inst) inst.literal = f.source (laneSrc0 inst) inst.literal)
    (h1 : e.source (laneSrc1 inst) inst.literal = f.source (laneSrc1 inst) inst.literal) :
    (e.stepWritelane inst).laneSpill = (f.stepWritelane inst).laneSpill := by
  rw [ScalarEval.stepWritelane, ScalarEval.stepWritelane, h0, h1]
  cases f.source (laneSrc1 inst) inst.literal with
  | none =>
    have hslots := laneSpill_foldl_forget h ((List.range 64).map fun i => laneDst inst * 64 + i)
    rw [List.foldl_map, List.foldl_map] at hslots
    exact hslots
  | some lane =>
    dsimp only
    cases f.source (laneSrc0 inst) inst.literal with
    | none =>
      dsimp only
      rw [ScalarEval.forget, ScalarEval.forget, h]
    | some v =>
      dsimp only
      rw [ScalarEval.park, ScalarEval.park, h]

theorem not_mem_writes_of_keep (h : (effectsOf inst).keep = true) : (effectsOf inst).writes = ∅ := by
  obtain ⟨henc, hwrite⟩ := keep_isWritelane h
  rw [effectsOf_lanes henc, if_pos hwrite]

/-- The steps of the walk as the table has them. -/
def replayTransfer (guest : ScalarMemory) (codeBase : ℕ) :
    Transfer Inst ScalarEval ℕ (Option UInt32) (ℕ → Option UInt32) where
  step inst e := e.step inst guest codeBase
  reg e r := e.value r
  hidden := ScalarEval.laneSpill
  reads inst := (effectsOf inst).reads
  writes inst := (effectsOf inst).writes
  keeps inst := (effectsOf inst).keep
  frame {inst r} hr e := by
    cases hkeep : (effectsOf inst).keep with
    | true =>
      obtain ⟨henc, hwrite⟩ := keep_isWritelane hkeep
      rw [step_writelane henc hwrite]
      exact ScalarEval.value_stepWritelane r
    | false =>
      obtain ⟨first, n, results, hmirrors⟩ := exists_mirrors guest codeBase hkeep
      rw [(hmirrors.assigns e).value, if_neg]
      intro hmem
      rw [hmirrors.writes, mem_addRange] at hr
      exact hr (.inr ⟨hmem.2.2, hmem.1, hmem.2.1⟩)
  frame_hidden {inst} hkeep e := by
    obtain ⟨first, n, results, hmirrors⟩ := exists_mirrors guest codeBase hkeep
    exact (hmirrors.assigns e).laneSpill
  determined {inst e f} hhidden hreads := by
    cases hkeep : (effectsOf inst).keep with
    | true =>
      obtain ⟨henc, hwrite⟩ := keep_isWritelane hkeep
      have hsame : SameOn (effectsOf inst).reads e f := ⟨hhidden, hreads⟩
      rw [step_writelane henc hwrite, step_writelane henc hwrite, not_mem_writes_of_keep hkeep]
      rw [effectsOf_lanes henc, if_pos hwrite] at hsame
      refine ⟨laneSpill_stepWritelane hhidden ?_ ?_, fun r hr => absurd hr (Finset.notMem_empty r)⟩
      · exact hsame.source _ (fun h => mem_addSource.mpr (.inl (mem_addSource.mpr (.inr ⟨h, rfl⟩)))) _
      · exact hsame.source _ (fun h => mem_addSource.mpr (.inr ⟨h, rfl⟩)) _
    | false =>
      obtain ⟨first, n, results, hmirrors⟩ := exists_mirrors guest codeBase hkeep
      refine ⟨?_, ?_⟩
      · rw [(hmirrors.assigns e).laneSpill, (hmirrors.assigns f).laneSpill]
        exact hhidden
      · intro r hr
        rw [hmirrors.writes, mem_addRange] at hr
        obtain ⟨hlt, hge, hend⟩ := hr.resolve_left (Finset.notMem_empty r)
        rw [(hmirrors.assigns e).value, (hmirrors.assigns f).value, if_pos ⟨hge, hend, hlt⟩, if_pos ⟨hge, hend, hlt⟩]
        exact hmirrors.determined ⟨hhidden, hreads⟩ _ (by omega)

end Mirror

/-! ## The walks agree -/

section Pruning

variable {guest : ScalarMemory} {codeBase : ℕ} {inst : Inst} {e f : ScalarEval} {live : SgprSet}
  {insts : List Inst} {prune : Bool}

theorem buildLoop_filter (ops : List ReplayOp) : buildLoop guest codeBase insts
        (ops.filter fun op => op.step || op.captureBefore || op.captureAfter) e =
      buildLoop guest codeBase insts ops e := by
  induction ops generalizing e with
  | nil => rfl
  | cons op ops ih =>
    rw [List.filter_cons]
    split_ifs with hop
    · rw [buildLoop, buildLoop]
      split
      · exact ih
      · simp only [ih]
    · simp only [Bool.not_eq_true, Bool.or_eq_false_iff] at hop
      obtain ⟨⟨hstep, hbefore⟩, hafter⟩ := hop
      rw [buildLoop, ih, hstep, hbefore, hafter]
      split
      · rfl
      · rfl

theorem capture_congr {first count : ℕ} (h : (replayTransfer guest codeBase).Agree live e f)
    (hlive : addRange ∅ first count ⊆ live) : capture first count e = capture first count f := by
  rw [capture, capture]
  congr 1
  refine List.map_congr_left ?_
  intro i hi
  rw [List.mem_range] at hi
  exact h.reg _ (hlive (mem_addRange.mpr (.inr ⟨by omega, by omega, by omega⟩)))

theorem subset_addRange {first count : ℕ} : live ⊆ addRange live first count :=
  Finset.subset_union_left

theorem addRange_mono {set : SgprSet} {first count : ℕ} (h : set ⊆ live) :
    addRange set first count ⊆ addRange live first count := Finset.union_subset_union_left h

def liveAfter (inst : Inst) (live : SgprSet) : SgprSet :=
  if isResourceConsumer inst then
    let live := addRange live (resourceSgpr inst) (if inst.enc = .kMimg then 8 else 4)
    if inst.enc = .kMimg then addRange live (samplerSgpr inst) 4 else live
  else live

theorem subset_liveAfter : live ⊆ liveAfter inst live := by
  rw [liveAfter]
  split_ifs
  · exact subset_addRange.trans subset_addRange
  · exact subset_addRange
  · exact Finset.Subset.refl live

theorem captureResource_congr (hconsumer : isResourceConsumer inst = true)
    (h : (replayTransfer guest codeBase).Agree (liveAfter inst live) e f) :
    captureResource inst e = captureResource inst f := by
  rw [liveAfter, if_pos hconsumer] at h
  have hregs : addRange ∅ (resourceSgpr inst) (if inst.enc = .kMimg then 8 else 4) ⊆
      addRange live (resourceSgpr inst) (if inst.enc = .kMimg then 8 else 4) :=
    addRange_mono (Finset.empty_subset live)
  rw [captureResource, captureResource]
  by_cases hmimg : inst.enc = .kMimg
  · dsimp only at h
    rw [if_pos hmimg] at h
    rw [if_pos hmimg] at h hregs ⊢
    rw [if_pos hmimg, if_pos hmimg, capture_congr h (hregs.trans subset_addRange),
      capture_congr h (addRange_mono (Finset.empty_subset _))]
  · dsimp only at h
    rw [if_neg hmimg] at h
    rw [if_neg hmimg] at h hregs ⊢
    rw [if_neg hmimg, if_neg hmimg, capture_congr h hregs]

/-- What is captured, apart from the source address. -/
def seen (insts : List Inst) (c : ScalarConsumer) : Option Inst × Window × Window :=
  (insts[c.index]?, c.regs, c.sampler)

def liveBefore (inst : Inst) (step : Bool) (live : SgprSet) : SgprSet :=
  let live := if step then (live \ (effectsOf inst).writes) ∪ (effectsOf inst).reads else live
  if isSmrdConsumer inst then addRange live ((decodeSmrd inst.raw0).sbase * 2) 4 else live

theorem planBackward_cons (prune : Bool) (inst : Inst) (op : ReplayOp) (rest : List (Inst × ReplayOp))
    (hbefore : op.captureBefore = isSmrdConsumer inst) (hafter : op.captureAfter = isResourceConsumer inst) :
    ∃ step : Bool, (step = false → Disjoint (effectsOf inst).writes (liveAfter inst (planBackward prune rest).2.1) ∧
        (effectsOf inst).keep = false) ∧ (planBackward prune ((inst, op) :: rest)).1 =
        { op with step } :: (planBackward prune rest).1 ∧
      (planBackward prune ((inst, op) :: rest)).2.1 =
        liveBefore inst step (liveAfter inst (planBackward prune rest).2.1) := by
  have hlive : liveAfter inst (planBackward prune rest).2.1 = if op.captureAfter ∧ inst.enc = .kMimg then
        addRange (if op.captureAfter then addRange (planBackward prune rest).2.1 (resourceSgpr inst)
          (if inst.enc = .kMimg then 8 else 4) else (planBackward prune rest).2.1) (samplerSgpr inst) 4
      else if op.captureAfter then addRange (planBackward prune rest).2.1 (resourceSgpr inst)
        (if inst.enc = .kMimg then 8 else 4) else (planBackward prune rest).2.1 := by
    rw [liveAfter, hafter]
    cases isResourceConsumer inst <;> simp
  refine ⟨_, ?_, rfl, ?_⟩
  · intro hstep
    rw [decide_eq_false_iff_not] at hstep
    push Not at hstep
    obtain ⟨-, hkeep, hdisjoint, -⟩ := hstep
    rw [hlive]
    exact ⟨hdisjoint, by simpa using hkeep⟩
  · rw [liveBefore, ← hbefore, hlive]
    rfl

theorem subset_liveBefore {step : Bool} :
    (if step then (live \ (effectsOf inst).writes) ∪ (effectsOf inst).reads else live) ⊆
      liveBefore inst step live := by
  rw [liveBefore]
  split_ifs <;> first | exact subset_addRange | exact Finset.Subset.refl _

theorem agree_step {step : Bool}
    (hdead : step = false → Disjoint (effectsOf inst).writes live ∧ (effectsOf inst).keep = false)
    (h : (replayTransfer guest codeBase).Agree (liveBefore inst step live) e f) :
    (replayTransfer guest codeBase).Agree live (e.step inst guest codeBase)
      (if step then f.step inst guest codeBase else f) := by
  have hmid := h.mono subset_liveBefore
  cases step with
  | true => exact hmid.step
  | false =>
    obtain ⟨hdisjoint, hkeep⟩ := hdead rfl
    exact hmid.skip hdisjoint hkeep

theorem captureSmrd_congr {step : Bool} (hconsumer : isSmrdConsumer inst = true)
    (h : (replayTransfer guest codeBase).Agree (liveBefore inst step live) e f) :
    captureSmrd inst e = captureSmrd inst f := by
  rw [liveBefore, if_pos hconsumer] at h
  exact capture_congr h (addRange_mono (Finset.empty_subset _))

/-- **The walk from an instruction on**: it captures what stepping every instruction gives, from states
that agree on the live registers. -/
theorem buildLoop_agrees (prune : Bool) (index : ℕ) (versions : DescriptorVersions) (rest : List Inst)
    (hrest : insts.drop index = rest) (h : (replayTransfer guest codeBase).Agree
      (planBackward prune (rest.zip (planForward index versions rest))).2.1 e f) : (buildLoop guest codeBase insts
        (planBackward prune (rest.zip (planForward index versions rest))).1 f).map (seen insts) =
      (evaluateAll guest codeBase rest e).map fun x => (some x.1, x.2) := by
  induction rest generalizing index versions e f with
  | nil => rfl
  | cons inst rest ih =>
    have hinst : insts[index]? = some inst := by
      rw [← List.head?_drop, hrest]
      rfl
    have hdrop : insts.drop (index + 1) = rest := by
      rw [← List.tail_drop, hrest]
      rfl
    rw [planForward, List.zip_cons_cons] at h ⊢
    obtain ⟨step, hdead, hops, hlive⟩ := planBackward_cons prune inst
      ⟨index, _, isSmrdConsumer inst, false, isResourceConsumer inst⟩
      (rest.zip (planForward (index + 1) (versions.note inst) rest)) rfl rfl
    rw [hlive] at h
    have hstep := agree_step hdead h
    have hrest' := ih (index + 1) (versions.note inst) hdrop (hstep.mono subset_liveAfter)
    rw [hops, buildLoop]
    simp only [hinst, evaluateAll, List.map_append, hrest']
    congr 2
    · cases hsmrd : isSmrdConsumer inst with
      | true => simp [seen, hinst, captureSmrd_congr hsmrd h]
      | false => simp
    · cases hresource : isResourceConsumer inst with
      | true => simp [seen, hinst, captureResource_congr hresource hstep]
      | false => simp

theorem step_of_not_isScalarInst (guest : ScalarMemory) (codeBase : ℕ) (e : ScalarEval)
    (h : isScalarInst inst = false) :
    e.step inst guest codeBase = e ∧ isSmrdConsumer inst = false ∧ isResourceConsumer inst = false := by
  rw [isScalarInst, decide_eq_false_iff_not, not_or] at h
  obtain ⟨henc, htouch⟩ := h
  have hlanes : e.stepLaneOp inst = none := by
    rw [ScalarEval.stepLaneOp]
    split_ifs with hnot hwrite hread hclear
    · rfl
    · -- The three kinds of lane operations are among those that the walk sees.
      refine absurd ?_ htouch
      simp only [isWritelane, decide_eq_true_eq] at hwrite
      rcases hwrite with ⟨hv, hop⟩ | ⟨hv, hop⟩ <;> simp [vectorTouchesScalarFile, hv, hop]
    · refine absurd ?_ htouch
      simp only [isReadlane, isReadfirstlane, decide_eq_true_eq] at hread
      rcases hread with (⟨hv, hop⟩ | ⟨hv, hop⟩) | ⟨hv, hop⟩ | ⟨hv, hop⟩ <;>
        simp [vectorTouchesScalarFile, hv, hop]
    · refine absurd ?_ htouch
      obtain ⟨hv, hop | hop⟩ := hclear <;> simp [vectorTouchesScalarFile, hv, hop]
    · rfl
  cases hcase : inst.enc <;> simp [hcase] at henc
  all_goals
    refine ⟨?_, by simp [isSmrdConsumer, hcase], by simp [isResourceConsumer, hcase]⟩
    rw [ScalarEval.step, hcase, hlanes]
    rfl

theorem evaluateAll_filter (insts : List Inst) :
    evaluateAll guest codeBase (insts.filter isScalarInst) e = evaluateAll guest codeBase insts e := by
  induction insts generalizing e with
  | nil => rfl
  | cons inst insts ih =>
    rw [List.filter_cons]
    split_ifs with h
    · rw [evaluateAll, evaluateAll, ih]
    · obtain ⟨hstep, hsmrd, hresource⟩ :=
        step_of_not_isScalarInst guest codeBase e (by simpa using h)
      rw [evaluateAll, ih, hstep, hsmrd, hresource]
      rfl

end Pruning

end Prosperity.Gcn
