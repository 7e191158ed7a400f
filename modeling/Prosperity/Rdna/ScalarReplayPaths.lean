import Prosperity.Rdna.ScalarReplay

/-!
# What the plan of a scalar replay says of the paths of a program

The writes and the back edges of a plan are those of the program, and what `Dominates` takes to come before a
use is on every path to it, if the control flow is reducible in program order: loops are nested, each is
entered at its first instruction, and what is reached is reached from before it.
-/

namespace Prosperity.Rdna

open Gcn (Enc)
open Relation (ReflTransGen)

/-! ## What a plan has -/

section Plan

variable {program : Program} {plan : ScalarReplayPlan} {fuel r i j k : ℕ} {inst : Inst} {w : ReplayWrite}

def IsRelative (inst : Inst) : Prop := replayBranchKind inst = 1 ∨ replayBranchKind inst = 2

instance (inst : Inst) : Decidable (IsRelative inst) := inferInstanceAs (Decidable (_ ∨ _))

/-- What the loop of `PlanScalarReplay` has made of the first `k` instructions. -/
structure LoopInv (program : Program) (k : ℕ) (plan : ScalarReplayPlan) : Prop where
  sorted : plan.writes.Pairwise fun a b => a.index ≤ b.index
  below : ∀ w ∈ plan.writes, w.index < k
  writes : ∀ w ∈ plan.writes, ∀ r, w.first ≤ r → r < w.first + w.count →
    ∃ inst, program[w.index]? = some inst ∧ InRange inst r
  noted : ∀ i inst r, i < k → program[i]? = some inst → InRange inst r →
    ∃ w ∈ plan.writes, w.index = i ∧ w.first ≤ r ∧ r < w.first + w.count
  indirect : ∀ i inst, i < k → program[i]? = some inst → replayBranchKind inst = 4 → plan.indirect = true
  edges : ∀ i inst, i < k → program[i]? = some inst → IsRelative inst → branchTargetIndex program inst ≤ i →
    ⟨branchTargetIndex program inst, i⟩ ∈ plan.backEdges
  targets : ∀ i inst, i < k → program[i]? = some inst → IsRelative inst → branchTargetIndex program inst ∈ plan.targets

theorem possibleScalarRanges_congr (trusted trusted' : Bool) {range : ScalarRange}
    (h : range ∈ possibleScalarRanges inst trusted) :
    ∃ range' ∈ possibleScalarRanges inst trusted', range'.first = range.first ∧ range'.count = range.count := by
  by_cases henc : inst.enc = .kSopk
  · unfold possibleScalarRanges at h ⊢
    rw [henc] at h ⊢
    dsimp only at h ⊢
    split at h
    · rename_i hcall
      rw [if_pos hcall]
      exact ⟨range, h, rfl, rfl⟩
    · rename_i hcall
      rw [if_neg hcall]
      split at h
      · rename_i hwrites
        obtain rfl := List.mem_singleton.mp h
        refine ⟨⟨inst.sdst, 1, inst.opcode = 0x00 ∨ inst.opcode = 0x0F ∨ inst.opcode = 0x10 ∨
          (inst.opcode = 0x02 ∧ trusted' = true)⟩, ?_, rfl, rfl⟩
        rw [if_pos]
        · exact List.mem_singleton_self _
        · simp only [decide_eq_true_eq] at hwrites ⊢
          tauto
      · cases h
  · by_cases hsop2 : inst.enc = .kSop2
    · unfold possibleScalarRanges at h ⊢
      rw [hsop2] at h ⊢
      obtain rfl := List.mem_singleton.mp h
      exact ⟨_, List.mem_singleton_self _, rfl, rfl⟩
    · -- no other family looks at SCC
      refine ⟨range, ?_, rfl, rfl⟩
      unfold possibleScalarRanges at h ⊢
      cases hcase : inst.enc <;> rw [hcase] at h <;> first | exact h | exact absurd hcase henc | exact absurd hcase hsop2

theorem LoopInv.turn {st : ScalarReplayPlan × Bool} (hinv : LoopInv program k st.1) (hget : program[k]? = some inst) :
    LoopInv program (k + 1) (replayTurn program st (inst, k)).1 := by
  obtain ⟨plan, trusted⟩ := st
  have hnew : ∀ w ∈ (((possibleScalarRanges inst trusted).filter fun range => range.count ≠ 0).map
      fun range => (⟨k, range.first, range.count, range.exact_, false⟩ : ReplayWrite)),
      w.index = k ∧ ∀ r, w.first ≤ r → r < w.first + w.count → InRange inst r := by
    intro w hw
    obtain ⟨range, hrange, rfl⟩ := List.mem_map.mp hw
    refine ⟨rfl, fun r hle hlt => ?_⟩
    obtain ⟨range', hrange', hfirst, hcount⟩ :=
      possibleScalarRanges_congr trusted false (List.mem_filter.mp hrange).1
    refine ⟨range', hrange', ?_⟩
    unfold ScalarRange.Has
    rw [hfirst, hcount]
    exact ⟨hle, hlt⟩
  have hlast : ∀ {i a}, i < k + 1 → program[i]? = some a → i < k ∨ (i = k ∧ a = inst) := by
    intro i a hi ha
    rcases Nat.lt_or_eq_of_le (Nat.le_of_lt_succ hi) with hlt | rfl
    · exact .inl hlt
    · exact .inr ⟨rfl, Option.some.inj (ha.symm.trans hget)⟩
  refine ⟨?_, ?_, ?_, ?_, ?_, ?_, ?_⟩
  · refine List.pairwise_append.mpr ⟨hinv.sorted, ?_, ?_⟩
    · refine List.pairwise_of_forall_mem_list fun a ha b hb => ?_
      rw [(hnew a ha).1, (hnew b hb).1]
    · intro a ha b hb
      rw [(hnew b hb).1]
      exact Nat.le_of_lt (hinv.below a ha)
  · intro w hw
    rcases List.mem_append.mp hw with hw | hw
    · exact Nat.lt_succ_of_lt (hinv.below w hw)
    · rw [(hnew w hw).1]
      exact Nat.lt_succ_self k
  · intro w hw r hle hlt
    rcases List.mem_append.mp hw with hw | hw
    · exact hinv.writes w hw r hle hlt
    · obtain ⟨hindex, hrange⟩ := hnew w hw
      exact ⟨inst, by rw [hindex]; exact hget, hrange r hle hlt⟩
  · intro i a r hi ha hr
    rcases hlast hi ha with hlt | ⟨rfl, rfl⟩
    · obtain ⟨w, hw, hrest⟩ := hinv.noted i a r hlt ha hr
      exact ⟨w, List.mem_append_left _ hw, hrest⟩
    · obtain ⟨range₀, hrange₀, hle, hlt⟩ := hr
      obtain ⟨range, hrange, hfirst, hcount⟩ := possibleScalarRanges_congr false trusted hrange₀
      rw [← hfirst] at hle hlt
      rw [← hcount] at hlt
      refine ⟨_, List.mem_append_right _ (List.mem_map.mpr ⟨range, List.mem_filter.mpr ⟨hrange, ?_⟩, rfl⟩),
        rfl, hle, hlt⟩
      simp only [decide_eq_true_eq]
      omega
  · intro i a hi ha hkind
    change (plan.indirect || decide (replayBranchKind inst = 4)) = true
    rcases hlast hi ha with hlt | ⟨rfl, rfl⟩
    · rw [hinv.indirect i a hlt ha hkind, Bool.true_or]
    · rw [hkind]
      exact Bool.or_true _
  · intro i a hi ha hrel hle
    rcases hlast hi ha with hlt | ⟨rfl, rfl⟩
    · exact List.mem_append_left _ (hinv.edges i a hlt ha hrel hle)
    · refine List.mem_append_right _ ?_
      rw [if_pos]
      · exact List.mem_singleton_self _
      · simpa [IsRelative, hle] using hrel
  · intro i a hi ha hrel
    rcases hlast hi ha with hlt | ⟨rfl, rfl⟩
    · exact List.mem_append_left _ (hinv.targets i a hlt ha hrel)
    · refine List.mem_append_right _ ?_
      rw [if_pos]
      · exact List.mem_singleton_self _
      · simpa [IsRelative] using hrel

theorem loopInv_replayLoop (program : Program) : LoopInv program program.length (replayLoop program).1 := by
  have hinitial : ∀ k ≤ program.length,
      LoopInv program k ((program.zipIdx.take k).foldl (replayTurn program) ({}, true)).1 := by
    intro k hk
    induction k with
    | zero =>
      rw [List.take_zero]
      refine ⟨List.Pairwise.nil, ?_, ?_, ?_, ?_, ?_, ?_⟩
      · intro w hw
        exact absurd hw List.not_mem_nil
      · intro w hw
        exact absurd hw List.not_mem_nil
      · intro i a r hi
        exact absurd hi (Nat.not_lt_zero i)
      · intro i a hi
        exact absurd hi (Nat.not_lt_zero i)
      · intro i a hi
        exact absurd hi (Nat.not_lt_zero i)
      · intro i a hi
        exact absurd hi (Nat.not_lt_zero i)
    | succ k ih =>
      have hlen : k < program.zipIdx.length := by rw [List.length_zipIdx]; exact hk
      rw [← List.take_concat_get' _ k hlen, List.foldl_append]
      have hget := List.getElem?_eq_getElem hk
      have hpair : program.zipIdx[k] = (program[k], k) := by simp
      rw [hpair]
      exact (ih (Nat.le_of_lt hk)).turn hget
  have hend := hinitial program.length (Nat.le_refl _)
  rwa [List.take_of_length_le (by rw [List.length_zipIdx])] at hend

/-- **What a plan has of its program.** -/
structure PlanOf (program : Program) (plan : ScalarReplayPlan) : Prop where
  sorted : plan.writes.Pairwise fun a b => a.index ≤ b.index
  writes : ∀ w ∈ plan.writes, ∀ r, w.first ≤ r → r < w.first + w.count →
    ∃ inst, program[w.index]? = some inst ∧ InRange inst r
  noted : ∀ (i : ℕ) (inst : Inst) (r : ℕ), program[i]? = some inst → InRange inst r →
    ∃ w ∈ plan.writes, w.index = i ∧ w.first ≤ r ∧ r < w.first + w.count
  indirect : ∀ (i : ℕ) (inst : Inst), program[i]? = some inst → replayBranchKind inst = 4 → plan.indirect = true
  edges : ∀ (i : ℕ) (inst : Inst), program[i]? = some inst → IsRelative inst → branchTargetIndex program inst ≤ i →
    ⟨branchTargetIndex program inst, i⟩ ∈ plan.backEdges

theorem markWrite_eq (program : Program) (plan : ScalarReplayPlan) (w : ReplayWrite) :
    markWrite program plan w = { w with loopInvariant := (markWrite program plan w).loopInvariant } := by
  unfold markWrite
  split <;> rfl

theorem planOf_planScalarReplay (h : planScalarReplay fuel program = some plan) :
    PlanOf program plan ∧ ∃ built, buildBlockDominators fuel program (replayLoop program).1 = some built ∧
      plan.blockOf = built.blockOf ∧ plan.idom = built.idom := by
  obtain ⟨built, hbuilt, rfl⟩ := Option.map_eq_some_iff.mp h
  refine ⟨?_, built, hbuilt, rfl, rfl⟩
  have hloop := loopInv_replayLoop program
  have hsame : built.writes = (replayLoop program).1.writes ∧ built.indirect = (replayLoop program).1.indirect ∧
      built.backEdges = (replayLoop program).1.backEdges := by
    unfold buildBlockDominators at hbuilt
    split at hbuilt
    · obtain rfl := Option.some.inj hbuilt
      exact ⟨rfl, rfl, rfl⟩
    · obtain ⟨idom, -, rfl⟩ := Option.map_eq_some_iff.mp hbuilt
      exact ⟨rfl, rfl, rfl⟩
  obtain ⟨hwrites, hindirect, hedges⟩ := hsame
  have hmark : (markLoopInvariantWrites program built).writes = built.writes.map fun w =>
      { w with loopInvariant := (markWrite program built w).loopInvariant } :=
    List.map_congr_left fun w _ => markWrite_eq program built w
  have hlt : ∀ {i : ℕ} {a : Inst}, program[i]? = some a → i < program.length := fun ha =>
    (List.getElem?_eq_some_iff.mp ha).1
  refine ⟨?_, ?_, ?_, ?_, ?_⟩
  · rw [hmark, List.pairwise_map, hwrites]
    exact hloop.sorted
  · intro w hw
    rw [hmark] at hw
    obtain ⟨old, hold, rfl⟩ := List.mem_map.mp hw
    rw [hwrites] at hold
    exact hloop.writes old hold
  · intro i a r ha hr
    obtain ⟨w, hw, hrest⟩ := hloop.noted i a r (hlt ha) ha hr
    rw [hmark]
    rw [← hwrites] at hw
    exact ⟨_, List.mem_map_of_mem hw, hrest⟩
  · intro i a ha hkind
    change built.indirect = true
    rw [hindirect]
    exact hloop.indirect i a (hlt ha) ha hkind
  · intro i a ha hrel hle
    change _ ∈ built.backEdges
    rw [hedges]
    exact hloop.edges i a (hlt ha) ha hrel hle

end Plan

/-! ## Blocks -/

section Blocks

variable {program : Program} {targets : List ℕ} {i j a b n : ℕ} {inst : Inst}

/-- The control may go from one instruction to another, as `PlanScalarReplay` sees a program without indirect
branches. -/
def Flows (program : Program) (i j : ℕ) : Prop :=
  ∃ inst, program[i]? = some inst ∧ j < program.length ∧
    (((replayBranchKind inst = 0 ∨ replayBranchKind inst = 2) ∧ j = i + 1) ∨
      (IsRelative inst ∧ j = branchTargetIndex program inst))

theorem leadersBelow_succ (program : Program) (targets : List ℕ) (i : ℕ) : leadersBelow program targets (i + 1) =
      leadersBelow program targets i + if replayLeader program targets i then 1 else 0 := by
  unfold leadersBelow
  rw [List.range_succ, List.filter_append, List.length_append]
  by_cases h : replayLeader program targets i = true
  · simp [h]
  · simp [h]

theorem leadersBelow_mono (program : Program) (targets : List ℕ) (h : i ≤ j) :
    leadersBelow program targets i ≤ leadersBelow program targets j := by
  induction h with
  | refl => exact Nat.le_refl _
  | step _ ih =>
    rw [leadersBelow_succ]
    exact Nat.le_trans ih (Nat.le_add_right _ _)

theorem leadersBelow_pos (program : Program) (targets : List ℕ) (i : ℕ) : 0 < leadersBelow program targets (i + 1) := by
  have hone : 1 ≤ leadersBelow program targets (0 + 1) := by
    rw [leadersBelow_succ, if_pos]
    · exact Nat.le_add_left _ _
    · simp [replayLeader]
  exact Nat.lt_of_lt_of_le hone (leadersBelow_mono program targets (by omega))

theorem replayBlockOf_zero : replayBlockOf program targets 0 = 0 := by
  unfold replayBlockOf
  rw [leadersBelow_succ]
  have hzero : leadersBelow program targets 0 = 0 := rfl
  rw [hzero]
  split <;> rfl

theorem replayBlockOf_succ (program : Program) (targets : List ℕ) (i : ℕ) : replayBlockOf program targets (i + 1) =
      replayBlockOf program targets i + if replayLeader program targets (i + 1) then 1 else 0 := by
  have hpos := leadersBelow_pos program targets i
  unfold replayBlockOf
  rw [leadersBelow_succ program targets (i + 1)]
  split <;> omega

theorem replayBlockOf_mono (program : Program) (targets : List ℕ) (h : i ≤ j) :
    replayBlockOf program targets i ≤ replayBlockOf program targets j :=
  Nat.sub_le_sub_right (leadersBelow_mono program targets (by omega)) 1

theorem replayBlockOf_lt (hleader : replayLeader program targets j = true) (h : a < j) :
    replayBlockOf program targets a < replayBlockOf program targets j := by
  obtain ⟨k, rfl⟩ : ∃ k, j = k + 1 := ⟨j - 1, by omega⟩
  have hle := replayBlockOf_mono program targets (Nat.le_of_lt_succ h)
  rw [replayBlockOf_succ, if_pos hleader]
  omega

theorem replayBlockOf_lt_blocks (h : i < program.length) :
    replayBlockOf program targets i < replayBlocks program targets := by
  have hpos := leadersBelow_pos program targets i
  have hmono : leadersBelow program targets (i + 1) ≤ leadersBelow program targets program.length :=
    leadersBelow_mono program targets h
  unfold replayBlockOf replayBlocks
  omega

theorem leaders_getD (hlt : j < n) (hleader : replayLeader program targets j = true) :
    ((List.range n).filter (replayLeader program targets)).getD (leadersBelow program targets j) 0 = j := by
  obtain ⟨m, rfl⟩ : ∃ m, n = j + (m + 1) := ⟨n - j - 1, by omega⟩
  rw [List.range_add, List.filter_append, List.range_succ_eq_map, List.map_cons, Nat.add_zero,
    List.filter_cons_of_pos hleader]
  change (_ ++ j :: _).getD ((List.range j).filter (replayLeader program targets)).length 0 = j
  rw [List.getD_append_right _ _ _ _ (Nat.le_refl _), Nat.sub_self]
  rfl

theorem replayLast_blockOf (hi : i < program.length)
    (hend : i + 1 = program.length ∨ replayLeader program targets (i + 1) = true) :
    replayLast program targets (replayBlockOf program targets i) = i := by
  have hpos := leadersBelow_pos program targets i
  unfold replayLast
  by_cases hlast : i + 1 = program.length
  · have hblocks : replayBlocks program targets = replayBlockOf program targets i + 1 := by
      unfold replayBlocks replayBlockOf
      rw [← hlast]
      omega
    rw [if_neg (by omega)]
    omega
  · have hleader := hend.resolve_left hlast
    have hlt : i + 1 < program.length := by omega
    have hnext : replayBlockOf program targets i + 1 = leadersBelow program targets (i + 1) := by
      unfold replayBlockOf
      omega
    have hblocks : replayBlockOf program targets i + 1 < replayBlocks program targets := by
      have hthis : replayBlockOf program targets (i + 1) < replayBlocks program targets :=
        replayBlockOf_lt_blocks hlt
      rwa [replayBlockOf_succ, if_pos hleader] at hthis
    rw [if_pos hblocks, hnext, leaders_getD hlt hleader]
    rfl

def MarksTargets (program : Program) (targets : List ℕ) : Prop :=
  ∀ (i : ℕ) (inst : Inst), program[i]? = some inst → IsRelative inst → branchTargetIndex program inst ∈ targets

theorem marksTargets_replayLoop (program : Program) : MarksTargets program (replayLoop program).1.targets :=
  fun i inst hget => (loopInv_replayLoop program).targets i inst (List.getElem?_eq_some_iff.mp hget).1 hget

/-- **A step of the control** stays in its block, or goes from the end of a block to the start of another. -/
theorem flows_blocks (htargets : MarksTargets program targets) (h : Flows program i j) :
    (j = i + 1 ∧ replayBlockOf program targets j = replayBlockOf program targets i) ∨
      (replayLeader program targets j = true ∧ (i + 1 = program.length ∨ replayLeader program targets (i + 1) = true) ∧
        replayBlockOf program targets i ∈ replayPreds program targets (replayBlockOf program targets j)) := by
  obtain ⟨inst, hget, hj, hflow⟩ := h
  have hi := (List.getElem?_eq_some_iff.mp hget).1
  have hbranch : replayBranchKind inst ≠ 0 → replayLeader program targets (i + 1) = true := by
    intro hkind
    simp [replayLeader, hget, hkind]
  have hpred : (i + 1 = program.length ∨ replayLeader program targets (i + 1) = true) →
      replayBlockOf program targets i ∈ replayPreds program targets (replayBlockOf program targets j) := by
    intro hend
    refine List.mem_flatMap.mpr ⟨_, List.mem_range.mpr (replayBlockOf_lt_blocks hi), ?_⟩
    dsimp only
    rw [replayLast_blockOf hi hend, hget]
    refine List.mem_flatMap.mpr ⟨inst, List.mem_singleton_self _, ?_⟩
    rcases hflow with ⟨hkind, rfl⟩ | ⟨hkind, rfl⟩
    · apply List.mem_append_right
      rw [if_pos ⟨hkind, hj, rfl⟩]
      exact List.mem_singleton_self _
    · apply List.mem_append_left
      rw [if_pos ⟨hkind, hj, rfl⟩]
      exact List.mem_singleton_self _
  rcases hflow with ⟨hkind, rfl⟩ | ⟨hkind, rfl⟩
  · by_cases hleader : replayLeader program targets (i + 1) = true
    · exact .inr ⟨hleader, .inr hleader, hpred (.inr hleader)⟩
    · refine .inl ⟨rfl, ?_⟩
      rw [replayBlockOf_succ, if_neg hleader, Nat.add_zero]
  · have hnonzero : replayBranchKind inst ≠ 0 := by
      rcases hkind with h | h <;> omega
    refine .inr ⟨?_, .inr (hbranch hnonzero), hpred (.inr (hbranch hnonzero))⟩
    unfold replayLeader
    rw [List.contains_iff_mem.mpr (htargets i inst hget hkind)]
    simp

theorem reached_of_flows (htargets : MarksTargets program targets) (h : ReflTransGen (Flows program) 0 j) :
    Dominators.Reached (replayPreds program targets) (replayBlockOf program targets j) := by
  induction h with
  | refl =>
    rw [replayBlockOf_zero]
    exact .zero
  | tail _ hflow ih =>
    rcases flows_blocks htargets hflow with ⟨-, hsame⟩ | ⟨-, -, hpred⟩
    · rwa [hsame]
    · exact .step ih hpred

end Blocks

/-! ## Dominators -/

section Dominance

open Dominators (Ancestor)

variable {program : Program} {targets : List ℕ} {idom : ℕ → Option ℕ} {a b u : ℕ}

theorem ancestor_of_onChain {turns : ℕ} (h : onChain idom a turns b = true) : Ancestor idom a b := by
  induction turns generalizing b with
  | zero => cases h
  | succ turns ih =>
    unfold onChain at h
    split at h
    · rename_i heq
      rw [heq]
      exact .refl
    · split at h
      · cases h
      · rename_i next hnext
        split at h
        · cases h
        · exact .head hnext (ih h)

theorem ancestor_zero {preds : ℕ → List ℕ} (hinv : Dominators.Inv preds idom) (h : Ancestor idom a 0) : a = 0 := by
  have hzero : ∀ x, Ancestor idom x 0 → x = 0 := by
    intro x hx
    induction hx with
    | refl => rfl
    | tail _ hnext ih =>
      rw [ih, hinv.zero] at hnext
      exact (Option.some.inj hnext).symm
  exact hzero a h

/-- **A path that avoids an instruction** gets to no other that its block dominates. -/
theorem not_dominated_of_path (ha : a < program.length)
    (htargets : MarksTargets program targets) (hinv : Dominators.Inv (replayPreds program targets) idom)
    (hdone : Dominators.Done (replayPreds program targets) idom (replayBlocks program targets))
    (hfix : ∀ b, b ≠ 0 → b < replayBlocks program targets → ∀ p ∈ replayPreds program targets b, (idom p).isSome →
      ∃ c, idom b = some c ∧ Ancestor idom c p) (hpath : ReflTransGen (fun i j => Flows program i j ∧ i ≠ a) 0 u) :
    ¬((replayBlockOf program targets a = replayBlockOf program targets u ∧ a < u) ∨
      (replayBlockOf program targets a ≠ replayBlockOf program targets u ∧
        Ancestor idom (replayBlockOf program targets a) (replayBlockOf program targets u))) := by
  induction hpath with
  | refl =>
    rintro (⟨-, hlt⟩ | ⟨hne, hanc⟩)
    · exact absurd hlt (Nat.not_lt_zero a)
    · rw [replayBlockOf_zero] at hne hanc
      exact hne (ancestor_zero hinv hanc)
  | @tail i j hbefore hstep ih =>
    obtain ⟨hflow, hia⟩ := hstep
    obtain ⟨inst, hget, hj, -⟩ := id hflow
    have hi := (List.getElem?_eq_some_iff.mp hget).1
    rcases flows_blocks htargets hflow with ⟨rfl, hsame⟩ | ⟨hleader, hend, hpred⟩
    · -- inside a block
      rw [hsame]
      rintro (⟨heq, hlt⟩ | hanc)
      · exact ih (.inl ⟨heq, by omega⟩)
      · exact ih (.inr hanc)
    · -- into a block, from the last instruction of another
      have hlast : replayBlockOf program targets a = replayBlockOf program targets i → a < i := by
        intro heq
        by_contra hle
        have hgt : i + 1 ≤ a := by omega
        rcases hend with hend | hend
        · omega
        · have hblock : replayBlockOf program targets i < replayBlockOf program targets (i + 1) :=
            replayBlockOf_lt hend (Nat.lt_succ_self i)
          have hmono := replayBlockOf_mono program targets hgt
          omega
      have hup : Ancestor idom (replayBlockOf program targets a) (replayBlockOf program targets i) →
          replayBlockOf program targets a ≠ replayBlockOf program targets i ∨ a < i → False := by
        intro hanc hor
        by_cases heq : replayBlockOf program targets a = replayBlockOf program targets i
        · exact ih (.inl ⟨heq, hor.resolve_left (not_not.mpr heq)⟩)
        · exact ih (.inr ⟨heq, hanc⟩)
      rintro (⟨heq, hlt⟩ | ⟨hne, hanc⟩)
      · exact absurd (replayBlockOf_lt hleader hlt) (by rw [heq]; exact Nat.lt_irrefl _)
      · have hflows : ReflTransGen (Flows program) 0 i := ReflTransGen.mono (fun _ _ h => h.1) _ _ hbefore
        have hreached := reached_of_flows htargets hflows
        have hsome := hdone _ (replayBlockOf_lt_blocks hi) hreached
        -- the chain of the block goes on at an ancestor of its predecessor
        rcases ReflTransGen.cases_head hanc with heq | ⟨c, hc, hrest⟩
        · exact hne heq.symm
        · by_cases hzero : replayBlockOf program targets j = 0
          · rw [hzero] at hanc hne
            exact hne (ancestor_zero hinv hanc)
          · obtain ⟨c', hc', hcp⟩ := hfix _ hzero (replayBlockOf_lt_blocks hj) _ hpred hsome
            obtain rfl := Option.some.inj (hc.symm.trans hc')
            refine hup (hcp.trans hrest) ?_
            by_cases heq : replayBlockOf program targets a = replayBlockOf program targets i
            · exact .inr (hlast heq)
            · exact .inl heq

def BlocksOrdered (program : Program) : Prop :=
  Dominators.Ordered (replayPreds program (replayLoop program).1.targets)

/-- **What dominates a use is on each path to it.** -/
theorem dominates_path {fuel : ℕ} {plan : ScalarReplayPlan} (hordered : BlocksOrdered program)
    (hplan : planScalarReplay fuel program = some plan) (hdom : plan.dominates a u = true) (hne : a ≠ u) :
    ¬ReflTransGen (fun i j => Flows program i j ∧ i ≠ a) 0 u := by
  obtain ⟨-, built, hbuilt, hblockOf, hidom⟩ := planOf_planScalarReplay hplan
  have htargets := marksTargets_replayLoop program
  unfold buildBlockDominators at hbuilt
  unfold ScalarReplayPlan.dominates at hdom
  rw [hblockOf, hidom] at hdom
  split at hbuilt
  · -- no instruction, no block
    rename_i hempty
    have hnone : ∀ (l : List (Inst × ℕ)) (st : ScalarReplayPlan × Bool), st.1.blockOf = [] →
        (l.foldl (replayTurn program) st).1.blockOf = [] := by
      intro l
      induction l with
      | nil => exact fun st hst => hst
      | cons x l ih => exact fun st hst => ih _ hst
    obtain rfl := Option.some.inj hbuilt
    rw [show (replayLoop program).1.blockOf = [] from hnone _ _ rfl] at hdom
    cases hdom
  · rename_i hpositive
    obtain ⟨idom, hpasses, rfl⟩ := Option.map_eq_some_iff.mp hbuilt
    have hblocks : 0 < replayBlocks program (replayLoop program).1.targets :=
      Nat.lt_of_le_of_lt (Nat.zero_le _) (replayBlockOf_lt_blocks (i := 0) (Nat.pos_of_ne_zero hpositive))
    obtain ⟨hinv, hdone, hfix⟩ :=
      Dominators.passes_ancestor hordered hblocks (Dominators.inv_start _) hpasses
    have hat : ∀ {k x : ℕ}, ((List.range program.length).map
        (replayBlockOf program (replayLoop program).1.targets))[k]? = some x →
        k < program.length ∧ replayBlockOf program (replayLoop program).1.targets k = x := by
      intro k x h
      rw [List.getElem?_map, Option.map_eq_some_iff] at h
      obtain ⟨i, hi, rfl⟩ := h
      obtain ⟨hlt, rfl⟩ := List.getElem?_eq_some_iff.mp hi
      rw [List.getElem_range]
      exact ⟨by simpa using hlt, rfl⟩
    dsimp only at hdom
    split at hdom
    · rename_i writeBlock useBlock hwrite huse
      obtain ⟨ha, rfl⟩ := hat hwrite
      obtain ⟨-, rfl⟩ := hat huse
      intro hpath
      refine not_dominated_of_path ha htargets hinv hdone hfix hpath ?_
      split at hdom
      · rename_i hsame
        have hle : a ≤ u := by simpa using hdom
        exact .inl ⟨hsame, Nat.lt_of_le_of_ne hle hne⟩
      · rename_i hother
        exact .inr ⟨hother, ancestor_of_onChain hdom⟩
    · cases hdom

end Dominance

end Prosperity.Rdna
