import Prosperity.Foundations.Stamps
import Prosperity.Rdna.ScalarEvalSound
import Prosperity.Rdna.ScalarReplayPaths

/-!
# What a scalar replay holds

A walk over a program in order holds the value that a run of it has in a register at a use, where `LossAt`
says that the register is covered, if the control flow is reducible and the writes that the walk takes the
value from are evaluated from sources that are covered as well. `LossAt` looks at the last write of the
register alone, and not at its sources.
-/

namespace Prosperity.Rdna

open Gcn (Enc ScalarMemory)
open Relation (ReflTransGen)

/-! ## Runs -/

/-- The instruction that runs next: behind the instruction, at the target of a branch, or anywhere. -/
inductive Follows (program : Program) : ℕ → ℕ → Prop
  | next {i j : ℕ} {inst other : Inst} : program[i]? = some inst → program[j]? = some other →
      other.pc = inst.pc + inst.size → replayBranchKind inst = 0 ∨ replayBranchKind inst = 2 → Follows program i j
  | branch {i j : ℕ} {inst other : Inst} : program[i]? = some inst → program[j]? = some other →
      (other.pc : ℤ) = relativeTarget inst → IsRelative inst → Follows program i j
  | jump {i j : ℕ} {inst other : Inst} : program[i]? = some inst → program[j]? = some other →
      replayBranchKind inst = 4 → Follows program i j

/-- A run of `n` steps: the instruction that is next, and the registers before it. -/
structure FlowRun (isa : ScalarIsa) (guest : ScalarMemory) (codeAddr : ℕ) (program : Program) (n : ℕ)
    (at_ : ℕ → ℕ) (st : ℕ → ScalarState) : Prop where
  start : at_ 0 = 0
  step : ∀ t < n, ∃ inst, program[at_ t]? = some inst ∧ isa.Step guest codeAddr inst (st t) (st (t + 1)) ∧
    Follows program (at_ t) (at_ (t + 1))

section Order

variable {P : ListedProgram} {i j : ℕ} {a b : Inst}

theorem ListedProgram.end_le (ha : P.insts[i]? = some a) (hb : P.insts[j]? = some b) (hij : i < j) :
    a.pc + a.size ≤ b.pc ∧ 0 < a.size := by
  obtain ⟨hi, rfl⟩ := List.getElem?_eq_some_iff.mp ha
  obtain ⟨hj, rfl⟩ := List.getElem?_eq_some_iff.mp hb
  exact ⟨List.pairwise_iff_getElem.mp P.apart i j hi hj hij, P.size_pos _ (List.getElem_mem hi)⟩

theorem ListedProgram.next_index (ha : P.insts[i]? = some a) (hb : P.insts[j]? = some b)
    (hpc : b.pc = a.pc + a.size) : j = i + 1 := by
  have hsize := P.size_pos a (List.mem_of_getElem? ha)
  have hij : i < j := by
    rcases Nat.lt_trichotomy i j with hlt | rfl | hgt
    · exact hlt
    · obtain rfl := Option.some.inj (ha.symm.trans hb)
      omega
    · have := P.end_le hb ha hgt
      omega
  by_contra hne
  have hj := (List.getElem?_eq_some_iff.mp hb).1
  have hbetween := List.getElem?_eq_getElem (Nat.lt_of_le_of_lt hij hj)
  have hfirst := P.end_le ha hbetween (Nat.lt_succ_self i)
  have hsecond := P.end_le hbetween hb (by omega)
  omega

theorem ListedProgram.branch_index (hb : P.insts[j]? = some b) (hpc : (b.pc : ℤ) = relativeTarget a) :
    j = branchTargetIndex P.insts a := by
  obtain ⟨hj, rfl⟩ := List.getElem?_eq_some_iff.mp hb
  refine ((List.findIdx_eq hj).mpr ⟨?_, ?_⟩).symm
  · simpa using le_of_eq hpc.symm
  · intro k hk
    have hbefore := P.end_le (List.getElem?_eq_getElem (Nat.lt_trans hk hj)) hb hk
    simp only [decide_eq_false_iff_not, not_le]
    omega

theorem Follows.flows (hdirect : ∀ (i : ℕ) (inst : Inst), P.insts[i]? = some inst → replayBranchKind inst ≠ 4)
    (h : Follows P.insts i j) : Flows P.insts i j := by
  cases h with
  | next hinst hother hpc hkind =>
    exact ⟨_, hinst, (List.getElem?_eq_some_iff.mp hother).1, .inl ⟨hkind, P.next_index hinst hother hpc⟩⟩
  | branch hinst hother hpc hkind =>
    exact ⟨_, hinst, (List.getElem?_eq_some_iff.mp hother).1, .inr ⟨hkind, P.branch_index hother hpc⟩⟩
  | jump hinst _ hkind => exact absurd hkind (hdirect _ _ hinst)

end Order

/-! ## Loops -/

structure Reducible (program : Program) : Prop where
  ordered : BlocksOrdered program
  nested : ∀ i j k l, Flows program i j → j ≤ i → Flows program k l → l ≤ k → j < l → l ≤ i → k ≤ i
  entered : ∀ i j k l, Flows program i j → j ≤ i → Flows program k l → j < l → l ≤ i → j ≤ k ∧ k ≤ i

section Loops

variable {program : Program} {at_ : ℕ → ℕ} {n t t' s u l : ℕ}

/-- **A path that gets back goes over a back edge** from behind where it was to before where it gets. -/
theorem crossing (hshape : Reducible program) (hflows : ∀ t < n, Flows program (at_ t) (at_ (t + 1))) (hlt : t < t')
    (hn : t' ≤ n) (hback : at_ t' ≤ at_ t) : ∃ s, t ≤ s ∧ s < t' ∧ at_ (s + 1) ≤ at_ t' ∧ at_ t ≤ at_ s := by
  obtain ⟨d, rfl⟩ : ∃ d, t' = t + 1 + d := ⟨t' - t - 1, by omega⟩
  induction d generalizing t with
  | zero => exact ⟨t, Nat.le_refl _, Nat.lt_succ_self t, Nat.le_refl _, Nat.le_refl _⟩
  | succ d ih =>
    have hend : t + 1 + (d + 1) = t + 1 + 1 + d := by omega
    rw [hend] at hn hback ⊢
    by_cases hup : at_ t ≤ at_ (t + 1)
    · obtain ⟨s, hts, hst, htarget, hsource⟩ := ih (by omega) hn (Nat.le_trans hback hup)
      exact ⟨s, by omega, hst, htarget, Nat.le_trans hup hsource⟩
    · by_cases hthere : at_ (t + 1) ≤ at_ (t + 1 + 1 + d)
      · exact ⟨t, Nat.le_refl _, by omega, hthere, Nat.le_refl _⟩
      · -- the edge taken here begins inside the loop of the one taken later
        obtain ⟨s, hts, hst, htarget, hsource⟩ := ih (by omega) hn (by omega)
        refine ⟨s, by omega, hst, htarget, ?_⟩
        exact hshape.nested (at_ s) (at_ (s + 1)) (at_ t) (at_ (t + 1)) (hflows s (by omega)) (by omega)
          (hflows t (by omega)) (by omega) (by omega) hsource

theorem first_entry (hshape : Reducible program) (hstart : at_ 0 = 0)
    (hflows : ∀ t < n, Flows program (at_ t) (at_ (t + 1))) (hs : s < n) (hback : at_ (s + 1) ≤ at_ s) :
    ∃ t₀ ≤ s + 1, at_ t₀ = at_ (s + 1) ∧ ∀ q < t₀, ¬(at_ (s + 1) ≤ at_ q ∧ at_ q ≤ at_ s) := by
  have hex : ∃ t, at_ (s + 1) ≤ at_ t ∧ at_ t ≤ at_ s := ⟨s + 1, Nat.le_refl _, hback⟩
  have hfirst := Nat.find_spec hex
  have hmin := fun q => @Nat.find_min _ _ hex q
  have hle : Nat.find hex ≤ s + 1 := Nat.find_min' hex ⟨Nat.le_refl _, hback⟩
  refine ⟨Nat.find hex, hle, ?_, fun q hq => hmin q hq⟩
  by_contra hne
  have hinside : at_ (s + 1) < at_ (Nat.find hex) := Nat.lt_of_le_of_ne hfirst.1 fun h => hne h.symm
  cases htime : Nat.find hex with
  | zero =>
    rw [htime, hstart] at hinside
    exact Nat.not_lt_zero _ hinside
  | succ t =>
    rw [htime] at hinside hfirst hle
    have hbefore := hshape.entered _ _ _ _ (hflows s hs) hback (hflows t (by omega)) hinside hfirst.2
    exact hmin t (by omega) hbefore

theorem path_of_run (hflows : ∀ t < n, Flows program (at_ t) (at_ (t + 1))) (hle : t ≤ t') (hn : t' ≤ n)
    (havoid : ∀ q, t ≤ q → q < t' → at_ q ≠ l) :
    ReflTransGen (fun i j => Flows program i j ∧ i ≠ l) (at_ t) (at_ t') := by
  induction hle with
  | refl => exact .refl
  | @step m hle ih =>
    refine .tail (ih (by omega) fun q hq hlt => havoid q hq (by omega)) ⟨hflows m (by omega), ?_⟩
    exact havoid m hle (Nat.lt_succ_self m)

/-- **A use behind a back edge** over an instruction that dominates it comes behind that instruction. -/
theorem visited_behind_edge {fuel : ℕ} {plan : ScalarReplayPlan} (hshape : Reducible program)
    (hplan : planScalarReplay fuel program = some plan) (hstart : at_ 0 = 0)
    (hflows : ∀ t < n, Flows program (at_ t) (at_ (t + 1))) (hn : t ≤ n) (hs : s < t)
    (hback : at_ (s + 1) ≤ at_ s) (hdom : plan.dominates l (at_ t) = true) (hne : l ≠ at_ t)
    (hlow : at_ (s + 1) ≤ l) (hhigh : l ≤ at_ s) : ∃ q, s + 1 ≤ q ∧ q < t ∧ at_ q = l := by
  by_contra hnot
  obtain ⟨t₀, ht₀, hentry, houtside⟩ := first_entry hshape hstart hflows (by omega) hback
  have hinitial : ReflTransGen (fun i j => Flows program i j ∧ i ≠ l) 0 (at_ (s + 1)) := by
    rw [← hentry, ← hstart]
    refine path_of_run hflows (Nat.zero_le _) (by omega) fun q _ hq heq => ?_
    exact houtside q hq (by rw [heq]; exact ⟨hlow, hhigh⟩)
  have hsuffix := path_of_run (l := l) hflows (show s + 1 ≤ t from hs) hn fun q hq hlt heq => hnot ⟨q, hq, hlt, heq⟩
  exact dominates_path hshape.ordered hplan hdom hne (hinitial.trans hsuffix)

end Loops

/-! ## Covered registers -/

section Covered

variable {program : Program} {plan : ScalarReplayPlan} {r u : ℕ} {w l : ReplayWrite}

/-- `LossAt` notes no loss of the register. -/
def CoveredReg (plan : ScalarReplayPlan) (r u : ℕ) : Prop := ∀ loss ∈ plan.regLosses r u, loss = .kCovered

theorem worse_eq_kCovered {a b : Loss} (h : a.worse b = .kCovered) : a = .kCovered ∧ b = .kCovered := by
  cases a <;> cases b <;> first | exact ⟨rfl, rfl⟩ | cases h

theorem foldl_worse {losses : List Loss} {first : Loss} (h : losses.foldl .worse first = .kCovered) :
    first = .kCovered ∧ ∀ loss ∈ losses, loss = .kCovered := by
  induction losses generalizing first with
  | nil => exact ⟨h, fun loss hmem => absurd hmem List.not_mem_nil⟩
  | cons loss losses ih =>
    obtain ⟨hworse, hrest⟩ := ih h
    obtain ⟨hfirst, hloss⟩ := worse_eq_kCovered hworse
    refine ⟨hfirst, fun other hmem => ?_⟩
    rcases List.mem_cons.mp hmem with rfl | hmem
    · exact hloss
    · exact hrest other hmem

theorem coveredReg_of_lossAt {sgpr dwords i : ℕ} (h : plan.lossAt sgpr dwords u = .kCovered) (hi : i < dwords) :
    CoveredReg plan (sgpr + i) u ∧ sgpr + i ≠ 126 ∧ sgpr + i ≠ 127 := by
  unfold ScalarReplayPlan.lossAt at h
  split at h
  · cases h
  · split at h
    · cases h
    · refine ⟨fun loss hloss => (foldl_worse h).2 loss ?_, by omega, by omega⟩
      exact List.mem_flatMap.mpr ⟨i, List.mem_range.mpr hi, hloss⟩

theorem CoveredReg.later (h : CoveredReg plan r u) (hw : w ∈ plan.writesOf r) (hle : u ≤ w.index) :
    plan.indirect = false ∧ plan.carried u w.index (plan.lastWrite r u) = false := by
  by_contra hnot
  have hnoted : (plan.indirect || plan.carried u w.index (plan.lastWrite r u)) = true := by
    cases hi : plan.indirect
    · cases hc : plan.carried u w.index (plan.lastWrite r u)
      · exact absurd ⟨hi, hc⟩ hnot
      · rfl
    · rfl
  have hmem : Loss.kLoopCarried ∈ plan.regLosses r u := by
    refine List.mem_append_left _ (List.mem_map.mpr ⟨w, List.mem_filter.mpr ⟨hw, ?_⟩, rfl⟩)
    rw [hnoted, Bool.and_true]
    simpa using hle
  cases h _ hmem

theorem CoveredReg.last (h : CoveredReg plan r u) (hl : plan.lastWrite r u = some l) :
    plan.indirect = false ∧ plan.dominates l.index u = true := by
  have hnoted : ∀ loss, (if !l.exact_ then [Loss.kUnmodelled] else if plan.indirect then [.kConditional]
      else [plan.skippable u l.index]) = [loss] → loss = .kCovered := by
    intro loss heq
    refine h loss (List.mem_append_right _ ?_)
    rw [hl]
    dsimp only
    rw [heq]
    exact List.mem_singleton_self _
  split at hnoted
  · cases hnoted _ rfl
  · split at hnoted
    · cases hnoted _ rfl
    · rename_i hindirect
      have hskip := hnoted _ rfl
      refine ⟨by simpa using hindirect, ?_⟩
      unfold ScalarReplayPlan.skippable at hskip
      split at hskip
      · cases hskip
      · rename_i hdom
        simpa using hdom

theorem mem_writesOf : w ∈ plan.writesOf r ↔ w ∈ plan.writes ∧ w.first ≤ r ∧ r < w.first + w.count := by
  simp [ScalarReplayPlan.writesOf]

theorem lastWrite_some (hplan : PlanOf program plan) (h : plan.lastWrite r u = some l) :
    l ∈ plan.writesOf r ∧ l.index < u ∧ ∀ w ∈ plan.writesOf r, w.index < u → w.index ≤ l.index := by
  unfold ScalarReplayPlan.lastWrite at h
  obtain ⟨before, hsplit⟩ := List.getLast?_eq_some_iff.mp h
  have hmem : l ∈ (plan.writesOf r).filter fun write => write.index < u := by
    rw [hsplit]
    exact List.mem_append_right _ (List.mem_singleton_self _)
  have hsorted : ((plan.writesOf r).filter fun write => write.index < u).Pairwise fun a b => a.index ≤ b.index :=
    (hplan.sorted.filter _).filter _
  rw [hsplit] at hsorted
  refine ⟨(List.mem_filter.mp hmem).1, by simpa using (List.mem_filter.mp hmem).2, ?_⟩
  intro w hw hlt
  have hin : w ∈ before ++ [l] := by
    rw [← hsplit]
    exact List.mem_filter.mpr ⟨hw, by simpa using hlt⟩
  rcases List.mem_append.mp hin with hin | hin
  · exact (List.pairwise_append.mp hsorted).2.2 w hin l (List.mem_singleton_self _)
  · obtain rfl := List.mem_singleton.mp hin
    exact Nat.le_refl _

theorem lastWrite_none (h : plan.lastWrite r u = none) : ∀ w ∈ plan.writesOf r, u ≤ w.index := by
  intro w hw
  unfold ScalarReplayPlan.lastWrite at h
  rw [List.getLast?_eq_none_iff] at h
  by_contra hlt
  have hmem : w ∈ (plan.writesOf r).filter fun write => write.index < u :=
    List.mem_filter.mpr ⟨hw, by simpa using hlt⟩
  rw [h] at hmem
  cases hmem

end Covered

/-! ## The write that reaches a use -/

theorem exists_latest (p : ℕ → Prop) {t q : ℕ} (hq : q < t) (hp : p q) :
    ∃ m, q ≤ m ∧ m < t ∧ p m ∧ ∀ k, m < k → k < t → ¬p k := by
  induction t with
  | zero => exact absurd hq (Nat.not_lt_zero q)
  | succ t ih =>
    by_cases ht : p t
    · exact ⟨t, Nat.le_of_lt_succ hq, Nat.lt_succ_self t, ht, fun k hk hlt => by omega⟩
    · have hlt : q < t := by
        rcases Nat.lt_or_eq_of_le (Nat.le_of_lt_succ hq) with hlt | rfl
        · exact hlt
        · exact absurd hp ht
      obtain ⟨m, hqm, hmt, hpm, hlatest⟩ := ih hlt
      refine ⟨m, hqm, Nat.lt_succ_of_lt hmt, hpm, fun k hk hkt => ?_⟩
      rcases Nat.lt_or_eq_of_le (Nat.le_of_lt_succ hkt) with hlt | rfl
      · exact hlatest k hk hlt
      · exact ht

section Reaching

variable {P : ListedProgram} {plan : ScalarReplayPlan} {isa : ScalarIsa} {guest : ScalarMemory} {codeAddr n T t r fuel : ℕ}
  {at_ : ℕ → ℕ} {st : ℕ → ScalarState} {inst : Inst} {l : ReplayWrite}

theorem FlowRun.flows (hrun : FlowRun isa guest codeAddr P.insts n at_ st) (hplan : PlanOf P.insts plan)
    (hdirect : plan.indirect = false) : ∀ t < n, Flows P.insts (at_ t) (at_ (t + 1)) := by
  intro t ht
  obtain ⟨inst, -, -, hnext⟩ := hrun.step t ht
  refine hnext.flows fun i a ha hkind => ?_
  rw [hplan.indirect i a ha hkind] at hdirect
  cases hdirect

theorem FlowRun.last_runs (hshape : Reducible P.insts) (hplan : planScalarReplay fuel P.insts = some plan)
    (hrun : FlowRun isa guest codeAddr P.insts n at_ st) (hT : T ≤ n) (hcov : CoveredReg plan r (at_ T))
    (hl : plan.lastWrite r (at_ T) = some l) : ∃ q < T, at_ q = l.index := by
  have hof := (planOf_planScalarReplay hplan).1
  obtain ⟨hdirect, hdom⟩ := hcov.last hl
  have hlt := (lastWrite_some hof hl).2.1
  by_contra hnot
  have hpath := path_of_run (l := l.index) (hrun.flows hof hdirect) (Nat.zero_le T) hT
    fun q _ hq heq => hnot ⟨q, hq, heq⟩
  rw [hrun.start] at hpath
  exact dominates_path hshape.ordered hplan hdom (Nat.ne_of_lt hlt) hpath

/-- **The write that reaches a covered use** is the last one before it in program order. -/
theorem FlowRun.reaching (hshape : Reducible P.insts) (hplan : planScalarReplay fuel P.insts = some plan)
    (hrun : FlowRun isa guest codeAddr P.insts n at_ st) (hT : T ≤ n) (ht : t < T)
    (hcov : CoveredReg plan r (at_ T)) (hget : P.insts[at_ t]? = some inst) (hin : InRange inst r)
    (hlatest : ∀ q, t < q → q < T → ¬∃ b, P.insts[at_ q]? = some b ∧ InRange b r) :
    ∃ l, plan.lastWrite r (at_ T) = some l ∧ l.index = at_ t := by
  have hof := (planOf_planScalarReplay hplan).1
  obtain ⟨w, hw, hindex, hle, hlt⟩ := hof.noted _ inst r hget hin
  have hwof : w ∈ plan.writesOf r := mem_writesOf.mpr ⟨hw, hle, hlt⟩
  -- a write of the register is none of the instructions that run behind `t`
  have hsilent : ∀ l ∈ plan.writesOf r, ∀ q, t < q → q < T → at_ q ≠ l.index := by
    intro l hl q hq hqT heq
    obtain ⟨hmem, hle', hlt'⟩ := mem_writesOf.mp hl
    obtain ⟨b, hb, hbr⟩ := hof.writes l hmem r hle' hlt'
    exact hlatest q hq hqT ⟨b, heq ▸ hb, hbr⟩
  by_cases hback : at_ T ≤ at_ t
  · -- the write is not before the use: a back edge carries it there
    obtain ⟨hdirect, hcarried⟩ := hcov.later hwof (hindex ▸ hback)
    have hflows := hrun.flows hof hdirect
    obtain ⟨s, hts, hsT, htarget, hsource⟩ := crossing hshape hflows ht hT hback
    have hedge : (⟨at_ (s + 1), at_ s⟩ : BackEdge) ∈ plan.backEdges := by
      obtain ⟨b, hb, -, ⟨-, hnext⟩ | ⟨hrel, hbranch⟩⟩ := hflows s (by omega)
      · omega
      · rw [hbranch]
        exact hof.edges _ b hb hrel (by omega)
    unfold ScalarReplayPlan.carried at hcarried
    have hkilled := List.any_eq_false.mp hcarried _ hedge
    rw [hindex] at hkilled
    cases hlast : plan.lastWrite r (at_ T) with
    | none =>
      rw [hlast] at hkilled
      simp [htarget, hsource] at hkilled
    | some l =>
      rw [hlast] at hkilled
      simp only [htarget, hsource, decide_true, Bool.true_and, Option.any_some, Bool.not_eq_true', Bool.and_eq_true,
        decide_eq_true_eq, Bool.not_eq_false] at hkilled
      obtain ⟨hlow, hdom⟩ := hkilled
      obtain ⟨hlof, hluse, -⟩ := lastWrite_some hof hlast
      obtain ⟨q, hsq, hqT, hq⟩ := visited_behind_edge hshape hplan hrun.start hflows hT hsT (by omega) hdom
        (Nat.ne_of_lt hluse) hlow (by omega)
      exact absurd hq (hsilent l hlof q (by omega) hqT)
  · cases hlast : plan.lastWrite r (at_ T) with
    | none =>
      have := lastWrite_none hlast w hwof
      omega
    | some l =>
      obtain ⟨hlof, hluse, hgreatest⟩ := lastWrite_some hof hlast
      have hwl : at_ t ≤ l.index := hindex ▸ hgreatest w hwof (by omega)
      refine ⟨l, rfl, ?_⟩
      by_contra hne
      obtain ⟨hdirect, hdom⟩ := hcov.last hlast
      have hflows := hrun.flows hof hdirect
      -- the last write ran before `t`, and the run got back from it to the one at `t`
      obtain ⟨q₀, hq₀T, hq₀⟩ := hrun.last_runs hshape hplan hT hcov hlast
      have hq₀t : q₀ < t := by
        rcases Nat.lt_trichotomy q₀ t with hlt | rfl | hgt
        · exact hlt
        · exact absurd hq₀.symm hne
        · exact absurd hq₀ (hsilent l hlof q₀ hgt hq₀T)
      obtain ⟨q, -, hqt, hq, hqlatest⟩ := exists_latest (fun k => at_ k = l.index) hq₀t hq₀
      obtain ⟨s, hqs, hst, htarget, hsource⟩ := crossing hshape hflows hqt (by omega) (by rw [hq]; exact hwl)
      rw [hq] at hsource
      obtain ⟨q', hsq', hq'T, hq'⟩ := visited_behind_edge hshape hplan hrun.start hflows hT
        (Nat.lt_trans hst ht) (by omega) hdom (Nat.ne_of_lt hluse) (by omega) hsource
      rcases Nat.lt_trichotomy q' t with hlt | rfl | hgt
      · exact hqlatest q' (by omega) hlt hq'
      · exact hne hq'.symm
      · exact hsilent l hlof q' hgt hq'T hq'

end Reaching

/-! ## Values -/

def replayAt (guest : ScalarMemory) (codeAddr : ℕ) (start : ScalarEval) (program : Program) (k : ℕ) : ScalarEval :=
  (program.take k).foldl (fun e inst => e.step inst guest codeAddr) start

def ScalarEval.only (e : ScalarEval) (regs : Finset ℕ) : ScalarEval where
  reg r := if r ∈ regs then e.reg r else none
  scc := if kScc ∈ regs then e.scc else none

/-- What the walk has of a register behind an instruction depends on some registers only. -/
def Determined (guest : ScalarMemory) (codeAddr : ℕ) (inst : Inst) (r : ℕ) (reads : Finset ℕ) : Prop :=
  ∀ e f : ScalarEval, SameOn reads e f → (e.step inst guest codeAddr).reg r = (f.step inst guest codeAddr).reg r

section Values

variable (isa : ScalarIsa) (guest : ScalarMemory) (codeAddr : ℕ) (program : Program) (plan : ScalarReplayPlan)
  (n : ℕ) (at_ : ℕ → ℕ) (st : ℕ → ScalarState) (start : ScalarEval)

/-- `PossibleScalarWrites` has the writes of a register along a run. -/
def NoticedAlong (r : ℕ) : Prop :=
  ∀ t < n, ∀ inst, program[at_ t]? = some inst → mayWrite inst (st t) r → InRange inst r

inductive Sourced : ℕ → ℕ → Prop
  | initial {r u : ℕ} : NoticedAlong program n at_ st r → plan.lastWrite r u = none → Sourced r u
  | written {r u : ℕ} {l : ReplayWrite} {inst : Inst} {reads : Finset ℕ} : NoticedAlong program n at_ st r →
      plan.lastWrite r u = some l → program[l.index]? = some inst → Determined guest codeAddr inst r reads →
      (∀ t < n, at_ t = l.index →
        Seen isa guest inst ((replayAt guest codeAddr start program l.index).only reads) (st t) ∧
          (kScc ∈ reads → ∀ b, (replayAt guest codeAddr start program l.index).scc = some b → (st t).scc = b)) →
      (∀ r' ∈ reads, r' < kRegs → plan.lossAt r' 1 l.index = .kCovered) →
      (∀ r' ∈ reads, r' < kRegs → Sourced r' l.index) → Sourced r u

end Values

section Soundness

variable {P : ListedProgram} {plan : ScalarReplayPlan} {isa : ScalarIsa} {guest : ScalarMemory}
  {codeAddr n T t r u k fuel : ℕ} {at_ : ℕ → ℕ} {st : ℕ → ScalarState} {start e : ScalarEval} {inst : Inst}

theorem replayAt_succ {program : Program} (h : program[k]? = some inst) :
    replayAt guest codeAddr start program (k + 1) =
      (replayAt guest codeAddr start program k).step inst guest codeAddr := by
  obtain ⟨hk, rfl⟩ := List.getElem?_eq_some_iff.mp h
  unfold replayAt
  rw [← List.take_concat_get' _ k hk, List.foldl_append]
  rfl

theorem inRange_of_stepWrites (h : r ∈ stepWrites inst) (hr : r < kRegs) : InRange inst r := by
  have hscc : r ≠ kScc := Nat.ne_of_lt hr
  unfold stepWrites possibleScalarWrites at h
  unfold InRange possibleScalarRanges
  cases henc : inst.enc <;> rw [henc] at h <;> dsimp only at h ⊢
  case kSop1 =>
    obtain ⟨-, -, hle, hlt⟩ := mem_destRange.mp h
    exact ⟨_, List.mem_singleton_self _, hle, hlt⟩
  case kSop2 =>
    obtain ⟨-, -, hle, hlt⟩ := mem_destRange.mp ((Finset.mem_insert.mp h).resolve_left hscc)
    exact ⟨_, List.mem_singleton_self _, hle, hlt⟩
  case kSopk =>
    obtain ⟨-, -, hle, hlt⟩ := mem_destRange.mp ((Finset.mem_insert.mp h).resolve_left hscc)
    split at hlt
    · rename_i hcall
      rw [if_pos hcall]
      exact ⟨_, List.mem_singleton_self _, hle, hlt⟩
    · rename_i hcall
      rw [if_neg hcall]
      split at hlt
      · rename_i hmem
        refine ⟨⟨inst.sdst, 1, inst.opcode = 0x00 ∨ inst.opcode = 0x0F ∨ inst.opcode = 0x10 ∨
          (inst.opcode = 0x02 ∧ false = true)⟩, ?_, hle, hlt⟩
        rw [if_pos]
        · exact List.mem_singleton_self _
        · simp only [List.mem_cons, List.not_mem_nil, or_false] at hmem
          simp only [decide_eq_true_eq]
          tauto
      · exact absurd hlt (by omega)
  case kSopc => exact absurd (Finset.mem_singleton.mp h) hscc
  case kSmrd =>
    obtain ⟨-, -, hle, hlt⟩ := mem_destRange.mp h
    refine ⟨_, List.mem_singleton_self _, hle, ?_⟩
    change r < _ + if smemLoadCount inst.opcode ≠ 0 then smemLoadCount inst.opcode else 2
    split <;> omega
  all_goals exact absurd h (Finset.notMem_empty r)

theorem step_keeps (hr : r < kRegs) (h : ¬InRange inst r) : (e.step inst guest codeAddr).reg r = e.reg r :=
  ScalarEval.reg_assign_of_notMem fun hlt hmem =>
    h (inRange_of_stepWrites ((update_writes e inst guest codeAddr).1 r hmem hlt) hr)

theorem replayAt_keeps {program : Program} (hr : r < kRegs) (hle : k ≤ u) (hu : u ≤ program.length)
    (h : ∀ j inst, k ≤ j → j < u → program[j]? = some inst → ¬InRange inst r) :
    (replayAt guest codeAddr start program u).reg r = (replayAt guest codeAddr start program k).reg r := by
  refine (eq_of_unwritten (fun j => (replayAt guest codeAddr start program j).reg r) hle ?_).symm
  intro j hj hlt
  have hget := List.getElem?_eq_getElem (Nat.lt_of_lt_of_le hlt hu)
  rw [replayAt_succ hget]
  exact step_keeps hr (h j _ hj hlt hget)

theorem FlowRun.keeps (hrun : FlowRun isa guest codeAddr P.insts n at_ st) (hle : t ≤ T) (hT : T ≤ n)
    (hnoticed : NoticedAlong P.insts n at_ st r)
    (h : ∀ q, t ≤ q → q < T → ¬∃ b, P.insts[at_ q]? = some b ∧ InRange b r) : (st T).sgpr r = (st t).sgpr r := by
  refine (eq_of_unwritten (fun q => (st q).sgpr r) hle ?_).symm
  intro q hq hlt
  obtain ⟨inst, hget, hstep, -⟩ := hrun.step q (by omega)
  exact hstep.kept r fun hmay => h q hq hlt ⟨inst, hget, hnoticed q (by omega) inst hget hmay⟩

theorem sameOn_only (e : ScalarEval) (regs : Finset ℕ) : SameOn regs e (e.only regs) := by
  intro r hr
  unfold ScalarEval.slot ScalarEval.only
  by_cases hscc : r = kScc
  · subst hscc
    rw [if_pos rfl, if_pos rfl, if_pos hr]
  · rw [if_neg hscc, if_neg hscc]
    exact (if_pos hr).symm

/-- **The walk holds the value of the run** in a covered register that it has from covered sources. -/
theorem Sourced.value (hshape : Reducible P.insts) (hplan : planScalarReplay fuel P.insts = some plan)
    (hrun : FlowRun isa guest codeAddr P.insts n at_ st) (hinit : ∀ r v, start.reg r = some v → (st 0).sgpr r = v)
    (h : Sourced isa guest codeAddr P.insts plan n at_ st start r u) :
    r ≤ 124 → ∀ T ≤ n, at_ T = u → CoveredReg plan r u →
      ∀ v, (replayAt guest codeAddr start P.insts u).reg r = some v → (st T).sgpr r = v := by
  have hof := (planOf_planScalarReplay hplan).1
  have hlen : ∀ T ≤ n, T ≠ 0 ∨ 0 < n → at_ T < P.insts.length := by
    intro T hT hpos
    rcases Nat.eq_zero_or_pos T with rfl | hTpos
    · obtain ⟨inst, hget, -, -⟩ := hrun.step 0 (by omega)
      exact (List.getElem?_eq_some_iff.mp hget).1
    · obtain ⟨-, -, -, hnext⟩ := hrun.step (T - 1) (by omega)
      rw [Nat.sub_add_cancel hTpos] at hnext
      cases hnext with
      | next _ hother | branch _ hother | jump _ hother => exact (List.getElem?_eq_some_iff.mp hother).1
  have hbound : ∀ T ≤ n, at_ T ≤ P.insts.length := by
    intro T hT
    rcases Nat.eq_zero_or_pos T with rfl | hTpos
    · rw [hrun.start]
      exact Nat.zero_le _
    · exact Nat.le_of_lt (hlen T hT (.inl (Nat.ne_of_gt hTpos)))
  induction h with
  | @initial r u hnoticed hlast =>
    intro hr T hT hu hcov v hv
    subst hu
    -- nothing that runs before the use writes the register, and nothing before it in program order does
    have hsilent : ∀ q, 0 ≤ q → q < T → ¬∃ b, P.insts[at_ q]? = some b ∧ InRange b r := by
      intro q _ hq hex
      obtain ⟨t, -, htT, ⟨b, hb, hbr⟩, hlatest⟩ :=
        exists_latest (fun q => ∃ b, P.insts[at_ q]? = some b ∧ InRange b r) hq hex
      obtain ⟨l, hl, -⟩ := hrun.reaching hshape hplan hT htT hcov hb hbr hlatest
      rw [hlast] at hl
      cases hl
    rw [replayAt_keeps (by rw [kRegs]; omega) (Nat.zero_le _) (hbound T hT)] at hv
    · rw [hrun.keeps (Nat.zero_le T) hT hnoticed hsilent]
      exact hinit r v hv
    · intro j inst _ hj hget hin
      obtain ⟨w, hw, hindex, hle, hlt⟩ := hof.noted j inst r hget hin
      have := lastWrite_none hlast w (mem_writesOf.mpr ⟨hw, hle, hlt⟩)
      omega
  | @written r u l inst reads hnoticed hlast hget hdetermined htold hcovered hsourced ih =>
    intro hr T hT hu hcov v hv
    subst hu
    obtain ⟨hlof, hluse, hgreatest⟩ := lastWrite_some hof hlast
    obtain ⟨hlmem, hlle, hllt⟩ := mem_writesOf.mp hlof
    have hkregs : r < kRegs := by rw [kRegs]; omega
    obtain ⟨q, hqT, hq⟩ := hrun.last_runs hshape hplan hT hcov hlast
    have hwrites : ∃ b, P.insts[at_ q]? = some b ∧ InRange b r := by
      rw [hq]
      exact hof.writes l hlmem r hlle hllt
    obtain ⟨t, -, htT, ⟨b, hb, hbr⟩, hlatest⟩ :=
      exists_latest (fun q => ∃ b, P.insts[at_ q]? = some b ∧ InRange b r) hqT hwrites
    obtain ⟨l', hl', hindex⟩ := hrun.reaching hshape hplan hT htT hcov hb hbr hlatest
    obtain rfl := Option.some.inj (hlast.symm.trans hl')
    obtain rfl : b = inst := Option.some.inj (hb.symm.trans (hindex ▸ hget))
    -- behind the write nothing changes the register any more, in the run and in the walk
    rw [hrun.keeps htT hT hnoticed fun k hk hkT => hlatest k hk hkT]
    have hafter : (replayAt guest codeAddr start P.insts (at_ T)).reg r =
        (replayAt guest codeAddr start P.insts (l.index + 1)).reg r := by
      refine replayAt_keeps hkregs hluse (hbound T hT) fun j c hj hlt hc hin => ?_
      obtain ⟨w, hw, hwindex, hle, hlt'⟩ := hof.noted j c r hc hin
      have := hgreatest w (mem_writesOf.mpr ⟨hw, hle, hlt'⟩) (by omega)
      omega
    rw [hafter, replayAt_succ hget, hdetermined _ _ (sameOn_only _ reads)] at hv
    obtain ⟨hseen, hscc⟩ := htold t (by omega) hindex.symm
    have hsound : Sound ((replayAt guest codeAddr start P.insts l.index).only reads) (st t) := by
      constructor
      · intro r' hr' hnull w hw
        unfold ScalarEval.only at hw
        dsimp only at hw
        split at hw
        · rename_i hmem
          have hlt : r' < kRegs := by rw [kRegs]; omega
          obtain ⟨hcov', h126, h127⟩ := coveredReg_of_lossAt (hcovered r' hmem hlt) Nat.zero_lt_one
          rw [Nat.add_zero] at hcov' h126 h127
          exact ih r' hmem hlt (by omega) t (by omega) hindex.symm hcov' w hw
        · cases hw
      · intro c hc
        unfold ScalarEval.only at hc
        dsimp only at hc
        split at hc
        · rename_i hmem
          exact hscc hmem c hc
        · cases hc
    obtain ⟨b', hb', hstep, -⟩ := hrun.step t (by omega)
    obtain rfl := Option.some.inj (hb'.symm.trans hb)
    exact (hsound.step hstep hseen).sgpr r (by omega) (by omega) v hv

end Soundness

/-! ## Two runs -/

def blankMemory : ScalarMemory := ⟨fun _ _ => false, fun _ => 0⟩

/-- `s_movk_i32 s4, 7` and the end. -/
def constantInsts : Program :=
  [⟨.kSopk, 0x00, [0xB0040007], 1, 0, false, 0, .kNone⟩, ⟨.kSopp, 0x01, [0xBF810000], 1, 1, false, 0, .kNone⟩]

def constantProgram : ListedProgram := ⟨constantInsts, by decide, by simp [constantInsts]⟩

/-- The registers before and behind the move. -/
def constantState (t : ℕ) : ScalarState := ⟨fun r => if r = 4 ∧ t ≠ 0 then 7 else 0, false⟩

def blankStart : ScalarEval := ⟨fun _ => none, none⟩

theorem constantInsts_cases {i : ℕ} {inst : Inst} (h : constantInsts[i]? = some inst) :
    (i = 0 ∧ inst = ⟨.kSopk, 0x00, [0xB0040007], 1, 0, false, 0, .kNone⟩) ∨
      (i = 1 ∧ inst = ⟨.kSopp, 0x01, [0xBF810000], 1, 1, false, 0, .kNone⟩) := by
  have hi := (List.getElem?_eq_some_iff.mp h).1
  change i < 2 at hi
  interval_cases i
  · exact .inl ⟨rfl, (Option.some.inj h).symm⟩
  · exact .inr ⟨rfl, (Option.some.inj h).symm⟩

theorem constantInsts_flows {i j : ℕ} (h : Flows constantInsts i j) : i = 0 ∧ j = 1 := by
  obtain ⟨inst, hget, hj, hflow⟩ := h
  rcases constantInsts_cases hget with ⟨rfl, rfl⟩ | ⟨rfl, rfl⟩
  · rcases hflow with ⟨-, rfl⟩ | ⟨hrel, -⟩
    · exact ⟨rfl, rfl⟩
    · exact absurd hrel (by decide)
  · change j < 2 at hj
    rcases hflow with ⟨-, rfl⟩ | ⟨hrel, -⟩
    · omega
    · exact absurd hrel (by decide)

theorem constantInsts_reducible : Reducible constantInsts := by
  refine ⟨?_, ?_, ?_⟩
  · -- there is one block, and nothing goes back to it
    intro b hb hreach
    cases hreach with
    | zero => exact absurd rfl hb
    | step _ hpred =>
      obtain ⟨p, hp, hin⟩ := List.mem_flatMap.mp hpred
      have hp0 : p = 0 := by
        have hblocks : replayBlocks constantInsts (replayLoop constantInsts).1.targets = 1 := by decide +kernel
        rw [hblocks] at hp
        exact Nat.lt_one_iff.mp (List.mem_range.mp hp)
      subst hp0
      have hlast : replayLast constantInsts (replayLoop constantInsts).1.targets 0 = 1 := by decide +kernel
      dsimp only at hin
      rw [hlast] at hin
      obtain ⟨inst, hinst, hkinds⟩ := List.mem_flatMap.mp hin
      obtain rfl : inst = ⟨.kSopp, 0x01, [0xBF810000], 1, 1, false, 0, .kNone⟩ := by simpa [constantInsts] using hinst
      have hend : replayBranchKind ⟨.kSopp, 0x01, [0xBF810000], 1, 1, false, 0, .kNone⟩ = 3 := by decide
      simp [hend] at hkinds
  · intro i j k l hij hback
    obtain ⟨rfl, rfl⟩ := constantInsts_flows hij
    omega
  · intro i j k l hij hback
    obtain ⟨rfl, rfl⟩ := constantInsts_flows hij
    omega

theorem constantState_step : plainIsa.Step blankMemory 0 ⟨.kSopk, 0x00, [0xB0040007], 1, 0, false, 0, .kNone⟩ (constantState 0)
    (constantState 1) := by
  refine ⟨?_, ?_, fun _ => rfl, fun b hb => by cases hb⟩
  · intro r hr
    have hr4 : r ≠ 4 := by
      rintro rfl
      exact hr (.inr ⟨by decide, by decide, by decide⟩)
    simp [constantState, hr4]
  · intro i v hin _ hv
    obtain rfl : i = 0 := Nat.lt_one_iff.mp (Nat.lt_of_add_lt_add_left hin.2.2)
    have hseven : scalarResult plainIsa blankMemory 0 ⟨.kSopk, 0x00, [0xB0040007], 1, 0, false, 0, .kNone⟩
        (constantState 0) 0 = some 7 := by decide +kernel
    exact Option.some.inj (hseven.symm.trans hv)

/-- `s_cbranch_scc1` over `s_movk_i32 s4, 7`, then `s_mov_b32 s8, s4` and the end. -/
def skippedInsts : Program :=
  [⟨.kSopp, 0x05, [0xBF850001], 1, 0, false, 0, .kNone⟩, ⟨.kSopk, 0x00, [0xB0040007], 1, 1, false, 0, .kNone⟩,
    ⟨.kSop1, 0x03, [0xBE880304], 1, 2, false, 0, .kNone⟩, ⟨.kSopp, 0x01, [0xBF810000], 1, 3, false, 0, .kNone⟩]

def skippedProgram : ListedProgram := ⟨skippedInsts, by decide, by simp [skippedInsts]⟩

end Prosperity.Rdna
