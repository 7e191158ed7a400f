import Mathlib.Data.List.Chain
import Prosperity.Foundations.DominatorTrees
import Prosperity.Rdna.ScalarReplayPaths

/-!
# `Dominates` answers for all paths

A block is entered at its first instruction and left at its last, so that a walk over the blocks is a path of the
control. If each instruction that is reached, but the first, is entered from one before it in program order, the
passes of `BuildBlockDominators` end, and a write dominates a use just if it is on every path to it. A loop that is
entered at its end, in code that is not laid out in such an order, may break this.
-/

namespace Prosperity.Rdna

open Gcn (Enc)
open Dominators (Ancestor Avoids Reached)
open Relation (ReflTransGen)

variable {program : Program} {targets : List ℕ} {i j a b d k n p u v w : ℕ}

/-! ## Paths -/

section Paths

/-- Each path from the first instruction to `u` has `w`. -/
def EveryPathHas (program : Program) (w u : ℕ) : Prop :=
  ∀ path : List ℕ, List.IsChain (Flows program) (0 :: path) → (0 :: path).getLast (List.cons_ne_nil _ _) = u →
    w ∈ 0 :: path

/-- The control gets to the instruction. -/
def ReachedInst (program : Program) (i : ℕ) : Prop := i < program.length ∧ ReflTransGen (Flows program) 0 i

/-- What is reached is entered from before it. -/
def LaidOut (program : Program) : Prop :=
  ∀ u, u ≠ 0 → ReachedInst program u → ∃ i < u, ReachedInst program i ∧ Flows program i u

theorem getLast_of_mem {l : List ℕ} (hl : List.IsChain (fun i j => Flows program i j ∧ i ≠ w) l) (hw : w ∈ l)
    (hne : l ≠ []) : l.getLast hne = w := by
  obtain ⟨before, behind, rfl⟩ := List.append_of_mem hw
  cases behind with
  | nil => simp
  | cons j behind => exact absurd rfl (List.isChain_append_cons_cons.mp hl).2.1.2

theorem everyPathHas_iff :
    EveryPathHas program w u ↔ w = u ∨ ¬ReflTransGen (fun i j => Flows program i j ∧ i ≠ w) 0 u := by
  constructor
  · intro h
    rw [or_iff_not_imp_left]
    intro hne hpath
    obtain ⟨path, hchain, hlast⟩ := List.exists_isChain_cons_of_relationReflTransGen hpath
    have hw := h path (hchain.imp fun _ _ hstep => hstep.1) hlast
    exact hne ((getLast_of_mem hchain hw (List.cons_ne_nil _ _)).symm.trans hlast)
  · rintro (rfl | hno) path hchain hlast
    · exact hlast ▸ List.getLast_mem _
    · by_contra hw
      refine hno (List.relationReflTransGen_of_exists_isChain_cons path (hchain.imp_of_mem_imp ?_) hlast)
      rintro i j hi - hstep
      exact ⟨hstep, fun heq => hw (heq ▸ hi)⟩

end Paths

/-! ## The blocks -/

section Blocks

theorem exists_last (n : ℕ) (hp : p < leadersBelow program targets n) :
    ∃ i < n, replayBlockOf program targets i = p ∧ (i + 1 = n ∨ replayLeader program targets (i + 1) = true) := by
  induction n with
  | zero => exact absurd hp (Nat.not_lt_zero _)
  | succ n ih =>
    by_cases hleader : replayLeader program targets n = true
    · rw [leadersBelow_succ, if_pos hleader] at hp
      rcases Nat.lt_or_eq_of_le (Nat.le_of_lt_succ hp) with hlt | rfl
      · obtain ⟨i, hi, hblock, hend⟩ := ih hlt
        refine ⟨i, by omega, hblock, .inr ?_⟩
        rcases hend with rfl | hend
        · exact hleader
        · exact hend
      · refine ⟨n, Nat.lt_succ_self n, ?_, .inl rfl⟩
        unfold replayBlockOf
        rw [leadersBelow_succ, if_pos hleader, Nat.add_sub_cancel]
    · rw [leadersBelow_succ, if_neg hleader] at hp
      obtain ⟨i, hi, hblock, hend⟩ := ih hp
      rcases hend with rfl | hend
      · refine ⟨i + 1, Nat.lt_succ_self _, ?_, .inl rfl⟩
        rw [replayBlockOf_succ, if_neg hleader, hblock, Nat.add_zero]
      · exact ⟨i, by omega, hblock, .inr hend⟩

variable (htargets : MarksTargets program targets)

include htargets

/-- **An edge of the blocks** is a step of the control, from the last instruction of one to the first of the
other. -/
theorem flows_of_replayPreds (h : p ∈ replayPreds program targets b) :
    ∃ i j, i < program.length ∧ replayBlockOf program targets i = p ∧ Flows program i j ∧
      replayLeader program targets j = true ∧ replayBlockOf program targets j = b := by
  obtain ⟨q, hq, h⟩ := List.mem_flatMap.mp h
  obtain ⟨i, hi, rfl, hend⟩ := exists_last program.length (List.mem_range.mp hq)
  dsimp only at h
  rw [replayLast_blockOf hi hend, List.getElem?_eq_getElem hi] at h
  obtain ⟨inst, hinst, h⟩ := List.mem_flatMap.mp h
  obtain rfl := List.mem_singleton.mp hinst
  have hget : program[i]? = some program[i] := List.getElem?_eq_getElem hi
  rcases List.mem_append.mp h with h | h
  · split at h
    · rename_i hbranch
      obtain ⟨hkind, hlt, hblock⟩ := hbranch
      obtain rfl := List.mem_singleton.mp h
      refine ⟨i, _, hi, rfl, ⟨program[i], hget, hlt, .inr ⟨hkind, rfl⟩⟩, ?_, hblock⟩
      unfold replayLeader
      rw [List.contains_iff_mem.mpr (htargets i _ hget hkind)]
      simp
    · cases h
  · split at h
    · rename_i hfall
      obtain ⟨hkind, hlt, hblock⟩ := hfall
      obtain rfl := List.mem_singleton.mp h
      exact ⟨i, _, hi, rfl, ⟨program[i], hget, hlt, .inl ⟨hkind, rfl⟩⟩, hend.resolve_left (by omega), hblock⟩
    · cases h

omit htargets in
theorem flows_inside (hu : u < program.length) (hiu : i ≤ u)
    (hblock : replayBlockOf program targets i = replayBlockOf program targets u) :
    ReflTransGen (fun x y => Flows program x y ∧ replayBlockOf program targets x = replayBlockOf program targets u)
      i u := by
  induction hiu with
  | refl => exact .refl
  | @step k hik ih =>
    change replayBlockOf program targets i = replayBlockOf program targets (k + 1) at hblock
    have hle := replayBlockOf_mono program targets hik
    have hstep := replayBlockOf_succ program targets k
    have hk : k < program.length := by omega
    have hinner : replayLeader program targets (k + 1) ≠ true := by
      intro hleader
      rw [if_pos hleader] at hstep
      omega
    rw [if_neg hinner] at hstep
    have hsame : replayBlockOf program targets k = replayBlockOf program targets (k + 1) := by omega
    have hkind : replayBranchKind program[k] = 0 := by
      by_contra hne
      refine hinner ?_
      simp [replayLeader, List.getElem?_eq_getElem hk, hne]
    have hprefix := ih hk (hblock.trans hsame.symm)
    rw [hsame] at hprefix
    exact .tail hprefix ⟨⟨program[k], List.getElem?_eq_getElem hk, hu, .inl ⟨.inl hkind, rfl⟩⟩, hsame⟩

/-- **A walk over the blocks is a path**, which keeps out of the blocks that the walk avoids. -/
theorem path_of_avoids (h : Avoids (replayPreds program targets) d b)
    (hu : u < program.length) (hub : replayBlockOf program targets u = b) :
    ReflTransGen (fun x y => Flows program x y ∧ replayBlockOf program targets x ≠ d) 0 u := by
  have hthrough : ∀ {b i u : ℕ}, b ≠ d → u < program.length → i ≤ u → replayBlockOf program targets i = b →
      replayBlockOf program targets u = b →
      ReflTransGen (fun x y => Flows program x y ∧ replayBlockOf program targets x ≠ d) i u := by
    rintro b i u hbd hu hiu rfl hub
    refine ReflTransGen.mono ?_ _ _ (flows_inside hu hiu hub.symm)
    rintro x y ⟨hflow, hx⟩
    exact ⟨hflow, by rwa [hx, hub]⟩
  induction h generalizing u with
  | zero hd => exact hthrough (Ne.symm hd) hu (Nat.zero_le u) replayBlockOf_zero hub
  | @step p b hav hp hne ih =>
    obtain ⟨i, j, hi, hip, hflow, hleader, hjb⟩ := flows_of_replayPreds htargets hp
    have hju : j ≤ u := by
      by_contra hlt
      have hless := @replayBlockOf_lt program targets j u hleader (Nat.lt_of_not_le hlt)
      omega
    have hbefore := ih hi hip
    exact (hbefore.tail ⟨hflow, hip ▸ hav.ne⟩).trans (hthrough hne hu hju hjb hub)

theorem path_before (hpath : ReflTransGen (fun i j => Flows program i j ∧ i ≠ a) 0 j)
    (hvj : v ≤ j) (hblock : replayBlockOf program targets v = replayBlockOf program targets j) :
    ReflTransGen (fun i j => Flows program i j ∧ i ≠ a) 0 v := by
  induction hpath with
  | refl =>
    obtain rfl := Nat.le_zero.mp hvj
    exact .refl
  | @tail i j hbefore hstep ih =>
    rcases Nat.lt_or_eq_of_le hvj with hlt | rfl
    · rcases flows_blocks htargets hstep.1 with ⟨rfl, hsame⟩ | ⟨hleader, -, -⟩
      · exact ih (Nat.le_of_lt_succ hlt) (hblock.trans hsame)
      · have hless := @replayBlockOf_lt program targets j v hleader hlt
        omega
    · exact hbefore.tail hstep

theorem path_avoids_behind (hreach : ReflTransGen (Flows program) 0 u) (huw : u < w)
    (hblock : replayBlockOf program targets u = replayBlockOf program targets w) :
    ReflTransGen (fun i j => Flows program i j ∧ i ≠ w) 0 u := by
  -- a path gets on until it has `w`, and then it had `u` before
  have hor : ∀ {j}, ReflTransGen (Flows program) 0 j → ReflTransGen (fun i j => Flows program i j ∧ i ≠ w) 0 j ∨
      ReflTransGen (fun i j => Flows program i j ∧ i ≠ w) 0 u := by
    intro j hj
    induction hj with
    | refl => exact .inl .refl
    | @tail i j _ hstep ih =>
      rcases ih with hi | hu
      · by_cases hiw : i = w
        · subst hiw
          exact .inr (path_before htargets hi (Nat.le_of_lt huw) hblock)
        · exact .inl (hi.tail ⟨hstep, hiw⟩)
      · exact .inr hu
  exact (hor hreach).elim id id

theorem reached_lt_blocks (hpos : 0 < program.length)
    (h : Reached (replayPreds program targets) b) : b < replayBlocks program targets := by
  cases h with
  | zero =>
    have hlt : replayBlockOf program targets 0 < replayBlocks program targets := replayBlockOf_lt_blocks hpos
    rwa [replayBlockOf_zero] at hlt
  | step _ hp =>
    obtain ⟨i, j, -, -, ⟨inst, -, hj, -⟩, -, rfl⟩ := flows_of_replayPreds htargets hp
    exact replayBlockOf_lt_blocks hj

theorem flows_of_reached (h : Reached (replayPreds program targets) b)
    (hu : u < program.length) (hub : replayBlockOf program targets u = b) : ReflTransGen (Flows program) 0 u := by
  have hpos : 0 < program.length := Nat.lt_of_le_of_lt (Nat.zero_le u) hu
  -- no walk has a block without a number
  have hav : ∀ {b}, Reached (replayPreds program targets) b →
      Avoids (replayPreds program targets) (replayBlocks program targets) b := by
    intro b h
    induction h with
    | zero => exact .zero (Nat.ne_of_gt (reached_lt_blocks htargets hpos .zero))
    | @step p b hp hpb ih =>
      exact .step ih hpb (Nat.ne_of_lt (reached_lt_blocks htargets hpos (.step hp hpb)))
  exact ReflTransGen.mono (fun _ _ hstep => hstep.1) _ _ (path_of_avoids htargets (hav h) hu hub)

/-- **The blocks of a program that is laid out in order** are. -/
theorem ordered_of_laidOut (hlaid : LaidOut program) : Dominators.Ordered (replayPreds program targets) := by
  intro b hb hreach
  cases hreach with
  | zero => exact absurd rfl hb
  | @step p _ hp hpb =>
    obtain ⟨i, j, hi, hip, hflow, hleader, hjb⟩ := flows_of_replayPreds htargets hpb
    have hj : j < program.length := by
      obtain ⟨inst, -, hj, -⟩ := hflow
      exact hj
    have hj0 : j ≠ 0 := by
      rintro rfl
      rw [replayBlockOf_zero] at hjb
      exact hb hjb.symm
    have hreach' := flows_of_reached htargets (.step hp hpb) hj hjb
    obtain ⟨k, hkj, ⟨hk, hkreach⟩, hkflow⟩ := hlaid j hj0 ⟨hj, hreach'⟩
    have hless := @replayBlockOf_lt program targets j k hleader hkj
    rcases flows_blocks htargets hkflow with ⟨-, hsame⟩ | ⟨-, -, hpred⟩
    · omega
    · subst hjb
      exact ⟨_, hpred, hless, reached_of_flows htargets hkreach⟩

end Blocks

/-! ## The answer -/

section Answer

theorem onChain_of_ancestor {preds : ℕ → List ℕ} {idom : ℕ → Option ℕ} (hinv : Dominators.Inv preds idom)
    (h : Ancestor idom a b) (hn : b < n) : onChain idom a n b = true := by
  induction n generalizing b with
  | zero => exact absurd hn (Nat.not_lt_zero _)
  | succ n ih =>
    unfold onChain
    by_cases hba : b = a
    · rw [if_pos hba]
    · rw [if_neg hba]
      obtain ⟨c, hc, hanc⟩ := (ReflTransGen.cases_head h).resolve_left hba
      have hb0 : b ≠ 0 := by
        rintro rfl
        exact hba (ancestor_zero hinv h).symm
      have hdown := hinv.down b c hc hb0
      rw [hc]
      dsimp only
      rw [if_neg (Nat.ne_of_lt hdown)]
      exact ih hanc (by omega)

/-- **`Dominates` of the last table**: an instruction that is reached dominates another just if it is on every path
to it. -/
theorem dominates_iff (htargets : MarksTargets program targets) (hordered : Dominators.Ordered (replayPreds program targets))
    {fuel : ℕ} {idom : ℕ → Option ℕ} {plan : ScalarReplayPlan}
    (hpasses : Dominators.passes (replayPreds program targets) fuel (replayBlocks program targets) n
      Dominators.start = some idom) (hidom : plan.idom = idom)
    (hblockOf : plan.blockOf = (List.range program.length).map (replayBlockOf program targets))
    (hw : w < program.length) (hu : ReachedInst program u) :
    plan.dominates w u = true ↔ EveryPathHas program w u := by
  obtain ⟨hu, hreach⟩ := hu
  have hpos : 0 < program.length := Nat.lt_of_le_of_lt (Nat.zero_le u) hu
  have hin := fun b => @reached_lt_blocks program targets b htargets hpos
  have hblocks := hin 0 .zero
  obtain ⟨hinv, hdone, hfix⟩ := Dominators.passes_ancestor hordered hblocks (Dominators.inv_start _) hpasses
  have hreached := reached_of_flows htargets hreach
  have hiff : Ancestor idom (replayBlockOf program targets w) (replayBlockOf program targets u) ↔ _ :=
    Dominators.passes_dominates hordered hin hpasses hreached
  have hat : ∀ {k}, k < program.length → plan.blockOf[k]? = some (replayBlockOf program targets k) := by
    intro k hk
    rw [hblockOf, List.getElem?_map, List.getElem?_range hk]
    rfl
  have hnot := @not_dominated_of_path program targets idom w u hw htargets hinv hdone hfix
  rw [everyPathHas_iff]
  unfold ScalarReplayPlan.dominates
  rw [hat hw, hat hu]
  dsimp only
  split
  · rename_i hsame
    rw [decide_eq_true_iff]
    constructor
    · intro hle
      rcases Nat.lt_or_eq_of_le hle with hlt | heq
      · exact .inr fun hpath => hnot hpath (.inl ⟨hsame, hlt⟩)
      · exact .inl heq
    · rintro (rfl | hno)
      · exact Nat.le_refl _
      · by_contra hgt
        exact hno (path_avoids_behind htargets hreach (Nat.lt_of_not_le hgt) hsame.symm)
  · rename_i hother
    have hwu : w ≠ u := by
      rintro rfl
      exact hother rfl
    have hlen : replayBlockOf program targets u < plan.blockOf.length + 1 := by
      rw [hblockOf, List.length_map, List.length_range]
      unfold replayBlockOf leadersBelow
      have hle := List.length_filter_le (replayLeader program targets) (List.range (u + 1))
      rw [List.length_range] at hle
      omega
    rw [hidom]
    constructor
    · intro hchain
      exact .inr fun hpath => hnot hpath (.inr ⟨hother, ancestor_of_onChain hchain⟩)
    · intro hall
      refine onChain_of_ancestor hinv (hiff.mpr fun hav => ?_) hlen
      refine hall.resolve_left hwu (ReflTransGen.mono ?_ _ _ (path_of_avoids htargets hav hu rfl))
      rintro x y ⟨hflow, hx⟩
      exact ⟨hflow, fun heq => hx (heq ▸ rfl)⟩

/-- A loop: `s_nop`, `s_cbranch_scc1` to it, `s_endpgm`. -/
def loopInsts : Program :=
  [⟨.kSopp, 0x00, [0xBF800000], 1, 0, false, 0, .kNone⟩, ⟨.kSopp, 0x05, [0xBF85FFFE], 1, 1, false, 0, .kNone⟩,
    ⟨.kSopp, 0x01, [0xBF810000], 1, 2, false, 0, .kNone⟩]

theorem flows_cases (h : Flows program i j) {inst : Inst} (hget : program[i]? = some inst) :
    ((replayBranchKind inst = 0 ∨ replayBranchKind inst = 2) ∧ j = i + 1) ∨
      (IsRelative inst ∧ j = branchTargetIndex program inst) := by
  obtain ⟨inst', hget', -, hflow⟩ := h
  obtain rfl := Option.some.inj (hget.symm.trans hget')
  exact hflow

/-- `s_branch` to 4; `s_branch` to 3; `s_nop`; `s_endpgm`; `s_cbranch_scc1` to 1; `s_branch` to 2. -/
def shuffledInsts : Program :=
  [⟨.kSopp, 0x02, [0xBF820003], 1, 0, false, 0, .kNone⟩, ⟨.kSopp, 0x02, [0xBF820001], 1, 1, false, 0, .kNone⟩,
    ⟨.kSopp, 0x00, [0xBF800000], 1, 2, false, 0, .kNone⟩, ⟨.kSopp, 0x01, [0xBF810000], 1, 3, false, 0, .kNone⟩,
    ⟨.kSopp, 0x05, [0xBF85FFFC], 1, 4, false, 0, .kNone⟩, ⟨.kSopp, 0x02, [0xBF82FFFC], 1, 5, false, 0, .kNone⟩]

end Answer

end Prosperity.Rdna
