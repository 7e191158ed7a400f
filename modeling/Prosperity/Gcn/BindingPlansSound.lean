import Prosperity.Gcn.BindingPlans
import Prosperity.Gcn.ScalarEvalSound

/-!
# What binding plans tell apart

A planner notices of the writes of scalar registers only those of the loads that it notes. Along a run of
a straight-line program, two accesses of one binding read the same descriptor if whatever writes its
registers between them is noticed: a load that fills all of them, or one that retires the load which did.
-/

namespace Prosperity.Gcn

/-! ## Runs -/

/-- The registers `st k` before the instruction `k` of a program that runs from the first instruction to
the last, but for those that are not reached. Memory may change as it runs. -/
structure StraightRun (isa : ScalarIsa) (guest : ℕ → ScalarMemory) (codeBase : ℕ) (program : Program)
    (reached : ℕ → Bool) (st : ℕ → ScalarState) : Prop where
  step : ∀ k inst, program[k]? = some inst → reached k = true → isa.Step (guest k) codeBase inst (st k) (st (k + 1))
  skip : ∀ k, reached k = false → st (k + 1) = st k

def descriptorDwords (s : ScalarState) (regs : List (ℕ × ℕ)) : List UInt32 :=
  regs.flatMap fun q => (List.range q.2).map fun i => s.sgpr (q.1 + i)

section Walk

variable (noted : ℕ → Inst → Option (Overlay ℕ)) (program : Program) (reached : ℕ → Bool)

/-- The load that the instruction `k` is noted for. -/
def loadAt (k : ℕ) : Option (Overlay ℕ) :=
  if reached k then program[k]?.bind (noted k) else none

/-- The loads before the instruction `k`. -/
def historyAt (k : ℕ) : List (Overlay ℕ) := (List.range k).filterMap (loadAt noted program reached)

/-- An instruction from `u` up to `v` may write one of the registers. -/
def MayWrite (st : ℕ → ScalarState) (u v : ℕ) (q : ℕ × ℕ) : Prop :=
  ∃ k inst r, u ≤ k ∧ k < v ∧ reached k = true ∧ program[k]? = some inst ∧ q.1 ≤ r ∧ r < q.1 + q.2 ∧
    sgprWrites inst (st k) r

/-- A load that is noted fills all the registers, and no later one before `v` meets it. -/
def Filled (u v : ℕ) (q : ℕ × ℕ) : Prop :=
  ∃ j o, u ≤ j ∧ j < v ∧ loadAt noted program reached j = some o ∧ o.Covers q.1 q.2 ∧
    ∀ k o', j < k → k < v → loadAt noted program reached k = some o' → ¬o.Meets o'

/-- The load that had filled the registers at `u` is met by one that is noted before `v`. -/
def Retired (u v : ℕ) (q : ℕ × ℕ) : Prop :=
  ∃ j o, j < u ∧ loadAt noted program reached j = some o ∧ o.Covers q.1 q.2 ∧
    (∀ k o', j < k → k < u → loadAt noted program reached k = some o' → ¬o.Meets o') ∧
    ∃ k o', u ≤ k ∧ k < v ∧ loadAt noted program reached k = some o' ∧ o.Meets o'

def Noticed (st : ℕ → ScalarState) (u v : ℕ) (q : ℕ × ℕ) : Prop :=
  MayWrite program reached st u v q → Filled noted program reached u v q ∨ Retired noted program reached u v q

structure SoundPlan {ρ : Type} (st : ℕ → ScalarState) (planned : Inst → Prop) (regs : Inst → List (ℕ × ℕ))
    (first : ℕ) (room : ℕ → Bool) (strict : Bool) (plan : Numbering ℕ ℕ ρ) : Prop where
  unmerged : ∀ u v inst inst' binding, u < v → program[u]? = some inst → program[v]? = some inst' →
    plan.byUse inst.pc = some binding → plan.byUse inst'.pc = some binding →
    regs inst = regs inst' ∧ ((∀ q ∈ regs inst, Noticed noted program reached st u v q) →
        descriptorDwords (st u) (regs inst) = descriptorDwords (st v) (regs inst'))
  contiguous : ∀ binding, (∃ pc, plan.byUse pc = some binding) ↔ first ≤ binding ∧ binding < first + plan.entries.length
  below : ∀ binding, first ≤ binding → binding < first + plan.entries.length → room binding = true
  mapped : ∀ u inst, program[u]? = some inst → reached u = true → planned inst →
    (∃ binding, plan.byUse inst.pc = some binding) ∨ (strict = false ∧ room (first + plan.entries.length) = false)

end Walk

/-! ## The history of loads -/

section History

variable {noted : ℕ → Inst → Option (Overlay ℕ)} {program : Program} {reached : ℕ → Bool}

/-- The version of a load is its index, or its pc. -/
def Stamped (noted : ℕ → Inst → Option (Overlay ℕ)) : Prop :=
  (∀ i inst o, noted i inst = some o → o.version = i) ∨ (∀ i inst o, noted i inst = some o → o.version = inst.pc)

structure Placed (program : Program) : Prop where
  mono : ∀ {i j : ℕ} {a b : Inst}, i < j → program[i]? = some a → program[j]? = some b → a.pc < b.pc
  le_pc : ∀ {i : ℕ} {a : Inst}, program[i]? = some a → i ≤ a.pc
  lt : ∀ {i : ℕ} {a : Inst}, program[i]? = some a → a.pc < 2 ^ 16

theorem historyAt_succ (k : ℕ) : historyAt noted program reached (k + 1) =
    historyAt noted program reached k ++ (loadAt noted program reached k).toList := by
  rw [historyAt, List.range_succ, List.filterMap_append]
  rfl

theorem historyAt_append {u v : ℕ} (h : u ≤ v) : historyAt noted program reached v =
    historyAt noted program reached u ++ (List.range' u (v - u)).filterMap (loadAt noted program reached) := by
  rw [historyAt, historyAt, ← List.filterMap_append, List.range_eq_range', List.range_eq_range',
    show List.range' u (v - u) = List.range' (0 + 1 * u) (v - u) by rw [Nat.one_mul, Nat.zero_add],
    List.range'_append, Nat.add_sub_cancel' h]

theorem mem_between {u v : ℕ} {o : Overlay ℕ} : o ∈ (List.range' u (v - u)).filterMap (loadAt noted program reached) ↔
      ∃ k, u ≤ k ∧ k < v ∧ loadAt noted program reached k = some o := by
  simp only [List.mem_filterMap, List.mem_range'_1]
  constructor
  · rintro ⟨k, ⟨hle, hlt⟩, hload⟩
    exact ⟨k, hle, by omega, hload⟩
  · rintro ⟨k, hle, hlt, hload⟩
    exact ⟨k, ⟨hle, by omega⟩, hload⟩

theorem mem_historyAt {u : ℕ} {o : Overlay ℕ} :
    o ∈ historyAt noted program reached u ↔ ∃ k < u, loadAt noted program reached k = some o := by
  simp only [historyAt, List.mem_filterMap, List.mem_range]

theorem loadAt_eq {k : ℕ} {o : Overlay ℕ} (h : loadAt noted program reached k = some o) :
    ∃ inst, program[k]? = some inst ∧ reached k = true ∧ noted k inst = some o := by
  obtain ⟨hreached, h⟩ := Option.ite_none_right_eq_some.mp h
  obtain ⟨inst, hinst, hnoted⟩ := Option.bind_eq_some_iff.mp h
  exact ⟨inst, hinst, hreached, hnoted⟩

theorem version_lt_version (hstamped : Stamped noted) (hplaced : Placed program) {j k : ℕ}
    {o o' : Overlay ℕ} (hlt : j < k) (h : loadAt noted program reached j = some o)
    (h' : loadAt noted program reached k = some o') : o.version < o'.version := by
  obtain ⟨inst, hinst, -, hnoted⟩ := loadAt_eq h
  obtain ⟨inst', hinst', -, hnoted'⟩ := loadAt_eq h'
  obtain hindex | hpc := hstamped
  · rw [hindex _ _ _ hnoted, hindex _ _ _ hnoted']
    exact hlt
  · rw [hpc _ _ _ hnoted, hpc _ _ _ hnoted']
    exact hplaced.mono hlt hinst hinst'

theorem version_lt (hstamped : Stamped noted) (hplaced : Placed program) {u : ℕ} {inst : Inst}
    {o : Overlay ℕ} (hinst : program[u]? = some inst) (ho : o ∈ historyAt noted program reached u) :
    o.version < 0xFFFF := by
  obtain ⟨k, hk, hload⟩ := mem_historyAt.mp ho
  obtain ⟨inst', hinst', -, hnoted⟩ := loadAt_eq hload
  have hpc := hplaced.mono hk hinst' hinst
  have hbound := hplaced.lt hinst
  obtain hindex | hversion := hstamped
  · have := hplaced.le_pc hinst'
    rw [hindex _ _ _ hnoted]
    omega
  · rw [hversion _ _ _ hnoted]
    omega

theorem nodup_versions (hstamped : Stamped noted) (hplaced : Placed program) (v : ℕ) :
    ((historyAt noted program reached v).map Overlay.version).Nodup := by
  refine List.Pairwise.imp (fun hlt => Nat.ne_of_lt hlt) (R := (· < ·)) ?_
  refine List.pairwise_map.mpr (List.pairwise_filterMap.mpr ?_)
  refine List.pairwise_lt_range.imp fun hlt o ho o' ho' => ?_
  exact version_lt_version hstamped hplaced hlt ho ho'

/-- **Registers of the same version** are not filled anew, and the load that filled them is still there. -/
theorem versionOf_ne (hstamped : Stamped noted) (hplaced : Placed program) {u v : ℕ} {q : ℕ × ℕ}
    (huv : u < v) (hpos : 0 < q.2) (h : Filled noted program reached u v q ∨ Retired noted program reached u v q) :
    versionOf (layAll (historyAt noted program reached u)) q.1 q.2 ≠
      versionOf (layAll (historyAt noted program reached v)) q.1 q.2 := by
  obtain ⟨j, o, hle, hlt, hload, hcovers, hafter⟩ |
    ⟨j, o, hlt, hload, hcovers, hkept, k, o', hle, hkv, hload', hmeets⟩ := h
  · rw [historyAt_append (Nat.le_of_lt hlt : j ≤ v), historyAt_append hle,
      show v - j = (v - (j + 1)) + 1 by omega, List.range'_succ, List.filterMap_cons_some hload,
      List.append_assoc]
    refine versionOf_ne_of_filled hpos hcovers ?_ ?_
    · intro o' ho'
      obtain ⟨k, hk, hkv, hload'⟩ := mem_between.mp ho'
      exact hafter k o' (by omega) hkv hload'
    · intro o' ho'
      obtain ⟨k, hk, hload'⟩ := mem_historyAt.mp ho'
      exact Nat.ne_of_lt (version_lt_version hstamped hplaced (by omega) hload' hload)
  · have hmem : o ∈ layAll (historyAt noted program reached u) := by
      rw [historyAt_append (Nat.succ_le_of_lt hlt), historyAt_succ, hload, layAll, List.foldl_append, List.foldl_append]
      refine mem_foldl_lay_of_mem (mem_lay.mpr (.inr rfl)) fun o' ho' => ?_
      obtain ⟨k, hk, hku, hload'⟩ := mem_between.mp ho'
      exact hkept k o' (by omega) hku hload'
    have hnodup : ((historyAt noted program reached v).map Overlay.version).Nodup :=
      nodup_versions hstamped hplaced v
    rw [historyAt_append (Nat.le_of_lt huv)] at hnodup ⊢
    exact versionOf_ne_of_retired hpos hmem hcovers (mem_between.mpr ⟨k, hle, hkv, hload'⟩) hmeets hnodup

end History

/-! ## The walk of a planner -/

section Planner

variable {τ ρ : Type}

structure Planner.Spec (p : Planner τ ρ) (noted : ℕ → Inst → Option (Overlay ℕ)) (planned : Inst → Prop)
    (regs : Inst → List (ℕ × ℕ)) where
  Tracks : τ → List (Overlay ℕ) → Prop
  start : Tracks p.start []
  note : ∀ {v : τ} {history : List (Overlay ℕ)} (i : ℕ) (inst : Inst), Tracks v history →
    Tracks (p.note v i inst) (history ++ (noted i inst).toList)
  demand : ∀ (v : τ) (inst : Inst), planned inst → p.demand v inst ≠ .pass
  key : ∀ {v v' : τ} {history history' : List (Overlay ℕ)} {inst inst' : Inst} {r r' : Request ℕ ρ},
    Tracks v history → Tracks v' history' → (∀ o ∈ history, o.version < 0xFFFF) →
    (∀ o ∈ history', o.version < 0xFFFF) → p.demand v inst = .use r → p.demand v' inst' = .use r' →
    r.key = r'.key → regs inst = regs inst' ∧ ∀ q ∈ regs inst,
      versionOf (layAll history) q.1 q.2 = versionOf (layAll history') q.1 q.2

variable {p : Planner τ ρ} {noted : ℕ → Inst → Option (Overlay ℕ)} {planned : Inst → Prop}
  {regs : Inst → List (ℕ × ℕ)} (spec : p.Spec noted planned regs) {program : Program} {reached : ℕ → Bool}

/-- The walk before the instruction `k`, after the uses `done`. -/
structure Planner.Spec.Walked (program : Program) (reached : ℕ → Bool) (k : ℕ) (done : List (ℕ × ℕ))
    (state : τ × Numbering ℕ ℕ ρ) : Prop where
  tracks : spec.Tracks state.1 (historyAt noted program reached k)
  numbers : Numbering.Numbers p.first p.room done state.2
  uses : ∀ pc key, (pc, key) ∈ done → ∃ u inst v r, u < k ∧ program[u]? = some inst ∧ inst.pc = pc ∧
    spec.Tracks v (historyAt noted program reached u) ∧ p.demand v inst = .use r ∧ r.key = key
  planned : ∀ u inst, u < k → program[u]? = some inst → reached u = true → planned inst →
    ∃ key, (inst.pc, key) ∈ done
  strict : p.strict = true → ∀ q ∈ done, state.2.byKey q.2 ≠ none

theorem Planner.step_cases {state state' : τ × Numbering ℕ ℕ ρ} {inst : Inst} {k : ℕ}
    (h : p.step reached state (inst, k) = some state') : (reached k = false ∧ state' = state) ∨
    (reached k = true ∧ p.demand state.1 inst = .pass ∧ state' = (p.note state.1 k inst, state.2)) ∨
    (reached k = true ∧ ∃ r plan, p.demand state.1 inst = .use r ∧
      state.2.put p.first p.room inst.pc r = some plan ∧ state' = (p.note state.1 k inst, plan)) ∨
    (reached k = true ∧ p.strict = false ∧ ∃ r, p.demand state.1 inst = .use r ∧
      state.2.put p.first p.room inst.pc r = none ∧ state' = (p.note state.1 k inst, state.2)) := by
  unfold Planner.step at h
  dsimp only at h
  split at h
  · rename_i hreached
    split at h
    · rename_i hdemand
      exact .inr (.inl ⟨hreached, hdemand, (Option.some.inj h).symm⟩)
    · cases h
    · rename_i r hdemand
      split at h
      · rename_i plan hput
        exact .inr (.inr (.inl ⟨hreached, r, plan, hdemand, hput, (Option.some.inj h).symm⟩))
      · rename_i hput
        split at h
        · cases h
        · rename_i hstrict
          exact .inr (.inr (.inr ⟨hreached, (Bool.not_eq_true _).mp hstrict, r, hdemand, hput,
            (Option.some.inj h).symm⟩))
  · rename_i hreached
    exact .inl ⟨(Bool.not_eq_true _).mp hreached, (Option.some.inj h).symm⟩

variable {spec}

theorem Planner.Spec.Walked.start : spec.Walked program reached 0 [] (p.start, {}) where
  tracks := spec.start
  numbers := Numbering.numbers_empty
  uses _ _ h := absurd h List.not_mem_nil
  planned u _ h := absurd h (Nat.not_lt_zero u)
  strict _ _ h := absurd h List.not_mem_nil

variable {k : ℕ} {done : List (ℕ × ℕ)} {state : τ × Numbering ℕ ℕ ρ} {inst : Inst}

theorem Planner.Spec.Walked.tracks_note (h : spec.Walked program reached k done state)
    (hinst : program[k]? = some inst) (hreached : reached k = true) :
    spec.Tracks (p.note state.1 k inst) (historyAt noted program reached (k + 1)) := by
  rw [historyAt_succ, loadAt, if_pos hreached, hinst]
  exact spec.note k inst h.tracks

theorem Planner.Spec.Walked.use (h : spec.Walked program reached k done state)
    (hinst : program[k]? = some inst) (hreached : reached k = true) {r : Request ℕ ρ}
    (hdemand : p.demand state.1 inst = .use r) {plan : Numbering ℕ ℕ ρ}
    (hnumbers : Numbering.Numbers p.first p.room (done ++ [(inst.pc, r.key)]) plan)
    (hstrict : p.strict = true → ∀ q ∈ done ++ [(inst.pc, r.key)], plan.byKey q.2 ≠ none) :
    spec.Walked program reached (k + 1) (done ++ [(inst.pc, r.key)]) (p.note state.1 k inst, plan) where
  tracks := h.tracks_note hinst hreached
  numbers := hnumbers
  uses pc key hmem := by
    obtain hmem | hmem := List.mem_append.mp hmem
    · obtain ⟨u, inst', v, r', hlt, hrest⟩ := h.uses pc key hmem
      exact ⟨u, inst', v, r', by omega, hrest⟩
    · obtain ⟨rfl, rfl⟩ := Prod.mk.inj (List.mem_singleton.mp hmem)
      exact ⟨k, inst, state.1, r, Nat.lt_succ_self k, hinst, rfl, h.tracks, hdemand, rfl⟩
  planned u inst' hlt hinst' hreached' hplanned := by
    obtain hlt | rfl := Nat.lt_succ_iff_lt_or_eq.mp hlt
    · obtain ⟨key, hmem⟩ := h.planned u inst' hlt hinst' hreached' hplanned
      exact ⟨key, List.mem_append_left _ hmem⟩
    · obtain rfl := Option.some.inj (hinst'.symm.trans hinst)
      exact ⟨r.key, List.mem_append_right _ (List.mem_singleton_self _)⟩
  strict := hstrict

theorem Planner.Spec.Walked.pass (h : spec.Walked program reached k done state) {v : τ}
    (hinst : program[k]? = some inst)
    (htracks : spec.Tracks v (historyAt noted program reached (k + 1)))
    (hpass : reached k = true → ¬planned inst) :
    spec.Walked program reached (k + 1) done (v, state.2) where
  tracks := htracks
  numbers := h.numbers
  uses pc key hmem := by
    obtain ⟨u, inst', v', r', hlt, hrest⟩ := h.uses pc key hmem
    exact ⟨u, inst', v', r', by omega, hrest⟩
  planned u inst' hlt hinst' hreached' hplanned := by
    obtain hlt | rfl := Nat.lt_succ_iff_lt_or_eq.mp hlt
    · exact h.planned u inst' hlt hinst' hreached' hplanned
    · obtain rfl := Option.some.inj (hinst'.symm.trans hinst)
      exact absurd hplanned (hpass hreached')
  strict := h.strict

theorem Planner.Spec.Walked.step (hplaced : Placed program) (h : spec.Walked program reached k done state)
    (hinst : program[k]? = some inst) {state' : τ × Numbering ℕ ℕ ρ}
    (hstep : p.step reached state (inst, k) = some state') :
    ∃ done', spec.Walked program reached (k + 1) done' state' := by
  -- the pc is new
  have hnew : ∀ q ∈ done, q.1 ≠ inst.pc := by
    intro q hq
    obtain ⟨u, inst', _, _, hlt, hinst', hpc, -⟩ := h.uses q.1 q.2 hq
    exact Nat.ne_of_lt (hpc ▸ hplaced.mono hlt hinst' hinst)
  obtain ⟨hreached, rfl⟩ | ⟨hreached, hdemand, rfl⟩ | ⟨hreached, r, plan, hdemand, hput, rfl⟩ |
    ⟨hreached, hskip, r, hdemand, hput, rfl⟩ := Planner.step_cases hstep
  · refine ⟨done, h.pass (v := state'.1) hinst ?_ fun htrue => ?_⟩
    · rw [historyAt_succ, loadAt, if_neg (by rw [hreached]; exact Bool.false_ne_true)]
      exact (List.append_nil _).symm ▸ h.tracks
    · rw [hreached] at htrue
      cases htrue
  · exact ⟨done, h.pass hinst (h.tracks_note hinst hreached) fun _ hplanned =>
      spec.demand _ _ hplanned hdemand⟩
  · refine ⟨_, h.use hinst hreached hdemand (h.numbers.put hnew hput) fun hstrict q hq => ?_⟩
    obtain hq | hq := List.mem_append.mp hq
    · rw [h.numbers.byKey_put hput hq]
      exact h.strict hstrict q hq
    · obtain ⟨number, -, hkey⟩ := Numbering.put_byUse hput
      rw [List.mem_singleton.mp hq, hkey]
      exact Option.some_ne_none number
  · refine ⟨_, h.use hinst hreached hdemand (h.numbers.skip hnew hput) fun hstrict => ?_⟩
    rw [hskip] at hstrict
    cases hstrict

/-- **A whole walk.** -/
theorem Planner.Spec.walked (hplaced : Placed program) {plan : Numbering ℕ ℕ ρ}
    (h : p.plan reached program = some plan) :
    ∃ v done, spec.Walked program reached program.length done (v, plan) := by
  obtain ⟨state, hfold, rfl⟩ := Option.map_eq_some_iff.mp h
  suffices hinitial : ∀ k ≤ program.length, ∀ state,
      (program.take k).zipIdx.foldlM (p.step reached) (p.start, {}) = some state →
        ∃ done, spec.Walked program reached k done state by
    obtain ⟨done, hwalked⟩ := hinitial program.length (Nat.le_refl _) state (by rwa [List.take_length])
    exact ⟨state.1, done, hwalked⟩
  intro k
  induction k with
  | zero =>
    intro _ state hfold
    obtain rfl := Option.some.inj hfold
    exact ⟨[], .start⟩
  | succ k ih =>
    intro hk state hfold
    have hinst : program[k]? = some program[k] := List.getElem?_eq_getElem hk
    rw [List.take_add_one, hinst, Option.toList_some, List.zipIdx_append, List.foldlM_append,
      List.length_take, Nat.min_eq_left (Nat.le_of_lt hk), List.zipIdx_singleton, Nat.zero_add] at hfold
    obtain ⟨before, hbefore, hstep⟩ := Option.bind_eq_some_iff.mp hfold
    obtain ⟨done, hwalked⟩ := ih (Nat.le_of_lt hk) before hbefore
    rw [List.foldlM_cons] at hstep
    obtain ⟨after, hafter, hrest⟩ := Option.bind_eq_some_iff.mp hstep
    obtain rfl := Option.some.inj hrest
    exact hwalked.step hplaced hinst hafter

end Planner

/-! ## What a plan promises -/

section Sound

variable {isa : ScalarIsa} {guest : ℕ → ScalarMemory} {codeBase : ℕ} {program : Program}
  {reached : ℕ → Bool} {st : ℕ → ScalarState}

theorem StraightRun.kept (hrun : StraightRun isa guest codeBase program reached st) {u v : ℕ} {q : ℕ × ℕ}
    (huv : u ≤ v) (hv : v ≤ program.length) (hwrite : ¬MayWrite program reached st u v q) :
    ∀ r, q.1 ≤ r → r < q.1 + q.2 → (st v).sgpr r = (st u).sgpr r := by
  intro r hle hlt
  induction v, huv using Nat.le_induction with
  | base => rfl
  | succ v huv ih =>
    have hbefore : ¬MayWrite program reached st u v q := by
      rintro ⟨k, inst, r', hk, hkv, hrest⟩
      exact hwrite ⟨k, inst, r', hk, Nat.lt_succ_of_lt hkv, hrest⟩
    rw [← ih (Nat.le_of_succ_le hv) hbefore]
    cases hreached : reached v with
    | false => rw [hrun.skip v hreached]
    | true =>
      have hinst : program[v]? = some program[v] := List.getElem?_eq_getElem hv
      apply (hrun.step v _ hinst hreached).kept
      intro hmay
      exact hwrite ⟨v, _, r, huv, Nat.lt_succ_self v, hreached, hinst, hle, hlt, hmay⟩

theorem descriptorDwords_congr {s s' : ScalarState} {regs : List (ℕ × ℕ)}
    (h : ∀ q ∈ regs, ∀ r, q.1 ≤ r → r < q.1 + q.2 → s.sgpr r = s'.sgpr r) :
    descriptorDwords s regs = descriptorDwords s' regs := by
  refine List.flatMap_congr fun q hq => List.map_congr_left fun i hi => ?_
  exact h q hq _ (Nat.le_add_right _ _) (Nat.add_lt_add_left (List.mem_range.mp hi) _)

variable {τ ρ : Type} {p : Planner τ ρ} {noted : ℕ → Inst → Option (Overlay ℕ)} {planned : Inst → Prop}
  {regs : Inst → List (ℕ × ℕ)}

/-- **A planner keeps its promise** if its keys tell registers and versions. -/
theorem Planner.Spec.sound (spec : p.Spec noted planned regs) (hstamped : Stamped noted)
    (hpos : ∀ inst, ∀ q ∈ regs inst, 0 < q.2) (hplaced : Placed program)
    (hrun : StraightRun isa guest codeBase program reached st) {plan : Numbering ℕ ℕ ρ}
    (h : p.plan reached program = some plan) :
    SoundPlan noted program reached st planned regs p.first p.room p.strict plan := by
  obtain ⟨v, done, hwalked⟩ := spec.walked hplaced h
  have hnumbers := hwalked.numbers
  -- an instruction of a pc is the only one
  have hindex : ∀ {u w : ℕ} {a b : Inst}, program[u]? = some a → program[w]? = some b → a.pc = b.pc →
      u = w := by
    intro u w a b ha hb hpc
    obtain hlt | heq | hlt := Nat.lt_trichotomy u w
    · exact absurd hpc (Nat.ne_of_lt (hplaced.mono hlt ha hb))
    · exact heq
    · exact absurd hpc (Nat.ne_of_gt (hplaced.mono hlt hb ha))
  refine ⟨?_, ?_, hnumbers.inRoom, ?_⟩
  · intro u w inst inst' binding huw hinst hinst' huse huse'
    obtain ⟨key, hmem, hkey⟩ := hnumbers.mem_done _ _ huse
    obtain ⟨key', hmem', hkey'⟩ := hnumbers.mem_done _ _ huse'
    obtain ⟨u', a, x, r, -, ha, hpc, hx, hdemand, rfl⟩ := hwalked.uses _ _ hmem
    obtain ⟨w', b, y, r', -, hb, hpc', hy, hdemand', rfl⟩ := hwalked.uses _ _ hmem'
    obtain rfl := hindex ha hinst hpc
    obtain rfl := hindex hb hinst' hpc'
    obtain rfl := Option.some.inj (ha.symm.trans hinst)
    obtain rfl := Option.some.inj (hb.symm.trans hinst')
    have heq := hnumbers.injective _ _ _ hkey hkey'
    obtain ⟨hregs, hversions⟩ := spec.key hx hy (fun o => version_lt hstamped hplaced ha)
      (fun o => version_lt hstamped hplaced hb) hdemand hdemand' heq
    refine ⟨hregs, fun hnoticed => ?_⟩
    rw [← hregs]
    refine descriptorDwords_congr fun q hq r hle hlt => ?_
    have hwrite : ¬MayWrite program reached st u' w' q := by
      intro hmay
      exact versionOf_ne hstamped hplaced huw (hpos _ q hq) (hnoticed q hq hmay) (hversions q hq)
    have hend : w' ≤ program.length := Nat.le_of_lt (List.getElem?_eq_some_iff.mp hb).1
    exact (hrun.kept (Nat.le_of_lt huw) hend hwrite r hle hlt).symm
  · intro binding
    constructor
    · rintro ⟨pc, huse⟩
      obtain ⟨key, -, hkey⟩ := hnumbers.mem_done _ _ huse
      exact hnumbers.range _ _ hkey
    · rintro ⟨hle, hlt⟩
      exact hnumbers.onto binding hle hlt
  · intro u inst hinst hreached hplanned
    have hlt := (List.getElem?_eq_some_iff.mp hinst).1
    obtain ⟨key, hmem⟩ := hwalked.planned u inst hlt hinst hreached hplanned
    have huse := hnumbers.use_eq _ hmem
    cases hkey : plan.byKey key with
    | some binding => exact .inl ⟨binding, huse.trans hkey⟩
    | none =>
      refine .inr ⟨?_, hnumbers.full _ hmem hkey⟩
      cases hstrict : p.strict with
      | false => rfl
      | true => exact absurd hkey (hwalked.strict hstrict _ hmem)

end Sound

/-! ## Keys -/

section Keys

variable {history history' : List (Overlay ℕ)} {inst inst' : Inst}

theorem eq_of_getD_eq {inline : ℕ} (hinline : 0xFFFF ≤ inline) (hlt : ∀ o ∈ history, o.version < 0xFFFF)
    (hlt' : ∀ o ∈ history', o.version < 0xFFFF) {q : ℕ × ℕ}
    (h : (versionOf (layAll history) q.1 q.2).getD inline = (versionOf (layAll history') q.1 q.2).getD inline) :
    versionOf (layAll history) q.1 q.2 = versionOf (layAll history') q.1 q.2 := by
  have hload : ∀ {l : List (Overlay ℕ)}, (∀ o ∈ l, o.version < 0xFFFF) → ∀ version,
      versionOf (layAll l) q.1 q.2 = some version → version < inline := by
    intro l hl version hversion
    obtain ⟨o, ho, -, rfl⟩ := of_versionOf hversion
    exact Nat.lt_of_lt_of_le (hl o (mem_of_mem_layAll ho)) hinline
  cases hver : versionOf (layAll history) q.1 q.2 with
  | none =>
    cases hver' : versionOf (layAll history') q.1 q.2 with
    | none => rfl
    | some version =>
      rw [hver, hver'] at h
      exact absurd h.symm (Nat.ne_of_lt (hload hlt' _ hver'))
  | some version =>
    cases hver' : versionOf (layAll history') q.1 q.2 with
    | none =>
      rw [hver, hver'] at h
      exact absurd h (Nat.ne_of_lt (hload hlt _ hver))
    | some version' =>
      rw [hver, hver'] at h
      exact congrArg some h

theorem and_mul_four_lt (w : ℕ) : (w &&& 0x1F) * 4 < 2 ^ 8 := by
  have : w &&& 0x1F ≤ 0x1F := Nat.and_le_right
  omega

theorem srsrcOf_lt (inst : Inst) : srsrcOf inst < 2 ^ 8 := and_mul_four_lt _

theorem loadBase_lt (inst : Inst) : loadBase inst < 2 ^ 7 := by
  have : (inst.raw0 >>> 9) &&& 0x3F ≤ 0x3F := Nat.and_le_right
  unfold loadBase
  omega

theorem noteLoad_layAll (noted : ℕ → Inst → Option (Overlay ℕ)) (history : List (Overlay ℕ)) (i : ℕ) (inst : Inst) :
    noteLoad noted (layAll history) i inst = layAll (history ++ (noted i inst).toList) := by
  unfold noteLoad
  cases noted i inst with
  | none => rw [Option.toList_none, List.append_nil]
  | some o => exact (layAll_snoc history o).symm

theorem stamped_byIndex (load : Inst → Option (ℕ × ℕ)) : Stamped (byIndex load) := by
  refine .inl fun i inst o h => ?_
  obtain ⟨_, _, rfl⟩ := Option.map_eq_some_iff.mp h
  rfl

theorem stamped_byPc (load : Inst → Option (ℕ × ℕ)) : Stamped (byPc load) := by
  refine .inr fun i inst o h => ?_
  obtain ⟨_, _, rfl⟩ := Option.map_eq_some_iff.mp h
  rfl

/-! ### Constants -/

def IsCbufLoad (inst : Inst) : Prop := (scalarLoad inst).isSome = true

theorem cbufDemand_use {versions : DescriptorVersions} {r : Request ℕ ShaderCbuf}
    (h : cbufDemand versions inst = .use r) : r.key = cbufKey (loadBase inst) (isPointerLoad inst)
      (versions.of (loadBase inst) (if isPointerLoad inst then 2 else 4)) := by
  unfold cbufDemand at h
  split at h
  · cases h
  · split at h
    · cases h
    · cases h
      rfl

theorem cbufKey_injective {base base' : ℕ} {pointer pointer' : Bool} {version version' : ℕ}
    (hbase : base < 2 ^ 8) (hbase' : base' < 2 ^ 8)
    (h : cbufKey base pointer version = cbufKey base' pointer' version') :
    base = base' ∧ pointer = pointer' ∧ version = version' := by
  have hflag : ∀ b : Bool, (if b then 0x100 else 0) = b.toNat <<< 8 := by decide
  have hlow : ∀ {b : ℕ} (c : Bool), b < 2 ^ 8 → b ||| c.toNat <<< 8 < 2 ^ 32 := by
    intro b c hb
    have hlt := or_shiftLeft_lt (m := 1) hb c.toNat_lt
    exact Nat.lt_of_lt_of_le hlt (Nat.pow_le_pow_right (by decide) (by decide))
  unfold cbufKey at h
  rw [hflag, hflag, Nat.or_assoc, Nat.or_assoc, Nat.or_comm, Nat.or_comm (version' <<< 32)] at h
  obtain ⟨hversion, hrest⟩ := or_shiftLeft_injective (hlow _ hbase) (hlow _ hbase') h
  obtain ⟨hpointer, hbase⟩ := or_shiftLeft_injective hbase hbase' hrest
  have hinj : ∀ b b' : Bool, b.toNat = b'.toNat → b = b' := by decide
  exact ⟨hbase, hinj _ _ hpointer, hversion⟩

def cbufSpec (first limit : ℕ) : (cbufPlanner first limit).Spec (byPc scalarLoad) IsCbufLoad cbufRegs where
  Tracks versions history := versions.Tracks (layAll history)
  start := DescriptorVersions.tracks_nil
  note := by
    intro v history i inst htracks
    change (v.note inst).Tracks _
    unfold byPc scalarLoad
    split
    · rename_i henc
      cases hn : smrdDwords inst.opcode with
      | none =>
        have hsame : v.note inst = v := by
          unfold DescriptorVersions.note
          rw [if_neg (not_not_intro henc), hn]
        rw [hsame]
        exact (List.append_nil history).symm ▸ htracks
      | some n => exact layAll_snoc history _ ▸ htracks.note henc hn
    · rename_i henc
      have hsame : v.note inst = v := if_pos henc
      rw [hsame]
      exact (List.append_nil history).symm ▸ htracks
  demand := by
    intro v inst hplanned
    obtain ⟨load, hload⟩ := Option.isSome_iff_exists.mp hplanned
    obtain ⟨henc, hload⟩ := Option.ite_none_right_eq_some.mp hload
    obtain ⟨n, hn, -⟩ := Option.map_eq_some_iff.mp hload
    intro hpass
    simp only [cbufPlanner, cbufDemand, henc, hn, ne_eq, not_true_eq_false, if_false] at hpass
    cases hpass
  key := by
    intro v v' history history' inst inst' r r' htracks htracks' hlt hlt' hdemand hdemand' hkey
    rw [cbufDemand_use hdemand, cbufDemand_use hdemand'] at hkey
    have hbase := Nat.lt_of_lt_of_le (loadBase_lt inst) (by decide : 2 ^ 7 ≤ 2 ^ 8)
    have hbase' := Nat.lt_of_lt_of_le (loadBase_lt inst') (by decide : 2 ^ 7 ≤ 2 ^ 8)
    obtain ⟨heq, hpointer, hversion⟩ := cbufKey_injective hbase hbase' hkey
    rw [← heq, ← hpointer] at hversion
    refine ⟨by rw [cbufRegs, cbufRegs, heq, hpointer], fun q hq => ?_⟩
    obtain rfl := List.mem_singleton.mp hq
    have hpos : 0 < if isPointerLoad inst then 2 else 4 := by split <;> decide
    rw [htracks.of (loadBase_lt inst) hpos, htracks'.of (loadBase_lt inst) hpos] at hversion
    exact eq_of_getD_eq (by decide) hlt hlt' (q := (_, _)) hversion

/-! ### Buffers of a graphics stage -/

def gfxSpec (first limit : ℕ) (claimed : ℕ → Bool) : (gfxPlanner first limit claimed).Spec (byIndex scalarLoad)
      (fun inst => isGfxBufferLoad claimed inst = true) gfxRegs where
  Tracks loads history := loads = layAll history
  start := rfl
  note := by
    rintro _ history i inst rfl
    exact noteLoad_layAll _ history i inst
  demand := by
    intro v inst hplanned hpass
    simp only [gfxPlanner, gfxDemand, hplanned, if_true] at hpass
    cases hpass
  key := by
    rintro _ _ history history' inst inst' r r' rfl rfl hlt hlt' hdemand hdemand' hkey
    have huse : ∀ {l : List (Overlay ℕ)} {i : Inst} {r : Request ℕ ShaderBuffer}, gfxDemand claimed l i = .use r →
          r.key = srsrcOf i ||| (descriptorVersion kInlineVersion l (srsrcOf i) 4 <<< 8) := by
      intro l i r h
      unfold gfxDemand at h
      split at h
      · cases h
        rfl
      · cases h
    rw [huse hdemand, huse hdemand'] at hkey
    obtain ⟨hversion, heq⟩ := or_shiftLeft_injective (srsrcOf_lt inst) (srsrcOf_lt inst') hkey
    refine ⟨by rw [gfxRegs, gfxRegs, heq], fun q hq => ?_⟩
    obtain rfl := List.mem_singleton.mp hq
    rw [← heq] at hversion
    exact eq_of_getD_eq (by decide) hlt hlt' (q := (_, _)) hversion

/-! ### Resources of a compute shader -/

def csDwords (kind : ℕ) : ℕ := if kind = 1 then 8 else if kind = 2 then 2 else 4

def IsCsAccess (inst : Inst) : Prop :=
  inst.enc = .kSmrd ∨ inst.enc = .kMubuf ∨ inst.enc = .kMtbuf ∨ (inst.enc = .kMimg ∧ mimgOp inst ≠ 0x0e)

theorem csDemand_resource {lds : ℕ} {loads : List (Overlay ℕ)} {r : Request ℕ CsResource}
    (h : csDemand lds loads inst = .use r) : ∃ kind base, kind ≤ 2 ∧ base < 2 ^ 8 ∧
      csRegs inst = [(base, csDwords kind)] ∧ ∃ written minBytes read storeExtent,
        csResource loads inst.pc base (csDwords kind) kind written minBytes read storeExtent = .use r := by
  unfold csDemand at h
  split at h
  · rename_i henc
    have hbase := Nat.lt_of_lt_of_le (loadBase_lt inst) (by decide : 2 ^ 7 ≤ 2 ^ 8)
    unfold csSmrdDemand at h
    split at h
    · cases h
    · split at h
      · rename_i hop
        refine ⟨2, _, by decide, hbase, ?_, _, _, _, _, h⟩
        simp only [csRegs, henc, if_pos hop]
        rfl
      · rename_i hop
        refine ⟨0, _, by decide, hbase, ?_, _, _, _, _, h⟩
        simp only [csRegs, henc, if_neg hop]
        rfl
  · rename_i henc
    unfold csMubufDemand at h
    dsimp only at h
    split at h
    · cases h
    · refine ⟨0, _, by decide, srsrcOf_lt inst, ?_, _, _, _, _, h⟩
      simp only [csRegs, henc]
      rfl
  · rename_i henc
    refine ⟨0, _, by decide, srsrcOf_lt inst, ?_, _, _, _, _, h⟩
    simp only [csRegs, henc]
    rfl
  · rename_i henc
    unfold csMimgDemand at h
    dsimp only at h
    split at h
    · cases h
    · split at h
      · cases h
      · refine ⟨1, _, by decide, srsrcOf_lt inst, ?_, _, _, _, _, h⟩
        simp only [csRegs, henc]
        rfl
  · split at h
    · split at h <;> cases h
    · split at h <;> cases h
  · cases h

def csSpec (lds : ℕ) : (csPlanner lds).Spec (byIndex csLoad) IsCsAccess csRegs where
  Tracks loads history := loads = layAll history
  start := rfl
  note := by
    rintro _ history i inst rfl
    exact noteLoad_layAll _ history i inst
  demand := by
    intro v inst hplanned hpass
    simp only [csPlanner, csDemand] at hpass
    obtain henc | henc | henc | ⟨henc, hop⟩ := hplanned
    · simp only [henc, csSmrdDemand, csResource] at hpass
      split at hpass
      · cases hpass
      · split at hpass <;> cases hpass
    · simp only [henc, csMubufDemand, csResource] at hpass
      split at hpass <;> cases hpass
    · simp only [henc, csMtbufDemand, csResource] at hpass
      cases hpass
    · simp only [henc, csMimgDemand, csResource, if_neg hop] at hpass
      split at hpass <;> cases hpass
  key := by
    rintro _ _ history history' inst inst' r r' rfl rfl hlt hlt' hdemand hdemand' hkey
    obtain ⟨kind, base, hkind, hbase, hregs, _, _, _, _, hr⟩ := csDemand_resource hdemand
    obtain ⟨kind', base', hkind', hbase', hregs', _, _, _, _, hr'⟩ := csDemand_resource hdemand'
    cases hr
    cases hr'
    have hsmall : kind < 2 ^ 8 := Nat.lt_of_le_of_lt hkind (by decide)
    have hsmall' : kind' < 2 ^ 8 := Nat.lt_of_le_of_lt hkind' (by decide)
    obtain ⟨hversion, hrest⟩ := or_shiftLeft_injective (k := 16) (or_shiftLeft_lt hsmall hbase)
      (or_shiftLeft_lt hsmall' hbase') hkey
    obtain ⟨rfl, rfl⟩ := or_shiftLeft_injective hsmall hsmall' hrest
    refine ⟨hregs.trans hregs'.symm, fun q hq => ?_⟩
    rw [hregs] at hq
    obtain rfl := List.mem_singleton.mp hq
    exact eq_of_getD_eq (by decide) hlt hlt' (q := (_, _)) hversion

/-! ### Images -/

theorem mimgDescriptorKey_injective {a a' b b' c c' d d' e e' : ℕ} (ha : a < 2 ^ 8) (ha' : a' < 2 ^ 8)
    (hb : b < 2 ^ 8) (hb' : b' < 2 ^ 8) (hc : c < 2 ^ 16) (hc' : c' < 2 ^ 16) (hd : d < 2 ^ 16)
    (hd' : d' < 2 ^ 16) (h : mimgDescriptorKey a b c d e = mimgDescriptorKey a' b' c' d' e') :
    a = a' ∧ b = b' ∧ c = c' ∧ d = d' := by
  have hmask : ∀ {n : ℕ}, n < 2 ^ 16 → n &&& 0xFFFF = n := fun hn => Nat.and_two_pow_sub_one_of_lt_two_pow (n := 16) hn
  unfold mimgDescriptorKey at h
  rw [hmask hc, hmask hc', hmask hd, hmask hd'] at h
  have hlow := or_shiftLeft_lt ha hb
  have hlow' := or_shiftLeft_lt ha' hb'
  obtain ⟨-, h⟩ := or_shiftLeft_injective (k := 48) (or_shiftLeft_lt (or_shiftLeft_lt hlow hc) hd)
    (or_shiftLeft_lt (or_shiftLeft_lt hlow' hc') hd') h
  obtain ⟨hd, h⟩ := or_shiftLeft_injective (k := 32) (or_shiftLeft_lt hlow hc) (or_shiftLeft_lt hlow' hc') h
  obtain ⟨hc, h⟩ := or_shiftLeft_injective (k := 16) hlow hlow' h
  obtain ⟨hb, ha⟩ := or_shiftLeft_injective ha ha' h
  exact ⟨ha, hb, hc, hd⟩

theorem descriptorVersion_lt (hlt : ∀ o ∈ history, o.version < 0xFFFF) (first count : ℕ) :
    descriptorVersion 0xFFFF (layAll history) first count < 2 ^ 16 := by
  unfold descriptorVersion
  cases hversion : versionOf (layAll history) first count with
  | none => decide
  | some version =>
    obtain ⟨o, ho, -, rfl⟩ := of_versionOf hversion
    exact Nat.lt_trans (hlt o (mem_of_mem_layAll ho)) (by decide)

def mimgKey (loads : List (Overlay ℕ)) (inst : Inst) : ℕ :=
  mimgDescriptorKey (srsrcOf inst) (if isSampling inst then ssampOf inst else 0xFF)
    (descriptorVersion 0xFFFF loads (srsrcOf inst) 8)
    (if isSampling inst then
        descriptorVersion 0xFFFF loads (if isSampling inst then ssampOf inst else 0xFF) 4
      else 0xFFFE)
    (mimgFlags inst)

theorem mimgDemand_use {loads : List (Overlay ℕ)} {r : Request ℕ MimgBinding}
    (h : mimgDemand loads inst = .use r) : r.key = mimgKey loads inst := by
  unfold mimgDemand at h
  split at h
  · cases h
  · cases h
    rfl

theorem ssamp_lt (inst : Inst) : (if isSampling inst then ssampOf inst else 0xFF) < 2 ^ 8 := by
  split
  · exact and_mul_four_lt _
  · decide

def mimgSpec : mimgPlanner.Spec (byIndex pointerLoad) (fun inst => inst.enc = .kMimg) mimgRegs where
  Tracks loads history := loads = layAll history
  start := rfl
  note := by
    rintro _ history i inst rfl
    exact noteLoad_layAll _ history i inst
  demand := by
    intro v inst hplanned hpass
    simp only [mimgPlanner, mimgDemand, hplanned, ne_eq, not_true_eq_false, if_false] at hpass
    cases hpass
  key := by
    rintro _ _ history history' inst inst' r r' rfl rfl hlt hlt' hdemand hdemand' hkey
    rw [mimgDemand_use hdemand, mimgDemand_use hdemand', mimgKey, mimgKey] at hkey
    have hload : ∀ {h : List (Overlay ℕ)}, (∀ o ∈ h, o.version < 0xFFFF) → ∀ (b : Bool) (first : ℕ),
        (if b then descriptorVersion 0xFFFF (layAll h) first 4 else 0xFFFE) < 2 ^ 16 := by
      intro h hh b first
      split
      · exact descriptorVersion_lt hh _ _
      · decide
    obtain ⟨hsrsrc, hssamp, hversion, hsampler⟩ := mimgDescriptorKey_injective (srsrcOf_lt inst)
      (srsrcOf_lt inst') (ssamp_lt inst) (ssamp_lt inst') (descriptorVersion_lt hlt _ _)
      (descriptorVersion_lt hlt' _ _) (hload hlt _ _) (hload hlt' _ _) hkey
    -- 255 is no register of a sampler, so both accesses sample or neither does
    have hnone : ∀ i : Inst, ssampOf i ≠ 0xFF := by
      intro i heq
      have hle : (i.raw1 >>> 21) &&& 0x1F ≤ 0x1F := Nat.and_le_right
      unfold ssampOf at heq
      omega
    rw [← hsrsrc] at hversion
    have himage := eq_of_getD_eq (by decide) hlt hlt' (q := (srsrcOf inst, 8)) hversion
    cases hs : isSampling inst <;> cases hs' : isSampling inst'
    · refine ⟨by simp only [mimgRegs, hsrsrc, hs, hs', Bool.false_eq_true, if_false], fun q hq => ?_⟩
      simp only [mimgRegs, hs, Bool.false_eq_true, if_false, List.mem_singleton] at hq
      subst hq
      exact himage
    · simp only [hs, hs', Bool.false_eq_true, if_false, if_true] at hssamp
      exact absurd hssamp.symm (hnone inst')
    · simp only [hs, hs', Bool.false_eq_true, if_false, if_true] at hssamp
      exact absurd hssamp (hnone inst)
    · simp only [hs, hs', if_true] at hssamp hsampler
      have hregs : mimgRegs inst = mimgRegs inst' := by
        unfold mimgRegs
        rw [hsrsrc, hssamp, hs, hs']
      refine ⟨hregs, fun q hq => ?_⟩
      simp only [mimgRegs, hs, if_true, List.mem_cons, List.not_mem_nil, or_false] at hq
      obtain rfl | rfl := hq
      · exact himage
      · rw [← hssamp] at hsampler
        exact eq_of_getD_eq (by decide) hlt hlt' (q := (_, _)) hsampler

end Keys

/-! ## The four planners -/

section Planners

variable {code : Code} {readable : ℕ → Bool} {maxDwords : ℕ} {mode : IsaMode}

theorem ContiguousFrom.index_le {program : Program} {pc : ℕ} (h : ContiguousFrom pc program) {i : ℕ}
    {inst : Inst} (hinst : program[i]? = some inst) : pc + i ≤ inst.pc := by
  induction i generalizing pc program with
  | zero =>
    cases program with
    | nil => cases hinst
    | cons first rest =>
      obtain rfl := Option.some.inj hinst
      exact Nat.le_of_eq h.1.symm
  | succ i ih =>
    cases program with
    | nil => cases hinst
    | cons first rest =>
      obtain ⟨-, hsize, hrest⟩ := h
      have := ih hrest hinst
      omega

theorem endFrom_decodeShader_le (hmax : maxDwords ≤ kMaxShaderDwords) :
    endFrom 0 (decodeShader readable code maxDwords mode) ≤ kMaxShaderDwords := by
  unfold decodeShader
  dsimp only
  have hlen : codeLength readable code maxDwords ≤ kMaxShaderDwords := by
    unfold codeLength
    split
    · exact Nat.zero_le _
    · dsimp only
      split
      · rename_i h
        have := h.2.2.1
        omega
      · cases hfind : (List.range maxDwords).find? _ with
        | none => exact Nat.zero_le _
        | some d => exact Nat.le_trans (Nat.le_of_lt (List.mem_range.mp (List.mem_of_find?_eq_some hfind))) hmax
  split
  · exact Nat.le_trans (endFrom_decodeLoop_le _ _ (Nat.zero_le _)) hlen
  · exact Nat.le_trans (endFrom_decodeLoop_le _ _ (Nat.zero_le _)) hmax

theorem placed_decodeShader (hmax : maxDwords ≤ kMaxShaderDwords) :
    Placed (decodeShader readable code maxDwords mode) := by
  have hcont := contiguous_decodeShader readable code maxDwords mode
  have hend : endFrom 0 (decodeShader readable code maxDwords mode) ≤ kMaxShaderDwords :=
    endFrom_decodeShader_le hmax
  generalize decodeShader readable code maxDwords mode = program at hcont hend ⊢
  refine ⟨?_, ?_, ?_⟩
  · intro i j a b hij ha hb
    obtain ⟨hi, rfl⟩ := List.getElem?_eq_some_iff.mp ha
    obtain ⟨hj, rfl⟩ := List.getElem?_eq_some_iff.mp hb
    have hsorted := List.pairwise_iff_getElem.mp hcont.sorted i j hi hj hij
    have hsize := hcont.size_pos (List.getElem_mem hi)
    omega
  · intro i a ha
    exact Nat.zero_add i ▸ hcont.index_le ha
  · intro i a ha
    have hmem := List.mem_of_getElem? ha
    have hle := hcont.le_maxPc hmem
    have hsize := hcont.size_pos hmem
    rw [maxPc_eq_endFrom hcont] at hle
    exact Nat.lt_of_lt_of_le (by omega) hend

theorem cbufRegs_pos (inst : Inst) : ∀ q ∈ cbufRegs inst, 0 < q.2 := by
  intro q hq
  obtain rfl := List.mem_singleton.mp hq
  dsimp only
  split <;> decide

theorem csRegs_pos (inst : Inst) : ∀ q ∈ csRegs inst, 0 < q.2 := by
  intro q hq
  unfold csRegs at hq
  split at hq
  · obtain rfl := List.mem_singleton.mp hq
    dsimp only
    split <;> decide
  · exact List.mem_singleton.mp hq ▸ (by decide : 0 < 8)
  · exact List.mem_singleton.mp hq ▸ (by decide : 0 < 4)

theorem mimgRegs_pos (inst : Inst) : ∀ q ∈ mimgRegs inst, 0 < q.2 := by
  intro q hq
  unfold mimgRegs at hq
  obtain rfl | hq := List.mem_cons.mp hq
  · exact (by decide : 0 < 8)
  · split at hq
    · exact List.mem_singleton.mp hq ▸ (by decide : 0 < 4)
    · cases hq

theorem Planner.plan_isSome {τ ρ : Type} (p : Planner τ ρ)
    (hroom : p.strict = false ∨ ∀ b, p.room b = true) (hreject : ∀ v inst, p.demand v inst ≠ .reject)
    (reached : ℕ → Bool) (program : Program) : (p.plan reached program).isSome = true := by
  have hstep : ∀ state at_, (p.step reached state at_).isSome = true := by
    intro state at_
    unfold Planner.step
    dsimp only
    split
    · split
      · rfl
      · rename_i hdemand
        exact absurd hdemand (hreject _ _)
      · split
        · rfl
        · rename_i r _ _ hput
          obtain hstrict | hroom := hroom
          · rw [hstrict]
            rfl
          · have hsome : (state.2.put p.first p.room at_.1.pc r).isSome = true :=
              Numbering.put_isSome hroom
            rw [hput] at hsome
            cases hsome
    · rfl
  have hfold : ∀ (l : List (Inst × ℕ)) state, (l.foldlM (p.step reached) state).isSome = true := by
    intro l
    induction l with
    | nil => exact fun _ => rfl
    | cons at_ l ih =>
      intro state
      obtain ⟨next, hnext⟩ := Option.isSome_iff_exists.mp (hstep state at_)
      rw [List.foldlM_cons, hnext]
      exact ih next
  rw [Planner.plan, Option.isSome_map]
  exact hfold _ _

/-- **Each entry carries its number**, if each use gives it and keeps it. -/
theorem Planner.numbered {τ ρ : Type} {p : Planner τ ρ} (number : ρ → ℕ)
    (hentry : ∀ v inst r, p.demand v inst = .use r → ∀ b, number (r.entry b) = b)
    (hmerge : ∀ v inst r, p.demand v inst = .use r → ∀ e, number (r.merge e) = number e)
    {reached : ℕ → Bool} {program : Program} {plan : Numbering ℕ ℕ ρ} (h : p.plan reached program = some plan) :
    ∀ i e, plan.entries[i]? = some e → number e = p.first + i := by
  obtain ⟨state, hfold, rfl⟩ := Option.map_eq_some_iff.mp h
  suffices hall : ∀ (l : List (Inst × ℕ)) (before : τ × Numbering ℕ ℕ ρ),
      (∀ i e, before.2.entries[i]? = some e → number e = p.first + i) → l.foldlM (p.step reached) before = some state →
          ∀ i e, state.2.entries[i]? = some e → number e = p.first + i by
    refine hall _ _ (fun i e he => ?_) hfold
    cases he
  intro l
  induction l with
  | nil =>
    intro before hbefore hfold
    obtain rfl := Option.some.inj hfold
    exact hbefore
  | cons at_ l ih =>
    intro before hbefore hfold
    rw [List.foldlM_cons] at hfold
    obtain ⟨next, hnext, hrest⟩ := Option.bind_eq_some_iff.mp hfold
    refine ih next ?_ hrest
    obtain ⟨inst, index⟩ := at_
    obtain ⟨-, rfl⟩ | ⟨-, -, rfl⟩ | ⟨-, r, plan, hdemand, hput, rfl⟩ | ⟨-, -, r, -, -, rfl⟩ :=
      Planner.step_cases hnext
    · exact hbefore
    · exact hbefore
    · exact Numbering.numbered_put (hentry _ _ _ hdemand) (hmerge _ _ _ hdemand) hput hbefore
    · exact hbefore

theorem numbered_planCbufs {program : Program} {first limit : ℕ} {reached : ℕ → Bool}
    {plan : Numbering ℕ ℕ ShaderCbuf} (h : planCbufs program first reached limit = some plan) :
    ∀ i e, plan.entries[i]? = some e → e.binding = first + i := by
  have huse : ∀ (versions : DescriptorVersions) inst r, cbufDemand versions inst = .use r →
      (∀ b, (r.entry b).binding = b) ∧ ∀ e, (r.merge e).binding = e.binding := by
    intro versions inst r hdemand
    unfold cbufDemand at hdemand
    split at hdemand
    · cases hdemand
    · split at hdemand
      · cases hdemand
      · cases hdemand
        exact ⟨fun _ => rfl, fun _ => rfl⟩
  exact Planner.numbered ShaderCbuf.binding (fun v inst r hr => (huse v inst r hr).1)
    (fun v inst r hr => (huse v inst r hr).2) h

theorem numbered_planGfxBuffers {program : Program} {first limit : ℕ} {claimed reached : ℕ → Bool}
    {plan : Numbering ℕ ℕ ShaderBuffer} (h : planGfxBuffers program first claimed limit reached = some plan) :
    ∀ i e, plan.entries[i]? = some e → e.binding = first + i := by
  have huse : ∀ (loads : List (Overlay ℕ)) inst r, gfxDemand claimed loads inst = .use r →
      (∀ b, (r.entry b).binding = b) ∧ ∀ e, (r.merge e).binding = e.binding := by
    intro loads inst r hdemand
    unfold gfxDemand at hdemand
    split at hdemand
    · cases hdemand
      exact ⟨fun _ => rfl, fun _ => rfl⟩
    · cases hdemand
  exact Planner.numbered ShaderBuffer.binding (fun v inst r hr => (huse v inst r hr).1)
    (fun v inst r hr => (huse v inst r hr).2) h

theorem numbered_planCsResources {program : Program} {reached : ℕ → Bool} {lds : ℕ} {plan : CsPlan}
    (h : planCsResources program reached lds = some plan) :
    ∀ (i : ℕ) (e : CsResource), plan.resources.entries[i]? = some e → e.binding = i := by
  obtain ⟨resources, hresources, rfl⟩ := Option.map_eq_some_iff.mp h
  have huse : ∀ (loads : List (Overlay ℕ)) inst r, csDemand lds loads inst = .use r →
      (∀ b, (r.entry b).binding = b) ∧ ∀ e, (r.merge e).binding = e.binding := by
    intro loads inst r hdemand
    obtain ⟨_, _, _, _, _, _, _, _, _, hresource⟩ := csDemand_resource hdemand
    cases hresource
    exact ⟨fun _ => rfl, fun _ => rfl⟩
  intro i e he
  rw [← Nat.zero_add i]
  exact Planner.numbered CsResource.binding (fun v inst r hr => (huse v inst r hr).1)
    (fun v inst r hr => (huse v inst r hr).2) hresources i e he

variable {isa : ScalarIsa} {guest : ℕ → ScalarMemory} {codeBase : ℕ} {program : Program}
  {reached : ℕ → Bool} {st : ℕ → ScalarState}

end Planners

/-! ## Two loads through one descriptor -/

theorem ScalarIsa.Step.idle {isa : ScalarIsa} {guest : ScalarMemory} {codeBase : ℕ} {inst : Inst}
    (hwrites : (namedWrites inst).2 = 0) (hlane : isWritelane inst = false) (s : ScalarState) :
    isa.Step guest codeBase inst s s where
  kept _ _ := rfl
  result i v hi := absurd hi (by rw [hwrites]; exact Nat.not_lt_zero i)
  keptLanes _ _ _ _ := rfl
  writelane h := absurd (hlane.symm.trans h) Bool.false_ne_true

/-- `buffer_load_dword v0, off, s[4:7], 0` at a pc. -/
def bufferLoadInst (pc : ℕ) : Inst :=
  ⟨.kBase, .kMubuf, 0x0c, 0xE0300000, 0x80010000, 2, pc, false, 0, .kNone⟩

def endInst (pc : ℕ) : Inst := ⟨.kBase, .kSopp, 1, 0xBF810000, 0, 1, pc, false, 0, .kNone⟩

def twoLoadsCode : Code := fun d => [0xE0300000, 0x80010000, 0xE0300000, 0x80010000, 0xBF810000].getD d 0

def twoLoads : Program := [bufferLoadInst 0, bufferLoadInst 2, endInst 4]

theorem twoLoads_eq : twoLoads = decodeShader (fun _ => true) twoLoadsCode 5 .kBase := by
  decide +kernel

theorem writes_bufferLoad {pc r : ℕ} {s : ScalarState} : ¬sgprWrites (bufferLoadInst pc) s r := by
  rintro (h | ⟨hle, hlt⟩)
  · simp [implicitWrites, usesBranchStack, writesExec, writesVcc, bufferLoadInst] at h
  · exact absurd hlt (Nat.not_lt.mpr hle)

/-- `s_mov_b32 s4, s8` at a pc. -/
def descriptorMove (pc : ℕ) : Inst := ⟨.kBase, .kSop1, 0x03, 0xBE840308, 0, 1, pc, false, 0, .kNone⟩

def movedCode : Code :=
  fun d => [0xE0300000, 0x80010000, 0xBE840308, 0xE0300000, 0x80010000, 0xBF810000].getD d 0

def movedLoads : Program := [bufferLoadInst 0, descriptorMove 2, bufferLoadInst 3, endInst 5]

def movedRegs (k : ℕ) : ScalarState :=
  if 2 ≤ k then ⟨fun r => if r = 4 then 8 else .ofNat r, fun _ _ => 0⟩ else ⟨UInt32.ofNat, fun _ _ => 0⟩

theorem step_descriptorMove : plainIsa.Step ⟨fun _ _ => false, fun _ => 0⟩ 0 (descriptorMove 2) (movedRegs 1)
    (movedRegs 2) := by
  refine ⟨?_, ?_, fun _ _ _ _ => rfl, fun h => nomatch h⟩
  · intro r hr
    refine if_neg fun heq => hr (.inr ?_)
    rw [heq]
    decide
  · intro i v hi _ hv
    obtain rfl : i = 0 := Nat.lt_one_iff.mp hi
    exact Option.some.inj hv

end Prosperity.Gcn
