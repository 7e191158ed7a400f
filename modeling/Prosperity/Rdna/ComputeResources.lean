import Prosperity.Rdna.BindingPlansSound
import Prosperity.Rdna.ScalarReplaySound

/-!
# What a compute dispatch binds

`PlanResources` takes a descriptor whose registers nothing before the use writes in program order for the
user data of the dispatch, and asks `LossAt` about any other. A store goes through the descriptor that the
wave holds, if no write behind the use comes back to it round a loop, and if what `LossAt` calls covered is.
-/

namespace Prosperity.Rdna

open Gcn (Enc ScalarMemory)
open Relation (TransGen)

/-! ## The plan -/

/-- The end of `PlanResources`: where a base is resolved on the GPU, the buffers that are read alone are as
well, and where memory is written in that way all are. -/
def ResourcePlan.shareAddresses (plan : ResourcePlan) : ResourcePlan :=
  if plan.resources.any fun res => res.runtimeAddress then
    let writes := plan.resources.any fun res => res.runtimeAddress && res.written
    { plan with
      resources := plan.resources.map fun res =>
        if res.kind ≠ 1 ∧ (res.written = false ∨ writes) then { res with runtimeAddress := true } else res }
  else plan

/-- `PlanResources` -/
def planComputeResources (program : Program) (ldsDwords userSgpr : ℕ) (replay : ScalarReplayPlan) :
    Option ResourcePlan :=
  (planResources program ldsDwords userSgpr fun sgpr dwords use => replay.lossAt sgpr dwords use ≠ .kCovered).map
    ResourcePlan.shareAddresses

/-- `inline_user_data` of a use. -/
def inlineUse (program : Program) (userSgpr k : ℕ) (use : ResourceUse) : Bool :=
  use.baseSgpr + use.dwords ≤ min userSgpr 16 &&
    (List.range use.dwords).all fun i => resourceVersion program k (use.baseSgpr + i) = 0

/-- The dword that the dispatch binds for a register of a resource: the user data, or what the walk up to
`use_pc` knows. -/
def boundDword (guest : ScalarMemory) (codeAddr : ℕ) (start : ScalarEval) (program : Program)
    (user : ℕ → UInt32) (res : CsResource) (r : ℕ) : Option UInt32 :=
  if res.inlineUserData then some (user r)
  else (replayAt guest codeAddr start program (program.findIdx fun inst => inst.pc = res.usePc)).reg r

/-! ## What the plan promises -/

section Plan

variable {P : ListedProgram} {ldsDwords userSgpr : ℕ} {lost : ℕ → ℕ → ℕ → Bool}

def Served (program : Program) (userSgpr : ℕ) (lost : ℕ → ℕ → ℕ → Bool) (k : ℕ) (use : ResourceUse)
    (res : CsResource) : Prop :=
  res.runtimeAddress = false → use.written = true → inlineUse program userSgpr k use = false →
    lost use.baseSgpr use.dwords k = false

structure CsResource.Grows (res res' : CsResource) : Prop where
  usePc : res'.usePc = res.usePc
  inline : res'.inlineUserData = res.inlineUserData
  live : res'.runtimeAddress = false → res.runtimeAddress = false

theorem Served.grow {program : Program} {k : ℕ} {use : ResourceUse} {res res' : CsResource}
    (h : Served program userSgpr lost k use res) (hgrow : res.Grows res') : Served program userSgpr lost k use res' :=
  fun hlive => h (hgrow.live hlive)

def MadeFor (program : Program) (ldsDwords userSgpr k : ℕ) (key : ResourceKey) (res : CsResource) : Prop :=
  ∃ c inst use, c < k ∧ program[c]? = some inst ∧ inst.pc = res.usePc ∧
    resourceUse ldsDwords inst = some (some use) ∧ resourceKey program c use = key ∧
    res.inlineUserData = inlineUse program userSgpr c use

/-- What the resources are, behind the first `k` instructions. -/
structure ServedInv (program : Program) (ldsDwords userSgpr : ℕ) (lost : ℕ → ℕ → ℕ → Bool) (k : ℕ)
    (plan : ResourcePlan) : Prop where
  made : ∀ (i : ℕ) (key : ResourceKey) (res : CsResource), plan.keys[i]? = some key → plan.resources[i]? = some res →
    MadeFor program ldsDwords userSgpr k key res
  served : ∀ u inst i use res, u < k → program[u]? = some inst → plan.bind inst.pc = some i →
    resourceUse ldsDwords inst = some (some use) → plan.resources[i]? = some res →
      Served program userSgpr lost u use res

theorem planResource_served {program : Program} {k pc : ℕ} {use : ResourceUse} {plan plan' : ResourcePlan}
    (hsized : plan.keys.length = plan.resources.length)
    (h : planResource program userSgpr lost k pc use plan = some plan') :
    ∃ i, plan'.bind = Function.update plan.bind pc (some i) ∧
      (∀ res', plan'.resources[i]? = some res' → Served program userSgpr lost k use res') ∧
      ∀ (j : ℕ) (key : ResourceKey) (res' : CsResource), plan'.keys[j]? = some key → plan'.resources[j]? = some res' →
        (∃ res, plan.keys[j]? = some key ∧ plan.resources[j]? = some res ∧ res.Grows res') ∨
          (plan.resources.length ≤ j ∧ key = resourceKey program k use ∧ pc = res'.usePc ∧
            res'.inlineUserData = inlineUse program userSgpr k use) := by
  unfold planResource at h
  dsimp only at h
  change (if _ then none else if ((!inlineUse program userSgpr k use && lost use.baseSgpr use.dwords k) && use.written &&
    decide (use.kind = 1)) = true then none else _) = _ at h
  split at h
  · cases h
  split at h
  · cases h
  rename_i hkept
  -- where it is not taken for the user data, a store of an image is not lost, and any other sets the flag
  have hloss : ∀ live : Bool, (!inlineUse program userSgpr k use && lost use.baseSgpr use.dwords k &&
      decide (use.kind ≠ 1) || live) = false → use.written = true → inlineUse program userSgpr k use = false →
        lost use.baseSgpr use.dwords k = false := by
    intro live hlive hwritten hinline
    rw [hinline, hwritten] at hkept
    rw [hinline] at hlive
    by_contra hlost
    rw [Bool.not_eq_false] at hlost
    by_cases hkind : use.kind = 1
    · exact hkept (by simp [hlost, hkind])
    · simp [hlost, hkind] at hlive
  split at h
  · obtain rfl := Option.some.inj h
    refine ⟨_, rfl, fun res' hres => ?_, fun j key res' hkey hres => .inl ?_⟩
    · rw [List.getElem?_modify_eq] at hres
      obtain ⟨res, -, rfl⟩ := Option.map_eq_some_iff.mp hres
      intro hlive hwritten hinline
      refine hloss use.live ?_ hwritten hinline
      rw [Bool.or_assoc] at hlive
      exact (Bool.or_eq_false_iff.mp hlive).2
    · rw [List.getElem?_modify] at hres
      obtain ⟨res, hold, hnew⟩ := Option.map_eq_some_iff.mp hres
      refine ⟨res, hkey, hold, ?_⟩
      split at hnew
      · subst hnew
        refine ⟨rfl, rfl, fun hlive => ?_⟩
        rw [Bool.or_assoc] at hlive
        exact (Bool.or_eq_false_iff.mp hlive).1
      · subst hnew
        exact ⟨rfl, rfl, id⟩
  · split at h
    · cases h
    · obtain rfl := Option.some.inj h
      refine ⟨_, rfl, fun res' hres => ?_, fun j key res' hkey hres => ?_⟩
      · rw [List.getElem?_concat_length] at hres
        obtain rfl := Option.some.inj hres
        exact hloss use.live
      · rcases Nat.lt_or_ge j plan.resources.length with hlt | hge
        · rw [List.getElem?_append_left hlt] at hres
          rw [List.getElem?_append_left (by omega)] at hkey
          exact .inl ⟨res', hkey, hres, rfl, rfl, id⟩
        · rw [List.getElem?_append_right hge] at hres
          rw [List.getElem?_append_right (by omega)] at hkey
          obtain rfl := List.mem_singleton.mp (List.mem_of_getElem? hres)
          obtain rfl := List.mem_singleton.mp (List.mem_of_getElem? hkey)
          exact .inr ⟨hge, rfl, rfl, rfl⟩

theorem MadeFor.mono {program : Program} {k k' : ℕ} {key : ResourceKey} {res res' : CsResource} (hk : k ≤ k')
    (h : MadeFor program ldsDwords userSgpr k key res) (hgrow : res.Grows res') :
    MadeFor program ldsDwords userSgpr k' key res' := by
  obtain ⟨c, inst, use, hc, hget, hpc, huse, hkey, hinline⟩ := h
  exact ⟨c, inst, use, Nat.lt_of_lt_of_le hc hk, hget, hpc.trans hgrow.usePc.symm, huse, hkey,
    hgrow.inline.trans hinline⟩

theorem ServedInv.step {k : ℕ} {inst : Inst} {plan plan' : ResourcePlan} (hget : P.insts[k]? = some inst)
    (hinv : ResourceInv P.insts ldsDwords k plan) (hserved : ServedInv P.insts ldsDwords userSgpr lost k plan)
    (h : resourceLoop P.insts ldsDwords userSgpr lost k [inst] plan = some plan') :
    ServedInv P.insts ldsDwords userSgpr lost (k + 1) plan' := by
  have hinv' := hinv.step hget h
  unfold resourceLoop at h
  split at h
  · cases h
  · rename_i huse
    obtain rfl := Option.some.inj h
    refine ⟨fun i key res hkey hres => ?_, fun u a i use res hu ha hbind huse' hres => ?_⟩
    · exact (hserved.made i key res hkey hres).mono (Nat.le_succ k) ⟨rfl, rfl, id⟩
    · rcases Nat.lt_or_eq_of_le (Nat.le_of_lt_succ hu) with hlt | rfl
      · exact hserved.served u a i use res hlt ha hbind huse' hres
      · obtain rfl := Option.some.inj (ha.symm.trans hget)
        rw [huse] at huse'
        cases huse'
  · rename_i use huse
    obtain ⟨m, hplan, hend⟩ := Option.bind_eq_some_iff.mp h
    obtain rfl := Option.some.inj hend
    obtain ⟨i, hbind, hown, hothers⟩ := planResource_served hinv.sized hplan
    refine ⟨fun j key res hkey hres => ?_, fun u a j use' res hu ha hb huse' hres => ?_⟩
    · rcases hothers j key res hkey hres with ⟨old, hkey', hold, hgrow⟩ | ⟨-, rfl, hpc, hinline⟩
      · exact (hserved.made j key old hkey' hold).mono (Nat.le_succ k) hgrow
      · exact ⟨k, inst, use, Nat.lt_succ_self k, hget, hpc, huse, rfl, hinline⟩
    · rw [hbind] at hb
      by_cases hpc : a.pc = inst.pc
      · obtain rfl := P.index_eq ha hget hpc
        obtain rfl := Option.some.inj (ha.symm.trans hget)
        rw [Function.update_self] at hb
        obtain rfl := Option.some.inj hb
        obtain rfl := Option.some.inj (Option.some.inj (huse'.symm.trans huse))
        exact hown res hres
      · -- an earlier use has a resource that was there
        rw [Function.update_of_ne hpc] at hb
        have hu' : u ≠ k := fun heq => hpc (by subst heq; rw [Option.some.inj (ha.symm.trans hget)])
        obtain ⟨use₀, -, -, hkey₀⟩ := hinv.keyed u a j (by omega) ha hb
        have hj : j < plan.keys.length := (List.getElem?_eq_some_iff.mp hkey₀).1
        obtain ⟨key, hkey⟩ : ∃ key, m.keys[j]? = some key :=
          ⟨_, List.getElem?_eq_getElem (hinv'.sized ▸ (List.getElem?_eq_some_iff.mp hres).1)⟩
        rcases hothers j key res hkey hres with ⟨old, -, hold, hgrow⟩ | ⟨hge, -⟩
        · exact (hserved.served u a j use' old (by omega) ha hb huse' hold).grow hgrow
        · rw [← hinv.sized] at hge
          omega

/-- **What the resources of a plan promise.** -/
theorem planResources_served {plan : ResourcePlan} (h : planResources P.insts ldsDwords userSgpr lost = some plan) :
    ServedInv P.insts ldsDwords userSgpr lost P.insts.length plan := by
  have hinv : ResourceInv P.insts ldsDwords 0 {} := ⟨rfl, fun u _ _ hu => by omega, fun _ _ hb => by cases hb⟩
  have hserved : ServedInv P.insts ldsDwords userSgpr lost 0 {} :=
    ⟨fun i _ _ hkey => absurd hkey (by simp), fun u _ _ _ _ hu => by omega⟩
  have hrun : resourceLoop P.insts ldsDwords userSgpr lost 0 P.insts {} = some plan := h
  have hend : ResourceInv P.insts ldsDwords (0 + P.insts.length) plan ∧
      ServedInv P.insts ldsDwords userSgpr lost (0 + P.insts.length) plan :=
    @resourceLoop_keeps P ldsDwords userSgpr lost
      (fun k plan => ResourceInv P.insts ldsDwords k plan ∧ ServedInv P.insts ldsDwords userSgpr lost k plan)
      (fun _ _ _ _ hget hkept hturn => ⟨hkept.1.step hget hturn, hkept.2.step hget hkept.1 hturn⟩) 0
      P.insts {} plan rfl ⟨hinv, hserved⟩ hrun
  rw [Nat.zero_add] at hend
  exact hend.2

end Plan

/-! ## Runs -/

/-- A run of `n` steps, with the memory that each step finds. -/
structure MemoryRun (isa : ScalarIsa) (mem : ℕ → ScalarMemory) (codeAddr : ℕ) (program : Program) (n : ℕ)
    (at_ : ℕ → ℕ) (st : ℕ → ScalarState) : Prop where
  start : at_ 0 = 0
  step : ∀ t < n, ∃ inst, program[at_ t]? = some inst ∧ isa.Step (mem t) codeAddr inst (st t) (st (t + 1)) ∧
    Follows program (at_ t) (at_ (t + 1))

def LoadsKept (mem : ℕ → ScalarMemory) (program : Program) (n : ℕ) (at_ : ℕ → ℕ) (st : ℕ → ScalarState) : Prop :=
  ∀ t < n, ∀ inst, program[at_ t]? = some inst → inst.enc = .kSmrd → smemLoadCount inst.opcode ≠ 0 →
    ∀ i, loadResult (mem t) inst (st t) i = loadResult (mem 0) inst (st t) i

/-- A register keeps its user data up to a use: `PossibleScalarWrites` has its writes, and from none that stands at
the use or behind it the control comes back to the use. -/
structure KeptUserData (program : Program) (n : ℕ) (at_ : ℕ → ℕ) (st : ℕ → ScalarState) (r u : ℕ) : Prop where
  noticed : NoticedAlong program n at_ st r
  noReturn : ∀ j inst, u ≤ j → program[j]? = some inst → InRange inst r → ¬TransGen (Follows program) j u

section Runs

variable {isa : ScalarIsa} {mem : ℕ → ScalarMemory} {guest guest' : ScalarMemory} {codeAddr n t T r : ℕ}
  {program : Program} {at_ : ℕ → ℕ} {st : ℕ → ScalarState} {inst : Inst} {s : ScalarState}

theorem scalarResult_guest (h : inst.enc = .kSmrd → smemLoadCount inst.opcode ≠ 0 →
    ∀ i, loadResult guest inst s i = loadResult guest' inst s i) (i : ℕ) :
    scalarResult isa guest codeAddr inst s i = scalarResult isa guest' codeAddr inst s i := by
  unfold scalarResult
  cases henc : inst.enc
  case kSmrd =>
    dsimp only
    by_cases hcount : smemLoadCount inst.opcode ≠ 0
    · rw [if_pos hcount, if_pos hcount, h henc hcount]
    · rw [if_neg hcount, if_neg hcount]
  all_goals rfl

theorem MemoryRun.flowRun (hrun : MemoryRun isa mem codeAddr program n at_ st) (hkept : LoadsKept mem program n at_ st) :
    FlowRun isa (mem 0) codeAddr program n at_ st := by
  refine ⟨hrun.start, fun t ht => ?_⟩
  obtain ⟨inst, hget, hstep, hnext⟩ := hrun.step t ht
  refine ⟨inst, hget, ⟨hstep.kept, fun i v hin himplicit hv => ?_, hstep.keptScc, hstep.resultScc⟩, hnext⟩
  refine hstep.result i v hin himplicit ?_
  rwa [scalarResult_guest (hkept t ht inst hget)]

theorem MemoryRun.path (hrun : MemoryRun isa mem codeAddr program n at_ st) (hlt : t < T) (hT : T ≤ n) :
    TransGen (Follows program) (at_ t) (at_ T) := by
  induction hlt with
  | refl =>
    obtain ⟨-, -, -, hnext⟩ := hrun.step t (by omega)
    exact .single hnext
  | @step m hlt ih =>
    obtain ⟨-, -, -, hnext⟩ := hrun.step m (by omega)
    exact (ih (by omega)).tail hnext

/-- **The user data stays** in a register that nothing writes before the use, in program order, and that no write
comes back to. -/
theorem MemoryRun.keeps (hrun : MemoryRun isa mem codeAddr program n at_ st) (hT : T ≤ n)
    (hfree : resourceVersion program (at_ T) r = 0) (hr : r < 136) (hkept : KeptUserData program n at_ st r (at_ T)) :
    (st T).sgpr r = (st 0).sgpr r := by
  refine (eq_of_unwritten (fun q => (st q).sgpr r) (Nat.zero_le T) fun q _ hq => ?_).symm
  obtain ⟨inst, hget, hstep, -⟩ := hrun.step q (by omega)
  refine hstep.kept r fun hmay => ?_
  have hin := hkept.noticed q (by omega) inst hget hmay
  by_cases hbefore : at_ q < at_ T
  · -- in program order before the use, the planner has seen it
    have hwrite : possibleWrite program (at_ q) r = true := by
      unfold possibleWrite
      rw [hget]
      simp [hr, hin]
    have hstamp := lt_stamp_of_written hbefore hwrite
    unfold resourceVersion at hfree
    omega
  · exact hkept.noReturn (at_ q) inst (by omega) hget hin (hrun.path hq hT)

end Runs

section Stores

variable {P : ListedProgram} {ldsDwords userSgpr u v j r : ℕ} {a b inst : Inst} {use use' : ResourceUse}

theorem stored_le (h : resourceUse ldsDwords inst = some (some use)) (hwritten : use.written = true)
    {plan : ScalarReplayPlan} (hcovered : plan.lossAt use.baseSgpr use.dwords u = .kCovered) :
    use.baseSgpr + use.dwords ≤ 125 := by
  have hquads : use.baseSgpr + use.dwords ≤ 105 ∨ (use.baseSgpr ≤ 124 ∧ 4 ∣ use.baseSgpr + use.dwords) := by
    have hsrsrc : inst.srsrc ≤ 124 ∧ 4 ∣ inst.srsrc := by
      have hfield : (inst.word1 >>> 16) &&& 0x1F ≤ 31 := Nat.and_le_right
      refine ⟨?_, Dvd.intro_left _ rfl⟩
      unfold Inst.srsrc
      omega
    unfold resourceUse at h
    dsimp only at h
    split at h
    · split at h
      · cases h
      · obtain rfl := Option.some.inj (Option.some.inj h)
        cases hwritten
    · split at h
      · cases h
      · obtain rfl := Option.some.inj (Option.some.inj h)
        exact .inr ⟨hsrsrc.1, Nat.dvd_add hsrsrc.2 ⟨1, rfl⟩⟩
    · split at h
      · cases h
      · obtain rfl := Option.some.inj (Option.some.inj h)
        exact .inr ⟨hsrsrc.1, Nat.dvd_add hsrsrc.2 ⟨1, rfl⟩⟩
    · split at h
      · cases h
      · split at h <;> cases h
    · split at h
      · split at h
        · obtain rfl := Option.some.inj (Option.some.inj h)
          cases hwritten
        · cases h
      · split at h
        · cases h
        · split at h
          · cases h
          · obtain rfl := Option.some.inj (Option.some.inj h)
            exact .inr ⟨hsrsrc.1, Nat.dvd_add hsrsrc.2 ⟨2, rfl⟩⟩
    · split at h
      · cases h
      · rename_i hserved
        obtain rfl := Option.some.inj (Option.some.inj h)
        refine .inl ?_
        simp only [Bool.or_eq_true, decide_eq_true_eq, Bool.and_eq_true, not_or, not_and] at hserved
        dsimp only
        split <;> omega
    · cases h
  unfold ScalarReplayPlan.lossAt at hcovered
  split at hcovered
  · cases hcovered
  · split at hcovered
    · cases hcovered
    · rcases hquads with hle | ⟨hbase, hdvd⟩
      · omega
      · omega

theorem inlineUse_congr {program : Program} (hbase : use.baseSgpr = use'.baseSgpr) (hdwords : use.dwords = use'.dwords)
    (hversions : ∀ i < use.dwords,
      resourceVersion program u (use.baseSgpr + i) = resourceVersion program v (use.baseSgpr + i)) :
    inlineUse program userSgpr u use = inlineUse program userSgpr v use' := by
  unfold inlineUse
  rw [← hbase, ← hdwords]
  congr 1
  rw [Bool.eq_iff_iff, List.all_eq_true, List.all_eq_true]
  refine forall₂_congr fun i hi => ?_
  rw [hversions i (List.mem_range.mp hi)]

theorem replayAt_eq_of_version {guest : ScalarMemory} {codeAddr : ℕ} {start : ScalarEval} {program : Program}
    (hr : r < 136) (hu : u ≤ program.length) (hv : v ≤ program.length)
    (h : resourceVersion program u r = resourceVersion program v r) :
    (replayAt guest codeAddr start program u).reg r = (replayAt guest codeAddr start program v).reg r := by
  have hclean : ∀ {u v}, resourceVersion program u r = resourceVersion program v r → ∀ j inst, u ≤ j → j < v →
      program[j]? = some inst → ¬InRange inst r := by
    intro u v h j inst hj hlt hget hin
    have hnone : possibleWrite program j r = false := not_written_of_stamp_eq h hj hlt
    unfold possibleWrite at hnone
    rw [hget] at hnone
    simp [hr, hin] at hnone
  rcases Nat.le_total u v with hle | hle
  · exact (replayAt_keeps hr hle hv (hclean h)).symm
  · exact replayAt_keeps hr hle hu (hclean h.symm)

theorem ListedProgram.findIdx_pc {pc : ℕ} (ha : P.insts[u]? = some a) (hpc : a.pc = pc) :
    (P.insts.findIdx fun inst => inst.pc = pc) = u := by
  obtain ⟨hu, rfl⟩ := List.getElem?_eq_some_iff.mp ha
  refine (List.findIdx_eq hu).mpr ⟨by simpa using hpc, fun j hj => ?_⟩
  have hne : P.insts[j].pc ≠ pc := by
    intro heq
    have := P.index_eq (List.getElem?_eq_getElem (Nat.lt_trans hj hu)) ha (heq.trans hpc.symm)
    omega
  simpa using hne

@[simp] theorem ResourcePlan.shareAddresses_bind (plan : ResourcePlan) : plan.shareAddresses.bind = plan.bind := by
  unfold ResourcePlan.shareAddresses
  dsimp only
  split <;> rfl

theorem ResourcePlan.shareAddresses_grows {plan : ResourcePlan} {i : ℕ} {res' : CsResource}
    (h : plan.shareAddresses.resources[i]? = some res') : ∃ res, plan.resources[i]? = some res ∧ res.Grows res' := by
  unfold ResourcePlan.shareAddresses at h
  dsimp only at h
  split at h
  · rw [List.getElem?_map] at h
    obtain ⟨res, hget, hres⟩ := Option.map_eq_some_iff.mp h
    refine ⟨res, hget, ?_⟩
    split at hres
    · subst hres
      exact ⟨rfl, rfl, fun hlive => by cases hlive⟩
    · subst hres
      exact ⟨rfl, rfl, id⟩
  · exact ⟨res', h, rfl, rfl, id⟩

end Stores

/-! ## Two runs -/

/-- `s_movk_i32 s4, 7`, a store of a dword through `s[0:3]`, and the end. -/
def storeInsts : Program :=
  [⟨.kSopk, 0x00, [0xB0040007], 1, 0, false, 0, .kNone⟩,
    ⟨.kMubuf, 0x1c, [0xE0700000, 0x80000000], 2, 1, false, 0, .kNone⟩,
    ⟨.kSopp, 0x01, [0xBF810000], 1, 3, false, 0, .kNone⟩]

def storeProgram : ListedProgram := ⟨storeInsts, by decide, by simp [storeInsts]⟩

theorem exists_plan {program : Program} {pc : ℕ}
    (h : ((planScalarReplay 8 program).bind fun replay => (planComputeResources program 0 4 replay).bind fun plan =>
      (plan.bind pc).bind fun i => (plan.resources[i]?).map fun res =>
        (res.runtimeAddress, res.inlineUserData)) = some (false, true)) :
    ∃ replay plan i res, planScalarReplay 8 program = some replay ∧
      planComputeResources program 0 4 replay = some plan ∧ plan.bind pc = some i ∧
      plan.resources[i]? = some res ∧ res.runtimeAddress = false ∧ res.inlineUserData = true := by
  obtain ⟨replay, hreplay, h⟩ := Option.bind_eq_some_iff.mp h
  obtain ⟨plan, hplan, h⟩ := Option.bind_eq_some_iff.mp h
  obtain ⟨i, hbind, h⟩ := Option.bind_eq_some_iff.mp h
  obtain ⟨res, hres, h⟩ := Option.map_eq_some_iff.mp h
  exact ⟨replay, plan, i, res, hreplay, hplan, hbind, hres, congrArg Prod.fst h, congrArg Prod.snd h⟩

/-- A store of a dword through `s[0:3]`, `s_movk_i32 s0, 7` and a branch back to the store. -/
def rewrittenInsts : Program :=
  [⟨.kMubuf, 0x1c, [0xE0700000, 0x80000000], 2, 0, false, 0, .kNone⟩,
    ⟨.kSopk, 0x00, [0xB0000007], 1, 2, false, 0, .kNone⟩, ⟨.kSopp, 0x02, [0xBF82FFFC], 1, 3, false, 0, .kNone⟩,
    ⟨.kSopp, 0x01, [0xBF810000], 1, 4, false, 0, .kNone⟩]

def rewrittenProgram : ListedProgram := ⟨rewrittenInsts, by decide, by simp [rewrittenInsts]⟩

end Prosperity.Rdna
