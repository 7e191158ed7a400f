import Prosperity.Rdna.BindingPlans
import Prosperity.Rdna.ScalarEvalSound

/-!
# What the RDNA binding plans tell apart

Along a run of a straight-line program, instructions with one binding read the same descriptor, as far as
the planner notices the writes of its registers: here for the resources of compute and the buffers of draws.
-/

namespace Prosperity.Rdna

open Gcn (Enc ScalarMemory)

/-! ## Runs -/

section Drop

variable {α : Type*} {xs rest : List α} {x : α} {k : ℕ}

theorem head_of_drop (h : xs.drop k = x :: rest) : xs[k]? = some x := by
  have hhead : (xs.drop k)[0]? = xs[k + 0]? := List.getElem?_drop
  rw [h] at hhead
  exact hhead.symm

theorem tail_of_drop (h : xs.drop k = x :: rest) : xs.drop (k + 1) = rest := by
  rw [← List.drop_drop, h]
  rfl

end Drop

/-- The registers `st k` before the instruction `k` of a program that runs from the first instruction to
the last. Memory may change as it runs. -/
structure StraightRun (isa : ScalarIsa) (guest : ℕ → ScalarMemory) (codeAddr : ℕ) (program : Program)
    (st : ℕ → ScalarState) : Prop where
  step : ∀ k inst, program[k]? = some inst → isa.Step (guest k) codeAddr inst (st k) (st (k + 1))

def registerDwords (s : ScalarState) (base n : ℕ) : List UInt32 := (List.range n).map fun i => s.read (base + i)

theorem registerDwords_eq {s s' : ScalarState} {base base' n : ℕ}
    (h : ∀ i < n, s.read (base + i) = s'.read (base' + i)) : registerDwords s base n = registerDwords s' base' n :=
  List.map_congr_left fun i hi => h i (List.mem_range.mp hi)

section Runs

variable {isa : ScalarIsa} {guest : ℕ → ScalarMemory} {codeAddr : ℕ} {program : Program}
  {st : ℕ → ScalarState} {u v r : ℕ}

theorem StraightRun.kept (hrun : StraightRun isa guest codeAddr program st) (huv : u ≤ v) (hv : v ≤ program.length)
    (h : ∀ j inst, u ≤ j → j < v → program[j]? = some inst → ¬mayWrite inst (st j) r) :
    (st u).read r = (st v).read r := by
  have hsgpr : (st u).sgpr r = (st v).sgpr r := by
    refine eq_of_unwritten (fun k => (st k).sgpr r) huv fun j hj hlt => ?_
    have hget := List.getElem?_eq_getElem (Nat.lt_of_lt_of_le hlt hv)
    exact (hrun.step j _ hget).kept r (h j _ hj hlt hget)
  unfold ScalarState.read
  rw [hsgpr]

end Runs

/-! ## What the planners do not see -/

section Told

variable {isa : ScalarIsa} {guest : ℕ → ScalarMemory} {codeAddr : ℕ} {program : Program}
  {st : ℕ → ScalarState} {u v base n : ℕ}

/-- The instructions from `u` up to `v` write none of the registers. -/
def Unwritten (program : Program) (st : ℕ → ScalarState) (u v base n : ℕ) : Prop :=
  ∀ j inst r, u ≤ j → j < v → program[j]? = some inst → base ≤ r → r < base + n → ¬mayWrite inst (st j) r

/-- If a planner sees no write of the registers from `u` up to `v`, there is none. -/
def Told (program : Program) (st : ℕ → ScalarState) (seen : ℕ → ℕ → Bool) (u v base n : ℕ) : Prop :=
  (∀ j r, u ≤ j → j < v → base ≤ r → r < base + n → seen j r = false) → Unwritten program st u v base n

theorem StraightRun.unwritten (hrun : StraightRun isa guest codeAddr program st) (huv : u ≤ v)
    (hv : v ≤ program.length) (h : Unwritten program st u v base n) {i : ℕ} (hi : i < n) :
    (st u).read (base + i) = (st v).read (base + i) :=
  hrun.kept huv hv fun j inst hj hlt hget =>
    h j inst _ hj hlt hget (Nat.le_add_right _ _) (Nat.add_lt_add_left hi base)

def Unmerged (program : Program) (st : ℕ → ScalarState) (binding : ℕ → Option ℕ) (regs : Inst → ℕ × ℕ) : Prop :=
  ∀ u v a b n, program[u]? = some a → program[v]? = some b → binding a.pc = some n → binding b.pc = some n →
    registerDwords (st u) (regs a).1 (regs a).2 = registerDwords (st v) (regs b).1 (regs b).2

theorem Unmerged.of_lt {binding : ℕ → Option ℕ} {regs : Inst → ℕ × ℕ}
    (h : ∀ u v a b n, u < v → program[u]? = some a → program[v]? = some b → binding a.pc = some n →
      binding b.pc = some n →
      registerDwords (st u) (regs a).1 (regs a).2 = registerDwords (st v) (regs b).1 (regs b).2) :
    Unmerged program st binding regs := by
  intro u v a b n ha hb hna hnb
  rcases Nat.lt_trichotomy u v with hlt | rfl | hgt
  · exact h u v a b n hlt ha hb hna hnb
  · obtain rfl := Option.some.inj (ha.symm.trans hb)
    rfl
  · exact (h v u b a n hgt hb ha hnb hna).symm

end Told

section Pcs

variable {P : ListedProgram} {u v : ℕ} {a b : Inst}

theorem ListedProgram.index_eq (ha : P.insts[u]? = some a) (hb : P.insts[v]? = some b) (hpc : a.pc = b.pc) : u = v := by
  obtain ⟨hu, rfl⟩ := List.getElem?_eq_some_iff.mp ha
  obtain ⟨hv, rfl⟩ := List.getElem?_eq_some_iff.mp hb
  have hapart := List.pairwise_iff_getElem.mp P.apart
  have hua := P.size_pos _ (List.getElem_mem hu)
  have hva := P.size_pos _ (List.getElem_mem hv)
  rcases Nat.lt_trichotomy u v with hlt | heq | hgt
  · have := hapart u v hu hv hlt
    omega
  · exact heq
  · have := hapart v u hv hu hgt
    omega

end Pcs

/-! ## Compute resources -/

section Resources

variable {P : ListedProgram} {ldsDwords userSgpr : ℕ} {lost : ℕ → ℕ → ℕ → Bool}

def kindDwords (kind : ℕ) : ℕ := if kind = 1 then 8 else if kind = 2 then 2 else 4

/-- **The kind of a use tells how many registers it names.** -/
theorem resourceUse_dwords {inst : Inst} {use : ResourceUse} (h : resourceUse ldsDwords inst = some (some use)) :
    use.dwords = kindDwords use.kind := by
  unfold resourceUse at h
  dsimp only at h
  split at h
  · split at h
    · cases h
    · obtain rfl := Option.some.inj (Option.some.inj h)
      dsimp only
      split <;> rfl
  · split at h
    · cases h
    · obtain rfl := Option.some.inj (Option.some.inj h)
      rfl
  · split at h
    · cases h
    · obtain rfl := Option.some.inj (Option.some.inj h)
      rfl
  · split at h
    · cases h
    · split at h <;> cases h
  · split at h
    · split at h
      · obtain rfl := Option.some.inj (Option.some.inj h)
        rfl
      · cases h
    · split at h
      · cases h
      · split at h
        · cases h
        · obtain rfl := Option.some.inj (Option.some.inj h)
          rfl
  · split at h
    · cases h
    · obtain rfl := Option.some.inj (Option.some.inj h)
      rfl
  · cases h

theorem kindDwords_le (kind : ℕ) : kindDwords kind ≤ 8 := by
  unfold kindDwords
  split_ifs <;> decide

theorem resourceKey_inj {program : Program} {u v : ℕ} {a b : Inst} {use use' : ResourceUse}
    (huse : resourceUse ldsDwords a = some (some use))
    (huse' : resourceUse ldsDwords b = some (some use')) (h : resourceKey program u use = resourceKey program v use') :
    use.baseSgpr = use'.baseSgpr ∧ use.dwords = use'.dwords ∧
      ∀ i < use.dwords, resourceVersion program u (use.baseSgpr + i) = resourceVersion program v (use.baseSgpr + i) := by
  obtain ⟨hbase, hkind, hversions⟩ := ResourceKey.mk.inj h
  have hdwords : use.dwords = use'.dwords := by
    rw [resourceUse_dwords huse, resourceUse_dwords huse', hkind]
  refine ⟨hbase, hdwords, fun i hi => ?_⟩
  have height : i < 8 := Nat.lt_of_lt_of_le hi (resourceUse_dwords huse ▸ kindDwords_le _)
  have hstamp := List.map_inj_left.mp hversions i (List.mem_range.mpr height)
  rwa [if_pos hi, if_pos (hdwords ▸ hi), ← hbase] at hstamp

/-- What `PlanResources` has made of the first `k` instructions. -/
structure ResourceInv (program : Program) (ldsDwords k : ℕ) (plan : ResourcePlan) : Prop where
  sized : plan.keys.length = plan.resources.length
  keyed : ∀ u inst i, u < k → program[u]? = some inst → plan.bind inst.pc = some i →
    ∃ use, resourceUse ldsDwords inst = some (some use) ∧ use.baseSgpr + use.dwords ≤ 136 ∧
      plan.keys[i]? = some (resourceKey program u use)
  closed : ∀ pc i, plan.bind pc = some i → ∃ u inst, u < k ∧ program[u]? = some inst ∧ inst.pc = pc

theorem planResource_cases {program : Program} {k pc : ℕ} {use : ResourceUse} {plan plan' : ResourcePlan}
    (hsized : plan.keys.length = plan.resources.length)
    (h : planResource program userSgpr lost k pc use plan = some plan') :
    use.baseSgpr + use.dwords ≤ 136 ∧ plan'.keys.length = plan'.resources.length ∧
      ∃ i, plan'.bind = Function.update plan.bind pc (some i) ∧ plan'.keys[i]? = some (resourceKey program k use) ∧
        ∀ (j : ℕ) (key : ResourceKey), plan.keys[j]? = some key → plan'.keys[j]? = some key := by
  unfold planResource at h
  dsimp only at h
  split at h
  · cases h
  · rename_i hfit
    split at h
    · cases h
    · split at h
      · rename_i hlt
        obtain rfl := Option.some.inj h
        refine ⟨by omega, by simpa using hsized, _, rfl, ?_, fun j key hj => hj⟩
        rw [List.getElem?_eq_getElem hlt, List.getElem_idxOf hlt]
      · split at h
        · cases h
        · obtain rfl := Option.some.inj h
          refine ⟨by omega, by simpa using hsized, _, rfl, ?_, fun j key hj => ?_⟩
          · rw [← hsized]
            simp
          · rw [List.getElem?_append_left (List.getElem?_eq_some_iff.mp hj).1]
            exact hj

theorem resourceLoop_cons {program : Program} (k : ℕ) (inst : Inst) (rest : Program) (plan : ResourcePlan) :
    resourceLoop program ldsDwords userSgpr lost k (inst :: rest) plan =
      (resourceLoop program ldsDwords userSgpr lost k [inst] plan).bind
        (resourceLoop program ldsDwords userSgpr lost (k + 1) rest) := by
  simp only [resourceLoop]
  cases resourceUse ldsDwords inst with
  | none => rfl
  | some asked =>
    cases asked with
    | none => rfl
    | some use =>
      rw [Option.bind_assoc]
      rfl

theorem ResourceInv.step {k : ℕ} {inst : Inst} {plan plan' : ResourcePlan} (hget : P.insts[k]? = some inst)
    (hinv : ResourceInv P.insts ldsDwords k plan)
    (h : resourceLoop P.insts ldsDwords userSgpr lost k [inst] plan = some plan') :
    ResourceInv P.insts ldsDwords (k + 1) plan' := by
  unfold resourceLoop at h
  split at h
  · cases h
  · rename_i huse
    obtain rfl := Option.some.inj h
    -- no resource: the pc of the instruction has no binding
    refine ⟨hinv.sized, fun u a i hu ha hbind => ?_, fun pc i hbind => ?_⟩
    · rcases Nat.lt_or_eq_of_le (Nat.le_of_lt_succ hu) with hlt | rfl
      · exact hinv.keyed u a i hlt ha hbind
      · obtain ⟨w, b, hw, hb, hpc⟩ := hinv.closed _ _ hbind
        have := P.index_eq hb ha hpc
        omega
    · obtain ⟨u, a, hu, ha, hpc⟩ := hinv.closed pc i hbind
      exact ⟨u, a, Nat.lt_succ_of_lt hu, ha, hpc⟩
  · rename_i use huse
    obtain ⟨m, hplan, hend⟩ := Option.bind_eq_some_iff.mp h
    obtain rfl := Option.some.inj hend
    obtain ⟨hfit, hsized, i, hbind, hkey, hkeys⟩ := planResource_cases hinv.sized hplan
    refine ⟨hsized, fun u a i' hu ha hb => ?_, fun pc i' hb => ?_⟩
    · rw [hbind] at hb
      by_cases hpc : a.pc = inst.pc
      · obtain rfl := P.index_eq ha hget hpc
        obtain rfl := Option.some.inj (ha.symm.trans hget)
        rw [Function.update_self] at hb
        obtain rfl := Option.some.inj hb
        exact ⟨use, huse, hfit, hkey⟩
      · rw [Function.update_of_ne hpc] at hb
        have hu' : u ≠ k := fun heq => hpc (by subst heq; rw [Option.some.inj (ha.symm.trans hget)])
        obtain ⟨use', huse', hfit', hkey'⟩ := hinv.keyed u a i' (by omega) ha hb
        exact ⟨use', huse', hfit', hkeys _ _ hkey'⟩
    · rw [hbind] at hb
      by_cases hpc : pc = inst.pc
      · exact ⟨k, inst, Nat.lt_succ_self k, hget, hpc.symm⟩
      · rw [Function.update_of_ne hpc] at hb
        obtain ⟨u, a, hu, ha, hpc'⟩ := hinv.closed pc i' hb
        exact ⟨u, a, Nat.lt_succ_of_lt hu, ha, hpc'⟩

theorem resourceLoop_keeps {Inv : ℕ → ResourcePlan → Prop}
    (hstep : ∀ k inst plan plan', P.insts[k]? = some inst → Inv k plan →
      resourceLoop P.insts ldsDwords userSgpr lost k [inst] plan = some plan' → Inv (k + 1) plan')
    {k : ℕ} {rest : Program} {plan plan' : ResourcePlan} (hrest : P.insts.drop k = rest) (hinv : Inv k plan)
    (h : resourceLoop P.insts ldsDwords userSgpr lost k rest plan = some plan') : Inv (k + rest.length) plan' := by
  induction rest generalizing k plan with
  | nil =>
    obtain rfl := Option.some.inj h
    exact hinv
  | cons inst rest ih =>
    rw [resourceLoop_cons] at h
    obtain ⟨m, hturn, hloop⟩ := Option.bind_eq_some_iff.mp h
    have hend := ih (tail_of_drop hrest) (hstep k inst plan m (head_of_drop hrest) hinv hturn) hloop
    have hlen : k + (inst :: rest).length = k + 1 + rest.length := by
      rw [List.length_cons]
      omega
    rwa [hlen]

/-- **What the resources of a plan are made of.** -/
theorem planResources_inv {plan : ResourcePlan} (h : planResources P.insts ldsDwords userSgpr lost = some plan) :
    ResourceInv P.insts ldsDwords P.insts.length plan := by
  have hinv : ResourceInv P.insts ldsDwords 0 {} := ⟨rfl, fun u _ _ hu => by omega, fun _ _ hb => by cases hb⟩
  have hrun : resourceLoop P.insts ldsDwords userSgpr lost 0 P.insts {} = some plan := h
  have hend : ResourceInv P.insts ldsDwords (0 + P.insts.length) plan :=
    resourceLoop_keeps (fun _ _ _ _ hget hkept hturn => hkept.step hget hturn) rfl hinv hrun
  rwa [Nat.zero_add] at hend

def resourceRegs (ldsDwords : ℕ) (inst : Inst) : ℕ × ℕ :=
  match resourceUse ldsDwords inst with
  | some (some use) => (use.baseSgpr, use.dwords)
  | _ => (0, 0)

/-- `PossibleScalarWrites` has the writes between instructions that name the same registers. -/
def ResourcesTold (program : Program) (st : ℕ → ScalarState) (ldsDwords : ℕ) : Prop :=
  ∀ u v a b, u < v → program[u]? = some a → program[v]? = some b → resourceRegs ldsDwords a = resourceRegs ldsDwords b →
    Told program st (possibleWrite program) u v (resourceRegs ldsDwords a).1 (resourceRegs ldsDwords a).2

/-- **Resources of one number have the same descriptor.** -/
theorem planResources_unmerged {isa : ScalarIsa} {guest : ℕ → ScalarMemory} {codeAddr : ℕ}
    {st : ℕ → ScalarState} (hrun : StraightRun isa guest codeAddr P.insts st)
    (htold : ResourcesTold P.insts st ldsDwords) {plan : ResourcePlan}
    (h : planResources P.insts ldsDwords userSgpr lost = some plan) :
    Unmerged P.insts st plan.bind (resourceRegs ldsDwords) := by
  have hinv := planResources_inv h
  refine .of_lt fun u v a b n huv ha hb hna hnb => ?_
  have hv := (List.getElem?_eq_some_iff.mp hb).1
  obtain ⟨use, huse, -, hkey⟩ := hinv.keyed u a n (Nat.lt_trans huv hv) ha hna
  obtain ⟨use', huse', -, hkey'⟩ := hinv.keyed v b n hv hb hnb
  have hkeys : resourceKey P.insts u use = resourceKey P.insts v use' :=
    Option.some.inj (hkey.symm.trans hkey')
  obtain ⟨hbase, hdwords, hversions⟩ := resourceKey_inj huse huse' hkeys
  have hregs : resourceRegs ldsDwords a = (use.baseSgpr, use.dwords) := by
    unfold resourceRegs
    rw [huse]
  have hregs' : resourceRegs ldsDwords b = (use.baseSgpr, use.dwords) := by
    unfold resourceRegs
    rw [huse', hbase, hdwords]
  -- the same last writes: nothing is seen between
  have hunseen : ∀ j r, u ≤ j → j < v → use.baseSgpr ≤ r → r < use.baseSgpr + use.dwords →
      possibleWrite P.insts j r = false := by
    intro j r hj hlt hle hr
    obtain ⟨i, rfl⟩ := Nat.exists_eq_add_of_le hle
    have hi : i < use.dwords := Nat.lt_of_add_lt_add_left hr
    exact not_written_of_stamp_eq (hversions i hi) hj hlt
  have hunwritten := htold u v a b huv ha hb (hregs.trans hregs'.symm)
  rw [hregs] at hunwritten
  rw [hregs, hregs']
  exact registerDwords_eq fun i hi =>
    hrun.unwritten (Nat.le_of_lt huv) (Nat.le_of_lt hv) (hunwritten hunseen) hi

end Resources

/-! ## Graphics buffers -/

section GfxBuffers

variable {P : ListedProgram} {first maxBuffers : ℕ} {claimed : ℕ → Bool}

/-- No instruction behind `c` up to `k` is seen to write the registers of an entry. -/
def Clean (program : Program) (srsrc c k : ℕ) : Prop :=
  ∀ j inst, c < j → j ≤ k → program[j]? = some inst → gfxOverwritten inst srsrc = false

def MadeAt (program : Program) (claimed : ℕ → Bool) (plan : GfxPlan) (first binding srsrc c : ℕ) : Prop :=
  first ≤ binding ∧ ∃ inst, program[c]? = some inst ∧ gfxSrsrc claimed inst = some srsrc ∧
    plan.buffers[binding - first]? = some ⟨binding, srsrc, inst.pc⟩

/-- What `RdnaPlanGfxBuffers` has made of the first `k` instructions. -/
structure GfxInv (program : Program) (first : ℕ) (claimed : ℕ → Bool) (k : ℕ) (plan : GfxPlan) : Prop where
  live : ∀ srsrc binding, plan.bySrsrc srsrc = some binding →
    ∃ c, c < k ∧ MadeAt program claimed plan first binding srsrc c ∧ ∀ j inst, c < j → j < k →
      program[j]? = some inst → gfxOverwritten inst srsrc = false
  used : ∀ u inst binding, u < k → program[u]? = some inst → plan.bindings inst.pc = some binding →
    ∃ srsrc c, gfxSrsrc claimed inst = some srsrc ∧ c ≤ u ∧ MadeAt program claimed plan first binding srsrc c ∧
      Clean program srsrc c u
  closed : ∀ pc binding, plan.bindings pc = some binding → ∃ u inst, u < k ∧ program[u]? = some inst ∧ inst.pc = pc

theorem MadeAt.mono {program : Program} {plan plan' : GfxPlan} {binding srsrc c : ℕ}
    (h : MadeAt program claimed plan first binding srsrc c)
    (hbuffers : ∀ (i : ℕ) (b : ShaderBuffer), plan.buffers[i]? = some b → plan'.buffers[i]? = some b) :
    MadeAt program claimed plan' first binding srsrc c :=
  ⟨h.1, h.2.imp fun _ hmade => ⟨hmade.1, hmade.2.1, hbuffers _ _ hmade.2.2⟩⟩

theorem gfxTurn_cases (plan : GfxPlan) (inst : Inst) :
    ((gfxTurn first maxBuffers claimed plan inst).bindings = plan.bindings ∧
      (gfxTurn first maxBuffers claimed plan inst).buffers = plan.buffers ∧
      (gfxTurn first maxBuffers claimed plan inst).bySrsrc =
        fun srsrc => (plan.bySrsrc srsrc).filter fun _ => !gfxOverwritten inst srsrc) ∨
    (∃ srsrc binding, gfxSrsrc claimed inst = some srsrc ∧ plan.bySrsrc srsrc = some binding ∧
      gfxOverwritten inst srsrc = false ∧ gfxTurn first maxBuffers claimed plan inst =
        ⟨fun srsrc => (plan.bySrsrc srsrc).filter fun _ => !gfxOverwritten inst srsrc, plan.buffers,
          Function.update plan.bindings inst.pc (some binding)⟩) ∨
    (∃ srsrc, gfxSrsrc claimed inst = some srsrc ∧ gfxTurn first maxBuffers claimed plan inst =
        ⟨Function.update (fun srsrc => (plan.bySrsrc srsrc).filter fun _ => !gfxOverwritten inst srsrc) srsrc
            (some (first + plan.buffers.length)), plan.buffers ++ [⟨first + plan.buffers.length, srsrc, inst.pc⟩],
          Function.update plan.bindings inst.pc (some (first + plan.buffers.length))⟩) := by
  unfold gfxTurn
  dsimp only
  cases hsrsrc : gfxSrsrc claimed inst with
  | none => exact .inl ⟨rfl, rfl, rfl⟩
  | some srsrc =>
    dsimp only
    cases hfound : (plan.bySrsrc srsrc).filter fun _ => !gfxOverwritten inst srsrc with
    | some binding =>
      obtain ⟨hthere, hclean⟩ := Option.filter_eq_some_iff.mp hfound
      exact .inr (.inl ⟨srsrc, binding, rfl, hthere, by simpa using hclean, rfl⟩)
    | none =>
      dsimp only
      split
      · exact .inl ⟨rfl, rfl, rfl⟩
      · exact .inr (.inr ⟨srsrc, rfl, rfl⟩)

theorem GfxInv.live_succ {k : ℕ} {plan : GfxPlan} {inst : Inst} (hinv : GfxInv P.insts first claimed k plan)
    (hget : P.insts[k]? = some inst) {srsrc binding : ℕ}
    (h : ((plan.bySrsrc srsrc).filter fun _ => !gfxOverwritten inst srsrc) = some binding) :
    ∃ c, c < k ∧ MadeAt P.insts claimed plan first binding srsrc c ∧ Clean P.insts srsrc c k := by
  obtain ⟨hthere, hclean⟩ := Option.filter_eq_some_iff.mp h
  obtain ⟨c, hc, hmade, hbefore⟩ := hinv.live srsrc binding hthere
  refine ⟨c, hc, hmade, fun j a hcj hjk ha => ?_⟩
  rcases Nat.lt_or_eq_of_le hjk with hlt | rfl
  · exact hbefore j a hcj hlt ha
  · obtain rfl := Option.some.inj (ha.symm.trans hget)
    simpa using hclean

theorem GfxInv.turn {k : ℕ} {plan : GfxPlan} {inst : Inst} (hinv : GfxInv P.insts first claimed k plan)
    (hget : P.insts[k]? = some inst) :
    GfxInv P.insts first claimed (k + 1) (gfxTurn first maxBuffers claimed plan inst) := by
  have hother : ∀ {u a}, u < k + 1 → P.insts[u]? = some a → a.pc ≠ inst.pc → u < k := fun hu ha hpc => by
    rcases Nat.lt_or_eq_of_le (Nat.le_of_lt_succ hu) with hlt | rfl
    · exact hlt
    · exact absurd (by rw [Option.some.inj (ha.symm.trans hget)]) hpc
  rcases gfxTurn_cases plan inst with ⟨hbindings, hbuffers, hby⟩ | ⟨srsrc, binding, hsrsrc, hthere, hclean, heq⟩ |
    ⟨srsrc, hsrsrc, heq⟩
  · have hmono : ∀ {b s c}, MadeAt P.insts claimed plan first b s c →
        MadeAt P.insts claimed (gfxTurn first maxBuffers claimed plan inst) first b s c := fun h =>
      h.mono fun i b hb => by rw [hbuffers]; exact hb
    refine ⟨fun s b h => ?_, fun u a b hu ha hb => ?_, fun pc b hb => ?_⟩
    · rw [hby] at h
      obtain ⟨c, hc, hmade, hcl⟩ := hinv.live_succ hget h
      exact ⟨c, Nat.lt_succ_of_lt hc, hmono hmade, fun j a hcj hjk ha => hcl j a hcj (Nat.le_of_lt_succ hjk) ha⟩
    · rw [hbindings] at hb
      have hu' : u < k := by
        obtain ⟨w, c, hw, hc, hpc⟩ := hinv.closed _ _ hb
        have := P.index_eq hc ha hpc
        omega
      obtain ⟨s, c, hs, hc, hmade, hcl⟩ := hinv.used u a b hu' ha hb
      exact ⟨s, c, hs, hc, hmono hmade, hcl⟩
    · rw [hbindings] at hb
      obtain ⟨u, a, hu, ha, hpc⟩ := hinv.closed pc b hb
      exact ⟨u, a, Nat.lt_succ_of_lt hu, ha, hpc⟩
  · rw [heq]
    refine ⟨fun s b h => ?_, fun u a b hu ha hb => ?_, fun pc b hb => ?_⟩
    · obtain ⟨c, hc, hmade, hcl⟩ := hinv.live_succ hget h
      exact ⟨c, Nat.lt_succ_of_lt hc, hmade, fun j a hcj hjk ha => hcl j a hcj (Nat.le_of_lt_succ hjk) ha⟩
    · dsimp only at hb
      by_cases hpc : a.pc = inst.pc
      · obtain rfl := P.index_eq ha hget hpc
        obtain rfl := Option.some.inj (ha.symm.trans hget)
        rw [Function.update_self] at hb
        obtain rfl := Option.some.inj hb
        obtain ⟨c, hc, hmade, hcl⟩ := hinv.live_succ hget
          (Option.filter_eq_some_iff.mpr ⟨hthere, by simpa using hclean⟩)
        exact ⟨srsrc, c, hsrsrc, Nat.le_of_lt hc, hmade, hcl⟩
      · rw [Function.update_of_ne hpc] at hb
        exact hinv.used u a b (hother hu ha hpc) ha hb
    · dsimp only at hb
      by_cases hpc : pc = inst.pc
      · exact ⟨k, inst, Nat.lt_succ_self k, hget, hpc.symm⟩
      · rw [Function.update_of_ne hpc] at hb
        obtain ⟨u, a, hu, ha, hpc'⟩ := hinv.closed pc b hb
        exact ⟨u, a, Nat.lt_succ_of_lt hu, ha, hpc'⟩
  · rw [heq]
    have hmono : ∀ {b s c}, MadeAt P.insts claimed plan first b s c → MadeAt P.insts claimed
        ⟨Function.update (fun srsrc => (plan.bySrsrc srsrc).filter fun _ => !gfxOverwritten inst srsrc) srsrc
            (some (first + plan.buffers.length)),
          plan.buffers ++ [⟨first + plan.buffers.length, srsrc, inst.pc⟩],
          Function.update plan.bindings inst.pc (some (first + plan.buffers.length))⟩ first b s c := fun h =>
      h.mono fun i b hb => by
        rw [List.getElem?_append_left (List.getElem?_eq_some_iff.mp hb).1]
        exact hb
    have hown : MadeAt P.insts claimed
        ⟨Function.update (fun srsrc => (plan.bySrsrc srsrc).filter fun _ => !gfxOverwritten inst srsrc) srsrc
            (some (first + plan.buffers.length)),
          plan.buffers ++ [⟨first + plan.buffers.length, srsrc, inst.pc⟩],
          Function.update plan.bindings inst.pc (some (first + plan.buffers.length))⟩ first
        (first + plan.buffers.length) srsrc k :=
      ⟨Nat.le_add_right _ _, inst, hget, hsrsrc, by simp⟩
    refine ⟨fun s b h => ?_, fun u a b hu ha hb => ?_, fun pc b hb => ?_⟩
    · dsimp only at h
      by_cases hs : s = srsrc
      · subst hs
        rw [Function.update_self] at h
        obtain rfl := Option.some.inj h
        exact ⟨k, Nat.lt_succ_self k, hown, fun j a hkj hjk _ => by omega⟩
      · rw [Function.update_of_ne hs] at h
        obtain ⟨c, hc, hmade, hcl⟩ := hinv.live_succ hget h
        exact ⟨c, Nat.lt_succ_of_lt hc, hmono hmade, fun j a hcj hjk ha => hcl j a hcj (Nat.le_of_lt_succ hjk) ha⟩
    · dsimp only at hb
      by_cases hpc : a.pc = inst.pc
      · obtain rfl := P.index_eq ha hget hpc
        obtain rfl := Option.some.inj (ha.symm.trans hget)
        rw [Function.update_self] at hb
        obtain rfl := Option.some.inj hb
        exact ⟨srsrc, u, hsrsrc, Nat.le_refl u, hown, fun j b hlt hle _ => by omega⟩
      · rw [Function.update_of_ne hpc] at hb
        obtain ⟨s, c, hs, hc, hmade, hcl⟩ := hinv.used u a b (hother hu ha hpc) ha hb
        exact ⟨s, c, hs, hc, hmono hmade, hcl⟩
    · dsimp only at hb
      by_cases hpc : pc = inst.pc
      · exact ⟨k, inst, Nat.lt_succ_self k, hget, hpc.symm⟩
      · rw [Function.update_of_ne hpc] at hb
        obtain ⟨u, a, hu, ha, hpc'⟩ := hinv.closed pc b hb
        exact ⟨u, a, Nat.lt_succ_of_lt hu, ha, hpc'⟩

/-- **What the buffers of a draw are made of.** -/
theorem rdnaPlanGfxBuffers_inv (P : ListedProgram) (first maxBuffers : ℕ) (claimed : ℕ → Bool) :
    GfxInv P.insts first claimed P.insts.length (rdnaPlanGfxBuffers P.insts first maxBuffers claimed) := by
  have hinitial : ∀ k ≤ P.insts.length,
      GfxInv P.insts first claimed k ((P.insts.take k).foldl (gfxTurn first maxBuffers claimed) {}) := by
    intro k hk
    induction k with
    | zero =>
      rw [List.take_zero]
      exact ⟨fun _ _ h => (Option.some_ne_none _ h.symm).elim, fun _ _ _ h => absurd h (Nat.not_lt_zero _),
        fun _ _ h => (Option.some_ne_none _ h.symm).elim⟩
    | succ k ih =>
      have hget := List.getElem?_eq_getElem hk
      rw [← List.take_concat_get' _ k hk, List.foldl_append]
      exact (ih (Nat.le_of_lt hk)).turn hget
  have := hinitial P.insts.length (Nat.le_refl _)
  rwa [List.take_length] at this

def bufferRegs (inst : Inst) : ℕ × ℕ := if inst.enc = .kFlat then (inst.saddr, 2) else (inst.srsrc, 4)

theorem gfxRegs_eq {inst : Inst} {srsrc : ℕ} (h : gfxSrsrc claimed inst = some srsrc) :
    gfxRegs srsrc = bufferRegs inst := by
  unfold gfxSrsrc at h
  unfold bufferRegs gfxRegs
  split at h
  · rename_i henc
    rw [if_pos henc]
    split at h
    · obtain rfl := Option.some.inj h
      rw [if_pos (Nat.le_add_right _ _), Nat.add_sub_cancel_left]
    · cases h
  · rename_i henc
    rw [if_neg henc]
    dsimp only at h
    split at h
    · cases h
    · obtain rfl := Option.some.inj h
      have hand : (inst.word1 >>> 16) &&& 0x1F ≤ 0x1F := Nat.and_le_right
      have hlt : inst.srsrc < kFlatBaseTag := by
        change ((inst.word1 >>> 16) &&& 0x1F) * 4 < 0x100
        omega
      rw [if_neg (Nat.not_le.mpr hlt)]

theorem gfxOverwritten_of_gfxSrsrc {inst : Inst} {srsrc : ℕ} (h : gfxSrsrc claimed inst = some srsrc) (other : ℕ) :
    gfxOverwritten inst other = false := by
  have henc : inst.enc = .kFlat ∨ inst.enc = .kMubuf ∨ inst.enc = .kMtbuf := by
    unfold gfxSrsrc at h
    split at h
    · exact .inl ‹_›
    · dsimp only at h
      split at h
      · cases h
      · rename_i hplanned
        by_cases htyped : inst.enc = .kMtbuf
        · exact .inr (.inr htyped)
        · by_cases hbuf : inst.enc = .kMubuf
          · exact .inr (.inl hbuf)
          · simp [htyped, hbuf] at hplanned
  have hranges : possibleScalarRanges inst false = [] := by
    unfold possibleScalarRanges
    rcases henc with henc | henc | henc
    · rw [henc]
    · rw [henc]
    · rw [henc]
  unfold gfxOverwritten
  rw [hranges]
  rfl

/-- `PossibleScalarWrites` has the writes between loads that name the same registers. -/
def BuffersTold (program : Program) (st : ℕ → ScalarState) (claimed : ℕ → Bool) : Prop :=
  ∀ u v a b srsrc, u < v → program[u]? = some a → program[v]? = some b → gfxSrsrc claimed a = some srsrc →
    gfxSrsrc claimed b = some srsrc →
    Told program st (possibleWrite program) u v (gfxRegs srsrc).1 (gfxRegs srsrc).2

theorem possibleWrite_eq_false {program : Program} {j r srsrc : ℕ}
    (h : ∀ inst, program[j]? = some inst → gfxOverwritten inst srsrc = false) (hle : (gfxRegs srsrc).1 ≤ r)
    (hlt : r < (gfxRegs srsrc).1 + (gfxRegs srsrc).2) : possibleWrite program j r = false := by
  by_contra hwrite
  obtain ⟨inst, hget, hin⟩ := (Option.any_eq_true _ _).mp (Bool.not_eq_false _ ▸ hwrite)
  simp only [Bool.and_eq_true, decide_eq_true_eq] at hin
  obtain ⟨-, range, hmem, hfirst, hlast⟩ := hin
  have hover : gfxOverwritten inst srsrc = true := by
    refine List.any_eq_true.mpr ⟨range, hmem, ?_⟩
    simp only [Bool.and_eq_true, decide_eq_true_eq]
    omega
  rw [h inst hget] at hover
  cases hover

/-- **Buffers of one binding have the same descriptor.** -/
theorem rdnaPlanGfxBuffers_unmerged {isa : ScalarIsa} {guest : ℕ → ScalarMemory} {codeAddr : ℕ}
    {st : ℕ → ScalarState} (hrun : StraightRun isa guest codeAddr P.insts st)
    (htold : BuffersTold P.insts st claimed) :
    Unmerged P.insts st (rdnaPlanGfxBuffers P.insts first maxBuffers claimed).bindings bufferRegs := by
  have hinv := rdnaPlanGfxBuffers_inv P first maxBuffers claimed
  intro u v a b n ha hb hna hnb
  have hu := (List.getElem?_eq_some_iff.mp ha).1
  have hv := (List.getElem?_eq_some_iff.mp hb).1
  obtain ⟨srsrc, c, hsrsrc, hcu, ⟨hfirst, maker, hmaker, hmade, hbuffer⟩, hclean⟩ := hinv.used u a n hu ha hna
  obtain ⟨srsrc', c', hsrsrc', hcv, ⟨-, maker', hmaker', -, hbuffer'⟩, hclean'⟩ := hinv.used v b n hv hb hnb
  -- one buffer, made for one instruction
  obtain ⟨-, rfl, hpc⟩ := ShaderBuffer.mk.inj (Option.some.inj (hbuffer.symm.trans hbuffer'))
  obtain rfl := P.index_eq hmaker hmaker' hpc
  -- from there on nothing writes the registers
  have hkept : ∀ {w d}, c ≤ w → P.insts[w]? = some d → gfxSrsrc claimed d = some srsrc → Clean P.insts srsrc c w →
      ∀ i < (gfxRegs srsrc).2, (st c).read ((gfxRegs srsrc).1 + i) = (st w).read ((gfxRegs srsrc).1 + i) := by
    intro w d hcw hd hdsrc hcl i hi
    have hw := (List.getElem?_eq_some_iff.mp hd).1
    rcases Nat.lt_or_eq_of_le hcw with hlt | rfl
    · refine hrun.unwritten hcw (Nat.le_of_lt hw) (htold c w maker d srsrc hlt hmaker hd hmade hdsrc ?_) hi
      intro j r hj hjw hle hr
      rcases Nat.lt_or_eq_of_le hj with hcj | rfl
      · exact possibleWrite_eq_false (fun inst hget => hcl j inst hcj (Nat.le_of_lt hjw) hget) hle hr
      · refine possibleWrite_eq_false (fun inst hget => ?_) hle hr
        obtain rfl := Option.some.inj (hget.symm.trans hmaker)
        exact gfxOverwritten_of_gfxSrsrc hmade _
    · rfl
  rw [← gfxRegs_eq hsrsrc, ← gfxRegs_eq hsrsrc']
  exact registerDwords_eq fun i hi =>
    (hkept hcu ha hsrsrc hclean i hi).symm.trans (hkept hcv hb hsrsrc' hclean' i hi)

end GfxBuffers

end Prosperity.Rdna
