import Prosperity.Rdna.ControlLowering

/-!
# The unscheduled lowerings follow the program

A run of the program is a walk over its blocks. The state machine makes the walk turn by turn. Structured code
makes it construct by construct: whatever merge blocks the analysis has chosen, an emission that succeeds ends
each arm where the program is at the merge, or at the header or the exit of the enclosing loop.
-/

namespace Prosperity.Rdna

universe u v

variable {ρ : Type u} {μ : Type v}

/-! ## The blocks of a run -/

section Blocks

variable {P : ListedProgram} {inst : Inst} {b b' pc : ℕ}

theorem cuts_cfgStarts (P : ListedProgram) : Cuts P.insts (cfgStarts P.insts) where
  sorted := (sorted_sortUnique _).filter _
  lt_maxPc _ hpc := (mem_blockStarts.mp hpc).2
  leaders inst hinst _ hpc hlt := mem_blockStarts.mpr ⟨.inr ⟨inst, hinst, hpc⟩, hlt⟩

/-- The control is in a block: no instruction is between it and the block's first, or lies behind the block's end
but before it. -/
structure Within (program : Program) (b pc : ℕ) : Prop where
  lt : b < cfgExit program
  start_le : ∀ inst ∈ program, pc ≤ inst.pc → cfgStart program b ≤ inst.pc
  le_end : ∀ inst ∈ program, cfgStart program (b + 1) ≤ inst.pc → pc ≤ inst.pc

theorem within_of_samePlace (h : SamePlace P.insts (cfgStart P.insts b) pc) (hb : b < cfgExit P.insts) :
    Within P.insts b pc where
  lt := hb
  start_le inst hinst := (h inst hinst).mpr
  le_end inst hinst hle := by
    have hlt := (cuts_cfgStarts P).startIn_lt (Nat.lt_succ_self b) hb
    exact (h inst hinst).mp (Nat.le_of_lt (Nat.lt_of_lt_of_le hlt hle))

theorem Within.behind (h : Within P.insts b pc) (hinst : inst ∈ P.insts) (hle : pc ≤ inst.pc)
    (hlt : inst.pc < cfgStart P.insts (b + 1)) : Within P.insts b inst.behind where
  lt := h.lt
  start_le i hi hbehind := by
    have hlow := h.start_le inst hinst hle
    unfold Inst.behind at hbehind
    omega
  le_end i hi hend := P.behind_le hinst hi (Nat.lt_of_lt_of_le hlt hend)

theorem Within.samePlace_fall (h : Within P.insts b pc) (hnil : between P.insts pc (cfgStart P.insts (b + 1)) = []) :
    SamePlace P.insts (cfgStart P.insts (cfgFall P.insts b)) pc := by
  have hfall : cfgStart P.insts (cfgFall P.insts b) = cfgStart P.insts (b + 1) := startIn_fallIn
  rw [hfall]
  exact samePlace_of_between_nil hnil h.le_end

theorem fetch_cfgExit (h : SamePlace P.insts (cfgStart P.insts (cfgExit P.insts)) pc) : fetch P.insts pc = none := by
  rw [← h.fetch]
  exact fetch_past (Nat.le_of_eq (startIn_of_le (Nat.le_refl _)).symm)

end Blocks

section Walk

variable (isa : WaveIsa ρ μ Unit) (program : Program)

inductive BlockRun : ℕ → ℕ → WaveRegs ρ × μ → List Inst → ℕ → WaveRegs ρ × μ → Prop
  | refl {b s} : BlockRun 0 b s [] b s
  | step {k b s t b' s'} : b < cfgExit program → BlockRun k (blockNext isa program b (cfgBody program b) s).1
        (blockNext isa program b (cfgBody program b) s).2 t b' s' →
      BlockRun (k + 1) b s (ordinary (cfgBody program b) ++ t) b' s'

def RestRun (b : ℕ) (rest : Program) (s : WaveRegs ρ × μ) (t : List Inst) (s' : WaveRegs ρ × μ) : Prop :=
  ∃ k t', t = ordinary rest ++ t' ∧
    BlockRun isa program k (blockNext isa program b rest s).1 (blockNext isa program b rest s).2 t'
      (cfgExit program) s'

end Walk

section OwnRuns

variable {isa : WaveIsa ρ μ Unit} {P : ListedProgram} {pc b : ℕ} {s s' : WaveRegs ρ × μ} {t : List Inst}
  {meets : Inst → WaveRegs ρ → Prop} {inst : Inst}

theorem OwnRun.of_past (h : OwnRun isa P.insts meets pc s t s') (hpc : fetch P.insts pc = none) : t = [] ∧ s' = s := by
  cases h with
  | past => exact ⟨rfl, rfl⟩
  | stop hfetch | plain hfetch | transfer hfetch =>
    rw [hpc] at hfetch
    cases hfetch

theorem restRun_of_cons (hpast : fetch P.insts pc = none → t = [] ∧ s' = s)
    (hcons : ∀ b, Within P.insts b pc → ∀ inst rest, between P.insts pc (cfgStart P.insts (b + 1)) = inst :: rest →
      RestRun isa P.insts b (inst :: rest) s t s') (hb : Within P.insts b pc) :
    RestRun isa P.insts b (between P.insts pc (cfgStart P.insts (b + 1))) s t s' := by
  -- on the blocks that are left
  induction hn : cfgExit P.insts - b generalizing b with
  | zero =>
    have := hb.lt
    omega
  | succ n ih =>
    cases hbody : between P.insts pc (cfgStart P.insts (b + 1)) with
    | cons inst rest => exact hcons b hb inst rest hbody
    | nil =>
      have hplace := hb.samePlace_fall hbody
      have hlt := hb.lt
      rcases Nat.lt_or_ge (b + 1) (cfgExit P.insts) with hnext | hlast
      · have hfall : cfgFall P.insts b = b + 1 := if_pos hnext
        rw [hfall] at hplace
        obtain ⟨k, t', ht, hrun⟩ := ih (within_of_samePlace hplace hnext) (by omega)
        rw [← hplace.between] at ht hrun
        refine ⟨k + 1, t, rfl, ?_⟩
        change BlockRun isa P.insts (k + 1) (cfgFall P.insts b) s t _ s'
        rw [hfall, ht]
        exact .step hnext hrun
      · have hfall : cfgFall P.insts b = cfgExit P.insts := if_neg (Nat.not_lt.mpr hlast)
        rw [hfall] at hplace
        obtain ⟨rfl, rfl⟩ := hpast (fetch_cfgExit hplace)
        refine ⟨0, [], rfl, ?_⟩
        change BlockRun isa P.insts 0 (cfgFall P.insts b) s' [] _ s'
        rw [hfall]
        exact .refl

theorem blockRun_of_restRun (hpast : fetch P.insts pc = none → t = [] ∧ s' = s)
    (hrest : ∀ b, Within P.insts b pc → RestRun isa P.insts b (between P.insts pc (cfgStart P.insts (b + 1))) s t s')
    (hb : b ≤ cfgExit P.insts) (hplace : SamePlace P.insts (cfgStart P.insts b) pc) :
    ∃ k, BlockRun isa P.insts k b s t (cfgExit P.insts) s' := by
  rcases Nat.lt_or_eq_of_le hb with hlt | rfl
  · obtain ⟨k, t', ht, hrun⟩ := hrest b (within_of_samePlace hplace hlt)
    rw [← hplace.between] at ht hrun
    refine ⟨k + 1, ?_⟩
    rw [ht]
    exact .step hlt hrun
  · obtain ⟨rfl, rfl⟩ := hpast (fetch_cfgExit hplace)
    exact ⟨0, .refl⟩

theorem not_isCall_of_branchKind (h : branchKind inst ≠ .none) : isCall inst = false ∧ isSetpc inst = false := by
  have henc : inst.enc = .kSopp := by
    by_contra henc
    exact h (if_pos henc)
  simp [isCall, isSetpc, henc]

theorem cfgBlock_pc (h : Within P.insts b pc) (hinst : inst ∈ P.insts) (hle : pc ≤ inst.pc)
    (hlt : inst.pc < cfgStart P.insts (b + 1)) : cfgBlock P.insts inst.pc = b :=
  (cuts_cfgStarts P).blockIn_eq h.lt (h.start_le inst hinst hle) hlt

theorem machineRegs_eq {r : WaveRegs ρ} (hblock : cfgBlock P.insts inst.pc = b) (h : Lowered P.insts inst r) :
    machineRegs P.insts b inst r = ownTransferRegs P.insts inst r := by
  unfold machineRegs ownTransferRegs cfgLink
  rw [hblock]
  by_cases hcall : isCall inst = true
  · rw [if_pos hcall, if_pos ⟨hcall, h.2.1 hcall⟩]
  · rw [if_neg hcall, if_neg fun hc => hcall hc.1]

theorem machineState_place (isa : WaveIsa ρ μ Unit) {r : WaveRegs ρ} (hb : Within P.insts b pc) (hinst : inst ∈ P.insts)
    (hle : pc ≤ inst.pc) (hlt : inst.pc < cfgStart P.insts (b + 1)) (h : Lowered P.insts inst r)
    (htransfers : transfers inst = true) (hend : branchKind inst ≠ .endpgm) :
    machineState P.insts b inst r ≤ cfgExit P.insts ∧
      SamePlace P.insts (cfgStart P.insts (machineState P.insts b inst r)) (ownTransferPc isa P.insts inst r) := by
  have hcuts := cuts_cfgStarts P
  have htarget : hasTarget inst = true → cfgBlock P.insts (branchTarget inst) ≤ cfgExit P.insts ∧
      SamePlace P.insts (cfgStart P.insts (cfgBlock P.insts (branchTarget inst))) (branchTarget inst) :=
    fun hhas => ⟨blockIn_le, hcuts.samePlace_target hinst hhas⟩
  have hfall : cfgFall P.insts b ≤ cfgExit P.insts ∧
      SamePlace P.insts (cfgStart P.insts (cfgFall P.insts b)) inst.behind :=
    ⟨fallIn_le, hcuts.samePlace_fall hinst (hb.start_le inst hinst hle) hlt hb.lt htransfers⟩
  unfold machineState ownTransferPc
  by_cases hcall : isCall inst = true
  · rw [if_pos hcall, if_pos hcall]
    exact htarget (by simp [hasTarget, hcall])
  rw [if_neg hcall, if_neg hcall]
  by_cases hsetpc : isSetpc inst = true
  · have hlinked := h.2.2 hsetpc
    rw [if_pos hsetpc, if_pos hsetpc, if_pos hlinked]
    exact ⟨hlinked.2.1, SamePlace.refl _ _⟩
  rw [if_neg hsetpc, if_neg hsetpc]
  have hkind : branchKind inst ≠ .none := by
    simpa [transfers, hcall, hsetpc] using htransfers
  have hhas : hasTarget inst = true := by simp [hasTarget, hkind, hend]
  cases hk : branchKind inst with
  | none => exact absurd hk hkind
  | endpgm => exact absurd hk hend
  | uncond => exact htarget hhas
  | _ =>
    simp only [branchTaken_eq]
    split
    · exact htarget hhas
    · exact hfall

theorem ordinary_of_transfers (rest : Program) (h : transfers inst = true) : ordinary (inst :: rest) = [] := by
  simp [ordinary, h]

theorem blockNext_of_transfers (rest : Program) (h : transfers inst = true) : blockNext isa P.insts b (inst :: rest) s =
      (machineState P.insts b inst s.1, (machineRegs P.insts b inst s.1, s.2)) := by
  simp [blockNext, ordinary, runAll, h]

theorem ordinary_of_plain (rest : Program) (h : transfers inst = false) :
    ordinary (inst :: rest) = inst :: ordinary rest := by
  simp [ordinary, h]

theorem blockNext_of_plain (rest : Program) (h : transfers inst = false) :
    blockNext isa P.insts b (inst :: rest) s = blockNext isa P.insts b rest (isa.effect inst () s) := by
  simp [blockNext, ordinary, runAll, h]

theorem OwnRun.restRun (h : OwnRun isa P.insts (Lowered P.insts) pc s t s') (hb : Within P.insts b pc) :
    RestRun isa P.insts b (between P.insts pc (cfgStart P.insts (b + 1))) s t s' := by
  induction h generalizing b with
  | past hfetch =>
    refine restRun_of_cons (fun _ => ⟨rfl, rfl⟩) (fun b hb inst rest hbody => ?_) hb
    rw [(between_cons hbody).1] at hfetch
    cases hfetch
  | @stop pc s inst hfetch hend =>
    -- an end is no call and no return, so its state is the exit
    refine restRun_of_cons (fun _ => ⟨rfl, rfl⟩) (fun b hb first rest hbody => ?_) hb
    obtain rfl := Option.some.inj ((between_cons hbody).1.symm.trans hfetch)
    have hkind : branchKind first ≠ .none := by simp [hend]
    have htransfers : transfers first = true := by simp [transfers, hkind]
    obtain ⟨hcall, hsetpc⟩ := not_isCall_of_branchKind hkind
    refine ⟨0, [], (ordinary_of_transfers rest htransfers).symm ▸ rfl, ?_⟩
    have hnext : blockNext isa P.insts b (first :: rest) s = (cfgExit P.insts, s) := by
      rw [blockNext_of_transfers rest htransfers]
      simp [machineState, machineRegs, hcall, hsetpc, hend]
    rw [hnext]
    exact .refl
  | @plain pc s inst t s' hfetch hmeets hplain hrun ih =>
    have hall := OwnRun.plain hfetch hmeets hplain hrun
    refine restRun_of_cons hall.of_past (fun b hb first rest hbody => ?_) hb
    obtain ⟨hfirst, hrest⟩ := between_cons hbody
    obtain rfl := Option.some.inj (hfirst.symm.trans hfetch)
    obtain ⟨hmem, hle, hlt⟩ := mem_between.mp (hbody ▸ List.mem_cons_self : first ∈ between P.insts pc _)
    rw [if_neg (by simp [hmeets.1])] at ih
    obtain ⟨k, t', ht, hblocks⟩ := ih (hb.behind hmem hle hlt)
    rw [← hrest] at ht hblocks
    refine ⟨k, t', ?_, ?_⟩
    · rw [ordinary_of_plain rest hplain, ht, List.cons_append]
    · rw [blockNext_of_plain rest hplain]
      exact hblocks
  | @transfer pc s inst t s' hfetch hmeets htransfers hend hrun ih =>
    have hall := OwnRun.transfer hfetch hmeets htransfers hend hrun
    refine restRun_of_cons hall.of_past (fun b hb first rest hbody => ?_) hb
    obtain rfl := Option.some.inj ((between_cons hbody).1.symm.trans hfetch)
    obtain ⟨hmem, hle, hlt⟩ := mem_between.mp (hbody ▸ List.mem_cons_self : first ∈ between P.insts pc _)
    obtain ⟨hstate, hplace⟩ := machineState_place isa hb hmem hle hlt hmeets htransfers hend
    obtain ⟨k, hblocks⟩ := blockRun_of_restRun hrun.of_past (fun _ => ih) hstate hplace
    refine ⟨k, t, (ordinary_of_transfers rest htransfers).symm ▸ rfl, ?_⟩
    rw [blockNext_of_transfers rest htransfers, machineRegs_eq (cfgBlock_pc hb hmem hle hlt) hmeets]
    exact hblocks

/-- **A run of the program is a walk over its blocks.** -/
theorem OwnRun.blockRun (h : OwnRun isa P.insts (Lowered P.insts) 0 s t s') :
    ∃ k, BlockRun isa P.insts k 0 s t (cfgExit P.insts) s' := by
  refine blockRun_of_restRun h.of_past (fun _ => h.restRun) (Nat.zero_le _) fun inst hinst => ?_
  have hzero : 0 ∈ cfgStarts P.insts :=
    mem_blockStarts.mpr ⟨.inl rfl, Nat.lt_of_le_of_lt (Nat.zero_le _) (P.lt_maxPc hinst)⟩
  obtain ⟨hblock, hstart⟩ := (cuts_cfgStarts P).blockIn_start hzero
  have hfirst : cfgStart P.insts 0 = 0 := by
    rcases Nat.eq_zero_or_pos (blockIn P.insts (cfgStarts P.insts) 0) with h0 | hpos
    · rw [h0] at hstart
      exact hstart
    · have hlt := (cuts_cfgStarts P).startIn_lt hpos (Nat.lt_of_le_of_lt (Nat.zero_le _) hblock)
      omega
  simp [hfirst]

end OwnRuns

/-! ## The state machine -/

def Below (cap turns : ℕ) : Prop := cap = 0 ∨ turns ≤ cap

theorem Below.mono {cap turns turns' : ℕ} (h : Below cap turns) (hle : turns' ≤ turns) : Below cap turns' :=
  h.imp_right (Nat.le_trans hle)

theorem Below.not_over {cap turns : ℕ} (h : Below cap turns) : overCap cap turns = false := by
  rcases h with rfl | h
  · rfl
  · simp [overCap, Nat.not_lt.mpr h]

theorem BlockRun.machineRun {isa : WaveIsa ρ μ Unit} {program : Program} {k b : ℕ} {s s' : WaveRegs ρ × μ}
    {t : List Inst} {b' : ℕ} (h : BlockRun isa program k b s t b' s') (hb' : cfgExit program ≤ b') {cap it : ℕ}
    (hcap : Below cap (it + k)) : MachineRun isa program cap it b s t s' := by
  induction h generalizing it with
  | refl => exact .exit hb'
  | step hb _ ih => exact .block (hcap.mono (Nat.le_add_right _ _)).not_over hb (ih hb' (by rwa [Nat.add_right_comm]))

/-! ## The emission -/

section Emission

variable {program : Program} {shape : Shape}

/-- What `emit` makes. The arms of a selection may be emitted up to any merge block. -/
inductive Emits (program : Program) : Bool → ℕ → Option ℕ → Option LoopCtx → ℕ → Emitted → ℕ → Prop
  | done {b loop l} : Emits program false b (some b) loop l .done l
  | cont {ctx stop l} : Emits program false ctx.header stop (some ctx) l (.leave ctx.cont) l
  | brk {ctx stop l} : Emits program false ctx.exit stop (some ctx) l (.leave ctx.brk) l
  | loop {b exit stop loop l body l₁ rest l₂} :
      Emits program true b none (some ⟨b, exit, l + 2, l + 3⟩) (l + 4) body l₁ →
      Emits program false exit stop loop l₁ rest l₂ →
      Emits program false b stop loop l (.loop l (l + 2) (l + 3) body rest) l₂
  | arms {enter b target fall merge stop loop l taken l₁ other l₂} :
      b ≠ cfgExit program → structSucc program b = [target, fall] →
      Emits program false target merge loop (l + 3) taken l₁ → Emits program false fall merge loop l₁ other l₂ →
      taken.falls = false → other.falls = false →
      Emits program enter b stop loop l (.block b (.select (structKind program b) l taken other .unreachable)) l₂
  | select {enter b target fall m stop loop l taken l₁ other l₂ rest l₃} :
      b ≠ cfgExit program → structSucc program b = [target, fall] →
      Emits program false target (some m) loop (l + 3) taken l₁ →
      Emits program false fall (some m) loop l₁ other l₂ → Emits program false m stop loop l₂ rest l₃ →
      Emits program enter b stop loop l (.block b (.select (structKind program b) l taken other rest)) l₃
  | next {enter b next stop loop l rest l₁} :
      b ≠ cfgExit program → structSucc program b = [next] → Emits program false next stop loop l rest l₁ →
      Emits program enter b stop loop l (.block b rest) l₁

theorem structSucc_cases (program : Program) (b : ℕ) :
    (∃ next, structSucc program b = [next]) ∨ ∃ target fall, structSucc program b = [target, fall] := by
  unfold structSucc
  cases (cfgBody program b).find? transfers with
  | none => exact .inl ⟨_, rfl⟩
  | some inst =>
    dsimp only
    split
    · exact .inl ⟨_, rfl⟩
    · split
      · exact .inl ⟨_, rfl⟩
      · exact .inr ⟨_, _, rfl⟩

theorem emits_of_emit (fuel : ℕ) : ∀ {guard : ℕ} {enter : Bool} {b : ℕ} {stop : Option ℕ} {loop : Option LoopCtx}
    {label : ℕ} {code : Emitted} {label' k : ℕ},
    emit program shape fuel guard enter b stop loop label = some (code, label', k) →
    Emits program enter b stop loop label code label' := by
  induction fuel with
  | zero =>
    intro guard enter b stop loop label code label' k h
    cases h
  | succ fuel ih =>
    intro guard enter b stop loop label code label' k h
    rw [emit] at h
    -- the block up to which it is emitted
    split at h
    · rename_i hstop
      simp only [Bool.and_eq_true, Bool.not_eq_true', decide_eq_true_eq] at hstop
      obtain ⟨rfl, rfl⟩ := hstop
      cases h
      exact .done
    split at h
    · cases h
    -- the header or the exit of the enclosing loop
    split at h
    · rename_i ctx hctx
      split at hctx
      · cases hctx
      · rename_i henter
        obtain ⟨rfl, hb⟩ := Option.filter_eq_some_iff.mp hctx
        rw [Bool.not_eq_true] at henter
        subst henter
        cases h
        split
        · rename_i hheader
          rw [hheader]
          exact .cont
        · rename_i hheader
          simp only [hheader, decide_false, Bool.false_or, decide_eq_true_eq] at hb
          rw [hb]
          exact .brk
    dsimp only at h
    split at h
    · cases h
    rename_i hexit
    -- the header of a loop of its own
    split at h
    · rename_i hloop
      simp only [Bool.and_eq_true, Bool.not_eq_true'] at hloop
      obtain ⟨rfl, -⟩ := hloop
      split at h
      · cases h
      · obtain ⟨⟨body, l, _⟩, hbody, h⟩ := Option.bind_eq_some_iff.mp h
        obtain ⟨⟨rest, l', _⟩, hrest, h⟩ := Option.map_eq_some_iff.mp h
        cases h
        exact .loop (ih hbody) (ih hrest)
    -- one block: it falls through, or it selects
    rcases structSucc_cases program b with ⟨next, hsucc⟩ | ⟨target, fall, hsucc⟩
    · simp only [hsucc] at h
      obtain ⟨⟨rest, l, _⟩, hrest, h⟩ := Option.map_eq_some_iff.mp h
      cases h
      exact .next hexit hsucc (ih hrest)
    · simp only [hsucc] at h
      obtain ⟨⟨taken, l, _⟩, htaken, h⟩ := Option.bind_eq_some_iff.mp h
      obtain ⟨⟨other, l', _⟩, hother, h⟩ := Option.bind_eq_some_iff.mp h
      dsimp only at h
      split at h
      · rename_i hfalls
        simp only [Bool.and_eq_true, Bool.not_eq_true'] at hfalls
        cases h
        exact .arms hexit hsucc (ih htaken) (ih hother) hfalls.1 hfalls.2
      · obtain ⟨m, hm, h⟩ := Option.bind_eq_some_iff.mp h
        obtain ⟨⟨rest, l'', _⟩, hrest, h⟩ := Option.map_eq_some_iff.mp h
        cases h
        rw [hm] at htaken hother
        exact .select hexit hsucc (ih htaken) (ih hother) (ih hrest)

variable {enter : Bool} {b : ℕ} {stop : Option ℕ} {loop : Option LoopCtx} {label label' : ℕ} {code : Emitted}

/-! ## Structure -/

theorem Emits.stop_of_falls (h : Emits program enter b stop loop label code label') (hfalls : code.falls = true) :
    stop ≠ none := by
  induction h with
  | done => exact Option.some_ne_none _
  | cont => cases hfalls
  | brk => cases hfalls
  | loop _ _ _ ih => exact ih hfalls
  | arms => cases hfalls
  | select _ _ _ _ _ _ _ ih => exact ih hfalls
  | next _ _ _ ih => exact ih hfalls

theorem Emits.structured (h : Emits program enter b stop loop label code label') :
    Structured (loop.map fun ctx => (ctx.cont, ctx.brk)) code := by
  induction h with
  | done => trivial
  | cont => exact ⟨_, rfl, .inl rfl⟩
  | brk => exact ⟨_, rfl, .inr rfl⟩
  | @loop b exit stop loop l body l₁ rest l₂ hbody _ ih ih' =>
    have hopen : body.falls = false := by
      cases hfalls : body.falls with
      | false => rfl
      | true => exact absurd rfl (hbody.stop_of_falls hfalls)
    exact ⟨by omega, by omega, by omega, hopen, ih, ih'⟩
  | arms _ _ _ _ _ _ ih ih' => exact ⟨ih, ih', trivial⟩
  | select _ _ _ _ _ ih ih' ih'' => exact ⟨ih, ih', ih''⟩
  | next _ _ _ ih => exact ih

theorem Emits.labels (h : Emits program enter b stop loop label code label') :
    label ≤ label' ∧ code.labels.Nodup ∧ ∀ l ∈ code.labels, label ≤ l ∧ l < label' := by
  induction h with
  | done | cont | brk => exact ⟨Nat.le_refl _, List.nodup_nil, fun l hl => by cases hl⟩
  | loop _ _ ih ih' | arms _ _ _ _ _ _ ih ih' =>
    obtain ⟨hle, hnodup, hin⟩ := ih
    obtain ⟨hle', hnodup', hin'⟩ := ih'
    simp only [Emitted.labels, List.nodup_cons, List.mem_cons, List.mem_append, List.nodup_append]
    grind
  | select _ _ _ _ _ ih ih' ih'' =>
    obtain ⟨hle, hnodup, hin⟩ := ih
    obtain ⟨hle', hnodup', hin'⟩ := ih'
    obtain ⟨hle'', hnodup'', hin''⟩ := ih''
    simp only [Emitted.labels, List.nodup_cons, List.mem_cons, List.mem_append, List.nodup_append]
    grind
  | next _ _ _ ih => exact ih

end Emission

/-! ## Runs of the structured code -/

section Runs

variable {isa : WaveIsa ρ μ Unit} {program : Program} {b : ℕ} {s : WaveRegs ρ × μ}

theorem blockNext_succ (isa : WaveIsa ρ μ Unit) (b : ℕ) (s : WaveRegs ρ × μ)
    (hcalls : program.any (fun inst => isCall inst || isSetpc inst) = false) :
    (blockNext isa program b (cfgBody program b) s).2 = runAll isa (ordinary (cfgBody program b)) s ∧
      (∀ next, structSucc program b = [next] → (blockNext isa program b (cfgBody program b) s).1 = next) ∧
      ∀ target fall, structSucc program b = [target, fall] → (blockNext isa program b (cfgBody program b) s).1 =
          if branchTaken (structKind program b) (runAll isa (ordinary (cfgBody program b)) s).1 then target
          else fall := by
  unfold blockNext structSucc structKind
  cases hfind : (cfgBody program b).find? transfers with
  | none => exact ⟨rfl, fun next h => by simpa using h, fun target fall h => by simp at h⟩
  | some inst =>
    have hmem : inst ∈ program := (mem_between.mp (List.mem_of_find?_eq_some hfind)).1
    have htransfers := List.find?_some hfind
    have hcall := List.any_eq_false.mp hcalls inst hmem
    simp only [Bool.or_eq_true, not_or, Bool.not_eq_true] at hcall
    have hkind : branchKind inst ≠ .none := by
      simpa [transfers, hcall.1, hcall.2] using htransfers
    simp only [machineState, machineRegs, hcall.1, hcall.2, Bool.false_eq_true, if_false, Option.map_some,
      Option.getD_some]
    refine ⟨trivial, fun next h => ?_, fun target fall h => ?_⟩
    · cases hk : branchKind inst with
      | none => exact absurd hk hkind
      | endpgm => simpa [hk] using h
      | uncond => simpa [hk] using h
      | _ =>
        simp only [hk, reduceCtorEq, if_false, false_or] at h
        split at h
        · rename_i htarget
          obtain rfl := List.singleton_inj.mp h
          simp only [htarget, ite_self]
        · simp at h
    · by_cases hend : branchKind inst = .endpgm
      · simp [hend] at h
      by_cases huncond : branchKind inst = .uncond
      · simp [huncond] at h
      simp only [hend, huncond, if_false, false_or] at h
      split at h
      · simp at h
      · simp only [List.cons.injEq, and_true] at h
        split
        · contradiction
        · contradiction
        · rw [← h.1, ← h.2]

def EndsAt (stop : Option ℕ) (loop : Option LoopCtx) (b : ℕ) : Outcome → Prop
  | .fall => stop = some b
  | .jump l => ∃ ctx, loop = some ctx ∧ ((l = ctx.cont ∧ b = ctx.header) ∨ (l = ctx.brk ∧ b = ctx.exit))

theorem falls_of_exec {cap : ℕ} {code : Emitted} {it it' : ℕ} {s s' : WaveRegs ρ × μ} {t : List Inst} {o : Outcome}
    (h : Exec isa program cap code it s t o it' s') (ho : o = .fall) : code.falls = true := by
  induction h with
  | done => rfl
  | leave => cases ho
  | block _ ih => exact ih ho
  | merge _ _ _ ih => exact ih ho
  | arm => cases ho
  | again _ _ _ _ ih => exact ih ho
  | cut _ _ _ _ ih => exact ih ho
  | brk _ _ _ ih => exact ih ho
  | out => cases ho

end Runs


section Simulation

variable {isa : WaveIsa ρ μ Unit} {program : Program}

variable (isa program) in
/-- Of a walk of `k` blocks to the program's end the code executes the first ones; `k'` blocks are left, from `b'`.
The loops count `d` turns. -/
structure Executes (code : Emitted) (stop : Option ℕ) (loop : Option LoopCtx) (k : ℕ) (s : WaveRegs ρ × μ)
    (t : List Inst) (s' : WaveRegs ρ × μ) (k' b' : ℕ) (t₁ t₂ : List Inst) (s₁ : WaveRegs ρ × μ) (o : Outcome)
    (d : ℕ) : Prop where
  le : k' ≤ k
  trace : t = t₁ ++ t₂
  left : BlockRun isa program k' b' s₁ t₂ (cfgExit program) s'
  ends : EndsAt stop loop b' o
  exec : ∀ cap it, Below cap (it + d) → Exec isa program cap code it s t₁ o (it + d) s₁

variable {b label k k' b' d : ℕ} {rest taken other : Emitted} {stop : Option ℕ}
  {loop : Option LoopCtx} {s s' s₁ : WaveRegs ρ × μ} {t t₁ t₂ : List Inst}

theorem executes_loop {exit : ℕ} {body : Emitted}
    (hbody : ∀ {k s t s'}, BlockRun isa program k b s t (cfgExit program) s' → ∃ k' b' t₁ t₂ s₁ o d,
      Executes isa program body none (some ⟨b, exit, label + 2, label + 3⟩) k s t s' k' b' t₁ t₂ s₁ o d ∧ k' < k)
    (hrest : ∀ {k s t s'}, BlockRun isa program k exit s t (cfgExit program) s' → ∃ k' b' t₁ t₂ s₁ o d,
      Executes isa program rest stop loop k s t s' k' b' t₁ t₂ s₁ o d)
    (k : ℕ) : ∀ {s t s'}, BlockRun isa program k b s t (cfgExit program) s' → ∃ k' b' t₁ t₂ s₁ o d,
      Executes isa program (.loop label (label + 2) (label + 3) body rest) stop loop k s t s' k' b' t₁ t₂ s₁ o d := by
  induction k using Nat.strongRecOn with
  | ind k ih =>
    intro s t s' hrun
    obtain ⟨k', b', t₁, t₂, s₁, o, d, hturn, hlt⟩ := hbody hrun
    have hends := hturn.ends
    cases o with
    | fall => cases hends
    | jump l =>
      obtain ⟨ctx, hctx, hends⟩ := hends
      obtain rfl := Option.some.inj hctx
      rcases hends with ⟨rfl, rfl⟩ | ⟨rfl, rfl⟩
      -- the turn continues: the walk is at the header again, with fewer blocks left
      · obtain ⟨k'', b'', u₁, u₂, s₂, o, d', hagain⟩ := ih k' hlt hturn.left
        refine ⟨k'', b'', t₁ ++ u₁, u₂, s₂, o, d + 1 + d', ?_⟩
        refine ⟨hagain.le.trans hturn.le, ?_, hagain.left, hagain.ends, fun cap it hcap => ?_⟩
        · rw [List.append_assoc, ← hagain.trace, hturn.trace]
        · have hbelow : Below cap (it + d) := hcap.mono (by omega)
          have hrest := hagain.exec cap (it + d + 1) (hcap.mono (by omega))
          rw [show it + (d + 1 + d') = it + d + 1 + d' by omega]
          exact .again (hturn.exec cap it hbelow) hbelow.not_over hrest
      -- it breaks out: the walk is at the exit
      · obtain ⟨k'', b'', u₁, u₂, s₂, o, d', hbehind⟩ := hrest hturn.left
        refine ⟨k'', b'', t₁ ++ u₁, u₂, s₂, o, d + d', ?_⟩
        refine ⟨hbehind.le.trans hturn.le, ?_, hbehind.left, hbehind.ends, fun cap it hcap => ?_⟩
        · rw [List.append_assoc, ← hbehind.trace, hturn.trace]
        · have hrest := hbehind.exec cap (it + d) (hcap.mono (by omega))
          rw [← Nat.add_assoc]
          exact .brk (hturn.exec cap it (hcap.mono (by omega))) hrest

theorem Executes.block {o : Outcome}
    (h : Executes isa program rest stop loop k (runAll isa (ordinary (cfgBody program b)) s) t s' k' b' t₁ t₂ s₁ o d) :
    Executes isa program (.block b rest) stop loop (k + 1) s (ordinary (cfgBody program b) ++ t) s' k' b'
      (ordinary (cfgBody program b) ++ t₁) t₂ s₁ o d where
  le := h.le.trans (Nat.le_succ _)
  trace := by rw [List.append_assoc, ← h.trace]
  left := h.left
  ends := h.ends
  exec cap it hcap := .block (h.exec cap it hcap)

theorem Executes.arm {kind : BranchKind} {l : ℕ} {merge : Option ℕ}
    (h : Executes isa program (if branchTaken kind s.1 then taken else other) merge loop k s t s' k' b' t₁ t₂ s₁
      (.jump l) d) :
    Executes isa program (.select kind label taken other rest) stop loop k s t s' k' b' t₁ t₂ s₁ (.jump l) d where
  le := h.le
  trace := h.trace
  left := h.left
  ends := h.ends
  exec cap it hcap := .arm (h.exec cap it hcap)

theorem Executes.merge {kind : BranchKind} {m k'' b'' d' : ℕ} {s₂ : WaveRegs ρ × μ} {u₁ u₂ : List Inst} {o : Outcome}
    (h : Executes isa program (if branchTaken kind s.1 then taken else other) (some m) loop k s t s' k' b' t₁ t₂ s₁
      .fall d) (h' : Executes isa program rest stop loop k' s₁ t₂ s' k'' b'' u₁ u₂ s₂ o d') :
    Executes isa program (.select kind label taken other rest) stop loop k s t s' k'' b'' (t₁ ++ u₁) u₂ s₂ o
      (d + d') where
  le := h'.le.trans h.le
  trace := by rw [List.append_assoc, ← h'.trace, h.trace]
  left := h'.left
  ends := h'.ends
  exec cap it hcap := by
    have hrest := h'.exec cap (it + d) (hcap.mono (by omega))
    rw [← Nat.add_assoc]
    exact .merge (h.exec cap it (hcap.mono (by omega))) hrest

theorem BlockRun.uncons (hrun : BlockRun isa program k b s t (cfgExit program) s') (hb : b ≠ cfgExit program) :
    ∃ j t', k = j + 1 ∧ t = ordinary (cfgBody program b) ++ t' ∧
      BlockRun isa program j (blockNext isa program b (cfgBody program b) s).1
        (blockNext isa program b (cfgBody program b) s).2 t' (cfgExit program) s' := by
  cases hrun with
  | refl => exact absurd rfl hb
  | step _ hrun => exact ⟨_, _, rfl, rfl, hrun⟩

theorem executes_arm {kind : BranchKind} {target fall : ℕ} {merge : Option ℕ} {enter : Bool}
    (htaken : ∀ {k s t s'}, BlockRun isa program k target s t (cfgExit program) s' → ∃ k' b' t₁ t₂ s₁ o d,
      Executes isa program taken merge loop k s t s' k' b' t₁ t₂ s₁ o d ∧ (enter = true → k' < k))
    (hother : ∀ {k s t s'}, BlockRun isa program k fall s t (cfgExit program) s' → ∃ k' b' t₁ t₂ s₁ o d,
      Executes isa program other merge loop k s t s' k' b' t₁ t₂ s₁ o d ∧ (enter = true → k' < k))
    (hrun : BlockRun isa program k (if branchTaken kind s.1 then target else fall) s t (cfgExit program) s') :
    ∃ k' b' t₁ t₂ s₁ o d, Executes isa program (if branchTaken kind s.1 then taken else other) merge loop k s t s'
      k' b' t₁ t₂ s₁ o d := by
  cases htest : branchTaken kind s.1 with
  | true =>
    rw [htest, if_pos rfl] at hrun
    obtain ⟨k', b', t₁, t₂, s₁, o, d, hall, -⟩ := htaken hrun
    exact ⟨k', b', t₁, t₂, s₁, o, d, hall⟩
  | false =>
    rw [htest, if_neg Bool.false_ne_true] at hrun
    obtain ⟨k', b', t₁, t₂, s₁, o, d, hall, -⟩ := hother hrun
    exact ⟨k', b', t₁, t₂, s₁, o, d, hall⟩

/-- **Structured code executes the walk** until it leaves. -/
theorem Emits.executes (hcalls : program.any (fun inst => isCall inst || isSetpc inst) = false) {enter : Bool}
    {label' : ℕ} {code : Emitted} (h : Emits program enter b stop loop label code label') :
    ∀ {k s t s'}, BlockRun isa program k b s t (cfgExit program) s' → ∃ k' b' t₁ t₂ s₁ o d,
      Executes isa program code stop loop k s t s' k' b' t₁ t₂ s₁ o d ∧ (enter = true → k' < k) := by
  induction h with
  | @done b loop l =>
    intro k s t s' hrun
    refine ⟨k, b, [], t, s, .fall, 0, ⟨Nat.le_refl _, rfl, hrun, rfl, fun _ _ _ => .done⟩, fun h => by cases h⟩
  | @cont ctx stop l =>
    intro k s t s' hrun
    refine ⟨k, ctx.header, [], t, s, .jump ctx.cont, 0, ?_, fun h => by cases h⟩
    exact ⟨Nat.le_refl _, rfl, hrun, ⟨ctx, rfl, .inl ⟨rfl, rfl⟩⟩, fun _ _ _ => .leave⟩
  | @brk ctx stop l =>
    intro k s t s' hrun
    refine ⟨k, ctx.exit, [], t, s, .jump ctx.brk, 0, ?_, fun h => by cases h⟩
    exact ⟨Nat.le_refl _, rfl, hrun, ⟨ctx, rfl, .inr ⟨rfl, rfl⟩⟩, fun _ _ _ => .leave⟩
  | loop _ _ ih ih' =>
    intro k s t s' hrun
    obtain ⟨k', b', t₁, t₂, s₁, o, d, hall⟩ := executes_loop
      (fun hrun => by
        obtain ⟨k', b', t₁, t₂, s₁, o, d, hbody, hlt⟩ := ih hrun
        exact ⟨k', b', t₁, t₂, s₁, o, d, hbody, hlt rfl⟩)
      (fun hrun => by
        obtain ⟨k', b', t₁, t₂, s₁, o, d, hrest, -⟩ := ih' hrun
        exact ⟨k', b', t₁, t₂, s₁, o, d, hrest⟩) k hrun
    exact ⟨k', b', t₁, t₂, s₁, o, d, hall, fun h => by cases h⟩
  | @arms enter b target fall merge stop loop l taken l₁ other l₂ hb hsucc htaken hother hfalls hfalls' ih ih' =>
    intro k s t s' hrun
    obtain ⟨j, t, rfl, rfl, hleft⟩ := hrun.uncons hb
    obtain ⟨hstate, -, hnext⟩ := blockNext_succ isa b s hcalls
    rw [hstate, hnext target fall hsucc] at hleft
    obtain ⟨k', b', t₁, t₂, s₁, o, d, harm⟩ := executes_arm ih ih' hleft
    cases o with
    | fall =>
      -- neither arm falls through
      have hexec := falls_of_exec (harm.exec 0 0 (.inl rfl)) rfl
      split at hexec
      · rw [hfalls] at hexec
        cases hexec
      · rw [hfalls'] at hexec
        cases hexec
    | jump dest =>
      exact ⟨k', b', _, t₂, s₁, .jump dest, d, harm.arm.block, fun _ => Nat.lt_succ_of_le harm.le⟩
  | @select enter b target fall m stop loop l taken l₁ other l₂ rest l₃ hb hsucc _ _ _ ih ih' ih'' =>
    intro k s t s' hrun
    obtain ⟨j, t, rfl, rfl, hleft⟩ := hrun.uncons hb
    obtain ⟨hstate, -, hnext⟩ := blockNext_succ isa b s hcalls
    rw [hstate, hnext target fall hsucc] at hleft
    obtain ⟨k', b', t₁, t₂, s₁, o, d, harm⟩ := executes_arm ih ih' hleft
    cases o with
    | fall =>
      -- the arm is at the merge block, from which the rest is emitted
      obtain rfl := Option.some.inj harm.ends
      obtain ⟨k'', b'', u₁, u₂, s₂, o, d', hrest, -⟩ := ih'' harm.left
      exact ⟨k'', b'', _, u₂, s₂, o, d + d', (harm.merge hrest).block,
        fun _ => Nat.lt_succ_of_le (hrest.le.trans harm.le)⟩
    | jump dest =>
      exact ⟨k', b', _, t₂, s₁, .jump dest, d, harm.arm.block, fun _ => Nat.lt_succ_of_le harm.le⟩
  | @next enter b next stop loop l rest l₁ hb hsucc _ ih =>
    intro k s t s' hrun
    obtain ⟨j, t, rfl, rfl, hleft⟩ := hrun.uncons hb
    obtain ⟨hstate, hnext, -⟩ := blockNext_succ isa b s hcalls
    rw [hstate, hnext next hsucc] at hleft
    obtain ⟨k', b', t₁, t₂, s₁, o, d, hall, -⟩ := ih hleft
    exact ⟨k', b', _, t₂, s₁, o, d, hall.block, fun _ => Nat.lt_succ_of_le hall.le⟩

end Simulation

/-! ## Both lowerings -/

section Lowerings

variable {isa : WaveIsa ρ μ Unit} {program : Program}

theorem emits_of_structurize {fuel : ℕ} {code : Emitted} (h : structurize fuel program = some code) :
    program.any (fun inst => isCall inst || isSetpc inst) = false ∧
      ∃ label, Emits program false 0 (some (cfgExit program)) none 0 code label := by
  unfold structurize at h
  split at h
  · cases h
  rename_i hcalls
  split at h
  · cases h
  obtain ⟨shape, -, h⟩ := Option.bind_eq_some_iff.mp h
  obtain ⟨⟨emitted, label, size⟩, hemit, h⟩ := Option.bind_eq_some_iff.mp h
  dsimp only at h
  split at h
  · cases h
  · cases h
    exact ⟨Bool.eq_false_iff.mpr hcalls, label, emits_of_emit fuel hemit⟩

theorem BlockRun.of_exit {k : ℕ} {s s' : WaveRegs ρ × μ} {t : List Inst}
    (h : BlockRun isa program k (cfgExit program) s t (cfgExit program) s') : t = [] ∧ s' = s := by
  cases h with
  | refl => exact ⟨rfl, rfl⟩
  | step hb => exact absurd hb (Nat.lt_irrefl _)

theorem exec_of_structurize {fuel : ℕ} {code : Emitted} (h : structurize fuel program = some code) {k : ℕ}
    {s s' : WaveRegs ρ × μ} {t : List Inst} (hrun : BlockRun isa program k 0 s t (cfgExit program) s') :
    ∃ turns, ∀ cap, Below cap turns → Exec isa program cap code 0 s t .fall turns s' := by
  obtain ⟨hcalls, label, hemits⟩ := emits_of_structurize h
  obtain ⟨k', b', t₁, t₂, s₁, o, d, hall, -⟩ := hemits.executes hcalls hrun
  have hends := hall.ends
  cases o with
  | jump l =>
    obtain ⟨ctx, hctx, -⟩ := hends
    cases hctx
  | fall =>
    obtain rfl := Option.some.inj hends
    obtain ⟨rfl, rfl⟩ := hall.left.of_exit
    refine ⟨d, fun cap hcap => ?_⟩
    have hexec := hall.exec cap 0 (by rwa [Nat.zero_add])
    rw [Nat.zero_add] at hexec
    rw [hall.trace, List.append_nil]
    exact hexec

end Lowerings

/-! ## A call into the null register -/

section NullCall

variable {isa : WaveIsa ρ μ Unit} {program : Program} {cap it b : ℕ} {s s' : WaveRegs ρ × μ} {t : List Inst}

theorem MachineRun.uncons (h : MachineRun isa program cap it b s t s') (hb : b < cfgExit program)
    (hover : overCap cap it = false) : ∃ t', t = ordinary (cfgBody program b) ++ t' ∧
      MachineRun isa program cap (it + 1) (blockNext isa program b (cfgBody program b) s).1
        (blockNext isa program b (cfgBody program b) s).2 t' s' := by
  cases h with
  | exit hexit => exact absurd hb (Nat.not_lt.mpr hexit)
  | cut hcut =>
    rw [hover] at hcut
    cases hcut
  | block _ _ hrun => exact ⟨_, rfl, hrun⟩

theorem MachineRun.of_exit (h : MachineRun isa program cap it b s t s') (hb : cfgExit program ≤ b) : t = [] := by
  cases h with
  | exit => rfl
  | cut => rfl
  | block _ hlt => exact absurd hlt (Nat.not_lt.mpr hb)

/-- `s_call_b64 null, +0`, `s_cbranch_execz +1`, `s_nop`, `s_endpgm` -/
def nullCallCode : Gcn.Code := fun i => [0xBB7D0000, 0xBF880001, 0xBF800000, 0xBF810000].getD i 0

def nullCallProgram : ListedProgram :=
  .ofDecoded nullCallCode 4 (decodeShader nullCallCode 4) (List.Sublist.refl _)

/-- A lane is active. -/
def nullCallRegs : WaveRegs Unit := ⟨0, fun r => if r = 126 then 1 else 0, ()⟩

def nullCallInst (i : ℕ) : Inst := nullCallProgram.insts.getD i ⟨.kSopp, 0, [], 1, 0, false, 0, .kNone⟩

def Returns (program : Program) (inst : Inst) (r : WaveRegs ρ) : Prop :=
  goesElsewhere inst = false ∧ (isSetpc inst = true → CfgLinked program r (returnSsrc inst))

end NullCall

end Prosperity.Rdna
