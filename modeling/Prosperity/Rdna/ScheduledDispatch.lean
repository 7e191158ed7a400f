import Mathlib.Data.Fin.Basic
import Mathlib.Data.List.OfFn
import Mathlib.Logic.Function.Basic
import Prosperity.Foundations.Execution
import Prosperity.Rdna.CfgBlocks

/-!
# The scheduled state machine

Mesh stages and lockstep compute run a workgroup of several guest waves as one loop. Each turn a leader
picks one block from the program counters of all waves, all of them execute it, and what a wave writes is
kept if the block was its own.

The program's own control flow is a second machine: each wave goes from instruction to instruction on
its own, and passes an `s_barrier` when every wave that has not ended has reached one.
-/

namespace Prosperity.Rdna

universe u v w

variable {ρ : Type u} {μ : Type v} {ω : Type w}

/-! ## Instructions -/

/-- The registers of a wave; `vector` has those of its lanes. -/
structure WaveRegs (ρ : Type u) where
  scc : ℕ
  sgpr : ℕ → ℕ
  vector : ρ

/-- `Sg`: the null register reads as zero. -/
def WaveRegs.sg (r : WaveRegs ρ) (i : ℕ) : ℕ := if i = 125 then 0 else r.sgpr i

def WaveRegs.setSg (r : WaveRegs ρ) (i value : ℕ) : WaveRegs ρ :=
  if i = 125 then r else { r with sgpr := Function.update r.sgpr i value }

/-- What the instructions do that send the control nowhere, and where those send it that the lowering does
not know. The last argument of `effect` decides what the architecture leaves open. -/
structure WaveIsa (ρ : Type u) (μ : Type v) (ω : Type w) where
  effect : Inst → ω → WaveRegs ρ × μ → WaveRegs ρ × μ
  elsewhere : Inst → WaveRegs ρ → ℕ

/-- The instructions that send the control and that the lowering takes for ordinary ones: the debugger's
branches, the subvector loops, `s_swappc_b64` and `s_rfe_b64`. -/
def goesElsewhere (inst : Inst) : Bool :=
  (inst.enc = .kSopp && (0x17 ≤ inst.opcode && inst.opcode ≤ 0x1a)) ||
    (inst.enc = .kSopk && (inst.opcode = 0x1b || inst.opcode = 0x1c)) ||
    (inst.enc = .kSop1 && (inst.opcode = 0x21 || inst.opcode = 0x22))

def callSdst (inst : Inst) : ℕ := (inst.raw.getD 0 0 >>> 16) &&& 0x7F

def returnSsrc (inst : Inst) : ℕ := inst.raw.getD 0 0 &&& 0xFF

/-! ## The waves on their own -/

structure GuestWave (ρ : Type u) where
  pc : ℕ
  regs : WaveRegs ρ
  passed : ℕ

structure Guest (ρ : Type u) (μ : Type v) (n : ℕ) where
  mem : μ
  wave : Fin (n + 1) → GuestWave ρ

def guestTaken (kind : BranchKind) (r : WaveRegs ρ) : Bool :=
  match kind with
  | .scc0 => r.scc = 0
  | .scc1 => r.scc ≠ 0
  | .vccz => r.sg 106 = 0 && r.sg 107 = 0
  | .vccnz => r.sg 106 ≠ 0 || r.sg 107 ≠ 0
  | .execz => r.sg 126 = 0 && r.sg 127 = 0
  | .execnz => r.sg 126 ≠ 0 || r.sg 127 ≠ 0
  | _ => false

def linkOf (program : Program) (inst : Inst) : ℕ := fallOf program (blockOf program inst.pc)

/-- The value in a pair of registers is what a call may have left. -/
def Linked (program : Program) (r : WaveRegs ρ) (ssrc : ℕ) : Prop :=
  ssrc < 125 ∧ r.sg ssrc ≤ kExit program ∧ r.sg (ssrc + 1) = 0

instance (program : Program) (r : WaveRegs ρ) (ssrc : ℕ) : Decidable (Linked program r ssrc) :=
  inferInstanceAs (Decidable (_ ∧ _ ∧ _))

/-- The registers behind an instruction that sends the control. A call into the null register leaves
nothing. -/
def guestTransferRegs (program : Program) (inst : Inst) (r : WaveRegs ρ) : WaveRegs ρ :=
  if isCall inst = true ∧ callSdst inst ≠ 125 then
    (r.setSg (callSdst inst) (linkOf program inst)).setSg (callSdst inst + 1) 0
  else r

/-- Where an instruction that sends the control sends it. -/
def guestTransferPc (isa : WaveIsa ρ μ ω) (program : Program) (inst : Inst) (r : WaveRegs ρ) : ℕ :=
  if isCall inst then branchTarget inst
  else if isSetpc inst then
    if Linked program r (returnSsrc inst) then startOf program (r.sg (returnSsrc inst))
    else isa.elsewhere inst r
  else
    match branchKind inst with
    | .endpgm => maxPc program
    | .uncond => branchTarget inst
    | kind => if guestTaken kind r then branchTarget inst else inst.behind

def Reached (program : Program) (waiting other : GuestWave ρ) : Prop :=
  fetch program other.pc = none ∨ waiting.passed < other.passed ∨
    (other.passed = waiting.passed ∧ (fetch program other.pc).any isBarrier = true)

instance (program : Program) (waiting other : GuestWave ρ) : Decidable (Reached program waiting other) :=
  inferInstanceAs (Decidable (_ ∨ _ ∨ _))

variable {n : ℕ}

def Guest.setWave (g : Guest ρ μ n) (wave : Fin (n + 1)) (behind : GuestWave ρ) : Guest ρ μ n :=
  ⟨g.mem, Function.update g.wave wave behind⟩

def guestStep (isa : WaveIsa ρ μ ω) (program : Program) (g : Guest ρ μ n) (event : Fin (n + 1) × ω) :
    Option (Guest ρ μ n) :=
  let wave := g.wave event.1
  match fetch program wave.pc with
  | none => none
  | some inst =>
    if isBarrier inst then
      if ∀ other, Reached program wave (g.wave other) then
        some (g.setWave event.1 ⟨inst.behind, wave.regs, wave.passed + 1⟩)
      else none
    else if transfers inst then
      some (g.setWave event.1
        ⟨guestTransferPc isa program inst wave.regs, guestTransferRegs program inst wave.regs, wave.passed⟩)
    else
      let behind := isa.effect inst event.2 (wave.regs, g.mem)
      let pc := if goesElsewhere inst then isa.elsewhere inst wave.regs else inst.behind
      some { g.setWave event.1 ⟨pc, behind.1, wave.passed⟩ with mem := behind.2 }

def guestSystem (isa : WaveIsa ρ μ ω) (program : Program) (n : ℕ) :
    LabelledSystem (Guest ρ μ n) (Fin (n + 1) × ω) := ⟨guestStep isa program⟩

/-! ## The loop -/

/-- A wave in the loop: `active` is `block_active`, and `todo` has what is left of the selected block,
`none` at the top of the loop. -/
structure LoopWave (ρ : Type u) where
  state : ℕ
  regs : WaveRegs ρ
  active : Bool
  todo : Option (List Inst)

structure Dispatch (ρ : Type u) (μ : Type v) (n : ℕ) where
  mem : μ
  wave : Fin (n + 1) → LoopWave ρ
  /-- The block that the leader has selected. -/
  choice : ℕ
  /-- `iter_var` -/
  iter : ℕ
  exited : Bool

/-- `select`: the leader picks, or the loop ends. `exec`: a wave takes the next step of the block. -/
inductive Event (n : ℕ) (ω : Type w) where
  | select
  | exec (wave : Fin (n + 1)) (env : ω)

/-- `runnable`: the wave has not ended and is in the block of no barrier. -/
def runnable (program : Program) (pc : ℕ) : Bool :=
  pc < kExit program && program.all fun inst => !isBarrier inst || pc ≠ blockOf program inst.pc

/-- `choice`: where all waves are at one block, that block, else the least that is runnable. -/
def leaderChoice (program : Program) (pcs : List ℕ) : ℕ :=
  let first := pcs.headD 0
  let allEqual := pcs.all fun pc => pc = first
  let pending := pcs.foldl (fun pending pc => if runnable program pc then min pending pc else pending)
    (kExit program)
  if allEqual then first else pending

def storePrivate {α : Type*} (active : Bool) (value old : α) : α := if active then value else old

@[simp] theorem storePrivate_true {α : Type*} (value old : α) : storePrivate true value old = value := rfl

@[simp] theorem storePrivate_false {α : Type*} (value old : α) : storePrivate false value old = old := rfl

/-- `BranchTaken`, with the masks of a whole wave. -/
def branchTaken (kind : BranchKind) (r : WaveRegs ρ) : Bool :=
  match kind with
  | .scc0 => r.scc = 0
  | .scc1 => r.scc ≠ 0
  | .vccz => r.sg 106 ||| r.sg 107 = 0
  | .vccnz => r.sg 106 ||| r.sg 107 ≠ 0
  | .execz => r.sg 126 ||| r.sg 127 = 0
  | .execnz => r.sg 126 ||| r.sg 127 ≠ 0
  | _ => false

def loopTransferRegs (program : Program) (block : ℕ) (inst : Inst) (r : WaveRegs ρ) : WaveRegs ρ :=
  if isCall inst then (r.setSg (callSdst inst) (fallOf program block)).setSg (callSdst inst + 1) 0 else r

def loopTransferState (program : Program) (block : ℕ) (inst : Inst) (r : WaveRegs ρ) : ℕ :=
  if isCall inst then blockOf program (branchTarget inst)
  else if isSetpc inst then r.sg (returnSsrc inst)
  else
    match branchKind inst with
    | .endpgm => kExit program
    | .uncond => blockOf program (branchTarget inst)
    | kind => if branchTaken kind r then blockOf program (branchTarget inst) else fallOf program block

/-- `RdnaEmitInst`. A barrier writes no register. -/
def emitInst (isa : WaveIsa ρ μ ω) (inst : Inst) (env : ω) (s : WaveRegs ρ × μ) : WaveRegs ρ × μ :=
  if isBarrier inst then s else isa.effect inst env s

def execWave (isa : WaveIsa ρ μ ω) (program : Program) (block : ℕ) (env : ω) (wave : LoopWave ρ)
    (mem : μ) : Option (LoopWave ρ × μ) :=
  match wave.todo with
  | none => none
  | some [] =>
    some ({ wave with state := storePrivate wave.active (fallOf program block) wave.state, todo := none }, mem)
  | some (inst :: rest) =>
    if transfers inst then
      some ({ wave with
        state := storePrivate wave.active (loopTransferState program block inst wave.regs) wave.state
        regs := storePrivate wave.active (loopTransferRegs program block inst wave.regs) wave.regs
        todo := none }, mem)
    else
      let behind := emitInst isa inst env (wave.regs, mem)
      some ({ wave with
        regs := storePrivate wave.active behind.1 wave.regs
        todo := some rest }, storePrivate wave.active behind.2 mem)

/-- `over`: the cap on the turns, zero for none. -/
def overCap (cap iter : ℕ) : Bool := cap ≠ 0 && cap < iter

def dispatchStep (isa : WaveIsa ρ μ ω) (program : Program) (cap : ℕ) (d : Dispatch ρ μ n) :
    Event n ω → Option (Dispatch ρ μ n)
  | .select =>
    if d.exited = true ∨ ∃ wave, (d.wave wave).todo ≠ none then none
    else
      let choice := leaderChoice program (List.ofFn fun wave => (d.wave wave).state)
      let state := if overCap cap d.iter then kExit program else choice
      if state < kExit program then
        some ⟨d.mem, fun wave =>
          { d.wave wave with
            active := (d.wave wave).state = choice
            todo := some (blockBody program state) }, state, d.iter + 1, false⟩
      else some { d with iter := d.iter + 1, exited := true }
  | .exec wave env =>
    (execWave isa program d.choice env (d.wave wave) d.mem).map fun behind =>
      { d with mem := behind.2, wave := Function.update d.wave wave behind.1 }

def dispatchSystem (isa : WaveIsa ρ μ ω) (program : Program) (cap n : ℕ) :
    LabelledSystem (Dispatch ρ μ n) (Event n ω) := ⟨dispatchStep isa program cap⟩

def guestStart (regs : Fin (n + 1) → WaveRegs ρ) (mem : μ) : Guest ρ μ n := ⟨mem, fun wave => ⟨0, regs wave, 0⟩⟩

/-- The loop where it begins: `SetState(0)`. -/
def dispatchStart (regs : Fin (n + 1) → WaveRegs ρ) (mem : μ) : Dispatch ρ μ n :=
  ⟨mem, fun wave => ⟨0, regs wave, false, none⟩, 0, 0, false⟩

def ownStep (d : Dispatch ρ μ n) : Event n ω → List (Fin (n + 1) × ω)
  | .select => []
  | .exec wave env =>
    match (d.wave wave).active, (d.wave wave).todo with
    | true, some (_ :: _) => [(wave, env)]
    | _, _ => []

def ownSteps (isa : WaveIsa ρ μ ω) (program : Program) (cap : ℕ) :
    Dispatch ρ μ n → List (Event n ω) → List (Fin (n + 1) × ω)
  | _, [] => []
  | d, event :: events =>
    ownStep d event ++
      match dispatchStep isa program cap d event with
      | none => []
      | some d' => ownSteps isa program cap d' events

/-! ## What a run has to meet -/

/-- Some wave can run, or all waves are at one block: not all that have not ended wait at barriers while
another has ended or waits elsewhere. -/
def Together (program : Program) (d : Dispatch ρ μ n) : Prop :=
  (∃ wave, runnable program (d.wave wave).state = true) ∨ ∀ wave wave', (d.wave wave).state = (d.wave wave').state

/-- The lowering sends the control where the instruction does, and a call leaves what it has to. -/
def Followed (program : Program) (inst : Inst) (r : WaveRegs ρ) : Prop :=
  goesElsewhere inst = false ∧ (isCall inst = true → callSdst inst ≠ 125) ∧
    (isSetpc inst = true → Linked program r (returnSsrc inst))

def BelowCap (cap : ℕ) (d : Dispatch ρ μ n) : Event n ω → Prop
  | .select => overCap cap d.iter = false
  | .exec .. => True

/-- Each turn finds the waves together, and an active wave executes what the lowering follows. -/
def Orderly (program : Program) (cap : ℕ) (d : Dispatch ρ μ n) (event : Event n ω) : Prop :=
  BelowCap cap d event ∧
    match event with
    | .select => Together program d
    | .exec wave _ => (d.wave wave).active = true →
        ∀ inst ∈ ((d.wave wave).todo.getD []).head?, Followed program inst (d.wave wave).regs

instance (program : Program) (d : Dispatch ρ μ n) : Decidable (Together program d) :=
  inferInstanceAs (Decidable (_ ∨ _))

instance (program : Program) (inst : Inst) (r : WaveRegs ρ) : Decidable (Followed program inst r) :=
  inferInstanceAs (Decidable (_ ∧ _ ∧ _))

instance (program : Program) (cap : ℕ) (d : Dispatch ρ μ n) :
    ∀ event : Event n ω, Decidable (Orderly program cap d event)
  | .select => inferInstanceAs (Decidable (overCap cap d.iter = false ∧ Together program d))
  | .exec wave _ => inferInstanceAs (Decidable (True ∧ ((d.wave wave).active = true →
      ∀ inst ∈ ((d.wave wave).todo.getD []).head?, Followed program inst (d.wave wave).regs)))

def OwnBlockOnly (d : Dispatch ρ μ n) (_ : Event n ω) (d' : Dispatch ρ μ n) : Prop :=
  ∀ wave, (d.wave wave).state ≠ d.choice →
    (d'.wave wave).regs = (d.wave wave).regs ∧ (d'.wave wave).state = (d.wave wave).state

def RunsToEnd (isa : WaveIsa ρ μ ω) (program : Program) (cap : ℕ) (regs : Fin (n + 1) → WaveRegs ρ) (mem : μ)
    (events : List (Event n ω)) (d : Dispatch ρ μ n) : Prop :=
  (dispatchSystem isa program cap n).EveryStep OwnBlockOnly (dispatchStart regs mem) events ∧
    ∃ g, (guestSystem isa program n).exec (guestStart regs mem)
        (ownSteps isa program cap (dispatchStart regs mem) events) = some g ∧
      g.mem = d.mem ∧ (∀ wave, (g.wave wave).regs = (d.wave wave).regs) ∧
      (d.exited = true → ∀ wave, fetch program (g.wave wave).pc = none)

/-! ## The leader -/

section Leader

variable {program : Program}

theorem pending_cases (program : Program) (pcs : List ℕ) (start : ℕ) :
    let pending := pcs.foldl (fun pending pc => if runnable program pc then min pending pc else pending) start
    (pending = start ∧ ∀ pc ∈ pcs, runnable program pc = true → start ≤ pc) ∨
      (pending ∈ pcs ∧ runnable program pending = true) := by
  induction pcs generalizing start with
  | nil => exact .inl ⟨rfl, fun pc hpc => by cases hpc⟩
  | cons first rest ih =>
    dsimp only [List.foldl_cons] at ih ⊢
    by_cases hrun : runnable program first = true
    · rw [if_pos hrun]
      rcases ih (min start first) with ⟨heq, hleast⟩ | ⟨hmem, hpending⟩
      · rcases Nat.le_total start first with hle | hle
        · rw [Nat.min_eq_left hle] at heq hleast ⊢
          exact .inl ⟨heq, List.forall_mem_cons.mpr ⟨fun _ => hle, hleast⟩⟩
        · rw [Nat.min_eq_right hle] at heq ⊢
          rw [heq]
          exact .inr ⟨List.mem_cons_self, hrun⟩
      · exact .inr ⟨List.mem_cons_of_mem _ hmem, hpending⟩
    · rw [if_neg hrun]
      rcases ih start with ⟨heq, hleast⟩ | ⟨hmem, hpending⟩
      · exact .inl ⟨heq, List.forall_mem_cons.mpr ⟨fun h => absurd h hrun, hleast⟩⟩
      · exact .inr ⟨List.mem_cons_of_mem _ hmem, hpending⟩

theorem lt_of_runnable {pc : ℕ} (h : runnable program pc = true) : pc < kExit program := by
  simp only [runnable, Bool.and_eq_true, decide_eq_true_eq] at h
  exact h.1

theorem not_barrier_of_runnable {pc : ℕ} (h : runnable program pc = true) {inst : Inst}
    (hinst : inst ∈ program) (hpc : blockOf program inst.pc = pc) : isBarrier inst = false := by
  simp only [runnable, Bool.and_eq_true, List.all_eq_true, Bool.or_eq_true, Bool.not_eq_true', decide_eq_true_eq] at h
  rcases h.2 inst hinst with hb | hne
  · exact hb
  · exact absurd hpc.symm hne

/-- **What the leader picks**: the block of all waves, or one that can run, or the end where none can. -/
theorem leaderChoice_cases (program : Program) {n : ℕ} (states : Fin (n + 1) → ℕ) :
    (∀ wave, states wave = leaderChoice program (List.ofFn states)) ∨
      runnable program (leaderChoice program (List.ofFn states)) = true ∨
      (leaderChoice program (List.ofFn states) = kExit program ∧ ∀ wave, ¬runnable program (states wave) = true) := by
  unfold leaderChoice
  dsimp only
  split
  · rename_i hall
    refine .inl fun wave => ?_
    exact of_decide_eq_true (List.all_eq_true.mp hall _ (List.mem_ofFn.mpr ⟨wave, rfl⟩))
  · rcases pending_cases program (List.ofFn states) (kExit program) with
      ⟨heq, hleast⟩ | ⟨-, hrun⟩
    · refine .inr (.inr ⟨heq, fun wave hrun => ?_⟩)
      have hle := hleast _ (List.mem_ofFn.mpr ⟨wave, rfl⟩) hrun
      exact absurd (lt_of_runnable hrun) (Nat.not_lt.mpr hle)
    · exact .inr (.inl hrun)

end Leader

/-! ## Simulation -/

inductive WaveAt (program : Program) (choice : ℕ) : LoopWave ρ → GuestWave ρ → Prop where
  | waits {lw : LoopWave ρ} {gw : GuestWave ρ} : gw.regs = lw.regs →
      (lw.active = true → lw.todo = none) → lw.state ≤ kExit program →
      SamePlace program (startOf program lw.state) gw.pc → WaveAt program choice lw gw
  /-- It has the rest of its block to do. -/
  | runs {lw : LoopWave ρ} {gw : GuestWave ρ} {left : List Inst} : gw.regs = lw.regs →
      lw.active = true → lw.todo = some left → lw.state = choice → choice < kExit program →
      left = between program gw.pc (startOf program (choice + 1)) →
      (∀ inst ∈ program, startOf program (choice + 1) ≤ inst.pc → gw.pc ≤ inst.pc) →
      (∀ inst ∈ left, inst ∈ blockBody program choice) → WaveAt program choice lw gw

def BarriersMet (lw : Fin (n + 1) → LoopWave ρ) (gw : Fin (n + 1) → GuestWave ρ) : Prop :=
  ∃ k, (∀ wave, (gw wave).passed = k ∧
      ∀ left, (lw wave).active = true → (lw wave).todo = some left → ∀ inst ∈ left, isBarrier inst = false) ∨
    (∃ barrier, isBarrier barrier = true ∧ ∀ wave,
      ((lw wave).active = true ∧ (lw wave).todo = some [barrier] ∧ (gw wave).passed = k) ∨
        (((lw wave).todo = none ∨ (lw wave).todo = some []) ∧ (gw wave).passed = k + 1))

/-- The loop and the waves on their own. -/
structure Simulates (program : Program) (d : Dispatch ρ μ n) (g : Guest ρ μ n) : Prop where
  mem : g.mem = d.mem
  waves : ∀ wave, WaveAt program d.choice (d.wave wave) (g.wave wave)
  barriers : BarriersMet d.wave g.wave
  ended : d.exited = true → ∀ wave, (d.wave wave).todo = none ∧ kExit program ≤ (d.wave wave).state

theorem branchTaken_eq (kind : BranchKind) (r : WaveRegs ρ) : branchTaken kind r = guestTaken kind r := by
  cases kind <;> simp [branchTaken, guestTaken, Nat.or_eq_zero_iff]

section Transfers

variable {P : ListedProgram} {inst : Inst} {block : ℕ} {r : WaveRegs ρ} (isa : WaveIsa ρ μ ω)

theorem transferRegs_eq (hinst : inst ∈ blockBody P.insts block) (hb : block < kExit P.insts)
    (hf : Followed P.insts inst r) : guestTransferRegs P.insts inst r = loopTransferRegs P.insts block inst r := by
  unfold guestTransferRegs loopTransferRegs linkOf
  rw [blockOf_of_mem_body hinst hb]
  by_cases hcall : isCall inst = true
  · rw [if_pos ⟨hcall, hf.2.1 hcall⟩, if_pos hcall]
  · rw [if_neg fun h => hcall h.1, if_neg hcall]

theorem not_barrier_of_transfers (h : transfers inst = true) : isBarrier inst = false := by
  by_contra hbar
  simp only [isBarrier, Bool.not_eq_false, Bool.and_eq_true, decide_eq_true_eq] at hbar
  simp [transfers, branchKind, isCall, isSetpc, hbar.1, hbar.2] at h

/-- **The state behind a transfer is the block of the address behind it.** -/
theorem transferState_place (hinst : inst ∈ blockBody P.insts block) (hb : block < kExit P.insts)
    (htr : transfers inst = true) (hf : Followed P.insts inst r) :
    loopTransferState P.insts block inst r ≤ kExit P.insts ∧
      SamePlace P.insts (startOf P.insts (loopTransferState P.insts block inst r))
        (guestTransferPc isa P.insts inst r) := by
  have hmem := (mem_between.mp hinst).1
  have hfall := samePlace_fall hinst hb htr
  have htarget : hasTarget inst = true → blockOf P.insts (branchTarget inst) ≤ kExit P.insts ∧
      SamePlace P.insts (startOf P.insts (blockOf P.insts (branchTarget inst))) (branchTarget inst) :=
    fun h => ⟨blockOf_le_kExit P _, samePlace_blockOf_target hmem h⟩
  unfold loopTransferState guestTransferPc
  by_cases hcall : isCall inst = true
  · rw [if_pos hcall, if_pos hcall]
    exact htarget (by simp [hasTarget, hcall])
  rw [if_neg hcall, if_neg hcall]
  by_cases hret : isSetpc inst = true
  · have hlink := hf.2.2 hret
    rw [if_pos hret, if_pos hret, if_pos hlink]
    exact ⟨hlink.2.1, SamePlace.refl _ _⟩
  rw [if_neg hret, if_neg hret]
  cases hkind : branchKind inst with
  | none =>
    -- then nothing is transferred
    simp [transfers, hkind, hcall, hret] at htr
  | endpgm =>
    refine ⟨Nat.le_refl _, ?_⟩
    dsimp only
    rw [startOf_of_le (Nat.le_refl _)]
    exact SamePlace.refl _ _
  | uncond => exact htarget (by simp [hasTarget, hkind])
  | _ =>
    dsimp only
    rw [branchTaken_eq]
    split
    · exact htarget (by simp [hasTarget, hkind])
    · exact ⟨fallOf_le, hfall⟩

end Transfers

/-! ## One event -/

section Step

variable {P : ListedProgram} {isa : WaveIsa ρ μ ω} {cap : ℕ} {d d' : Dispatch ρ μ n} {g : Guest ρ μ n}
  {wave : Fin (n + 1)} {env : ω}

theorem select_cases (h : dispatchStep isa P.insts cap d (.select : Event n ω) = some d') :
    d.exited = false ∧ (∀ wave, (d.wave wave).todo = none) ∧
      ((∃ choice, choice = leaderChoice P.insts (List.ofFn fun wave => (d.wave wave).state) ∧ choice < kExit P.insts ∧
          d' = ⟨d.mem, fun wave => { d.wave wave with
            active := (d.wave wave).state = choice, todo := some (blockBody P.insts choice) },
            choice, d.iter + 1, false⟩) ∨
        ((overCap cap d.iter = true ∨
            kExit P.insts ≤ leaderChoice P.insts (List.ofFn fun wave => (d.wave wave).state)) ∧
          d' = { d with iter := d.iter + 1, exited := true })) := by
  simp only [dispatchStep] at h
  split at h
  · cases h
  · rename_i hwait
    obtain ⟨hexit, htodo⟩ := not_or.mp hwait
    refine ⟨by simpa using hexit, fun wave => ?_, ?_⟩
    · by_contra hne
      exact htodo ⟨wave, hne⟩
    · by_cases hover : overCap cap d.iter = true
      · simp only [hover, if_true, Nat.lt_irrefl, if_false, Option.some.injEq] at h
        exact .inr ⟨.inl hover, h.symm⟩
      · simp only [hover, Bool.false_eq_true, if_false] at h
        split at h
        · rename_i hlt
          exact .inl ⟨_, rfl, hlt, (Option.some.inj h).symm⟩
        · rename_i hge
          exact .inr ⟨.inr (Nat.not_lt.mp hge), (Option.some.inj h).symm⟩

theorem WaveAt.waiting {program : Program} {choice : ℕ} {lw : LoopWave ρ} {gw : GuestWave ρ}
    (h : WaveAt program choice lw gw) (htodo : lw.todo = none) :
    gw.regs = lw.regs ∧ lw.state ≤ kExit program ∧ SamePlace program (startOf program lw.state) gw.pc := by
  cases h with
  | waits hregs _ hle hplace => exact ⟨hregs, hle, hplace⟩
  | runs _ _ hsome => rw [htodo] at hsome; cases hsome

theorem BarriersMet.equal {lw : Fin (n + 1) → LoopWave ρ} {gw : Fin (n + 1) → GuestWave ρ}
    (h : BarriersMet lw gw) (htodo : ∀ wave, (lw wave).todo = none) : ∃ k, ∀ wave, (gw wave).passed = k := by
  obtain ⟨k, hall | ⟨barrier, -, hall⟩⟩ := h
  · exact ⟨k, fun wave => (hall wave).1⟩
  · refine ⟨k + 1, fun wave => ?_⟩
    rcases hall wave with ⟨-, hsome, -⟩ | ⟨-, hpassed⟩
    · rw [htodo wave] at hsome
      cases hsome
    · exact hpassed

/-- **A selection keeps the waves where they are.** Where it is the block of a barrier, it is that of every
wave. -/
theorem Simulates.select (hs : Simulates P.insts d g) (hclear : Orderly P.insts cap d (.select : Event n ω))
    (h : dispatchStep isa P.insts cap d (.select : Event n ω) = some d') : Simulates P.insts d' g := by
  obtain ⟨hexit, htodo, ⟨choice, hchoice, hlt, rfl⟩ | ⟨hend, rfl⟩⟩ := select_cases h
  · have hlead := leaderChoice_cases P.insts fun wave => (d.wave wave).state
    rw [← hchoice] at hlead
    refine ⟨hs.mem, fun wave => ?_, ?_, fun h => by cases h⟩
    · obtain ⟨hregs, hle, hplace⟩ := (hs.waves wave).waiting (htodo wave)
      by_cases hown : (d.wave wave).state = choice
      · rw [hown] at hplace
        refine .runs hregs (by simpa using hown) rfl hown hlt hplace.between (fun inst hinst hend => ?_)
          (fun inst hinst => hinst)
        have hstart := startOf_lt (P := P) (Nat.lt_succ_self choice) hlt
        exact (hplace inst hinst).mp (Nat.le_trans (Nat.le_of_lt hstart) hend)
      · exact .waits hregs (fun hactive => absurd (by simpa using hactive) hown) hle hplace
    · obtain ⟨k, hpassed⟩ := hs.barriers.equal htodo
      by_cases hbar : ∃ barrier ∈ P.insts, isBarrier barrier = true ∧ blockOf P.insts barrier.pc = choice
      · obtain ⟨barrier, hbarrier, his, hof⟩ := hbar
        refine ⟨k, .inr ⟨barrier, his, fun wave => .inl ⟨?_, ?_, hpassed wave⟩⟩⟩
        · rcases hlead with hall | hrun | ⟨hexit', -⟩
          · simpa using hall wave
          · rw [not_barrier_of_runnable hrun hbarrier hof] at his
            cases his
          · omega
        · rw [← hof, blockBody_barrier hbarrier his]
      · refine ⟨k, .inl fun wave => ⟨hpassed wave, fun left _ hleft inst hinst => ?_⟩⟩
        obtain rfl := Option.some.inj hleft
        by_contra hne
        have his : isBarrier inst = true := by simpa using hne
        exact hbar ⟨inst, (mem_between.mp hinst).1, his, blockOf_of_mem_body hinst hlt⟩
  · refine ⟨hs.mem, hs.waves, hs.barriers, fun _ wave => ⟨htodo wave, ?_⟩⟩
    have hge : kExit P.insts ≤ leaderChoice P.insts (List.ofFn fun wave => (d.wave wave).state) := by
      rcases hend with hover | hge
      · have hbelow : overCap cap d.iter = false := hclear.1
        rw [hover] at hbelow
        cases hbelow
      · exact hge
    rcases leaderChoice_cases P.insts fun wave => (d.wave wave).state with
      hall | hrun | ⟨heq, hnone⟩
    · rw [hall wave]
      exact hge
    · exact absurd (lt_of_runnable hrun) (Nat.not_lt.mpr hge)
    · rcases hclear.2 with ⟨other, hrun⟩ | hsame
      · exact absurd hrun (hnone other)
      · -- all waves are at one block, which the leader has picked
        have hpick : leaderChoice P.insts (List.ofFn fun wave => (d.wave wave).state) =
            (d.wave wave).state := by
          unfold leaderChoice
          dsimp only
          rw [if_pos]
          · simp [List.ofFn_succ, hsame 0 wave]
          · rw [List.all_eq_true]
            intro pc hpc
            obtain ⟨other, rfl⟩ := List.mem_ofFn.mp hpc
            simpa [List.ofFn_succ] using hsame other 0
        rw [← hpick]
        exact hge

theorem exec_cases (h : dispatchStep isa P.insts cap d (.exec wave env) = some d') :
    ∃ lw mem, d' = { d with mem := mem, wave := Function.update d.wave wave lw } ∧
      (((d.wave wave).todo = some [] ∧ mem = d.mem ∧
          lw = { d.wave wave with
            state := storePrivate (d.wave wave).active (fallOf P.insts d.choice) (d.wave wave).state
            todo := none }) ∨
        ∃ inst rest, (d.wave wave).todo = some (inst :: rest) ∧ ((transfers inst = true ∧ mem = d.mem ∧
              lw = { d.wave wave with
                state := storePrivate (d.wave wave).active
                  (loopTransferState P.insts d.choice inst (d.wave wave).regs) (d.wave wave).state
                regs := storePrivate (d.wave wave).active
                  (loopTransferRegs P.insts d.choice inst (d.wave wave).regs) (d.wave wave).regs
                todo := none }) ∨
            (transfers inst = false ∧ mem = storePrivate (d.wave wave).active
                (emitInst isa inst env ((d.wave wave).regs, d.mem)).2 d.mem ∧
              lw = { d.wave wave with
                regs := storePrivate (d.wave wave).active
                  (emitInst isa inst env ((d.wave wave).regs, d.mem)).1 (d.wave wave).regs
                todo := some rest }))) := by
  simp only [dispatchStep, Option.map_eq_some_iff] at h
  obtain ⟨⟨lw, mem⟩, hexec, rfl⟩ := h
  refine ⟨lw, mem, rfl, ?_⟩
  unfold execWave at hexec
  split at hexec
  · cases hexec
  · rename_i htodo
    obtain ⟨rfl, rfl⟩ := Prod.mk.inj (Option.some.inj hexec)
    exact .inl ⟨htodo, rfl, rfl⟩
  · rename_i inst rest htodo
    refine .inr ⟨inst, rest, htodo, ?_⟩
    split at hexec
    · rename_i htr
      obtain ⟨rfl, rfl⟩ := Prod.mk.inj (Option.some.inj hexec)
      exact .inl ⟨htr, rfl, rfl⟩
    · rename_i htr
      obtain ⟨rfl, rfl⟩ := Prod.mk.inj (Option.some.inj hexec)
      exact .inr ⟨by simpa using htr, rfl, rfl⟩

theorem Simulates.update (hs : Simulates P.insts d g) (mem : μ) (htodo : (d.wave wave).todo ≠ none)
    {lw : LoopWave ρ} {gw : GuestWave ρ} (hwave : WaveAt P.insts d.choice lw gw)
    (hbarriers : BarriersMet (Function.update d.wave wave lw) (Function.update g.wave wave gw)) :
    Simulates P.insts { d with mem := mem, wave := Function.update d.wave wave lw }
      ⟨mem, Function.update g.wave wave gw⟩ := by
  refine ⟨rfl, fun other => ?_, hbarriers, fun hexit => absurd (hs.ended hexit wave).1 htodo⟩
  by_cases hother : other = wave
  · subst hother
    dsimp only
    rw [Function.update_self, Function.update_self]
    exact hwave
  · dsimp only
    rw [Function.update_of_ne hother, Function.update_of_ne hother]
    exact hs.waves other

theorem BarriersMet.advance {lw : Fin (n + 1) → LoopWave ρ} {gw : Fin (n + 1) → GuestWave ρ}
    (h : BarriersMet lw gw) (lw' : LoopWave ρ) (gw' : GuestWave ρ) (hactive : lw'.active = (lw wave).active)
    (htodo : (lw wave).todo ≠ none)
    (hsub : ∀ left, lw'.todo = some left → ∃ inst, (lw wave).todo = some (inst :: left))
    (hplain : ∀ inst rest, (lw wave).active = true → (lw wave).todo = some (inst :: rest) → isBarrier inst = false)
    (hpassed : gw'.passed = (gw wave).passed) :
    BarriersMet (Function.update lw wave lw') (Function.update gw wave gw') := by
  obtain ⟨k, hall | ⟨barrier, his, hall⟩⟩ := h
  · refine ⟨k, .inl fun other => ?_⟩
    by_cases hother : other = wave
    · subst hother
      rw [Function.update_self, Function.update_self]
      refine ⟨hpassed.trans (hall other).1, fun left hact hleft inst hinst => ?_⟩
      obtain ⟨first, hfirst⟩ := hsub left hleft
      exact (hall other).2 _ (hactive ▸ hact) hfirst inst (List.mem_cons_of_mem _ hinst)
    · rw [Function.update_of_ne hother, Function.update_of_ne hother]
      exact hall other
  · refine ⟨k, .inr ⟨barrier, his, fun other => ?_⟩⟩
    by_cases hother : other = wave
    · subst hother
      rw [Function.update_self, Function.update_self]
      rcases hall other with ⟨hact, hsome, -⟩ | ⟨hnone | hnil, hk⟩
      · rw [hplain barrier [] hact hsome] at his
        cases his
      · exact absurd hnone htodo
      · refine .inr ⟨.inl ?_, hpassed.trans hk⟩
        cases hnew : lw'.todo with
        | none => rfl
        | some left =>
          obtain ⟨first, hfirst⟩ := hsub left hnew
          rw [hnil] at hfirst
          cases hfirst
    · rw [Function.update_of_ne hother, Function.update_of_ne hother]
      exact hall other

theorem Simulates.barrier (hs : Simulates P.insts d g) (hactive : (d.wave wave).active = true) {inst : Inst}
    {rest : List Inst} (htodo : (d.wave wave).todo = some (inst :: rest)) (hbar : isBarrier inst = true) :
    rest = [] ∧ (∀ other, Reached P.insts (g.wave wave) (g.wave other)) ∧
      ∀ (lw : LoopWave ρ) (gw : GuestWave ρ), lw.todo = some [] → gw.passed = (g.wave wave).passed + 1 →
        BarriersMet (Function.update d.wave wave lw) (Function.update g.wave wave gw) := by
  obtain ⟨k, hall | ⟨barrier, his, hall⟩⟩ := hs.barriers
  · rw [(hall wave).2 _ hactive htodo inst List.mem_cons_self] at hbar
    cases hbar
  · have hself : rest = [] ∧ (g.wave wave).passed = k := by
      rcases hall wave with ⟨-, hsome, hk⟩ | ⟨hnone | hnil, -⟩
      · rw [htodo] at hsome
        exact ⟨(List.cons.inj (Option.some.inj hsome)).2, hk⟩
      · rw [htodo] at hnone
        cases hnone
      · rw [htodo] at hnil
        cases hnil
    refine ⟨hself.1, fun other => ?_, fun lw gw hlw hgw => ⟨k, .inr ⟨barrier, his, fun other => ?_⟩⟩⟩
    · rcases hall other with ⟨hact, hsome, hk⟩ | ⟨-, hk⟩
      · refine .inr (.inr ⟨hk.trans hself.2.symm, ?_⟩)
        cases hs.waves other with
        | waits _ hnone =>
          rw [hnone hact] at hsome
          cases hsome
        | runs _ _ hsome' _ _ hleft =>
          obtain rfl := Option.some.inj (hsome.symm.trans hsome')
          rw [(between_cons hleft.symm).1]
          exact his
      · exact .inr (.inl (by omega))
    · by_cases hother : other = wave
      · subst hother
        rw [Function.update_self, Function.update_self]
        exact .inr ⟨.inr hlw, hgw.trans (by rw [hself.2])⟩
      · rw [Function.update_of_ne hother, Function.update_of_ne hother]
        exact hall other

theorem WaveAt.running {program : Program} {choice : ℕ} {lw : LoopWave ρ} {gw : GuestWave ρ} {left : List Inst}
    (h : WaveAt program choice lw gw) (hactive : lw.active = true) (htodo : lw.todo = some left) :
    gw.regs = lw.regs ∧ lw.state = choice ∧ choice < kExit program ∧
      left = between program gw.pc (startOf program (choice + 1)) ∧
      (∀ inst ∈ program, startOf program (choice + 1) ≤ inst.pc → gw.pc ≤ inst.pc) ∧
      ∀ inst ∈ left, inst ∈ blockBody program choice := by
  cases h with
  | waits _ hnone =>
    rw [hnone hactive] at htodo
    cases htodo
  | runs hregs _ hsome hstate hlt hleft hend hbody =>
    obtain rfl := Option.some.inj (htodo.symm.trans hsome)
    exact ⟨hregs, hstate, hlt, hleft, hend, hbody⟩

theorem Simulates.exec_inactive (hs : Simulates P.insts d g) (hactive : (d.wave wave).active = false)
    (h : dispatchStep isa P.insts cap d (.exec wave env) = some d') : Simulates P.insts d' g := by
  have hkeep : ∀ (lw : LoopWave ρ), (d.wave wave).todo ≠ none → lw.active = false →
      lw.state = (d.wave wave).state → lw.regs = (d.wave wave).regs →
      (∀ left, lw.todo = some left → ∃ inst, (d.wave wave).todo = some (inst :: left)) →
      Simulates P.insts { d with wave := Function.update d.wave wave lw } g := by
    intro lw htodo hact hstate hregs hsub
    have hwave : WaveAt P.insts d.choice lw (g.wave wave) := by
      cases hs.waves wave with
      | waits hr _ hle hplace =>
        refine .waits (hregs ▸ hr) (fun ha => ?_) (hstate ▸ hle) (hstate ▸ hplace)
        rw [hact] at ha
        cases ha
      | runs _ ha =>
        rw [hactive] at ha
        cases ha
    have hbarriers := hs.barriers.advance lw (g.wave wave) (hact.trans hactive.symm) htodo hsub
      (fun _ _ ha => by rw [hactive] at ha; cases ha) rfl
    have hnew := hs.update d.mem htodo hwave hbarriers
    rw [Function.update_eq_self] at hnew
    exact ⟨hs.mem, hnew.waves, by simpa using hnew.barriers, hnew.ended⟩
  obtain ⟨lw, mem, rfl, ⟨htodo, rfl, rfl⟩ | ⟨inst, rest, htodo, ⟨-, rfl, rfl⟩ | ⟨-, rfl, rfl⟩⟩⟩ := exec_cases h
  · rw [hactive, storePrivate_false]
    exact hkeep _ (by simp [htodo]) hactive rfl rfl (fun left hleft => by cases hleft)
  · rw [hactive, storePrivate_false, storePrivate_false]
    exact hkeep _ (by simp [htodo]) hactive rfl rfl (fun left hleft => by cases hleft)
  · rw [hactive, storePrivate_false, storePrivate_false]
    refine hkeep _ (by simp [htodo]) hactive rfl rfl fun left hleft => ⟨inst, ?_⟩
    rw [htodo, Option.some.inj hleft]

theorem behind_le_of_body {block : ℕ} {inst : Inst} (hinst : inst ∈ blockBody P.insts block) :
    ∀ i ∈ P.insts, startOf P.insts (block + 1) ≤ i.pc → inst.behind ≤ i.pc := by
  intro i hi hend
  obtain ⟨hmem, -, hlt⟩ := mem_between.mp hinst
  exact P.behind_le hmem hi (Nat.lt_of_lt_of_le hlt hend)

/-- **A wave in its block takes the step that it takes on its own.** -/
theorem Simulates.exec_active (hs : Simulates P.insts d g) (hactive : (d.wave wave).active = true)
    (hfollowed : ∀ inst ∈ ((d.wave wave).todo.getD []).head?, Followed P.insts inst (d.wave wave).regs)
    (h : dispatchStep isa P.insts cap d (.exec wave env) = some d') :
    ∃ g', (guestSystem isa P.insts n).exec g (ownStep d (.exec wave env)) = some g' ∧ Simulates P.insts d' g' := by
  obtain ⟨lw, mem, rfl, ⟨htodo, rfl, rfl⟩ | ⟨inst, rest, htodo, hcase⟩⟩ := exec_cases h
  · -- the end of a block without a transfer
    have hne : (d.wave wave).todo ≠ none := by simp [htodo]
    obtain ⟨hregs, hstate, hlt, hleft, hend, -⟩ := (hs.waves wave).running hactive htodo
    have hplace := samePlace_of_between_nil hleft.symm hend
    refine ⟨g, by simp [ownStep, hactive, htodo], ?_⟩
    rw [hactive, storePrivate_true]
    have hwave : WaveAt P.insts d.choice
        { d.wave wave with state := fallOf P.insts d.choice, todo := none } (g.wave wave) := by
      refine .waits hregs (fun _ => rfl) fallOf_le ?_
      dsimp only
      rwa [startOf_fallOf]
    have hbarriers := hs.barriers.advance
      { d.wave wave with state := fallOf P.insts d.choice, todo := none } (g.wave wave) rfl hne (fun left hl => by cases hl)
      (fun _ _ _ hsome => by rw [htodo] at hsome; cases hsome) rfl
    have hnew := hs.update d.mem hne hwave hbarriers
    rw [Function.update_eq_self] at hnew
    exact ⟨hs.mem, hnew.waves, by simpa using hnew.barriers, hnew.ended⟩
  · have hne : (d.wave wave).todo ≠ none := by simp [htodo]
    obtain ⟨hregs, hstate, hlt, hleft, hend, hbody⟩ := (hs.waves wave).running hactive htodo
    obtain ⟨hfetch, hrest⟩ := between_cons hleft.symm
    have hinst := hbody inst List.mem_cons_self
    have hmem := (mem_between.mp hinst).1
    have hf : Followed P.insts inst (d.wave wave).regs := hfollowed inst (by simp [htodo])
    have hown : ownStep d (.exec wave env) = [(wave, env)] := by simp [ownStep, hactive, htodo]
    rw [hown, LabelledSystem.exec_cons]
    rcases hcase with ⟨htr, rfl, rfl⟩ | ⟨htr, rfl, rfl⟩
    · have hbar : isBarrier inst = false := not_barrier_of_transfers htr
      obtain ⟨hle, hplace⟩ := transferState_place isa hinst hlt htr hf
      rw [hactive, storePrivate_true, storePrivate_true]
      refine ⟨g.setWave wave ⟨guestTransferPc isa P.insts inst (g.wave wave).regs,
        guestTransferRegs P.insts inst (g.wave wave).regs, (g.wave wave).passed⟩, ?_, ?_⟩
      · simp [guestSystem, guestStep, hfetch, hbar, htr]
      · rw [hregs, transferRegs_eq hinst hlt hf]
        have hwave : WaveAt P.insts d.choice
            { d.wave wave with
              state := loopTransferState P.insts d.choice inst (d.wave wave).regs
              regs := loopTransferRegs P.insts d.choice inst (d.wave wave).regs
              todo := none }
            ⟨guestTransferPc isa P.insts inst (d.wave wave).regs,
              loopTransferRegs P.insts d.choice inst (d.wave wave).regs, (g.wave wave).passed⟩ :=
          .waits rfl (fun _ => rfl) hle hplace
        have hnew := hs.update d.mem hne hwave (hs.barriers.advance _ _ rfl hne (fun left hl => by cases hl)
          (fun _ _ _ hsome => by
            obtain ⟨rfl, -⟩ := List.cons.inj (Option.some.inj (htodo.symm.trans hsome))
            exact hbar) rfl)
        rw [Guest.setWave, hs.mem]
        exact hnew
    · rw [hactive, storePrivate_true, storePrivate_true]
      by_cases hbar : isBarrier inst = true
      · obtain ⟨rfl, hreached, hpassed⟩ := hs.barrier hactive htodo hbar
        refine ⟨g.setWave wave ⟨inst.behind, (g.wave wave).regs, (g.wave wave).passed + 1⟩, ?_, ?_⟩
        · simp [guestSystem, guestStep, hfetch, hbar, hreached]
        · have hemit : emitInst isa inst env ((d.wave wave).regs, d.mem) = ((d.wave wave).regs, d.mem) :=
            if_pos hbar
          rw [hemit]
          have hwave : WaveAt P.insts d.choice { d.wave wave with todo := some [] }
              ⟨inst.behind, (g.wave wave).regs, (g.wave wave).passed + 1⟩ :=
            .runs hregs hactive rfl hstate hlt hrest (behind_le_of_body hinst) (fun i hi => by cases hi)
          have hnew := hs.update d.mem hne hwave (hpassed _ _ rfl rfl)
          rw [Guest.setWave, hs.mem]
          exact hnew
      · have hplain : isBarrier inst = false := by simpa using hbar
        have hemit : emitInst isa inst env ((d.wave wave).regs, d.mem) =
            isa.effect inst env ((d.wave wave).regs, d.mem) := if_neg hbar
        rw [hemit]
        refine ⟨{ g.setWave wave ⟨inst.behind, (isa.effect inst env ((d.wave wave).regs, d.mem)).1,
          (g.wave wave).passed⟩ with mem := (isa.effect inst env ((d.wave wave).regs, d.mem)).2 }, ?_, ?_⟩
        · simp [guestSystem, guestStep, hfetch, hplain, htr, hf.1, hregs, hs.mem]
        · have hwave : WaveAt P.insts d.choice
              { d.wave wave with
                regs := (isa.effect inst env ((d.wave wave).regs, d.mem)).1
                todo := some rest }
              ⟨inst.behind, (isa.effect inst env ((d.wave wave).regs, d.mem)).1, (g.wave wave).passed⟩ :=
            .runs rfl hactive rfl hstate hlt hrest (behind_le_of_body hinst)
              (fun i hi => hbody i (List.mem_cons_of_mem _ hi))
          exact hs.update _ hne hwave (hs.barriers.advance _ _ rfl hne
            (fun left hl => ⟨inst, by rw [htodo, Option.some.inj hl]⟩)
            (fun _ _ _ hsome => by
              obtain ⟨rfl, -⟩ := List.cons.inj (Option.some.inj (htodo.symm.trans hsome))
              exact hplain) rfl)

/-- **An event of the loop is a step of a wave of its own, or none.** -/
theorem Simulates.step {event : Event n ω} (hs : Simulates P.insts d g) (hclear : Orderly P.insts cap d event)
    (h : dispatchStep isa P.insts cap d event = some d') :
    ∃ g', (guestSystem isa P.insts n).exec g (ownStep d event) = some g' ∧ Simulates P.insts d' g' := by
  cases event with
  | select => exact ⟨g, rfl, hs.select hclear h⟩
  | exec wave env =>
    cases hactive : (d.wave wave).active with
    | false => exact ⟨g, by simp [ownStep, hactive], hs.exec_inactive hactive h⟩
    | true => exact hs.exec_active hactive (hclear.2 hactive) h

/-- **Only the waves whose block is selected change.** -/
theorem Simulates.ownBlockOnly {event : Event n ω} (hs : Simulates P.insts d g)
    (h : dispatchStep isa P.insts cap d event = some d') : OwnBlockOnly d event d' := by
  intro wave hother
  cases event with
  | select =>
    obtain ⟨-, -, ⟨choice, -, -, rfl⟩ | ⟨-, rfl⟩⟩ := select_cases h
    · exact ⟨rfl, rfl⟩
    · exact ⟨rfl, rfl⟩
  | exec moved env =>
    obtain ⟨lw, mem, rfl, hcase⟩ := exec_cases h
    dsimp only
    by_cases hmoved : wave = moved
    · subst hmoved
      rw [Function.update_self]
      -- an active wave with something to do is in the selected block
      have hinactive : (d.wave wave).todo ≠ none → (d.wave wave).active = false := fun hne => by
        obtain ⟨left, hleft⟩ := Option.ne_none_iff_exists'.mp hne
        by_contra hactive
        exact hother ((hs.waves wave).running (by simpa using hactive) hleft).2.1
      obtain ⟨htodo, -, rfl⟩ | ⟨inst, rest, htodo, ⟨-, -, rfl⟩ | ⟨-, -, rfl⟩⟩ := hcase
      all_goals
        rw [hinactive (by simp [htodo])]
        exact ⟨rfl, rfl⟩
    · rw [Function.update_of_ne hmoved]
      exact ⟨rfl, rfl⟩

theorem Simulates.start (P : ListedProgram) (regs : Fin (n + 1) → WaveRegs ρ) (mem : μ) :
    Simulates P.insts (dispatchStart regs mem) (guestStart regs mem) := by
  refine ⟨rfl, fun wave => .waits rfl (fun _ => rfl) (Nat.zero_le _) ?_,
    ⟨0, .inl fun wave => ⟨rfl, fun left hactive => by cases hactive⟩⟩, fun h => by cases h⟩
  -- a program starts with its first block
  intro inst hinst
  have hmax := P.lt_maxPc hinst
  have hmem : 0 ∈ scheduledStarts P.insts :=
    mem_scheduledStarts.mpr (.inl (mem_blockStarts.mpr ⟨.inl rfl, by omega⟩))
  obtain ⟨k, hk, hzero⟩ := List.getElem_of_mem hmem
  have hpos : 0 < kExit P.insts := Nat.lt_of_le_of_lt (Nat.zero_le k) hk
  have hstart : startOf P.insts 0 = 0 := by
    rcases Nat.eq_zero_or_pos k with rfl | hk0
    · rw [startOf_of_lt hk, hzero]
    · have hlt := startOf_lt (P := P) hk0 hpos
      rw [startOf_of_lt hk, hzero] at hlt
      omega
  simp [dispatchStart, guestStart, hstart]

end Step

/-! ## Runs -/

section Runs

variable {P : ListedProgram} {isa : WaveIsa ρ μ ω} {cap : ℕ}

theorem Simulates.run {events : List (Event n ω)} {d d' : Dispatch ρ μ n} {g : Guest ρ μ n}
    (hs : Simulates P.insts d g) (hmeets : (dispatchSystem isa P.insts cap n).Meets (Orderly P.insts cap) d events)
    (hrun : (dispatchSystem isa P.insts cap n).exec d events = some d') :
    (dispatchSystem isa P.insts cap n).EveryStep OwnBlockOnly d events ∧
      ∃ g', (guestSystem isa P.insts n).exec g (ownSteps isa P.insts cap d events) = some g' ∧
        Simulates P.insts d' g' := by
  induction events generalizing d g with
  | nil => exact ⟨trivial, g, rfl, Option.some.inj hrun ▸ hs⟩
  | cons event events ih =>
    obtain ⟨m, hstep, hrest⟩ := Option.bind_eq_some_iff.mp hrun
    obtain ⟨g₁, hg₁, hs₁⟩ := hs.step hmeets.1 hstep
    obtain ⟨hevery, g₂, hg₂, hs₂⟩ := ih hs₁ (hmeets.2 m hstep) hrest
    refine ⟨fun m' hm' => ⟨hs.ownBlockOnly hm', ?_⟩, g₂, ?_, hs₂⟩
    · obtain rfl := Option.some.inj (hstep.symm.trans hm')
      exact hevery
    · have hstep' : dispatchStep isa P.insts cap d event = some m := hstep
      rw [ownSteps, hstep', LabelledSystem.exec_append, hg₁]
      exact hg₂

/-- **The scheduled loop runs every wave to its own end**, in every run below the cap whose turns find the
waves together and whose waves execute what the lowering follows. -/
theorem scheduled_runs_to_end (P : ListedProgram) (isa : WaveIsa ρ μ ω) (cap : ℕ)
    (regs : Fin (n + 1) → WaveRegs ρ) (mem : μ) (events : List (Event n ω)) (d : Dispatch ρ μ n)
    (hmeets : (dispatchSystem isa P.insts cap n).Meets (Orderly P.insts cap) (dispatchStart regs mem) events)
    (hrun : (dispatchSystem isa P.insts cap n).exec (dispatchStart regs mem) events = some d) :
    RunsToEnd isa P.insts cap regs mem events d := by
  obtain ⟨hevery, g, hg, hs⟩ := (Simulates.start P regs mem).run hmeets hrun
  refine ⟨hevery, g, hg, hs.mem, fun wave => ?_, fun hexit wave => ?_⟩
  · cases hs.waves wave with
    | waits hregs => exact hregs
    | runs hregs => exact hregs
  · obtain ⟨htodo, hge⟩ := hs.ended hexit wave
    obtain ⟨-, -, hplace⟩ := (hs.waves wave).waiting htodo
    rw [startOf_of_le hge] at hplace
    rw [← hplace.fetch]
    exact fetch_past (Nat.le_refl _)

end Runs

/-! ## Waves at a barrier -/

/-- `s_cbranch_scc0` over an `s_barrier` to an `s_endpgm`. -/
def barrierCode : Gcn.Code := fun i => [0xBF840001, 0xBF8A0000, 0xBF810000].getD i 0

def barrierProgram : ListedProgram :=
  .ofDecoded barrierCode 3 (decodeShader barrierCode 3) (List.Sublist.refl _)

/-- Instructions that do nothing. -/
def idleIsa : WaveIsa Unit Unit Unit := ⟨fun _ _ s => s, fun _ _ => 0⟩

def meetingRegs : Fin 2 → WaveRegs Unit := fun _ => ⟨1, fun _ => 0, ()⟩

def firstWave : Fin 2 := ⟨0, Nat.zero_lt_succ 1⟩

def otherWave : Fin 2 := ⟨1, Nat.one_lt_two⟩

def meetingEvents : List (Event 1 Unit) :=
  [.select, .exec firstWave (), .exec otherWave (), .select, .exec otherWave (), .exec firstWave (),
    .exec firstWave (), .exec otherWave (), .select, .exec firstWave (), .exec otherWave (), .select]

/-- The loop behind the events. -/
def meetingEnd : Dispatch Unit Unit 1 :=
  ((dispatchSystem idleIsa barrierProgram.insts 0 1).exec (dispatchStart meetingRegs ()) meetingEvents).getD
    (dispatchStart meetingRegs ())

theorem scheduled_runs_to_end_meeting :
    meetingEnd.exited = true ∧ RunsToEnd idleIsa barrierProgram.insts 0 meetingRegs () meetingEvents meetingEnd := by
  refine ⟨by decide +kernel, scheduled_runs_to_end barrierProgram idleIsa 0 meetingRegs () meetingEvents meetingEnd
    (by decide +kernel) ?_⟩
  have hsome : ((dispatchSystem idleIsa barrierProgram.insts 0 1).exec (dispatchStart meetingRegs ())
      meetingEvents).isSome = true := by decide +kernel
  obtain ⟨d, hd⟩ := Option.isSome_iff_exists.mp hsome
  rw [meetingEnd, hd]
  rfl

theorem belowCap_zero (d : Dispatch Unit Unit 1) (event : Event 1 Unit) : BelowCap 0 d event := by
  cases event with
  | select => rfl
  | exec => trivial

def partingRegs : Fin 2 → WaveRegs Unit := fun wave => ⟨wave.val, fun _ => 0, ()⟩

def partingEvents : List (Event 1 Unit) :=
  [.select, .exec firstWave (), .exec otherWave (), .select, .exec firstWave (), .exec otherWave (), .select]

/-- **The loop ends with a wave at a barrier** that another has jumped over: it has no block to pick. -/
theorem wave_left_at_barrier :
    ¬∀ (P : ListedProgram) (isa : WaveIsa Unit Unit Unit) (cap : ℕ) (regs : Fin 2 → WaveRegs Unit)
      (events : List (Event 1 Unit)) (d : Dispatch Unit Unit 1),
      (dispatchSystem isa P.insts cap 1).Meets (BelowCap cap) (dispatchStart regs ()) events →
      (dispatchSystem isa P.insts cap 1).exec (dispatchStart regs ()) events = some d →
      RunsToEnd isa P.insts cap regs () events d := by
  intro h
  have hexit : (((dispatchSystem idleIsa barrierProgram.insts 0 1).exec (dispatchStart partingRegs ())
      partingEvents).any fun d => d.exited) = true := by decide +kernel
  obtain ⟨d, hd, hexited⟩ := (Option.any_eq_true _ _).mp hexit
  obtain ⟨-, g, hg, -, -, hend⟩ := h barrierProgram idleIsa 0 partingRegs partingEvents d
    (LabelledSystem.meets_of_forall _ belowCap_zero _ _) hd
  have hleft : (((guestSystem idleIsa barrierProgram.insts 1).exec (guestStart partingRegs ())
      (ownSteps idleIsa barrierProgram.insts 0 (dispatchStart partingRegs ()) partingEvents)).all fun g =>
        (fetch barrierProgram.insts (g.wave 1).pc).isSome) = true := by decide +kernel
  rw [hg, Option.all_some, hend hexited 1] at hleft
  cases hleft

end Prosperity.Rdna
