import Mathlib.Logic.Relation
import Prosperity.Rdna.Decode

/-!
# Reachable RDNA instructions

`ComputeRdnaReachability`: which basic blocks of a decoded program the control gets to from its
first instruction. In a program that calls, an `s_setpc_b64` is a return and ends its block.
-/

namespace Prosperity.Rdna

/-! ## The pass -/

/-- `s_call_b64` -/
def isCall (inst : Inst) : Bool := inst.enc = .kSopk && inst.opcode = 0x16

/-- `s_setpc_b64` -/
def isSetpc (inst : Inst) : Bool := inst.enc = .kSop1 && inst.opcode = 0x20

def hasCall (program : Program) : Bool := program.any isCall

/-- `branch_kind`. The debugger's conditional branches, 0x17 to 0x1a, fall through. -/
def flowOf (calls : Bool) (inst : Inst) : FlowKind :=
  if inst.enc = .kSopk then
    if inst.opcode = 0x16 ∨ inst.opcode = 0x1b ∨ inst.opcode = 0x1c then .conditional
    else .ordinary
  else if inst.enc = .kSop1 then
    if inst.opcode = 0x20 ∧ calls = true then .ends
    else if 0x20 ≤ inst.opcode ∧ inst.opcode ≤ 0x22 then .indirect
    else .ordinary
  else if inst.enc ≠ .kSopp then .ordinary
  else if inst.opcode ∈ [0x01, 0x1b, 0x1e, 0x1f] then .ends
  else if inst.opcode = 0x02 then .relative
  else if inst.opcode ∈ [0x04, 0x05, 0x06, 0x07, 0x08, 0x09] then .conditional
  else .ordinary

def blocks (program : Program) : Listing Inst := listing (flowOf (hasCall program))

def computeRdnaReachability (program : Program) : List Bool :=
  program.map fun inst =>
    ((blocks program).blockReachable program).getD ((blocks program).blockOf program inst.pc) false

def reachableProgram (program : Program) : Program :=
  (program.zip (computeRdnaReachability program)).filterMap fun (inst, live) =>
    if live then some inst else none

/-! ## Runs -/

structure Control where
  pc : ℕ
  returns : List ℕ

/-- The instruction that runs when the control is at `pc`. -/
def fetch (program : Program) (pc : ℕ) : Option Inst := program.find? fun inst => pc ≤ inst.pc

/-- One instruction of a run. A return goes behind any call that the run has made, whichever
registers carried the address there. -/
inductive Step (program : Program) : Control → Control → Prop where
  | call {s : Control} {inst : Inst} : fetch program s.pc = some inst → isCall inst = true →
      Step program s ⟨(blocks program).target inst, (inst.pc + inst.size) :: s.returns⟩
  | ret {s : Control} {inst : Inst} {pc : ℕ} : fetch program s.pc = some inst →
      isSetpc inst = true → pc ∈ s.returns → Step program s ⟨pc, s.returns⟩
  | other {s : Control} {inst : Inst} {pc : ℕ} : fetch program s.pc = some inst →
      isCall inst = false → (blocks program).Goes inst pc → Step program s ⟨pc, s.returns⟩

/-- A run from the first instruction gets to `inst`. -/
def Executed (program : Program) (inst : Inst) : Prop :=
  ∃ s, Relation.ReflTransGen (Step program) ⟨0, []⟩ s ∧ fetch program s.pc = some inst

/-! ## Soundness -/

section Soundness

variable {program : Program} {s s' : Control} {inst : Inst}

theorem flowOf_call (calls : Bool) (h : isCall inst = true) : flowOf calls inst = .conditional := by
  simp only [isCall, Bool.and_eq_true, decide_eq_true_eq] at h
  simp [flowOf, h.1, h.2]

structure Covered (program : Program) (s : Control) : Prop where
  here : ∀ inst, fetch program s.pc = some inst → (blocks program).Executed program inst
  behind : ∀ pc ∈ s.returns, ∀ inst, fetch program pc = some inst → (blocks program).Executed program inst

theorem Covered.step (h : Covered program s) (hstep : Step program s s') : Covered program s' := by
  cases hstep with
  | call hfetch hcall =>
    have hexec := h.here _ hfetch
    have hflow : (blocks program).flow _ = .conditional := flowOf_call (hasCall program) hcall
    refine ⟨fun inst' hfetch' => .next hexec (.taken hflow) hfetch', fun pc hpc inst' hfetch' => ?_⟩
    rcases List.mem_cons.mp hpc with rfl | hpc
    · exact hexec.behind hflow hfetch'
    · exact h.behind pc hpc inst' hfetch'
  | ret hfetch hsetpc hpc => exact ⟨h.behind _ hpc, h.behind⟩
  | other hfetch hcall hgoes =>
    exact ⟨fun inst' hfetch' => .next (h.here _ hfetch) hgoes hfetch', h.behind⟩

theorem Executed.covered (h : Executed program inst) : (blocks program).Executed program inst := by
  obtain ⟨s, hrun, hfetch⟩ := h
  have hcovered : Covered program s := by
    clear hfetch
    induction hrun with
    | refl => exact ⟨fun inst h => .first h, fun pc hpc => absurd hpc List.not_mem_nil⟩
    | tail _ hstep ih => exact ih.step hstep
  exact hcovered.here inst hfetch

/-- **The pass is sound** for every decoded program: it marks each instruction that a run gets
to. -/
theorem reachable_of_run (code : Gcn.Code) (maxDwords : ℕ) (stopAtEndpgm : Bool) :
    (computeRdnaReachability (decode code maxDwords stopAtEndpgm)).length =
      (decode code maxDwords stopAtEndpgm).length ∧
    ∀ (k : ℕ) (inst : Inst), (decode code maxDwords stopAtEndpgm)[k]? = some inst →
      Executed (decode code maxDwords stopAtEndpgm) inst →
      (computeRdnaReachability (decode code maxDwords stopAtEndpgm))[k]? = some true := by
  refine ⟨List.length_map _, fun k inst hk hexec => ?_⟩
  have hcont := contiguous_decode
    (flowOf (hasCall (decode code maxDwords stopAtEndpgm))) code maxDwords stopAtEndpgm
  have hmarked : Marked _ _ := Listing.marked_of_executed hcont hexec.covered
  rw [computeRdnaReachability, List.getElem?_map, hk, Option.map_some, List.getD_eq_getElem?_getD]
  exact congrArg some (congrArg (Option.getD · false) hmarked)

theorem mem_of_mem_reachableProgram (h : inst ∈ reachableProgram program) : inst ∈ program := by
  obtain ⟨⟨inst', live⟩, hmem, hlive⟩ := List.mem_filterMap.mp h
  obtain ⟨-, hinst⟩ := Option.ite_none_right_eq_some.mp hlive
  exact Option.some.inj hinst ▸ (List.of_mem_zip hmem).1

theorem mem_reachableProgram (code : Gcn.Code) (maxDwords : ℕ) (stopAtEndpgm : Bool)
    (hexec : Executed (decode code maxDwords stopAtEndpgm) inst) :
    inst ∈ reachableProgram (decode code maxDwords stopAtEndpgm) := by
  obtain ⟨s, -, hfetch⟩ := id hexec
  obtain ⟨k, hk⟩ := List.mem_iff_getElem?.mp (List.mem_of_find?_eq_some hfetch)
  obtain ⟨hlen, hreach⟩ := reachable_of_run code maxDwords stopAtEndpgm
  refine List.mem_filterMap.mpr ⟨(inst, true), ?_, rfl⟩
  refine List.mem_iff_getElem?.mpr ⟨k, List.getElem?_zip_eq_some.mpr ⟨hk, hreach k inst hk hexec⟩⟩

end Soundness

/-- `s_call_b64` to an `s_setpc_b64` behind an `s_endpgm`, which the return gets to. -/
def callCode : Gcn.Code := fun d => [0xBB020001, 0xBF810000, 0xBE802002].getD d 0

theorem reachable_callCode : (computeRdnaReachability (decode callCode 3 false))[1]? = some true := by
  have h := (reachable_of_run callCode 3 false).2 1 ⟨.kSopp, 1, [0xBF810000], 1, 1, false, 0,
    .kNone⟩ (by decide +kernel)
  have hfetch : fetch (decode callCode 3 false) 0 =
      some ⟨.kSopk, 0x16, [0xBB020001], 1, 0, false, 0, .kNone⟩ := by decide +kernel
  have hcall : Step (decode callCode 3 false) ⟨0, []⟩
      ⟨(blocks (decode callCode 3 false)).target
        ⟨.kSopk, 0x16, [0xBB020001], 1, 0, false, 0, .kNone⟩, [1]⟩ := .call hfetch rfl
  have hfetch' : fetch (decode callCode 3 false) 2 =
      some ⟨.kSop1, 0x20, [0xBE802002], 1, 2, false, 0, .kNone⟩ := by decide +kernel
  have hret : Step (decode callCode 3 false) ⟨2, [1]⟩ ⟨1, [1]⟩ :=
    .ret hfetch' rfl List.mem_cons_self
  exact h ⟨⟨1, [1]⟩, .tail (.single hcall) hret, by decide +kernel⟩

end Prosperity.Rdna
