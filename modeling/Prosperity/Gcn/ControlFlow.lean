import Prosperity.Gcn.Wave

/-!
# Structured control flow

`EmitCfg` and `EmitBody`: a decoded program becomes a loop over a state variable with one case for
each basic block, or straight-line code. The emitted code is kept as what it does, and the
instructions themselves are a parameter.
-/

namespace Prosperity.Gcn

universe u

/-! ## The program's own control flow -/

/-- The bits that conditional branches test. -/
inductive Cond where
  | scc
  | vcc
  | exec
  deriving DecidableEq

/-- What instructions do, and whether a bit is set; VCC and EXEC are set where any of theirs is. -/
structure Semantics (σ : Type u) where
  exec : Inst → σ → σ
  bit : Cond → σ → Bool

section Own

variable {σ : Type u} (S : Semantics σ) (program : Program)

/-- Whether `s_cbranch_scc0`, `_scc1`, `_vccz`, `_vccnz`, `_execz` and `_execnz` branch. -/
def takes (inst : Inst) (s : σ) : Bool :=
  match inst.opcode with
  | 0x04 => !S.bit .scc s
  | 0x05 => S.bit .scc s
  | 0x06 => !S.bit .vcc s
  | 0x07 => S.bit .vcc s
  | 0x08 => !S.bit .exec s
  | 0x09 => S.bit .exec s
  | _ => false

/-- One instruction, with the list of those that took effect; `none` at the end. -/
def ownStep (c : ℕ × σ) : Option (List Inst × (ℕ × σ)) :=
  (fetch program c.1).bind fun inst =>
    match flowOf inst with
    | .ordinary => some ([inst], (inst.pc + inst.size, S.exec inst c.2))
    | .relative => some ([], (branchTarget inst, c.2))
    | .conditional =>
      some ([], (if takes S inst c.2 then branchTarget inst else inst.pc + inst.size, c.2))
    | .ends | .indirect => none

/-- So many instructions. -/
inductive Steps : ℕ → ℕ × σ → List Inst → ℕ × σ → Prop where
  | refl {c : ℕ × σ} : Steps 0 c [] c
  | step {n : ℕ} {c c₁ c' : ℕ × σ} {run rest : List Inst} :
      ownStep S program c = some (run, c₁) → Steps n c₁ rest c' → Steps (n + 1) c (run ++ rest) c'

end Own

/-! ## Emission -/

/-- `BranchKind`: 0 none, 1 unconditional, 2 to 7 conditional and 8 the end. -/
def branchKind (inst : Inst) : ℕ :=
  if inst.enc ≠ .kSopp then 0
  else
    match inst.opcode with
    | 0x01 => 8
    | 0x02 => 1
    | 0x04 => 2
    | 0x05 => 3
    | 0x06 => 4
    | 0x07 => 5
    | 0x08 => 6
    | 0x09 => 7
    | _ => 0

def hasControlFlow (program : Program) : Bool :=
  program.any fun inst => 1 ≤ branchKind inst && branchKind inst ≤ 7

/-- `BranchRaw`: the bit that a kind tests. -/
def branchRaw (kind : ℕ) : Option Cond :=
  if kind = 2 ∨ kind = 3 then some .scc
  else if kind = 4 ∨ kind = 5 then some .vcc
  else if kind = 6 ∨ kind = 7 then some .exec
  else none

def branchInverts (kind : ℕ) : Bool := kind = 2 || kind = 4 || kind = 6

def leadersOf (inst : Inst) : List ℕ :=
  if branchKind inst = 0 then []
  else if branchKind inst ≤ 7 then [inst.pc + inst.size, branchTarget inst]
  else [inst.pc + inst.size]

def blockStarts (program : Program) : List ℕ :=
  (((0 :: program.flatMap leadersOf).mergeSort (· ≤ ·)).dedup).filter (· < maxPc program)

/-- The state in which the loop ends. -/
def kExit (program : Program) : ℕ := (blockStarts program).length

/-- `block_of`: the state for the control at `pc`. -/
def stateOf (program : Program) (pc : ℕ) : ℕ :=
  if maxPc program ≤ pc then kExit program
  else ((blockStarts program).takeWhile (· ≤ pc)).length - 1

structure Case where
  body : List Inst
  taken : ℕ
  fall : ℕ
  raw : Option Cond
  invert : Bool

/-- The instructions of the block `block` that are emitted, from the index `k` on. -/
def emittedFrom (program : Program) (reachable : List Bool) (block k : ℕ) : List Inst :=
  (List.range' k (program.length - k)).filterMap fun i =>
    program[i]?.bind fun inst =>
      if (blockStarts program).getD block 0 ≤ inst.pc ∧
          inst.pc < (blockStarts program).getD (block + 1) (maxPc program) ∧
          reachable.getD i false = true then some inst
      else none

def fallOf (program : Program) (block : ℕ) : ℕ :=
  if block + 1 < (blockStarts program).length then block + 1 else kExit program

/-- `set_next` for the instruction that ends a block. -/
def terminatorCase (program : Program) (block : ℕ) (body : List Inst) (inst : Inst) : Case :=
  if branchKind inst = 8 then ⟨body, kExit program, kExit program, none, false⟩
  else if branchKind inst = 1 then
    ⟨body, stateOf program (branchTarget inst), stateOf program (branchTarget inst), none, false⟩
  else
    ⟨body, stateOf program (branchTarget inst), fallOf program block, branchRaw (branchKind inst),
      branchInverts (branchKind inst)⟩

def caseOf (program : Program) (reachable : List Bool) (block : ℕ) : Case :=
  let insts := emittedFrom program reachable block 0
  let body := insts.takeWhile fun inst => branchKind inst = 0
  match insts.find? fun inst => branchKind inst ≠ 0 with
  | some inst => terminatorCase program block body inst
  | none => ⟨body, fallOf program block, fallOf program block, none, false⟩

/-- The cases of `EmitCfg`. -/
def emitCfg (program : Program) (reachable : List Bool) : List Case :=
  (List.range (blockStarts program).length).map (caseOf program reachable)

/-- The path of `EmitBody` without the loop. -/
def straightLine (program : Program) (reachable : List Bool) : List Inst :=
  ((List.range program.length).filterMap fun i =>
    program[i]?.bind fun inst => if reachable.getD i false = true then some inst else none).takeWhile
      fun inst => !isEndpgm inst

/-! ## What the emitted code does -/

section Emitted

variable {σ : Type u}

/-- What a run of emitted code did: the instructions that took effect, the state after them and
whether the code ended by itself. -/
structure Outcome (σ : Type u) where
  run : List Inst
  state : σ
  ended : Bool

/-- The loop: so many turns at most, with `next` for the choice of the next state. -/
def dispatch (exec : Inst → σ → σ) (next : Case → σ → ℕ) (cases : List Case) : ℕ → ℕ → σ → Outcome σ
  | 0, st, s => ⟨[], s, decide (cases.length ≤ st)⟩
  | turns + 1, st, s =>
    match cases[st]? with
    | none => ⟨[], s, true⟩
    | some c =>
      let s' := c.body.foldl (fun s inst => exec inst s) s
      let o := dispatch exec next cases turns (next c s') s'
      { o with run := c.body ++ o.run }

/-- `set_next` of the per-lane variant: a select on the lane's own bit. -/
def perLaneNext (bit : Cond → σ → Bool) (c : Case) (s : σ) : ℕ :=
  if c.taken = c.fall then c.taken
  else
    let raw := c.raw.elim false fun cond => bit cond s
    if (if c.invert then !raw else raw) then c.taken else c.fall

structure Subgroups (lanes : ℕ) where
  count : ℕ
  idOf : Fin lanes → ℕ
  idOf_lt : ∀ l, idOf l < count
  occupied : ∀ g, g < count → ∃ l, idOf l = g

/-- What a block publishes in the lock-step variant: `br_raw` of every lane, `br_invert`,
`br_taken` and `br_fall`. -/
structure Ballot (lanes : ℕ) where
  raw : Fin lanes → Bool
  invert : Bool
  taken : ℕ
  fall : ℕ

variable {lanes : ℕ}

def votes (G : Subgroups lanes) (raw : Fin lanes → Bool) (slots : ℕ → Bool) (g : ℕ) : Bool :=
  if (List.finRange lanes).any (fun l => G.idOf l = g) then
    (List.finRange lanes).any fun l => G.idOf l = g && raw l
  else slots g

/-- The choice at the head of the lock-step loop. -/
def elect (G : Subgroups lanes) (slots : ℕ → Bool) (b : Ballot lanes) : ℕ :=
  let any := (List.range G.count).any (votes G b.raw slots)
  if any ≠ b.invert then b.taken else b.fall

def publish (laneBit : Cond → σ → Bool) (c : Case) (s : Fin lanes → σ) : Ballot lanes :=
  ⟨fun l => c.raw.elim false fun cond => laneBit cond (s l), c.invert, c.taken, c.fall⟩

def lockstep (G : Subgroups lanes) (exec : Inst → (Fin lanes → σ) → Fin lanes → σ)
    (laneBit : Cond → σ → Bool) (cases : List Case) :
    ℕ → (ℕ → Bool) → Ballot lanes → (Fin lanes → σ) → Outcome (Fin lanes → σ)
  | 0, slots, b, s => ⟨[], s, decide (cases.length ≤ elect G slots b)⟩
  | turns + 1, slots, b, s =>
    match cases[elect G slots b]? with
    | none => ⟨[], s, true⟩
    | some c =>
      let s' := c.body.foldl (fun s inst => exec inst s) s
      let o := lockstep G exec laneBit cases turns (votes G b.raw slots) (publish laneBit c s') s'
      { o with run := c.body ++ o.run }

end Emitted

/-! ## Kinds of branches -/

section Kinds

variable {inst : Inst}

theorem flowOf_sopp (h : inst.enc = .kSopp) : flowOf inst = if inst.opcode ∈ [0x01, 0x1e, 0x1f] then .ends
    else if inst.opcode = 0x02 then .relative
    else if inst.opcode ∈ [0x04, 0x05, 0x06, 0x07, 0x08, 0x09, 0x17, 0x18, 0x19, 0x1a] then .conditional
    else .ordinary := by
  simp [flowOf, h]

theorem opcode_of_branchKind (h : branchKind inst ≠ 0) : inst.enc = .kSopp ∧ (branchKind inst, inst.opcode) ∈
      [(8, 0x01), (1, 0x02), (2, 0x04), (3, 0x05), (4, 0x06), (5, 0x07), (6, 0x08), (7, 0x09)] := by
  by_cases henc : inst.enc = .kSopp
  · refine ⟨henc, ?_⟩
    unfold branchKind at h ⊢
    rw [if_neg (by simp [henc])] at h ⊢
    split at h <;> simp_all
  · exact absurd (if_pos henc) h

theorem flowOf_of_branchKind (h : branchKind inst ≠ 0) : flowOf inst =
    if branchKind inst = 8 then .ends else if branchKind inst = 1 then .relative else .conditional := by
  obtain ⟨henc, hmem⟩ := opcode_of_branchKind h
  rw [flowOf_sopp henc]
  simp only [List.mem_cons, Prod.mk.injEq, List.not_mem_nil, or_false] at hmem
  rcases hmem with ⟨hk, hop⟩ | ⟨hk, hop⟩ | ⟨hk, hop⟩ | ⟨hk, hop⟩ | ⟨hk, hop⟩ | ⟨hk, hop⟩ |
    ⟨hk, hop⟩ | ⟨hk, hop⟩ <;> rw [hk, hop] <;> rfl

theorem takes_eq {σ : Type u} (S : Semantics σ) (h : branchKind inst ≠ 0)
    (hend : branchKind inst ≠ 8) (hjump : branchKind inst ≠ 1) (s : σ) :
    takes S inst s = ((branchRaw (branchKind inst)).elim false (fun cond => S.bit cond s) !=
      branchInverts (branchKind inst)) := by
  obtain ⟨-, hmem⟩ := opcode_of_branchKind h
  simp only [List.mem_cons, Prod.mk.injEq, List.not_mem_nil, or_false] at hmem
  rcases hmem with ⟨hk, hop⟩ | ⟨hk, hop⟩ | ⟨hk, hop⟩ | ⟨hk, hop⟩ | ⟨hk, hop⟩ | ⟨hk, hop⟩ |
    ⟨hk, hop⟩ | ⟨hk, hop⟩
  · exact absurd hk hend
  · exact absurd hk hjump
  all_goals
    unfold takes
    rw [hk, hop]
    simp [branchRaw, branchInverts]

end Kinds

/-! ## Block starts -/

section Starts

variable {program : Program} {inst : Inst} {pc block : ℕ}

theorem blockStarts_sorted (program : Program) : (blockStarts program).Pairwise (· < ·) := by
  have hsorted : ((0 :: program.flatMap leadersOf).mergeSort (· ≤ ·)).Pairwise (· ≤ ·) :=
    List.pairwise_mergeSort' _ _
  have hle := (hsorted.sublist (List.dedup_sublist _)).filter (· < maxPc program)
  have hne := (List.nodup_dedup ((0 :: program.flatMap leadersOf).mergeSort (· ≤ ·))).filter
    (· < maxPc program)
  exact hle.imp₂ (fun a b hab hne => Nat.lt_of_le_of_ne hab hne) hne

theorem mem_blockStarts : pc ∈ blockStarts program ↔
    (pc = 0 ∨ ∃ inst ∈ program, pc ∈ leadersOf inst) ∧ pc < maxPc program := by
  simp [blockStarts, List.mem_flatMap]

theorem end_mem_blockStarts (hi : inst ∈ program) (hkind : branchKind inst ≠ 0)
    (hlt : inst.pc + inst.size < maxPc program) : inst.pc + inst.size ∈ blockStarts program := by
  refine mem_blockStarts.mpr ⟨.inr ⟨inst, hi, ?_⟩, hlt⟩
  unfold leadersOf
  rw [if_neg hkind]
  split <;> simp

theorem target_mem_blockStarts (hi : inst ∈ program) (hkind : branchKind inst ≠ 0)
    (hend : branchKind inst ≠ 8) (hlt : branchTarget inst < maxPc program) :
    branchTarget inst ∈ blockStarts program := by
  refine mem_blockStarts.mpr ⟨.inr ⟨inst, hi, ?_⟩, hlt⟩
  have hle : branchKind inst ≤ 7 := by
    obtain ⟨-, hmem⟩ := opcode_of_branchKind hkind
    simp only [List.mem_cons, Prod.mk.injEq, List.not_mem_nil, or_false] at hmem
    omega
  unfold leadersOf
  rw [if_neg hkind, if_pos hle]
  simp

theorem getD_stateOf (h : pc ∈ blockStarts program) : stateOf program pc < (blockStarts program).length ∧
      (blockStarts program).getD (stateOf program pc) 0 = pc := by
  have hlt := (mem_blockStarts.mp h).2
  obtain ⟨i, hi, rfl⟩ := List.getElem_of_mem h
  have hsorted := blockStarts_sorted program
  have htake : i < ((blockStarts program).takeWhile (· ≤ (blockStarts program)[i])).length :=
    (Listing.getElem_le_iff hsorted hi).mp (Nat.le_refl _)
  have hlen : ((blockStarts program).takeWhile (· ≤ (blockStarts program)[i])).length = i + 1 := by
    rcases Nat.lt_or_eq_of_le (Nat.succ_le_of_lt htake) with hmore | heq
    · -- the next start would have to be below this one
      have hle : ((blockStarts program).takeWhile (· ≤ (blockStarts program)[i])).length ≤
          (blockStarts program).length := (List.takeWhile_sublist _).length_le
      have hnext : i + 1 < (blockStarts program).length := Nat.lt_of_lt_of_le hmore hle
      have hge := (Listing.getElem_le_iff hsorted hnext).mpr hmore
      have := List.pairwise_iff_getElem.mp hsorted i (i + 1) hi hnext (Nat.lt_succ_self i)
      omega
    · exact heq.symm
  have hstate : stateOf program (blockStarts program)[i] = i := by
    rw [stateOf, if_neg (Nat.not_le.mpr hlt), hlen]
    rfl
  rw [hstate]
  exact ⟨hi, List.getD_eq_getElem _ _ hi⟩

theorem fetch_eq_getElem {k : ℕ} (hbefore : ∀ j inst, j < k → program[j]? = some inst → inst.pc < pc)
    (hat : ∀ inst, program[k]? = some inst → pc ≤ inst.pc) : fetch program pc = program[k]? := by
  have hskip : ∀ inst ∈ program.take k, ¬ pc ≤ inst.pc := by
    intro inst hinst
    obtain ⟨j, hj⟩ := List.mem_iff_getElem?.mp hinst
    rw [List.getElem?_take] at hj
    split at hj
    · exact Nat.not_le.mpr (hbefore j inst (by assumption) hj)
    · cases hj
  have hfind : (program.take k).find? (fun inst => pc ≤ inst.pc) = none := by
    refine List.find?_eq_none.mpr fun inst hinst => ?_
    simpa using hskip inst hinst
  rw [fetch, ← List.take_append_drop k program, List.find?_append, hfind, Option.none_or, List.take_append_drop]
  cases hk : program[k]? with
  | none =>
    rw [List.drop_eq_nil_of_le (List.getElem?_eq_none_iff.mp hk)]
    rfl
  | some inst =>
    obtain ⟨hlt, rfl⟩ := List.getElem?_eq_some_iff.mp hk
    rw [List.drop_eq_getElem_cons hlt, List.find?_cons_of_pos (by simpa using hat _ hk)]

theorem fetch_maxPc (hc : Contiguous program) {x : ℕ} (hx : maxPc program ≤ x) : fetch program x = none := by
  refine List.find?_eq_none.mpr fun inst hinst => ?_
  have := lt_maxPc hc hinst
  simp
  omega

end Starts

/-! ## Blocks -/

/-- Every control transfer that is executed is a relative branch, on SCC, VCC or EXEC where it is
conditional, or `s_endpgm`. -/
def RelativeOnly (program : Program) : Prop :=
  ∀ inst, Executed program inst → flowOf inst ≠ .ordinary → branchKind inst ≠ 0

section Blocks

variable {σ : Type u} {S : Semantics σ} {program : Program} {reachable : List Bool}
  {pc block k n : ℕ} {s : σ} {c c₁ c' : ℕ × σ} {run rest : List Inst} {inst : Inst}

theorem Steps.trans {m : ℕ} (h : Steps S program n c run c₁) (h' : Steps S program m c₁ rest c') :
    Steps S program (n + m) c (run ++ rest) c' := by
  induction h with
  | refl => simpa using h'
  | @step n c c₁ c₂ run₁ rest₁ hstep _ ih =>
    rw [Nat.add_right_comm, List.append_assoc]
    exact .step hstep (ih h')

def ExecutedAt (program : Program) (pc : ℕ) : Prop :=
  ∀ inst, fetch program pc = some inst → Executed program inst

theorem ExecutedAt.step (h : ExecutedAt program c.1)
    (hstep : ownStep S program c = some (run, c₁)) : ExecutedAt program c₁.1 := by
  intro inst' hfetch
  obtain ⟨inst, hinst, hflow⟩ := Option.bind_eq_some_iff.mp hstep
  have hexec := h inst hinst
  cases hkind : flowOf inst with
  | ordinary =>
    simp only [hkind, Option.some.injEq, Prod.mk.injEq] at hflow
    obtain ⟨-, rfl⟩ := hflow
    exact hexec.next (.on hkind) hfetch
  | relative =>
    simp only [hkind, Option.some.injEq, Prod.mk.injEq] at hflow
    obtain ⟨-, rfl⟩ := hflow
    exact hexec.next (.jumps hkind) hfetch
  | conditional =>
    simp only [hkind, Option.some.injEq, Prod.mk.injEq] at hflow
    obtain ⟨-, rfl⟩ := hflow
    dsimp only at hfetch
    split at hfetch
    · exact hexec.next (.taken hkind) hfetch
    · exact hexec.next (.notTaken hkind) hfetch
  | ends | indirect => simp only [hkind, reduceCtorEq] at hflow

theorem ExecutedAt.steps (h : ExecutedAt program c.1) (hsteps : Steps S program n c run c') :
    ExecutedAt program c'.1 := by
  induction hsteps with
  | refl => exact h
  | step hstep _ ih => exact ih (h.step hstep)

theorem ownStep_ordinary (hfetch : fetch program pc = some inst) (hflow : flowOf inst = .ordinary) :
    ownStep S program (pc, s) = some ([inst], (inst.pc + inst.size, S.exec inst s)) := by
  simp only [ownStep, hfetch, Option.bind_some, hflow]

theorem flowOf_eq_ordinary (hrel : RelativeOnly program) (hexec : Executed program inst)
    (hkind : branchKind inst = 0) : flowOf inst = .ordinary := by
  by_contra h
  exact hrel inst hexec h hkind

section Block

variable (hc : Contiguous program)
  (hreach : ∀ (k : ℕ) inst, program[k]? = some inst → Executed program inst → reachable[k]? = some true)
  (hrel : RelativeOnly program)

theorem emittedFrom_of_length_le (hk : program.length ≤ k) : emittedFrom program reachable block k = [] := by
  rw [emittedFrom, Nat.sub_eq_zero_of_le hk]
  rfl

theorem emittedFrom_cons (hk : program[k]? = some inst) : emittedFrom program reachable block k =
      if (blockStarts program).getD block 0 ≤ inst.pc ∧
          inst.pc < (blockStarts program).getD (block + 1) (maxPc program) ∧ reachable.getD k false = true then
        inst :: emittedFrom program reachable block (k + 1) else emittedFrom program reachable block (k + 1) := by
  obtain ⟨hlt, -⟩ := List.getElem?_eq_some_iff.mp hk
  obtain ⟨m, hm⟩ : ∃ m, program.length - k = m + 1 := ⟨program.length - k - 1, by omega⟩
  have hm' : program.length - (k + 1) = m := by omega
  rw [emittedFrom, emittedFrom, hm, hm', List.range'_succ, List.filterMap_cons, hk, Option.bind_some]
  split <;> rename_i h <;> split at h <;> simp_all

theorem emittedFrom_behind (hbehind : ∀ j inst, k ≤ j → program[j]? = some inst →
      (blockStarts program).getD (block + 1) (maxPc program) ≤ inst.pc) :
    emittedFrom program reachable block k = [] := by
  refine List.filterMap_eq_nil_iff.mpr fun j hj => ?_
  have hle : k ≤ j := (List.mem_range'_1.mp hj).1
  cases hjth : program[j]? with
  | none => rfl
  | some inst =>
    have := hbehind j inst hle hjth
    rw [Option.bind_some, if_neg (by omega)]

theorem emittedFrom_before (hbefore : ∀ j inst, j < k → program[j]? = some inst →
      inst.pc < (blockStarts program).getD block 0) :
    emittedFrom program reachable block 0 = emittedFrom program reachable block k := by
  induction k with
  | zero => rfl
  | succ k ih =>
    rw [ih fun j inst hj hjth => hbefore j inst (Nat.lt_succ_of_lt hj) hjth]
    cases hk : program[k]? with
    | none =>
      have hle := List.getElem?_eq_none_iff.mp hk
      rw [emittedFrom_of_length_le hle, emittedFrom_of_length_le (Nat.le_succ_of_le hle)]
    | some inst =>
      have := hbefore k inst (Nat.lt_succ_self k) hk
      rw [emittedFrom_cons hk, if_neg (by omega)]

include hc

theorem pc_le_of_index_le {j : ℕ} {inst' : Inst} (hk : program[k]? = some inst)
    (hj : program[j]? = some inst') (hkj : k ≤ j) : inst.pc ≤ inst'.pc := by
  obtain ⟨hk', rfl⟩ := List.getElem?_eq_some_iff.mp hk
  obtain ⟨hj', rfl⟩ := List.getElem?_eq_some_iff.mp hj
  rcases Nat.lt_or_eq_of_le hkj with hlt | rfl
  · have := List.pairwise_iff_getElem.mp (ContiguousFrom.sorted hc) k j hk' hj' hlt
    omega
  · exact Nat.le_refl _

include hreach hrel

/-- **A case runs its block**: the emitted instructions take effect one after the other, up to the
one that ends the block or to the first one behind it. -/
theorem body_steps (m : ℕ) (hm : program.length - k = m) (hbelow : ∀ j inst, j < k → program[j]? = some inst →
      inst.pc < (blockStarts program).getD (block + 1) (maxPc program))
    (habove : ∀ j inst, k ≤ j → program[j]? = some inst → (blockStarts program).getD block 0 ≤ inst.pc)
    (hpc : fetch program pc = program[k]?) (hexec : ExecutedAt program pc) : ∃ n pc', Steps S program n (pc, s)
        ((emittedFrom program reachable block k).takeWhile fun inst => branchKind inst = 0)
        (pc', ((emittedFrom program reachable block k).takeWhile
          fun inst => branchKind inst = 0).foldl (fun s inst => S.exec inst s) s) ∧
      match (emittedFrom program reachable block k).find? fun inst => branchKind inst ≠ 0 with
      | some inst => fetch program pc' = some inst ∧ branchKind inst ≠ 0 ∧
          inst.pc < (blockStarts program).getD (block + 1) (maxPc program) ∧
          (blockStarts program).getD block 0 ≤ inst.pc
      | none => fetch program pc' =
          fetch program ((blockStarts program).getD (block + 1) (maxPc program)) := by
  induction m generalizing k pc s with
  | zero =>
    have hle : program.length ≤ k := by omega
    rw [emittedFrom_of_length_le hle]
    refine ⟨0, pc, .refl, ?_⟩
    have hnone : program[k]? = none := List.getElem?_eq_none_iff.mpr hle
    exact hpc.trans (fetch_eq_getElem hbelow fun inst h => by simp [hnone] at h).symm
  | succ m ih =>
    obtain ⟨inst, hk⟩ : ∃ inst, program[k]? = some inst :=
      ⟨_, List.getElem?_eq_getElem (by omega)⟩
    have hexec' : Executed program inst := hexec inst (hpc.trans hk)
    have hlive : reachable.getD k false = true := by
      rw [List.getD_eq_getElem?_getD, hreach k inst hk hexec']
      rfl
    have hstart := habove k inst (Nat.le_refl k) hk
    by_cases hlt : inst.pc < (blockStarts program).getD (block + 1) (maxPc program)
    · rw [emittedFrom_cons hk, if_pos ⟨hstart, hlt, hlive⟩]
      by_cases hkind : branchKind inst = 0
      · -- an instruction that is emitted
        rw [List.takeWhile_cons_of_pos (by simpa using hkind), List.find?_cons_of_neg (by simpa using hkind)]
        have hstep := ownStep_ordinary (S := S) (s := s) (hpc.trans hk)
          (flowOf_eq_ordinary hrel hexec' hkind)
        have hbelow' : ∀ j inst, j < k + 1 → program[j]? = some inst →
            inst.pc < (blockStarts program).getD (block + 1) (maxPc program) := by
          intro j inst' hj hjth
          have := pc_le_of_index_le hc hjth hk (by omega)
          omega
        obtain ⟨n, pc', hsteps, hend⟩ := ih (k := k + 1)
          (s := S.exec inst s) (by omega) hbelow'
          (fun j inst' hj => habove j inst' (by omega)) (ContiguousFrom.fetch_next hc hk)
          (hexec.step hstep)
        exact ⟨n + 1, pc', .step hstep hsteps, hend⟩
      · -- the instruction that ends the block
        rw [List.takeWhile_cons_of_neg (by simpa using hkind), List.find?_cons_of_pos (by simpa using hkind)]
        exact ⟨0, pc, .refl, hpc.trans hk, hkind, hlt, hstart⟩
    · -- the block is over
      have hbehind : ∀ j inst', k ≤ j → program[j]? = some inst' →
          (blockStarts program).getD (block + 1) (maxPc program) ≤ inst'.pc := by
        intro j inst' hj hjth
        have := pc_le_of_index_le hc hk hjth hj
        omega
      rw [emittedFrom_behind hbehind]
      refine ⟨0, pc, .refl, ?_⟩
      exact hpc.trans (fetch_eq_getElem hbelow fun inst' h => hbehind k inst' (Nat.le_refl k) h).symm

end Block

/-! ## Turns of the loop -/

/-- The next state, by the bit of the whole group. -/
def chosen (S : Semantics σ) (c : Case) (s : σ) : ℕ :=
  if (c.raw.elim false fun cond => S.bit cond s) ≠ c.invert then c.taken else c.fall

def StandsFor (S : Semantics σ) (program : Program) (st : ℕ) (c : ℕ × σ) : Prop :=
  st < (blockStarts program).length ∧ fetch program c.1 = fetch program ((blockStarts program).getD st 0) ∨
    st = kExit program ∧ ownStep S program c = none

theorem ownStep_eq_none (hfetch : fetch program c.1 = none) : ownStep S program c = none := by
  rw [ownStep, hfetch]
  rfl

theorem exists_index {start : ℕ} (hc : ContiguousFrom start program) (pc : ℕ) :
    ∃ k : ℕ, (∀ (j : ℕ) inst, j < k → program[j]? = some inst → inst.pc < pc) ∧
      ∀ (j : ℕ) inst, k ≤ j → program[j]? = some inst → pc ≤ inst.pc := by
  induction program generalizing start with
  | nil => exact ⟨0, fun _ _ _ h => by simp at h, fun _ _ _ h => by simp at h⟩
  | cons first rest ih =>
    obtain ⟨hpc, hsize, hrest⟩ := hc
    by_cases hle : pc ≤ first.pc
    · refine ⟨0, fun j _ hj => absurd hj (Nat.not_lt_zero j), fun j inst _ hjth => ?_⟩
      cases j with
      | zero =>
        obtain rfl : first = inst := by simpa using hjth
        exact hle
      | succ j =>
        have := hrest.le (List.mem_of_getElem? (by simpa using hjth))
        omega
    · obtain ⟨k, hbefore, hbehind⟩ := ih hrest
      refine ⟨k + 1, fun j inst hj hjth => ?_, fun j inst hj hjth => ?_⟩
      · cases j with
        | zero =>
          obtain rfl : first = inst := by simpa using hjth
          exact Nat.not_le.mp hle
        | succ j => exact hbefore j inst (by omega) (by simpa using hjth)
      · cases j with
        | zero => omega
        | succ j => exact hbehind j inst (by omega) (by simpa using hjth)

theorem start_lt_end (hb : block < (blockStarts program).length) : (blockStarts program).getD block 0 <
      (blockStarts program).getD (block + 1) (maxPc program) := by
  rw [List.getD_eq_getElem _ _ hb]
  by_cases hb' : block + 1 < (blockStarts program).length
  · rw [List.getD_eq_getElem _ _ hb']
    exact List.pairwise_iff_getElem.mp (blockStarts_sorted program) _ _ _ _ (Nat.lt_succ_self _)
  · rw [List.getD_eq_default _ _ (Nat.not_lt.mp hb')]
    exact (mem_blockStarts.mp (List.getElem_mem hb)).2

theorem standsFor_fall (hc : Contiguous program)
    (hfetch : fetch program c.1 = fetch program ((blockStarts program).getD (block + 1) (maxPc program))) :
    StandsFor S program (fallOf program block) c := by
  unfold fallOf
  by_cases hb : block + 1 < (blockStarts program).length
  · rw [if_pos hb]
    refine .inl ⟨hb, ?_⟩
    rw [hfetch, List.getD_eq_getElem _ _ hb, List.getD_eq_getElem _ _ hb]
  · rw [if_neg hb]
    refine .inr ⟨rfl, ownStep_eq_none ?_⟩
    rw [hfetch, List.getD_eq_default _ _ (Nat.not_lt.mp hb)]
    exact fetch_maxPc hc (Nat.le_refl _)

theorem standsFor_target (hc : Contiguous program) (hi : inst ∈ program)
    (hkind : branchKind inst ≠ 0) (hend : branchKind inst ≠ 8) (hpc : c.1 = branchTarget inst) :
    StandsFor S program (stateOf program (branchTarget inst)) c := by
  by_cases hlt : branchTarget inst < maxPc program
  · obtain ⟨hstate, hstart⟩ := getD_stateOf (target_mem_blockStarts hi hkind hend hlt)
    refine .inl ⟨hstate, ?_⟩
    rw [hstart, hpc]
  · have hle := Nat.not_lt.mp hlt
    refine .inr ⟨if_pos hle, ownStep_eq_none ?_⟩
    rw [hpc]
    exact fetch_maxPc hc hle

theorem fetch_behind (hc : Contiguous program) (hi : inst ∈ program) (hkind : branchKind inst ≠ 0)
    (hlt : inst.pc < (blockStarts program).getD (block + 1) (maxPc program))
    (hstart : (blockStarts program).getD block 0 ≤ inst.pc) (hb : block < (blockStarts program).length) :
    fetch program (inst.pc + inst.size) = fetch program ((blockStarts program).getD (block + 1) (maxPc program)) := by
  obtain ⟨k, hk⟩ := List.mem_iff_getElem?.mp hi
  have hle : (blockStarts program).getD (block + 1) (maxPc program) ≤ inst.pc + inst.size := by
    by_cases hmax : inst.pc + inst.size < maxPc program
    · -- the next start is at most the one behind the instruction
      obtain ⟨i, hi', hith⟩ := List.getElem_of_mem (end_mem_blockStarts hi hkind hmax)
      have hsorted := List.pairwise_iff_getElem.mp (blockStarts_sorted program)
      have hsize := ContiguousFrom.size_pos hc hi
      rw [List.getD_eq_getElem _ _ hb] at hstart
      have hbi : block < i := by
        by_contra hnot
        rcases Nat.lt_or_eq_of_le (Nat.not_lt.mp hnot) with hlt' | rfl
        · have := hsorted i block hi' hb hlt'
          omega
        · omega
      rw [List.getD_eq_getElem _ _ (show block + 1 < _ by omega), ← hith]
      rcases Nat.lt_or_eq_of_le (Nat.succ_le_of_lt hbi) with hlt' | heq
      · exact Nat.le_of_lt (hsorted _ _ _ _ hlt')
      · simp only [← heq, Nat.succ_eq_add_one, Nat.le_refl]
    · have hbound : (blockStarts program).getD (block + 1) (maxPc program) ≤ maxPc program := by
        by_cases hb' : block + 1 < (blockStarts program).length
        · rw [List.getD_eq_getElem _ _ hb']
          exact Nat.le_of_lt (mem_blockStarts.mp (List.getElem_mem hb')).2
        · rw [List.getD_eq_default _ _ (Nat.not_lt.mp hb')]
      omega
  rw [ContiguousFrom.fetch_next hc hk]
  refine (fetch_eq_getElem (fun j inst' hj hjth => ?_) fun inst' hk' => ?_).symm
  · have := pc_le_of_index_le hc hjth hk (by omega)
    omega
  · have hsorted := List.pairwise_iff_getElem.mp (ContiguousFrom.sorted hc)
    obtain ⟨hklt, rfl⟩ := List.getElem?_eq_some_iff.mp hk
    obtain ⟨hklt', rfl⟩ := List.getElem?_eq_some_iff.mp hk'
    have := hsorted k (k + 1) hklt hklt' (Nat.lt_succ_self k)
    omega

/-- **One turn of the loop** runs the block of its state, and the state it chooses stands for
where the program's control is then. -/
theorem case_steps (hc : Contiguous program)
    (hreach : ∀ (k : ℕ) inst, program[k]? = some inst → Executed program inst →
      reachable[k]? = some true) (hrel : RelativeOnly program) (hb : block < (blockStarts program).length)
    (hpc : fetch program pc = fetch program ((blockStarts program).getD block 0)) (hexec : ExecutedAt program pc) :
    ∃ n c', Steps S program n (pc, s) (caseOf program reachable block).body c' ∧
      c'.2 = (caseOf program reachable block).body.foldl (fun s inst => S.exec inst s) s ∧
      StandsFor S program (chosen S (caseOf program reachable block) c'.2) c' ∧
      (n = 0 → block < chosen S (caseOf program reachable block) c'.2) := by
  obtain ⟨k, hbefore, hbehind⟩ := exists_index hc ((blockStarts program).getD block 0)
  have hlt := start_lt_end hb
  have hindex : fetch program pc = program[k]? :=
    hpc.trans (fetch_eq_getElem hbefore fun inst h => hbehind k inst (Nat.le_refl k) h)
  obtain ⟨n, pc', hsteps, hend⟩ := body_steps (S := S) (s := s) hc hreach hrel _ rfl
    (fun j inst hj hjth => Nat.lt_trans (hbefore j inst hj hjth) hlt) hbehind hindex hexec
  have hfall : block < fallOf program block := by
    unfold fallOf kExit
    split <;> omega
  unfold caseOf
  dsimp only
  rw [emittedFrom_before hbefore]
  generalize hfind : (emittedFrom program reachable block k).find?
    (fun inst => branchKind inst ≠ 0) = terminator at hend ⊢
  cases terminator with
  | none =>
    -- the block falls through
    refine ⟨n, _, hsteps, rfl, ?_, fun _ => ?_⟩
    · simp only [chosen, ite_self]
      exact standsFor_fall hc hend
    · simpa only [chosen, ite_self] using hfall
  | some inst =>
    obtain ⟨hfetch, hkind, hinst, hstart⟩ := hend
    have hi := (fetch_some hfetch).1
    have hflow := flowOf_of_branchKind hkind
    dsimp only
    unfold terminatorCase
    by_cases hends : branchKind inst = 8
    · -- the program ends
      rw [if_pos hends] at hflow ⊢
      refine ⟨n, _, hsteps, rfl, ?_, fun _ => ?_⟩
      · simp only [chosen, ite_self]
        refine .inr ⟨rfl, ?_⟩
        simp only [ownStep, hfetch, Option.bind_some, hflow]
      · simp only [chosen, ite_self]
        exact hb
    · rw [if_neg hends] at hflow ⊢
      by_cases hjump : branchKind inst = 1
      · rw [if_pos hjump] at hflow ⊢
        have hstep : ∀ s : σ, ownStep S program (pc', s) = some ([], (branchTarget inst, s)) := by
          intro s
          simp only [ownStep, hfetch, Option.bind_some, hflow]
        have hall := hsteps.trans (.step (hstep _) .refl)
        rw [List.append_nil, List.append_nil] at hall
        refine ⟨n + 1, _, hall, rfl, ?_, fun h => absurd h (Nat.succ_ne_zero n)⟩
        simp only [chosen, ite_self]
        exact standsFor_target hc hi hkind hends rfl
      · rw [if_neg hjump] at hflow ⊢
        have hstep : ∀ s : σ, ownStep S program (pc', s) =
            some ([], (if takes S inst s then branchTarget inst else inst.pc + inst.size, s)) := by
          intro s
          simp only [ownStep, hfetch, Option.bind_some, hflow]
        have hall := hsteps.trans (.step (hstep _) .refl)
        rw [List.append_nil, List.append_nil] at hall
        refine ⟨n + 1, _, hall, rfl, ?_, fun h => absurd h (Nat.succ_ne_zero n)⟩
        dsimp only [chosen]
        by_cases htakes : takes S inst (((emittedFrom program reachable block k).takeWhile
            fun inst => branchKind inst = 0).foldl (fun s inst => S.exec inst s) s) = true
        · rw [if_pos htakes]
          rw [takes_eq S hkind hends hjump] at htakes
          rw [if_pos (by simpa using htakes)]
          exact standsFor_target hc hi hkind hends rfl
        · rw [if_neg htakes]
          rw [takes_eq S hkind hends hjump] at htakes
          rw [if_neg (by simpa using htakes)]
          exact standsFor_fall hc (fetch_behind hc hi hkind hinst hstart hb)

structure Refines (S : Semantics σ) (program : Program) (s : σ) (o : ℕ → Outcome σ) : Prop where
  sound : ∀ cap, ∃ n pc, Steps S program n (0, s) (o cap).run (pc, (o cap).state) ∧
    ((o cap).ended = true → ownStep S program (pc, (o cap).state) = none)
  complete : ∀ n run c, Steps S program n (0, s) run c → ownStep S program c = none →
    ∃ enough, ∀ cap, enough ≤ cap → o cap = ⟨run, c.2, true⟩

theorem emitCfg_getElem? {st : ℕ} : (emitCfg program reachable)[st]? =
    if st < (blockStarts program).length then some (caseOf program reachable st) else none := by
  rw [emitCfg, List.getElem?_map]
  split
  · rw [List.getElem?_range (by assumption)]
    rfl
  · rw [List.getElem?_eq_none (by simp only [List.length_range]; omega)]
    rfl

theorem length_emitCfg : (emitCfg program reachable).length = kExit program := by
  rw [emitCfg, List.length_map, List.length_range, kExit]

theorem Steps.continue {m : ℕ} (h : Steps S program n c run c₁) (h' : Steps S program m c rest c')
    (hend : ownStep S program c' = none) :
    ∃ m' rest', m = n + m' ∧ rest = run ++ rest' ∧ Steps S program m' c₁ rest' c' := by
  induction h generalizing m rest with
  | refl => exact ⟨m, rest, (Nat.zero_add m).symm, rfl, h'⟩
  | step hstep _ ih =>
    cases h' with
    | refl =>
      rw [hend] at hstep
      cases hstep
    | step hstep' hrest =>
      rw [hstep] at hstep'
      obtain ⟨rfl, rfl⟩ := Prod.mk.inj (Option.some.inj hstep')
      obtain ⟨m', rest', rfl, rfl, hsteps⟩ := ih hrest
      exact ⟨m', rest', by omega, (List.append_assoc _ _ _).symm, hsteps⟩

section Loop

variable (hc : Contiguous program)
  (hreach : ∀ (k : ℕ) inst, program[k]? = some inst → Executed program inst → reachable[k]? = some true)
  (hrel : RelativeOnly program)

include hc hreach hrel

theorem dispatch_sound (turns : ℕ) {st : ℕ} (hst : StandsFor S program st (pc, s)) (hexec : ExecutedAt program pc) :
    ∃ n pc', Steps S program n (pc, s) (dispatch S.exec (chosen S) (emitCfg program reachable) turns st s).run
        (pc', (dispatch S.exec (chosen S) (emitCfg program reachable) turns st s).state) ∧
      ((dispatch S.exec (chosen S) (emitCfg program reachable) turns st s).ended = true → ownStep S program (pc',
          (dispatch S.exec (chosen S) (emitCfg program reachable) turns st s).state) = none) := by
  induction turns generalizing st pc s with
  | zero =>
    refine ⟨0, pc, .refl, fun hended => ?_⟩
    have hle : kExit program ≤ st := by
      simpa [dispatch, length_emitCfg] using hended
    rcases hst with ⟨hlt, -⟩ | ⟨-, hnone⟩
    · exact absurd hlt (Nat.not_lt.mpr hle)
    · exact hnone
  | succ turns ih =>
    rw [dispatch, emitCfg_getElem?]
    rcases hst with ⟨hlt, hfetch⟩ | ⟨hexit, hnone⟩
    · rw [if_pos hlt]
      obtain ⟨n, c', hsteps, hstate, hnext, -⟩ :=
        case_steps (S := S) (s := s) hc hreach hrel hlt hfetch hexec
      obtain ⟨pc', s'⟩ := c'
      dsimp only at hstate hnext ⊢
      rw [← hstate]
      obtain ⟨m, pc'', hrest, hended⟩ := ih hnext (hexec.steps hsteps)
      exact ⟨n + m, pc'', hsteps.trans hrest, hended⟩
    · rw [if_neg (by rw [hexit]; exact Nat.lt_irrefl _)]
      exact ⟨0, pc, .refl, fun _ => hnone⟩

theorem dispatch_complete {st : ℕ} (hst : StandsFor S program st (pc, s))
    (hexec : ExecutedAt program pc) (hsteps : Steps S program n (pc, s) run c') (hend : ownStep S program c' = none) :
    ∃ enough, ∀ cap, enough ≤ cap →
      dispatch S.exec (chosen S) (emitCfg program reachable) cap st s = ⟨run, c'.2, true⟩ := by
  -- each turn takes a step of the program, or goes on to a later block
  induction hn : n using Nat.strong_induction_on generalizing n st pc s run with
  | _ n ihsteps =>
    subst hn
    induction hd : kExit program - st using Nat.strong_induction_on generalizing st pc s run with
    | _ d ihblocks =>
      subst hd
      rcases hst with ⟨hlt, hfetch⟩ | ⟨hexit, hnone⟩
      · obtain ⟨k, c₁, hturn, hstate, hnext, hlater⟩ :=
          case_steps (S := S) (s := s) hc hreach hrel hlt hfetch hexec
        obtain ⟨pc₁, s₁⟩ := c₁
        obtain ⟨m, rest, rfl, rfl, hrest⟩ := hturn.continue hsteps hend
        have hexec₁ := hexec.steps hturn
        dsimp only at hstate hnext hlater hexec₁
        have hgo : ∃ enough, ∀ cap, enough ≤ cap → dispatch S.exec (chosen S) (emitCfg program reachable) cap
              (chosen S (caseOf program reachable st) s₁) s₁ = ⟨rest, c'.2, true⟩ := by
          rcases Nat.eq_zero_or_pos k with rfl | hk
          · have hnow : st < kExit program := hlt
            have hlater := hlater rfl
            rw [Nat.zero_add] at ihblocks
            exact ihblocks _ (by omega) hnext hexec₁ hrest rfl
          · exact ihsteps m (by omega) hnext hexec₁ hrest rfl
        obtain ⟨enough, hgo⟩ := hgo
        refine ⟨enough + 1, fun cap hcap => ?_⟩
        obtain ⟨turns, rfl⟩ : ∃ turns, cap = turns + 1 := ⟨cap - 1, by omega⟩
        rw [dispatch, emitCfg_getElem?, if_pos hlt]
        dsimp only
        rw [← hstate, hgo turns (by omega)]
      · cases hsteps with
        | refl =>
          refine ⟨0, fun cap _ => ?_⟩
          cases cap with
          | zero => simp [dispatch, length_emitCfg, hexit]
          | succ turns =>
            rw [dispatch, emitCfg_getElem?, if_neg (by rw [hexit]; exact Nat.lt_irrefl _)]
        | step hstep _ =>
          rw [hnone] at hstep
          cases hstep

omit hreach hrel in
theorem standsFor_start : StandsFor S program 0 (0, s) := by
  by_cases hpos : 0 < maxPc program
  · have hmem : 0 ∈ blockStarts program := mem_blockStarts.mpr ⟨.inl rfl, hpos⟩
    obtain ⟨i, hi, hith⟩ := List.getElem_of_mem hmem
    have hzero : i = 0 := by
      by_contra hne
      have hsorted := List.pairwise_iff_getElem.mp (blockStarts_sorted program)
      have := hsorted 0 i (by omega) hi (by omega)
      omega
    subst hzero
    refine .inl ⟨hi, ?_⟩
    rw [List.getD_eq_getElem _ _ hi, hith]
  · have hnil : blockStarts program = [] := by
      refine List.eq_nil_iff_forall_not_mem.mpr fun pc hmem => ?_
      have := (mem_blockStarts.mp hmem).2
      omega
    refine .inr ⟨by rw [kExit, hnil]; rfl, ownStep_eq_none (fetch_maxPc hc (Nat.not_lt.mp hpos))⟩

/-- **The loop refines the program.** -/
theorem dispatch_refines (s : σ) : Refines S program s fun cap =>
      dispatch S.exec (chosen S) (emitCfg program reachable) cap 0 s where
  sound cap := dispatch_sound hc hreach hrel cap (standsFor_start hc) fun _ h => .first h
  complete _ _ _ hsteps hend :=
    dispatch_complete hc hreach hrel (standsFor_start hc) (fun _ h => .first h) hsteps hend

end Loop

end Blocks

/-! ## The two variants -/

section Variants

variable {σ : Type u} {lanes : ℕ}

theorem perLaneNext_eq (S : Semantics σ) (c : Case) (s : σ) : perLaneNext S.bit c s = chosen S c s := by
  unfold perLaneNext chosen
  by_cases heq : c.taken = c.fall
  · rw [if_pos heq, ← heq, ite_self]
  · rw [if_neg heq]
    cases c.invert <;> cases c.raw.elim false (fun cond => S.bit cond s) <;> rfl

theorem any_votes (G : Subgroups lanes) (raw : Fin lanes → Bool) (slots : ℕ → Bool) :
    (List.range G.count).any (votes G raw slots) = (List.finRange lanes).any raw := by
  rw [Bool.eq_iff_iff, List.any_eq_true, List.any_eq_true]
  constructor
  · rintro ⟨g, hg, hvote⟩
    obtain ⟨l, hl⟩ := G.occupied g (List.mem_range.mp hg)
    have hocc : (List.finRange lanes).any (fun l => decide (G.idOf l = g)) = true :=
      List.any_eq_true.mpr ⟨l, List.mem_finRange l, by simpa using hl⟩
    rw [votes, if_pos hocc] at hvote
    obtain ⟨l', hl', hraw⟩ := List.any_eq_true.mp hvote
    exact ⟨l', hl', (Bool.and_eq_true_iff.mp hraw).2⟩
  · rintro ⟨l, hl, hraw⟩
    refine ⟨G.idOf l, List.mem_range.mpr (G.idOf_lt l), ?_⟩
    have hocc : (List.finRange lanes).any (fun l' => decide (G.idOf l' = G.idOf l)) = true :=
      List.any_eq_true.mpr ⟨l, hl, by simp⟩
    rw [votes, if_pos hocc]
    exact List.any_eq_true.mpr ⟨l, hl, by simp [hraw]⟩

def groupSemantics (exec : Inst → (Fin lanes → σ) → Fin lanes → σ) (laneBit : Cond → σ → Bool) :
    Semantics (Fin lanes → σ) where
  exec := exec
  bit cond s := (List.finRange lanes).any fun l => laneBit cond (s l)

theorem elect_publish (G : Subgroups lanes) (exec : Inst → (Fin lanes → σ) → Fin lanes → σ)
    (laneBit : Cond → σ → Bool) (slots : ℕ → Bool) (c : Case) (s : Fin lanes → σ) :
    elect G slots (publish laneBit c s) = chosen (groupSemantics exec laneBit) c s := by
  rw [elect, any_votes]
  cases hraw : c.raw with
  | none =>
    have hnone : (List.finRange lanes).any (fun _ => false) = false :=
      List.any_eq_false.mpr fun _ _ => Bool.false_ne_true
    simp only [publish, chosen, hraw, Option.elim_none, hnone]
  | some cond => simp [publish, chosen, hraw, groupSemantics]

theorem lockstep_eq (G : Subgroups lanes) (exec : Inst → (Fin lanes → σ) → Fin lanes → σ)
    (laneBit : Cond → σ → Bool) (cases : List Case) (turns : ℕ) (slots : ℕ → Bool)
    (b : Ballot lanes) (s : Fin lanes → σ) : lockstep G exec laneBit cases turns slots b s =
      dispatch exec (chosen (groupSemantics exec laneBit)) cases turns (elect G slots b) s := by
  induction turns generalizing slots b s with
  | zero => rfl
  | succ turns ih =>
    rw [lockstep, dispatch]
    cases cases[elect G slots b]? with
    | none => rfl
    | some c =>
      dsimp only
      rw [ih, elect_publish G exec]

/-- What the lock-step loop begins with: every variable is null. -/
def firstBallot (lanes : ℕ) : Ballot lanes := ⟨fun _ => false, false, 0, 0⟩

theorem elect_firstBallot (G : Subgroups lanes) (slots : ℕ → Bool) : elect G slots (firstBallot lanes) = 0 := by
  simp [elect, firstBallot]

end Variants

/-! ## Straight-line code -/

section Straight

variable {σ : Type u} {S : Semantics σ} {program : Program} {reachable : List Bool} {pc k : ℕ}
  {s : σ}

/-- What is emitted without the loop, from the index `k` on, the end included. -/
def reachableFrom (program : Program) (reachable : List Bool) (k : ℕ) : List Inst :=
  (List.range' k (program.length - k)).filterMap fun i =>
    program[i]?.bind fun inst => if reachable.getD i false = true then some inst else none

theorem branchKind_of_not_hasControlFlow (h : hasControlFlow program = false) {inst : Inst}
    (hi : inst ∈ program) : branchKind inst = 0 ∨ branchKind inst = 8 := by
  have hnot : ¬ (1 ≤ branchKind inst ∧ branchKind inst ≤ 7) := by
    simpa using List.any_eq_false.mp h inst hi
  by_cases hkind : branchKind inst = 0
  · exact .inl hkind
  · obtain ⟨-, hmem⟩ := opcode_of_branchKind hkind
    simp only [List.mem_cons, Prod.mk.injEq, List.not_mem_nil, or_false] at hmem
    omega

theorem isEndpgm_iff {inst : Inst} : isEndpgm inst = true ↔ branchKind inst = 8 := by
  constructor
  · intro h
    simp only [isEndpgm, Bool.and_eq_true, decide_eq_true_eq] at h
    simp [branchKind, h.1, h.2]
  · intro h
    have hne : branchKind inst ≠ 0 := by omega
    obtain ⟨henc, hmem⟩ := opcode_of_branchKind hne
    simp only [List.mem_cons, Prod.mk.injEq, List.not_mem_nil, or_false] at hmem
    simp only [isEndpgm, Bool.and_eq_true, decide_eq_true_eq]
    exact ⟨henc, by omega⟩

/-- **Straight-line code** runs the instructions of a program without branches, to its end. -/
theorem straight_steps (hc : Contiguous program)
    (hreach : ∀ (k : ℕ) inst, program[k]? = some inst → Executed program inst →
      reachable[k]? = some true) (hrel : RelativeOnly program)
    (hplain : hasControlFlow program = false) (m : ℕ) (hm : program.length - k = m)
    (hpc : fetch program pc = program[k]?) (hexec : ExecutedAt program pc) : ∃ n pc', Steps S program n (pc, s)
        ((reachableFrom program reachable k).takeWhile fun inst => !isEndpgm inst)
        (pc', ((reachableFrom program reachable k).takeWhile
          fun inst => !isEndpgm inst).foldl (fun s inst => S.exec inst s) s) ∧
      ownStep S program (pc', ((reachableFrom program reachable k).takeWhile
        fun inst => !isEndpgm inst).foldl (fun s inst => S.exec inst s) s) = none := by
  induction m generalizing k pc s with
  | zero =>
    have hnone : program[k]? = none := List.getElem?_eq_none_iff.mpr (by omega)
    have hnil : reachableFrom program reachable k = [] := by
      rw [reachableFrom, hm]
      rfl
    rw [hnil]
    exact ⟨0, pc, .refl, ownStep_eq_none (hpc.trans hnone)⟩
  | succ m ih =>
    obtain ⟨inst, hk⟩ : ∃ inst, program[k]? = some inst :=
      ⟨_, List.getElem?_eq_getElem (by omega)⟩
    have hexec' : Executed program inst := hexec inst (hpc.trans hk)
    have hlive : reachable.getD k false = true := by
      rw [List.getD_eq_getElem?_getD, hreach k inst hk hexec']
      rfl
    have hcons : reachableFrom program reachable k =
        inst :: reachableFrom program reachable (k + 1) := by
      have hm' : program.length - (k + 1) = m := by omega
      rw [reachableFrom, reachableFrom, hm, hm', List.range'_succ, List.filterMap_cons, hk,
        Option.bind_some, if_pos hlive]
    rw [hcons]
    rcases branchKind_of_not_hasControlFlow hplain hexec'.mem with hkind | hkind
    · have hnot : isEndpgm inst = false := by
        rw [Bool.eq_false_iff, Ne, isEndpgm_iff]
        omega
      rw [List.takeWhile_cons_of_pos (by simp [hnot])]
      have hstep := ownStep_ordinary (S := S) (s := s) (hpc.trans hk)
        (flowOf_eq_ordinary hrel hexec' hkind)
      obtain ⟨n, pc', hsteps, hend⟩ := ih (k := k + 1)
        (s := S.exec inst s) (by omega) (ContiguousFrom.fetch_next hc hk) (hexec.step hstep)
      exact ⟨n + 1, pc', .step hstep hsteps, hend⟩
    · -- the end of the program
      rw [List.takeWhile_cons_of_neg (by simp [isEndpgm_iff.mpr hkind])]
      refine ⟨0, pc, .refl, ?_⟩
      have hne : branchKind inst ≠ 0 := by omega
      have hflow := flowOf_of_branchKind hne
      rw [if_pos hkind] at hflow
      simp only [ownStep, hpc.trans hk, Option.bind_some, hflow]

end Straight

/-- **Emission preserves the control flow** of every decoded shader whose branches are relative: the
loop in both its variants, and the code without the loop, run the instructions that the program
runs, and end when it ends. -/
theorem emitBody_refines {σ : Type u} (readable : ℕ → Bool) (code : Code) (maxDwords : ℕ)
    (mode : IsaMode) (hrel : RelativeOnly (decodeShader readable code maxDwords mode)) :
    (∀ (S : Semantics σ) (s : σ), Refines S (decodeShader readable code maxDwords mode) s fun cap =>
      dispatch S.exec (perLaneNext S.bit) (emitCfg (decodeShader readable code maxDwords mode)
        (computeReachability (decodeShader readable code maxDwords mode))) cap 0 s) ∧
    (∀ (lanes : ℕ) (G : Subgroups lanes) (exec : Inst → (Fin lanes → σ) → Fin lanes → σ)
      (laneBit : Cond → σ → Bool) (slots : ℕ → Bool) (s : Fin lanes → σ),
      Refines (groupSemantics exec laneBit) (decodeShader readable code maxDwords mode) s fun cap =>
        lockstep G exec laneBit (emitCfg (decodeShader readable code maxDwords mode)
          (computeReachability (decodeShader readable code maxDwords mode))) cap slots (firstBallot lanes) s) ∧
    (hasControlFlow (decodeShader readable code maxDwords mode) = false → ∀ (S : Semantics σ) (s : σ), ∃ n pc,
        Steps S (decodeShader readable code maxDwords mode) n (0, s)
          (straightLine (decodeShader readable code maxDwords mode)
            (computeReachability (decodeShader readable code maxDwords mode)))
          (pc, (straightLine (decodeShader readable code maxDwords mode)
            (computeReachability (decodeShader readable code maxDwords mode))).foldl
              (fun s inst => S.exec inst s) s) ∧ ownStep S (decodeShader readable code maxDwords mode)
          (pc, (straightLine (decodeShader readable code maxDwords mode)
            (computeReachability (decodeShader readable code maxDwords mode))).foldl
              (fun s inst => S.exec inst s) s) = none) := by
  have hc := contiguous_decodeShader readable code maxDwords mode
  have hreach := (reachable_of_executed readable code maxDwords mode).2
  refine ⟨fun S s => ?_, fun lanes G exec laneBit slots s => ?_, fun hplain S s => ?_⟩
  · have hnext : perLaneNext S.bit = chosen S := by
      ext c s
      exact perLaneNext_eq S c s
    rw [hnext]
    exact dispatch_refines hc hreach hrel s
  · simp only [lockstep_eq, elect_firstBallot]
    exact dispatch_refines (S := groupSemantics exec laneBit) hc hreach hrel s
  · have hline : straightLine (decodeShader readable code maxDwords mode)
        (computeReachability (decodeShader readable code maxDwords mode)) =
        (reachableFrom (decodeShader readable code maxDwords mode)
          (computeReachability (decodeShader readable code maxDwords mode)) 0).takeWhile
            fun inst => !isEndpgm inst := by
      rw [straightLine, reachableFrom, List.range_eq_range', Nat.sub_zero]
    rw [hline]
    exact straight_steps hc hreach hrel hplain _ rfl
      (fetch_eq_getElem (fun j _ hj => absurd hj (Nat.not_lt_zero j)) fun _ _ => Nat.zero_le _)
      fun _ h => .first h

/-- `s_nop`, a branch back to it while SCC is set, and the end. -/
def loopCode : Code := fun d => [0xBF800000, 0xBF85FFFE, 0xBF810000].getD d 0

theorem relativeOnly_loop : RelativeOnly (decodeShader (fun _ => false) loopCode 3 .kBase) := by
  have hall : ∀ inst ∈ decodeShader (fun _ => false) loopCode 3 .kBase,
      flowOf inst ≠ .ordinary → branchKind inst ≠ 0 := by
    decide +kernel
  exact fun inst hexec => hall inst hexec.mem

/-- The loop counts SCC down: the state is the number of turns left. -/
theorem emitBody_refines_loop :
    Refines ⟨fun inst s => if inst.enc = .kSopp then s - 1 else s, fun _ s => decide (s ≠ 0)⟩
      (decodeShader (fun _ => false) loopCode 3 .kBase) (5 : ℕ) fun cap =>
        dispatch (fun inst s => if inst.enc = .kSopp then s - 1 else s) (perLaneNext fun _ s => decide (s ≠ 0))
          (emitCfg (decodeShader (fun _ => false) loopCode 3 .kBase)
            (computeReachability (decodeShader (fun _ => false) loopCode 3 .kBase))) cap 0 5 :=
  (emitBody_refines (fun _ => false) loopCode 3 .kBase relativeOnly_loop).1 _ 5

end Prosperity.Gcn
