import Mathlib.Algebra.Group.Int.Defs
import Prosperity.Rdna.Reachability

/-!
# The blocks of the control-flow lowering

`EmitCfg` cuts a program into blocks and numbers them. Control is the number of a block, or the number of
blocks where the program is left. A program that the scheduler runs has each `s_barrier` in a block of its
own.
-/

namespace Prosperity.Rdna

open Gcn (Enc Code)

/-- Instructions in the order in which they lie, as the decoder and the pass over the reachable blocks
leave them. -/
structure ListedProgram where
  insts : Program
  size_pos : ∀ inst ∈ insts, 0 < inst.size
  apart : insts.Pairwise fun i j => i.pc + i.size ≤ j.pc

def ListedProgram.ofDecoded (code : Code) (maxDwords : ℕ) (insts : Program)
    (h : insts.Sublist (decodeShader code maxDwords)) : ListedProgram where
  insts := insts
  size_pos _ hinst := (contiguous_decodeShader (fun _ => .ordinary) code maxDwords).size_pos (h.mem hinst)
  apart := (contiguous_decodeShader (fun _ => .ordinary) code maxDwords).sorted.sublist h

/-! ## Branches -/

/-- What `BranchKind` tells apart. -/
inductive BranchKind where
  | none
  | uncond
  | scc0
  | scc1
  | vccz
  | vccnz
  | execz
  | execnz
  | endpgm
  deriving DecidableEq

def branchKind (inst : Inst) : BranchKind :=
  if inst.enc ≠ .kSopp then .none
  else
    match inst.opcode with
    | 0x01 | 0x1B | 0x1E | 0x1F => .endpgm
    | 0x02 => .uncond
    | 0x04 => .scc0
    | 0x05 => .scc1
    | 0x06 => .vccz
    | 0x07 => .vccnz
    | 0x08 => .execz
    | 0x09 => .execnz
    | _ => .none

/-- The instructions behind which a block ends. -/
def transfers (inst : Inst) : Bool := branchKind inst ≠ .none || isCall inst || isSetpc inst

def hasTarget (inst : Inst) : Bool :=
  isCall inst || (branchKind inst ≠ .none && branchKind inst ≠ .endpgm)

def Inst.behind (inst : Inst) : ℕ := inst.pc + inst.size

def branchTarget (inst : Inst) : ℕ :=
  (((inst.pc : ℤ) + inst.size + simm16 (inst.raw.getD 0 0)) % 2 ^ 32).toNat

def isBarrier (inst : Inst) : Bool := inst.enc = .kSopp && inst.opcode = 0x0a

/-! ## Blocks -/

def maxPc (program : Program) : ℕ :=
  match program.getLast? with
  | none => 0
  | some inst => inst.behind

/-- `base::Sort` and `base::Unique` -/
def sortUnique (l : List ℕ) : List ℕ := (l.insertionSort (· ≤ ·)).dedup

def cfgLeaders (inst : Inst) : List ℕ :=
  if transfers inst then inst.behind :: if hasTarget inst then [branchTarget inst] else [] else []

def blockStarts (program : Program) (maxPc : ℕ) : List ℕ :=
  (sortUnique (0 :: program.flatMap cfgLeaders)).filter (· < maxPc)

def barrierStarts (maxPc : ℕ) (inst : Inst) : List ℕ :=
  if isBarrier inst then inst.pc :: if inst.behind < maxPc then [inst.behind] else [] else []

def scheduledStarts (program : Program) : List ℕ :=
  sortUnique (blockStarts program (maxPc program) ++ program.flatMap (barrierStarts (maxPc program)))

/-- `kExit`, which is also the number of blocks. -/
def kExit (program : Program) : ℕ := (scheduledStarts program).length

def blockOf (program : Program) (pc : ℕ) : ℕ :=
  if maxPc program ≤ pc then kExit program
  else ((scheduledStarts program).takeWhile (· ≤ pc)).length - 1

def startOf (program : Program) (block : ℕ) : ℕ := (scheduledStarts program).getD block (maxPc program)

/-- The instructions from an address to another. -/
def between (program : Program) (first last : ℕ) : Program :=
  program.filter fun inst => first ≤ inst.pc && inst.pc < last

def blockBody (program : Program) (block : ℕ) : Program :=
  between program (startOf program block) (startOf program (block + 1))

/-- `fall`: the block behind a block. -/
def fallOf (program : Program) (block : ℕ) : ℕ :=
  if block + 1 < kExit program then block + 1 else kExit program

def SamePlace (program : Program) (pc pc' : ℕ) : Prop := ∀ inst ∈ program, pc ≤ inst.pc ↔ pc' ≤ inst.pc

/-! ## Any starts -/

section Cut

variable (program : Program) (starts : List ℕ)

def blockIn (pc : ℕ) : ℕ :=
  if maxPc program ≤ pc then starts.length else (starts.takeWhile (· ≤ pc)).length - 1

def startIn (block : ℕ) : ℕ := starts.getD block (maxPc program)

def fallIn (block : ℕ) : ℕ := if block + 1 < starts.length then block + 1 else starts.length

/-- Blocks that begin in the program, with the leaders among their starts. -/
structure Cuts : Prop where
  sorted : starts.Pairwise (· < ·)
  lt_maxPc : ∀ pc ∈ starts, pc < maxPc program
  leaders : ∀ inst ∈ program, ∀ pc ∈ cfgLeaders inst, pc < maxPc program → pc ∈ starts

end Cut

/-! ## Sorted starts -/

section Starts

variable {program : Program} {pc block : ℕ}

theorem sorted_sortUnique (l : List ℕ) : (sortUnique l).Pairwise (· < ·) := by
  have hle : (sortUnique l).Pairwise (· ≤ ·) :=
    (List.pairwise_insertionSort (· ≤ ·) l).sublist (List.dedup_sublist _)
  exact hle.imp₂ (fun a b hab hne => Nat.lt_of_le_of_ne hab hne) (List.nodup_dedup _)

@[simp] theorem mem_sortUnique {l : List ℕ} : pc ∈ sortUnique l ↔ pc ∈ l := by
  simp [sortUnique]

theorem mem_blockStarts {last : ℕ} : pc ∈ blockStarts program last ↔
    (pc = 0 ∨ ∃ inst ∈ program, pc ∈ cfgLeaders inst) ∧ pc < last := by
  simp [blockStarts, List.mem_flatMap]

theorem mem_scheduledStarts : pc ∈ scheduledStarts program ↔ pc ∈ blockStarts program (maxPc program) ∨
      ∃ inst ∈ program, pc ∈ barrierStarts (maxPc program) inst := by
  simp [scheduledStarts, List.mem_flatMap]

variable {starts : List ℕ}

theorem startIn_of_lt (hb : block < starts.length) : startIn program starts block = starts[block] :=
  List.getD_eq_getElem _ _ hb

theorem startIn_of_le (hb : starts.length ≤ block) : startIn program starts block = maxPc program :=
  List.getD_eq_default _ _ hb

theorem startIn_fallIn : startIn program starts (fallIn starts block) = startIn program starts (block + 1) := by
  unfold fallIn
  split
  · rfl
  · rw [startIn_of_le (Nat.le_refl _), startIn_of_le (by omega)]

theorem fallIn_le : fallIn starts block ≤ starts.length := by
  unfold fallIn
  split
  · omega
  · exact Nat.le_refl _

theorem blockIn_le : blockIn program starts pc ≤ starts.length := by
  have hlen := (List.takeWhile_sublist (l := starts) (· ≤ pc)).length_le
  unfold blockIn
  split
  · exact Nat.le_refl _
  · omega

theorem Cuts.startIn_le_maxPc (h : Cuts program starts) (block : ℕ) : startIn program starts block ≤ maxPc program := by
  rcases Nat.lt_or_ge block starts.length with hb | hb
  · rw [startIn_of_lt hb]
    exact Nat.le_of_lt (h.lt_maxPc _ (List.getElem_mem _))
  · rw [startIn_of_le hb]

theorem Cuts.startIn_lt (h : Cuts program starts) {block' : ℕ} (hlt : block < block')
    (hb : block < starts.length) : startIn program starts block < startIn program starts block' := by
  rcases Nat.lt_or_ge block' starts.length with hb' | hb'
  · rw [startIn_of_lt hb, startIn_of_lt hb']
    exact List.pairwise_iff_getElem.mp h.sorted block block' hb hb' hlt
  · rw [startIn_of_lt hb, startIn_of_le hb']
    exact h.lt_maxPc _ (List.getElem_mem _)

theorem Cuts.startIn_succ_le (h : Cuts program starts) (hb : block < starts.length)
    (hle : startIn program starts block ≤ pc) {start : ℕ} (hstart : start ∈ starts) (hlt : pc < start) :
    startIn program starts (block + 1) ≤ start := by
  obtain ⟨k, hk, rfl⟩ := List.getElem_of_mem hstart
  have hk' : startIn program starts k = starts[k] := startIn_of_lt hk
  rw [← hk'] at hlt ⊢
  have hbk : block + 1 ≤ k := by
    by_contra hbk
    rcases Nat.lt_or_eq_of_le (Nat.le_of_lt_succ (Nat.not_le.mp hbk)) with hkb | rfl
    · have := h.startIn_lt hkb hk
      omega
    · omega
  rcases Nat.lt_or_eq_of_le hbk with hbk | rfl
  · exact Nat.le_of_lt (h.startIn_lt hbk (Nat.lt_trans hbk hk))
  · exact Nat.le_refl _

theorem Cuts.blockIn_eq (h : Cuts program starts) (hb : block < starts.length)
    (hle : startIn program starts block ≤ pc) (hlt : pc < startIn program starts (block + 1)) :
    blockIn program starts pc = block := by
  have hmax : pc < maxPc program := Nat.lt_of_lt_of_le hlt (h.startIn_le_maxPc _)
  rw [blockIn, if_neg (Nat.not_le.mpr hmax)]
  rw [startIn_of_lt hb] at hle
  have hin := (Listing.getElem_le_iff h.sorted hb).mp hle
  have hout : (starts.takeWhile (· ≤ pc)).length ≤ block + 1 := by
    by_contra hout
    have hlen := (List.takeWhile_sublist (l := starts) (· ≤ pc)).length_le
    have hb' : block + 1 < starts.length := by omega
    have hnext : starts[block + 1] ≤ pc := (Listing.getElem_le_iff h.sorted hb').mpr (by omega)
    rw [startIn_of_lt hb'] at hlt
    omega
  omega

theorem Cuts.blockIn_start (h : Cuts program starts) (hpc : pc ∈ starts) :
    blockIn program starts pc < starts.length ∧ startIn program starts (blockIn program starts pc) = pc := by
  obtain ⟨k, hk, rfl⟩ := List.getElem_of_mem hpc
  have hk' : startIn program starts k = starts[k] := startIn_of_lt hk
  have hof : blockIn program starts starts[k] = k := by
    apply h.blockIn_eq hk (Nat.le_of_eq hk')
    rw [← hk']
    exact h.startIn_lt (Nat.lt_succ_self k) hk
  rw [hof]
  exact ⟨hk, hk'⟩

theorem startOf_of_lt (hb : block < (scheduledStarts program).length) :
    startOf program block = (scheduledStarts program)[block] := startIn_of_lt hb

theorem startOf_of_le (hb : kExit program ≤ block) : startOf program block = maxPc program := startIn_of_le hb

theorem startOf_fallOf : startOf program (fallOf program block) = startOf program (block + 1) := startIn_fallIn

theorem fallOf_le : fallOf program block ≤ kExit program := fallIn_le

end Starts

section Listed

variable {P : ListedProgram} {inst inst' : Inst} {pc block : ℕ}

theorem ListedProgram.le_maxPc (hinst : inst ∈ P.insts) : inst.behind ≤ maxPc P.insts := by
  obtain ⟨insts, hpos, hapart⟩ := P
  dsimp only at hinst ⊢
  rcases List.eq_nil_or_concat' insts with rfl | ⟨before, last, rfl⟩
  · cases hinst
  · have hmax : maxPc (before ++ [last]) = last.behind := by simp [maxPc]
    rw [hmax]
    rcases List.mem_append.mp hinst with hbefore | hlast
    · have hend := (List.pairwise_append.mp hapart).2.2 inst hbefore last (List.mem_singleton_self _)
      exact Nat.le_trans hend (Nat.le_add_right _ _)
    · rw [List.mem_singleton.mp hlast]

theorem ListedProgram.lt_maxPc (h : inst ∈ P.insts) : inst.pc < maxPc P.insts := by
  have hsize := P.size_pos inst h
  have hle := P.le_maxPc h
  unfold Inst.behind at hle
  omega

theorem ListedProgram.behind_le (h : inst ∈ P.insts) (h' : inst' ∈ P.insts) (hlt : inst.pc < inst'.pc) :
    inst.behind ≤ inst'.pc := by
  obtain ⟨insts, hpos, hapart⟩ := P
  dsimp only at h h'
  have hsize := hpos inst h
  have hsize' := hpos inst' h'
  obtain ⟨k, hk, rfl⟩ := List.getElem_of_mem h
  obtain ⟨k', hk', rfl⟩ := List.getElem_of_mem h'
  rcases Nat.lt_trichotomy k k' with hkk | rfl | hkk
  · exact List.pairwise_iff_getElem.mp hapart k k' hk hk' hkk
  · omega
  · have := List.pairwise_iff_getElem.mp hapart k' k hk' hk hkk
    omega

theorem starts_lt_maxPc (h : pc ∈ scheduledStarts P.insts) : pc < maxPc P.insts := by
  rcases mem_scheduledStarts.mp h with h | ⟨inst, hinst, h⟩
  · exact (mem_blockStarts.mp h).2
  · unfold barrierStarts at h
    split at h
    · rcases List.mem_cons.mp h with rfl | h
      · exact P.lt_maxPc hinst
      · split at h
        · rw [List.mem_singleton.mp h]
          assumption
        · cases h
    · cases h

theorem cuts_scheduledStarts (P : ListedProgram) : Cuts P.insts (scheduledStarts P.insts) where
  sorted := sorted_sortUnique _
  lt_maxPc _ := starts_lt_maxPc
  leaders inst hinst _ hpc hlt := mem_scheduledStarts.mpr (.inl (mem_blockStarts.mpr ⟨.inr ⟨inst, hinst, hpc⟩, hlt⟩))

theorem startOf_le_maxPc (P : ListedProgram) (block : ℕ) : startOf P.insts block ≤ maxPc P.insts :=
  (cuts_scheduledStarts P).startIn_le_maxPc block

theorem startOf_lt {block' : ℕ} (hlt : block < block') (hb : block < kExit P.insts) :
    startOf P.insts block < startOf P.insts block' := (cuts_scheduledStarts P).startIn_lt hlt hb

theorem startOf_succ_le (hb : block < kExit P.insts) (hle : startOf P.insts block ≤ pc) {start : ℕ}
    (hstart : start ∈ scheduledStarts P.insts) (hlt : pc < start) :
    startOf P.insts (block + 1) ≤ start := (cuts_scheduledStarts P).startIn_succ_le hb hle hstart hlt

theorem blockOf_eq (hb : block < kExit P.insts) (hle : startOf P.insts block ≤ pc)
    (hlt : pc < startOf P.insts (block + 1)) : blockOf P.insts pc = block :=
  (cuts_scheduledStarts P).blockIn_eq hb hle hlt

theorem blockOf_start (h : pc ∈ scheduledStarts P.insts) :
    blockOf P.insts pc < kExit P.insts ∧ startOf P.insts (blockOf P.insts pc) = pc :=
  (cuts_scheduledStarts P).blockIn_start h

theorem blockOf_le_kExit (P : ListedProgram) (pc : ℕ) : blockOf P.insts pc ≤ kExit P.insts := blockIn_le

/-! ## Places -/

theorem SamePlace.refl (program : Program) (pc : ℕ) : SamePlace program pc pc := fun _ _ => Iff.rfl

theorem samePlace_past {a b : ℕ} (ha : maxPc P.insts ≤ a) (hb : maxPc P.insts ≤ b) : SamePlace P.insts a b := by
  intro inst hinst
  have := P.lt_maxPc hinst
  omega

theorem SamePlace.fetch {program : Program} {a b : ℕ} (h : SamePlace program a b) :
    fetch program a = fetch program b := by
  unfold Rdna.fetch
  induction program with
  | nil => rfl
  | cons first rest ih =>
    have hfirst := h first List.mem_cons_self
    have hrest := ih fun inst hinst => h inst (List.mem_cons_of_mem _ hinst)
    simp only [List.find?_cons, hfirst, hrest]

theorem fetch_past (h : maxPc P.insts ≤ pc) : fetch P.insts pc = none := by
  apply List.find?_eq_none.mpr
  intro inst hinst
  have := P.lt_maxPc hinst
  simp only [decide_eq_true_eq]
  omega

theorem SamePlace.between {program : Program} {a b last : ℕ} (h : SamePlace program a b) :
    between program a last = between program b last := by
  apply List.filter_congr
  intro inst hinst
  simp [h inst hinst]

theorem mem_between {program : Program} {first last : ℕ} :
    inst ∈ between program first last ↔ inst ∈ program ∧ first ≤ inst.pc ∧ inst.pc < last := by
  simp [between, List.mem_filter]

theorem between_cons {first last : ℕ} {rest : Program} (h : between P.insts first last = inst :: rest) :
    fetch P.insts first = some inst ∧ rest = between P.insts inst.behind last := by
  obtain ⟨insts, hpos, hapart⟩ := P
  dsimp only at h ⊢
  unfold between at h
  obtain ⟨before, after, rfl, hbefore, hinst, hrest⟩ := List.filter_eq_cons_iff.mp h
  simp only [Bool.and_eq_true, decide_eq_true_eq] at hinst
  obtain ⟨-, hafter, hcross⟩ := List.pairwise_append.mp hapart
  have hbelow : ∀ i ∈ before, i.pc + i.size ≤ inst.pc := fun i hi => hcross i hi inst List.mem_cons_self
  have hsize := hpos inst (List.mem_append_right _ List.mem_cons_self)
  constructor
  · refine List.find?_eq_some_iff_append.mpr ⟨by simpa using hinst.1, before, after, rfl, fun i hi => ?_⟩
    -- it lies before the last address, so it is not from the first on
    have hi' := hbefore i hi
    have hlow := hbelow i hi
    simp only [Bool.and_eq_true, decide_eq_true_eq, not_and, Nat.not_lt] at hi'
    simp only [Bool.not_eq_true', decide_eq_false_iff_not]
    intro hle
    have := hi' hle
    omega
  · have hnone : before.filter (fun i => inst.behind ≤ i.pc && i.pc < last) = [] := by
      refine List.filter_eq_nil_iff.mpr fun i hi => ?_
      have hlow := hbelow i hi
      have hbehind : ¬inst.behind ≤ i.pc := by
        unfold Inst.behind
        omega
      simp [hbehind]
    have hself : ¬(inst.behind ≤ inst.pc) := by
      unfold Inst.behind
      omega
    rw [between, List.filter_append, hnone, List.nil_append, List.filter_cons_of_neg (by simp [hself]), ← hrest]
    refine List.filter_congr fun i hi => ?_
    have hle : inst.behind ≤ i.pc := (List.pairwise_cons.mp hafter).1 i hi
    have hle' : first ≤ i.pc := by
      unfold Inst.behind at hle
      omega
    simp [hle, hle']

theorem samePlace_of_between_nil {program : Program} {first last : ℕ} (h : between program first last = [])
    (hbefore : ∀ inst ∈ program, last ≤ inst.pc → first ≤ inst.pc) : SamePlace program last first := by
  intro inst hinst
  refine ⟨hbefore inst hinst, fun hle => ?_⟩
  by_contra hlast
  have hmem : inst ∈ between program first last := mem_between.mpr ⟨hinst, hle, Nat.not_le.mp hlast⟩
  rw [h] at hmem
  cases hmem

/-! ## Transfers and barriers -/

theorem behind_mem_cfgLeaders (h : transfers inst = true) : inst.behind ∈ cfgLeaders inst := by
  rw [cfgLeaders, if_pos h]
  exact List.mem_cons_self

theorem hasTarget_transfers (h : hasTarget inst = true) : transfers inst = true := by
  simp only [hasTarget, Bool.or_eq_true, Bool.and_eq_true, decide_eq_true_eq] at h
  simp only [transfers, Bool.or_eq_true, decide_eq_true_eq]
  rcases h with h | h
  · exact .inl (.inr h)
  · exact .inl (.inl h.1)

theorem target_mem_cfgLeaders (h : hasTarget inst = true) : branchTarget inst ∈ cfgLeaders inst := by
  rw [cfgLeaders, if_pos (hasTarget_transfers h), if_pos h]
  exact List.mem_cons_of_mem _ List.mem_cons_self

theorem Cuts.samePlace_target {starts : List ℕ} (hcuts : Cuts P.insts starts) (hinst : inst ∈ P.insts)
    (h : hasTarget inst = true) :
    SamePlace P.insts (startIn P.insts starts (blockIn P.insts starts (branchTarget inst))) (branchTarget inst) := by
  rcases Nat.lt_or_ge (branchTarget inst) (maxPc P.insts) with hlt | hge
  · have hmem := hcuts.leaders inst hinst _ (target_mem_cfgLeaders h) hlt
    rw [(hcuts.blockIn_start hmem).2]
    exact SamePlace.refl _ _
  · rw [blockIn, if_pos hge, startIn_of_le (Nat.le_refl _)]
    exact samePlace_past (Nat.le_refl _) hge

theorem Cuts.samePlace_fall {starts : List ℕ} (hcuts : Cuts P.insts starts) (hmem : inst ∈ P.insts)
    (hle : startIn P.insts starts block ≤ inst.pc) (hlt : inst.pc < startIn P.insts starts (block + 1))
    (hb : block < starts.length) (h : transfers inst = true) :
    SamePlace P.insts (startIn P.insts starts (fallIn starts block)) inst.behind := by
  have hsize := P.size_pos inst hmem
  rw [startIn_fallIn]
  intro i hi
  constructor
  · intro hend
    exact P.behind_le hmem hi (Nat.lt_of_lt_of_le hlt hend)
  · intro hbehind
    have hmax : inst.behind < maxPc P.insts := Nat.lt_of_le_of_lt hbehind (P.lt_maxPc hi)
    have hstart := hcuts.leaders inst hmem _ (behind_mem_cfgLeaders h) hmax
    have hnext := hcuts.startIn_succ_le hb hle hstart (by unfold Inst.behind; omega)
    omega

/-- **The block of a target starts at the target.** -/
theorem samePlace_blockOf_target (hinst : inst ∈ P.insts) (h : hasTarget inst = true) :
    SamePlace P.insts (startOf P.insts (blockOf P.insts (branchTarget inst))) (branchTarget inst) :=
  (cuts_scheduledStarts P).samePlace_target hinst h

/-- **The block behind a transfer starts behind the transfer**, but for an instruction that is cut. -/
theorem samePlace_fall (hinst : inst ∈ blockBody P.insts block) (hb : block < kExit P.insts)
    (h : transfers inst = true) : SamePlace P.insts (startOf P.insts (fallOf P.insts block)) inst.behind := by
  obtain ⟨hmem, hle, hlt⟩ := mem_between.mp hinst
  exact (cuts_scheduledStarts P).samePlace_fall hmem hle hlt hb h

theorem barrier_mem_starts (hinst : inst ∈ P.insts) (h : isBarrier inst = true) :
    inst.pc ∈ scheduledStarts P.insts := by
  refine mem_scheduledStarts.mpr (.inr ⟨inst, hinst, ?_⟩)
  rw [barrierStarts, if_pos h]
  exact List.mem_cons_self

/-- **A barrier is alone in its block.** -/
theorem blockBody_barrier (hinst : inst ∈ P.insts) (h : isBarrier inst = true) :
    blockBody P.insts (blockOf P.insts inst.pc) = [inst] := by
  obtain ⟨hb, hstart⟩ := blockOf_start (barrier_mem_starts hinst h)
  have hsize := P.size_pos inst hinst
  have hlt := startOf_lt (P := P) (Nat.lt_succ_self (blockOf P.insts inst.pc)) hb
  have hend : startOf P.insts (blockOf P.insts inst.pc + 1) ≤ inst.behind := by
    rcases Nat.lt_or_ge inst.behind (maxPc P.insts) with hmax | hmax
    · have hmem : inst.behind ∈ scheduledStarts P.insts := by
        refine mem_scheduledStarts.mpr (.inr ⟨inst, hinst, ?_⟩)
        rw [barrierStarts, if_pos h, if_pos hmax]
        exact List.mem_cons_of_mem _ List.mem_cons_self
      exact startOf_succ_le hb (Nat.le_of_eq hstart) hmem (by unfold Inst.behind; omega)
    · exact Nat.le_trans (startOf_le_maxPc P _) hmax
  have hself : inst ∈ blockBody P.insts (blockOf P.insts inst.pc) := by
    refine mem_between.mpr ⟨hinst, Nat.le_of_eq hstart, ?_⟩
    rwa [hstart] at hlt
  cases hbody : blockBody P.insts (blockOf P.insts inst.pc) with
  | nil =>
    rw [hbody] at hself
    cases hself
  | cons first rest =>
    obtain ⟨-, hrest⟩ := between_cons hbody
    have hfirst : first ∈ blockBody P.insts (blockOf P.insts inst.pc) := by
      rw [hbody]
      exact List.mem_cons_self
    obtain ⟨hmem, hle, hlt'⟩ := mem_between.mp hfirst
    have hpc : ¬first.pc > inst.pc := fun hgt => by
      have := P.behind_le hinst hmem hgt
      omega
    have hnone : between P.insts inst.behind (startOf P.insts (blockOf P.insts inst.pc + 1)) = [] := by
      refine List.filter_eq_nil_iff.mpr fun i _ => ?_
      simp only [Bool.and_eq_true, decide_eq_true_eq, not_and]
      omega
    have heq : first = inst := by
      rcases List.mem_cons.mp (hbody ▸ hself) with heq | hin
      · exact heq.symm
      · rw [hrest] at hin
        obtain ⟨-, hbehind, -⟩ := mem_between.mp hin
        have := P.size_pos first hmem
        unfold Inst.behind at hbehind
        omega
    subst heq
    rw [hrest, hnone]

theorem blockOf_of_mem_body (hinst : inst ∈ blockBody P.insts block) (hb : block < kExit P.insts) :
    blockOf P.insts inst.pc = block := by
  obtain ⟨-, hle, hlt⟩ := mem_between.mp hinst
  exact blockOf_eq hb hle hlt

end Listed

end Prosperity.Rdna
