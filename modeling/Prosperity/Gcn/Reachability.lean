import Prosperity.Gcn.Decode

/-!
# Reachable instructions

`ComputeReachability`: the basic blocks of a decoded program, and which of them its control flow
reaches from the first instruction.
-/

namespace Prosperity.Gcn

/-! ## The pass -/

/-- The kinds of control flow: `branch_kind` of the pass. -/
inductive Flow where
  | ordinary
  | relative
  | conditional
  | ends
  | indirect
  deriving DecidableEq

def flowOf (inst : Inst) : Flow :=
  if inst.enc = .kSopk ∧ inst.opcode = 0x11 then .conditional
  else if inst.enc = .kSop2 ∧ inst.opcode = 0x2b then .indirect
  else if inst.enc = .kSop1 then
    -- a call, `s_swappc_b64`, comes back to the next instruction
    if inst.opcode = 0x20 ∨ inst.opcode = 0x22 ∨ inst.opcode = 0x32 then .indirect else .ordinary
  else if inst.enc ≠ .kSopp then .ordinary
  else if inst.opcode ∈ [0x01, 0x1e, 0x1f] then .ends
  else if inst.opcode = 0x02 then .relative
  else if inst.opcode ∈ [0x04, 0x05, 0x06, 0x07, 0x08, 0x09, 0x17, 0x18, 0x19, 0x1a] then
    .conditional
  else .ordinary

/-- The low half of a word as a signed 16-bit number. -/
def simm16 (w : ℕ) : ℤ :=
  if w &&& 0xFFFF < 0x8000 then ((w &&& 0xFFFF : ℕ) : ℤ) else ((w &&& 0xFFFF : ℕ) : ℤ) - 0x10000

def branchTarget (inst : Inst) : ℕ :=
  (((inst.pc : ℤ) + inst.size + simm16 inst.raw0) % 2 ^ 32).toNat

def startsOf (inst : Inst) : List ℕ :=
  match flowOf inst with
  | .ordinary => []
  | .relative | .conditional => [inst.pc + inst.size, branchTarget inst]
  | .ends | .indirect => [inst.pc + inst.size]

/-- The block starts: sorted, without repetitions, below `max_pc`. -/
def starts (program : Program) : List ℕ :=
  (((0 :: program.flatMap startsOf).mergeSort (· ≤ ·)).dedup).filter (· < maxPc program)

/-- `block_of`, whose loop stops at the first start behind `pc`. -/
def blockOf (program : Program) (pc : ℕ) : ℕ :=
  ((starts program).takeWhile (· ≤ pc)).length - 1

def blockStart (program : Program) (block : ℕ) : ℕ := (starts program).getD block 0

def blockEnd (program : Program) (block : ℕ) : ℕ :=
  (starts program).getD (block + 1) (maxPc program)

def blockBranch (program : Program) (block : ℕ) : Option Inst :=
  program.find? fun inst =>
    blockStart program block ≤ inst.pc && inst.pc < blockEnd program block && flowOf inst ≠ .ordinary

/-- What a block puts on the worklist, the last first; `none` where it keeps every block. -/
def blockSuccs (program : Program) (block : ℕ) : Option (List ℕ) :=
  match blockBranch program block with
  | none => some [block + 1]
  | some inst =>
    let target :=
      if branchTarget inst < maxPc program then [blockOf program (branchTarget inst)] else []
    match flowOf inst with
    | .ordinary => some [block + 1]
    | .ends => some []
    | .indirect => none
    | .relative => some target
    | .conditional => some ((block + 1) :: target)

def blockReachable (program : Program) : List Bool :=
  explore (blockSuccs program) (List.replicate (starts program).length false) [0]

def computeReachability (program : Program) : List Bool :=
  program.map fun inst => (blockReachable program).getD (blockOf program inst.pc) false

/-! ## Executions -/

/-- The instruction that runs when the control is at `pc`. -/
def fetch (program : Program) (pc : ℕ) : Option Inst := program.find? fun inst => pc ≤ inst.pc

/-- Where the control may be after an instruction. -/
inductive Goes (inst : Inst) : ℕ → Prop where
  | on : flowOf inst = .ordinary → Goes inst (inst.pc + inst.size)
  | notTaken : flowOf inst = .conditional → Goes inst (inst.pc + inst.size)
  | jumps : flowOf inst = .relative → Goes inst (branchTarget inst)
  | taken : flowOf inst = .conditional → Goes inst (branchTarget inst)
  /-- The target is not known. -/
  | anywhere {pc : ℕ} : flowOf inst = .indirect → Goes inst pc

/-- Some execution from the first instruction on gets to `inst`. -/
inductive Executed (program : Program) : Inst → Prop where
  | first {inst : Inst} : fetch program 0 = some inst → Executed program inst
  | next {inst inst' : Inst} {pc : ℕ} : Executed program inst → Goes inst pc →
      fetch program pc = some inst' → Executed program inst'

/-! ## Soundness -/

def Flow.kind : Flow → FlowKind
  | .ordinary => .ordinary
  | .relative => .relative
  | .conditional => .conditional
  | .ends => .ends
  | .indirect => .indirect

/-- How GCN instructions lie in the code. -/
def listing : Listing Inst := ⟨Inst.pc, Inst.size, fun inst => (flowOf inst).kind, branchTarget⟩

section Soundness

variable {program : Program} {pc block : ℕ} {inst : Inst}

theorem Flow.kind_eq_ordinary (flow : Flow) : flow.kind = .ordinary ↔ flow = .ordinary := by
  cases flow <;> simp [Flow.kind]

theorem listing_startsOf (inst : Inst) : listing.startsOf inst = startsOf inst := by
  simp only [Listing.startsOf, startsOf, listing]
  cases flowOf inst <;> rfl

theorem listing_maxPc (program : Program) : listing.maxPc program = maxPc program := by
  rw [Listing.maxPc, maxPc]
  cases program.getLast? <;> rfl

theorem listing_starts (program : Program) : listing.starts program = starts program := by
  rw [Listing.starts, starts, funext listing_startsOf, listing_maxPc]

theorem listing_blockOf : listing.blockOf program pc = blockOf program pc := by
  rw [Listing.blockOf, blockOf, listing_starts]

theorem listing_blockBranch : listing.blockBranch program block = blockBranch program block := by
  simp only [Listing.blockBranch, blockBranch, Listing.blockStart, blockStart, Listing.blockEnd,
    blockEnd, listing_starts, listing_maxPc]
  refine congrArg (List.find? · program) (funext fun inst => ?_)
  have hflow : decide (listing.flow inst ≠ .ordinary) = decide (flowOf inst ≠ .ordinary) :=
    decide_eq_decide.mpr (not_congr (flowOf inst).kind_eq_ordinary)
  rw [hflow]
  rfl

theorem listing_blockSuccs (program : Program) : listing.blockSuccs program = blockSuccs program := by
  ext1 block
  rw [Listing.blockSuccs, blockSuccs, listing_blockBranch]
  cases blockBranch program block with
  | none => rfl
  | some inst =>
    simp only [listing_blockOf, listing_maxPc]
    simp only [listing]
    cases flowOf inst <;> rfl

theorem listing_blockReachable (program : Program) : listing.blockReachable program = blockReachable program := by
  rw [Listing.blockReachable, blockReachable, listing_blockSuccs, listing_starts]

theorem contiguousFrom_listing (h : ContiguousFrom pc program) : listing.ContiguousFrom pc program := by
  induction program generalizing pc with
  | nil => trivial
  | cons inst rest ih => exact ⟨h.1, h.2.1, ih h.2.2⟩

theorem Goes.listing (h : Goes inst pc) : listing.Goes inst pc := by
  cases h with
  | on h => exact .on ((flowOf inst).kind_eq_ordinary.mpr h)
  | notTaken h => exact .notTaken (congrArg Flow.kind h)
  | jumps h => exact .jumps (congrArg Flow.kind h)
  | taken h => exact .taken (congrArg Flow.kind h)
  | anywhere h => exact .anywhere (congrArg Flow.kind h)

theorem Executed.listing (h : Executed program inst) : listing.Executed program inst := by
  induction h with
  | first hfetch => exact .first hfetch
  | next _ hgoes hfetch ih => exact .next ih hgoes.listing hfetch

theorem fetch_some (h : fetch program pc = some inst) : inst ∈ program ∧ pc ≤ inst.pc :=
  Listing.fetch_some (L := listing) h

theorem Executed.mem (h : Executed program inst) : inst ∈ program := by
  cases h with
  | first hfetch => exact (fetch_some hfetch).1
  | next _ _ hfetch => exact (fetch_some hfetch).1

theorem lt_maxPc (hc : Contiguous program) (hi : inst ∈ program) : inst.pc < maxPc program :=
  listing_maxPc program ▸ Listing.lt_maxPc (contiguousFrom_listing hc) hi

/-- **The block of every executed instruction is marked.** -/
theorem marked_of_executed (hc : Contiguous program) (h : Executed program inst) :
    Marked (blockReachable program) (blockOf program inst.pc) := by
  rw [← listing_blockReachable, ← listing_blockOf]
  exact Listing.marked_of_executed (contiguousFrom_listing hc) h.listing

/-- **The pass is sound** for every decoded shader: it marks every instruction that an execution
gets to. -/
theorem reachable_of_executed (readable : ℕ → Bool) (code : Code) (maxDwords : ℕ) (mode : IsaMode) :
    (computeReachability (decodeShader readable code maxDwords mode)).length =
      (decodeShader readable code maxDwords mode).length ∧
    ∀ (k : ℕ) (inst : Inst), (decodeShader readable code maxDwords mode)[k]? = some inst →
      Executed (decodeShader readable code maxDwords mode) inst →
      (computeReachability (decodeShader readable code maxDwords mode))[k]? = some true := by
  refine ⟨List.length_map _, fun k inst hk hexec => ?_⟩
  have hmarked := marked_of_executed (contiguous_decodeShader readable code maxDwords mode) hexec
  rw [computeReachability, List.getElem?_map, hk, Option.map_some, List.getD_eq_getElem?_getD, hmarked]
  rfl

theorem computeReachability_eq_replicate {readable : ℕ → Bool} {code : Code} {maxDwords : ℕ}
    {mode : IsaMode} (h : ∀ inst ∈ decodeShader readable code maxDwords mode,
      Executed (decodeShader readable code maxDwords mode) inst) :
    computeReachability (decodeShader readable code maxDwords mode) =
      List.replicate (decodeShader readable code maxDwords mode).length true := by
  obtain ⟨hlen, hreach⟩ := reachable_of_executed readable code maxDwords mode
  refine List.eq_replicate_iff.mpr ⟨hlen, fun live hlive => ?_⟩
  obtain ⟨k, hk⟩ := List.mem_iff_getElem?.mp hlive
  have hlt : k < (decodeShader readable code maxDwords mode).length :=
    hlen ▸ (List.getElem?_eq_some_iff.mp hk).1
  have htrue := hreach k _ (List.getElem?_eq_getElem hlt) (h _ (List.getElem_mem hlt))
  exact Option.some.inj (hk.symm.trans htrue)

end Soundness

end Prosperity.Gcn
