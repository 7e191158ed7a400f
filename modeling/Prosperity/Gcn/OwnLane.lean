import Prosperity.Foundations.PrivateCopies
import Prosperity.Gcn.Wave

/-!
# Own-lane shared memory

`PlanDsOwnLane`: the DS instructions of a graphics shader whose address is found to be the lane's
own slot, so that the translator may keep the datum in a variable of the lane.
-/

namespace Prosperity.Gcn

/-! ## The pass -/

structure VgprWrite where
  known : Bool
  dst : ℕ
  count : ℕ

def VgprWrite.names (d : VgprWrite) (reg : ℕ) : Prop :=
  d.count ≠ 0 ∧ d.dst ≤ reg ∧ reg < d.dst + d.count

instance (d : VgprWrite) (reg : ℕ) : Decidable (d.names reg) := inferInstanceAs (Decidable (_ ∧ _))

def vgprDestOf (inst : Inst) : VgprWrite :=
  let w := inst.raw0
  let w1 := inst.raw1
  match inst.enc with
  | .kSop1 | .kSop2 | .kSopk | .kSopc | .kSopp | .kSmrd | .kVopc | .kExp => ⟨true, 0, 0⟩
  -- `v_readfirstlane_b32` and `v_readlane_b32` write an SGPR
  | .kVop1 => if inst.opcode = 0x02 then ⟨true, 0, 0⟩ else ⟨true, (w >>> 17) &&& 0xFF, 1⟩
  | .kVop2 => if inst.opcode = 0x01 then ⟨true, 0, 0⟩ else ⟨true, (w >>> 17) &&& 0xFF, 1⟩
  | .kVop3 =>
    if inst.opcode < 0x100 ∨ inst.opcode = 0x101 then ⟨true, 0, 0⟩ else ⟨true, w &&& 0xFF, 2⟩
  | .kVop3p => ⟨true, w &&& 0xFF, 1⟩
  | .kVintrp => ⟨true, (w >>> 18) &&& 0xFF, 1⟩
  | .kDs => ⟨true, (w1 >>> 24) &&& 0xFF, 2⟩
  | .kMubuf | .kMtbuf | .kMimg => ⟨true, (w1 >>> 8) &&& 0xFF, 4⟩
  | .kFlat | .kUnknown => ⟨false, 0, 0⟩

/-- The branches that `CollectLabels` knows. -/
def isLabelBranch (inst : Inst) : Bool :=
  inst.enc = .kSopp && (inst.opcode = 0x02 || (0x04 ≤ inst.opcode && inst.opcode ≤ 0x0b))

/-- `CollectLabels`, with `none` where it returns false. -/
def collectLabels : Program → List Bool → Option (List ℕ)
  | inst :: program, live :: reachable =>
    if live = false then collectLabels program reachable
    else if inst.enc = .kSop1 ∧ (inst.opcode = 0x20 ∨ inst.opcode = 0x21) then none
    else if isLabelBranch inst then
      (collectLabels program reachable).map (branchTarget inst :: ·)
    else collectLabels program reachable
  | _, _ => some []

section

variable (program : Program) (reachable : List Bool) (labels : List ℕ)

/-- `NearestVgprDef`, with `none` for both of its failures. -/
def nearestVgprDef (reg : ℕ) : ℕ → Option ℕ
  | 0 => none
  | i + 1 =>
    match program[i]? with
    | none => none
    | some inst =>
      if reachable.getD i false = false then nearestVgprDef reg i
      else if inst.pc ∈ labels then none
      else if (vgprDestOf inst).known = false then none
      else if (vgprDestOf inst).names reg then some i
      else nearestVgprDef reg i

/-- `IsLaneChainStep`, with the value of `src1_reg` after it. -/
def isLaneChainStep (inst : Inst) (wantOp wantSrc0 : ℕ) (wantSrc1 : Option ℕ) (reg : ℕ) : Option ℕ :=
  if ¬ (inst.enc = .kVop2 ∧ inst.opcode = wantOp) ∧
      ¬ (inst.enc = .kVop3 ∧ inst.opcode = 0x100 + wantOp) then none
  else if src0 inst ≠ wantSrc0 then none
  else
    match wantSrc1 with
    | some field => if src1 inst = field then some reg else none
    | none => if src1 inst < 256 then none else some (src1 inst - 256)

/-- A register as the instruction at `pos` reads it, with the instruction that defines it. -/
structure Link where
  pos : ℕ
  reg : ℕ
  definition : ℕ
  deriving DecidableEq

/-- `kOps`, `kSrc0` and `kSrc1`: the shift, then the low and the high half of the lane index. -/
def chainSteps : List (ℕ × ℕ × Option ℕ) :=
  [(0x1a, 130, none), (0x23, 193, none), (0x24, 193, some 128)]

def followChain : List (ℕ × ℕ × Option ℕ) → ℕ → ℕ → Option (List Link)
  | [], _, _ => some []
  | (op, want0, want1) :: steps, pos, reg =>
    (nearestVgprDef program reachable labels reg pos).bind fun d =>
      program[d]?.bind fun inst =>
        (isLaneChainStep inst op want0 want1 reg).bind fun reg' =>
          (followChain steps d reg').map (⟨pos, reg, d⟩ :: ·)

/-- The links behind the address of the DS instruction at `pos`. -/
def laneChain (pos : ℕ) (inst : Inst) : Option (List Link) :=
  followChain program reachable labels chainSteps pos (inst.raw1 &&& 0xFF)

def chainLinks : List Link :=
  match collectLabels program reachable with
  | none => []
  | some labels =>
    (List.range program.length).flatMap fun i =>
      (program[i]?.bind fun inst =>
        if inst.enc = .kDs then laneChain program reachable labels i inst else none).getD []

def isAddtid (inst : Inst) : Bool := inst.opcode = 176 || inst.opcode = 177

/-- `PlanDsOwnLane`: the planned pcs. -/
def planDsOwnLane : List ℕ :=
  match collectLabels program reachable with
  | none => []
  | some labels =>
    (List.range program.length).filterMap fun i =>
      program[i]?.bind fun inst =>
        if inst.enc ≠ .kDs ∨ reachable.getD i false = false then none
        else if isAddtid inst then some inst.pc
        else if (laneChain program reachable labels i inst).isSome then some inst.pc
        else none

end

/-! ## What the parts find -/

section Parts

variable {program : Program} {reachable : List Bool} {labels : List ℕ} {inst : Inst}
  {reg pos d k : ℕ}

theorem target_mem_labels (h : collectLabels program reachable = some labels)
    (hk : program[k]? = some inst) (hlive : reachable[k]? = some true)
    (hbranch : isLabelBranch inst = true) : branchTarget inst ∈ labels := by
  induction program generalizing reachable labels k with
  | nil => simp at hk
  | cons first program ih =>
    cases reachable with
    | nil => simp at hlive
    | cons live reachable =>
      rw [collectLabels] at h
      cases k with
      | zero =>
        obtain rfl : first = inst := by simpa using hk
        obtain rfl : live = true := by simpa using hlive
        rw [if_neg (by simp)] at h
        have hsopp : first.enc = .kSopp := by
          simp only [isLabelBranch, Bool.and_eq_true, decide_eq_true_eq] at hbranch
          exact hbranch.1
        rw [if_neg (by simp [hsopp]), if_pos hbranch] at h
        obtain ⟨rest, -, rfl⟩ := Option.map_eq_some_iff.mp h
        exact List.mem_cons_self
      | succ k =>
        have hk : program[k]? = some inst := by simpa using hk
        have hlive : reachable[k]? = some true := by simpa using hlive
        split at h
        · exact ih h hk hlive
        · split at h
          · cases h
          · split at h
            · obtain ⟨rest, hrest, rfl⟩ := Option.map_eq_some_iff.mp h
              exact List.mem_cons_of_mem _ (ih hrest hk hlive)
            · exact ih h hk hlive

/-- The instruction at `d` defines `reg`, and no reachable one up to `pos` does, whose
destinations are all known; none of them is at a label. -/
structure Defines (program : Program) (reachable : List Bool) (labels : List ℕ)
    (reg pos d : ℕ) : Prop where
  lt : d < pos
  off_label : ∀ k inst, d ≤ k → k < pos → program[k]? = some inst → reachable.getD k false = true → inst.pc ∉ labels
  known : ∀ k inst, d < k → k < pos → program[k]? = some inst → reachable.getD k false = true →
    (vgprDestOf inst).known = true ∧ ¬ (vgprDestOf inst).names reg

/-- **What the backward walk finds.** -/
theorem defines_of_nearest (h : nearestVgprDef program reachable labels reg pos = some d) :
    Defines program reachable labels reg pos d := by
  induction pos with
  | zero => cases h
  | succ i ih =>
    rw [nearestVgprDef] at h
    cases hinst : program[i]? with
    | none =>
      rw [hinst] at h
      cases h
    | some inst =>
      rw [hinst] at h
      dsimp only at h
      by_cases hlive : reachable.getD i false = false
      · rw [if_pos hlive] at h
        have hdef := ih h
        -- the skipped instruction is not reachable
        refine ⟨Nat.lt_succ_of_lt hdef.lt, fun k inst' hle hlt hk hk' => ?_,
          fun k inst' hle hlt hk hk' => ?_⟩
        · rcases Nat.lt_succ_iff_lt_or_eq.mp hlt with hlt | rfl
          · exact hdef.off_label k inst' hle hlt hk hk'
          · simp only [hlive, Bool.false_eq_true] at hk'
        · rcases Nat.lt_succ_iff_lt_or_eq.mp hlt with hlt | rfl
          · exact hdef.known k inst' hle hlt hk hk'
          · simp only [hlive, Bool.false_eq_true] at hk'
      · rw [if_neg hlive] at h
        split at h
        · cases h
        · rename_i hlabel
          split at h
          · cases h
          · rename_i hknown
            split at h
            · obtain rfl : i = d := by simpa using h
              refine ⟨Nat.lt_succ_self i, fun k inst' hle hlt hk _ => ?_, fun k _ hle hlt => ?_⟩
              · obtain rfl : k = i := by omega
                obtain rfl : inst = inst' := by simpa [hinst] using hk
                exact hlabel
              · omega
            · rename_i hnames
              have hdef := ih h
              refine ⟨Nat.lt_succ_of_lt hdef.lt, fun k inst' hle hlt hk hk' => ?_,
                fun k inst' hle hlt hk hk' => ?_⟩
              · rcases Nat.lt_succ_iff_lt_or_eq.mp hlt with hlt | rfl
                · exact hdef.off_label k inst' hle hlt hk hk'
                · obtain rfl : inst = inst' := by simpa [hinst] using hk
                  exact hlabel
              · rcases Nat.lt_succ_iff_lt_or_eq.mp hlt with hlt | rfl
                · exact hdef.known k inst' hle hlt hk hk'
                · obtain rfl : inst = inst' := by simpa [hinst] using hk
                  exact ⟨by simpa using hknown, hnames⟩

theorem laneOp_of_chainStep {op want0 : ℕ} {want1 : Option ℕ} {reg' : ℕ} {lop : LaneOp}
    (h : isLaneChainStep inst op want0 want1 reg = some reg')
    (hop : (op, lop) ∈ [(0x1a, LaneOp.lshlrev), (0x23, .mbcntLo), (0x24, .mbcntHi)])
    (hwant : want0 ≠ 249 ∧ want0 ≠ 250) : laneOp inst = some lop ∧ src0 inst = want0 ∧
      match want1 with
      | some field => src1 inst = field
      | none => src1 inst = 256 + reg' := by
  unfold isLaneChainStep at h
  split at h
  · cases h
  rename_i hform
  split at h
  · cases h
  rename_i hsrc0
  rw [not_not] at hsrc0
  refine ⟨?_, hsrc0, ?_⟩
  · rw [not_and_or, not_not, not_not] at hform
    rcases hform with ⟨henc, hopcode⟩ | ⟨henc, hopcode⟩
    · simp only [List.mem_cons, Prod.mk.injEq, List.not_mem_nil, or_false] at hop
      rcases hop with ⟨rfl, rfl⟩ | ⟨rfl, rfl⟩ | ⟨rfl, rfl⟩ <;>
        simp [laneOp, henc, hopcode, hsrc0, hwant]
    · simp only [List.mem_cons, Prod.mk.injEq, List.not_mem_nil, or_false] at hop
      rcases hop with ⟨rfl, rfl⟩ | ⟨rfl, rfl⟩ | ⟨rfl, rfl⟩ <;> simp [laneOp, henc, hopcode]
  · cases want1 with
    | some field =>
      dsimp only at h ⊢
      split at h
      · assumption
      · cases h
    | none =>
      dsimp only at h ⊢
      split at h
      · cases h
      · obtain rfl : src1 inst - 256 = reg' := by simpa using h
        omega

/-- The three links behind a planned address. -/
structure Chain (program : Program) (reachable : List Bool) (labels : List ℕ) (pos : ℕ)
    (inst : Inst) (links : List Link) where
  (a b c r1 r2 : ℕ)
  (ia ib ic : Inst)
  links_eq : links = [⟨pos, inst.raw1 &&& 0xFF, a⟩, ⟨a, r1, b⟩, ⟨b, r2, c⟩]
  at_a : program[a]? = some ia
  at_b : program[b]? = some ib
  at_c : program[c]? = some ic
  def_a : Defines program reachable labels (inst.raw1 &&& 0xFF) pos a
  def_b : Defines program reachable labels r1 a b
  def_c : Defines program reachable labels r2 b c
  shift : laneOp ia = some .lshlrev ∧ src0 ia = 130 ∧ src1 ia = 256 + r1
  low : laneOp ib = some .mbcntLo ∧ src0 ib = 193 ∧ src1 ib = 256 + r2
  high : laneOp ic = some .mbcntHi ∧ src0 ic = 193 ∧ src1 ic = 128

theorem Chain.mem {links : List Link} (chain : Chain program reachable labels pos inst links)
    {link : Link} (h : link ∈ [⟨pos, inst.raw1 &&& 0xFF, chain.a⟩, ⟨chain.a, chain.r1, chain.b⟩,
      ⟨chain.b, chain.r2, chain.c⟩]) : link ∈ links :=
  (congrArg (link ∈ ·) chain.links_eq).mpr h

theorem mem_chainLinks {links : List Link} {link : Link}
    (hlabels : collectLabels program reachable = some labels) (hat : program[pos]? = some inst)
    (hds : inst.enc = .kDs) (hlinks : laneChain program reachable labels pos inst = some links)
    (hlink : link ∈ links) : link ∈ chainLinks program reachable := by
  rw [chainLinks, hlabels]
  have hlt : pos < program.length := (List.getElem?_eq_some_iff.mp hat).1
  refine List.mem_flatMap.mpr ⟨pos, List.mem_range.mpr hlt, ?_⟩
  rw [hat, Option.bind_some, if_pos hds, hlinks]
  exact hlink

theorem chain_of_laneChain {links : List Link} (h : laneChain program reachable labels pos inst = some links) :
    Nonempty (Chain program reachable labels pos inst links) := by
  simp only [laneChain, chainSteps, followChain, Option.bind_eq_some_iff, Option.map_eq_some_iff] at h
  obtain ⟨a, ha, ia, hia, r1, hshift, l1, ⟨b, hb, ib, hib, r2, hlow, l2, ⟨c, hc, ic, hic, r3,
    hhigh, l3, hl3, rfl⟩, rfl⟩, rfl⟩ := h
  obtain rfl : [] = l3 := by simpa using hl3
  exact ⟨⟨a, b, c, r1, r2, ia, ib, ic, rfl, hia, hib, hic, defines_of_nearest ha,
    defines_of_nearest hb, defines_of_nearest hc, laneOp_of_chainStep hshift (by simp) (by decide),
    laneOp_of_chainStep hlow (by simp) (by decide),
    laneOp_of_chainStep hhigh (by simp) (by decide)⟩⟩

end Parts

/-! ## The shared memory of a run -/

def dsOffset (inst : Inst) : ℕ := inst.raw0 &&& 0xFFFF

def dsAddress (inst : Inst) (s : Wave) (l : Lane) : ℕ :=
  (if isAddtid inst then s.scalar 124 % 2 ^ 16 + 4 * l.val else s.vgpr (inst.raw1 &&& 0xFF) l) +
    dsOffset inst

/-- `ds_write_b32` and `ds_write_addtid_b32`. -/
def isDwordStore (inst : Inst) : Bool := inst.opcode = 13 || inst.opcode = 176

/-- `ds_read_b32` and `ds_read_addtid_b32`. -/
def isDwordLoad (inst : Inst) : Bool := inst.opcode = 54 || inst.opcode = 177

def dsAccesses (e : Event) : List (Access Lane ℕ ℕ) :=
  if e.inst.enc = .kDs then
    ((List.finRange 64).filter e.before.exec).map fun l =>
      ⟨l, dsAddress e.inst e.before l,
        if isDwordStore e.inst then some (e.before.vgpr ((e.inst.raw1 >>> 8) &&& 0xFF) l) else none⟩
  else []

def accesses (events : List Event) : List (Access Lane ℕ ℕ) := events.flatMap dsAccesses

/-! ## Careful steps -/

section Runs

variable (isa : Isa) (program : Program) (reachable : List Bool)

/-- A step that the pass accounts for. -/
structure Careful (e : Event) : Prop where
  /-- The instruction writes no VGPR but those `VgprDestOf` names, if it knows them. -/
  named : ∀ r, isa.writes e.inst e.before.scalar r → (vgprDestOf e.inst).known = true → (vgprDestOf e.inst).names r
  /-- Control that does not go on to the next instruction goes to the beginning of another one,
  by a branch that `CollectLabels` knows, and not to one that reads a register of a chain. -/
  lands : ∀ (k : ℕ) inst, fetch program e.after.pc = some inst → program[k]? = some inst →
    e.after.pc = e.inst.pc + e.inst.size ∨
      isLabelBranch e.inst = true ∧ e.after.pc = branchTarget e.inst ∧ inst.pc = e.after.pc ∧
        ∀ link ∈ chainLinks program reachable, link.pos ≠ k
  reads : ∀ link ∈ chainLinks program reachable, program[link.pos]? = some e.inst →
    ∀ l, e.before.exec l = true → e.before.reached link.reg l = true
  exact : ∀ link ∈ chainLinks program reachable, program[link.definition]? = some e.inst → vdst e.inst = link.reg
  base : e.inst.enc = .kDs → isAddtid e.inst = true → e.before.scalar 124 % 2 ^ 16 = 0

end Runs

section Soundness

variable {isa : Isa} {program : Program} {reachable : List Bool} {labels : List ℕ}
  {reg pos d : ℕ} {value : Lane → ℕ} {events : List Event} {s s' : Wave} {inst : Inst}

def LinkHolds (program : Program) (reg pos d : ℕ) (value : Lane → ℕ) (s : Wave) : Prop :=
  ∀ k inst, fetch program s.pc = some inst → program[k]? = some inst → d < k → k ≤ pos →
    ∀ l, s.reached reg l = true → s.vgpr reg l = value l

theorem not_label_of_chain (hlabels : collectLabels program reachable = some labels)
    (hreach : ∀ (k : ℕ) inst, program[k]? = some inst → Executed program inst → reachable[k]? = some true)
    {k' : ℕ} {inst' : Inst} (hexec : Executed program inst) (hexec' : Executed program inst')
    (hk' : program[k']? = some inst') (hbranch : isLabelBranch inst = true)
    (hpc : inst'.pc = branchTarget inst) (hdef : Defines program reachable labels reg pos d)
    (hd : d ≤ k') (hpos : k' < pos) : False := by
  obtain ⟨k, hk⟩ := List.mem_iff_getElem?.mp hexec.mem
  have hmem := target_mem_labels hlabels hk (hreach k inst hk hexec) hbranch
  have hlive : reachable.getD k' false = true := by
    rw [List.getD_eq_getElem?_getD, hreach k' inst' hk' hexec']
    rfl
  exact hdef.off_label k' inst' hd hpos hk' hlive (hpc ▸ hmem)

/-- **One instruction keeps a link.** -/
theorem linkHolds_step (hc : Contiguous program) (hlabels : collectLabels program reachable = some labels)
    (hreach : ∀ (k : ℕ) inst, program[k]? = some inst → Executed program inst → reachable[k]? = some true)
    (hexec : Executed program inst) (hstep : Step isa program inst s s')
    (hcareful : Careful isa program reachable ⟨inst, s, s'⟩) (hdef : Defines program reachable labels reg pos d)
    (huse : ∃ link ∈ chainLinks program reachable, link.pos = pos)
    (hestablish : program[d]? = some inst → isa.writes inst s.scalar reg ∧
      ∀ l, s.exec l = true → s'.vgpr reg l = value l)
    (h : LinkHolds program reg pos d value s) : LinkHolds program reg pos d value s' := by
  intro k' inst' hfetch' hk' hlt hle
  have hexec' : Executed program inst' := .next hexec hstep.goes hfetch'
  rcases hcareful.lands k' inst' hfetch' hk' with hnext | ⟨hbranch, htarget, hpc, hnochain⟩
  · -- control goes on to the next instruction
    obtain ⟨k, hk⟩ := exists_index_of_fetch hstep.fetched
    dsimp only at hnext
    rw [hnext, ContiguousFrom.fetch_next hc hk] at hfetch'
    have hindex : k + 1 = k' := by
      obtain ⟨i, hi⟩ := List.mem_iff_getElem?.mp hexec'.mem
      exact (ContiguousFrom.index_unique hc hfetch' hi rfl).trans
        (ContiguousFrom.index_unique hc hi hk' rfl)
    rcases Nat.lt_or_eq_of_le (show d ≤ k by omega) with hdk | rfl
    · -- behind the definition nothing writes the register
      have hlive : reachable.getD k false = true := by
        rw [List.getD_eq_getElem?_getD, hreach k inst hk hexec]
        rfl
      obtain ⟨hknown, hnames⟩ := hdef.known k inst hdk (by omega) hk hlive
      have hwrites : ¬ isa.writes inst s.scalar reg := fun hw =>
        hnames (hcareful.named reg hw hknown)
      obtain ⟨hv, hr⟩ := hstep.kept reg hwrites
      rw [hv, hr]
      exact h k inst hstep.fetched hk hdk (by omega)
    · obtain ⟨hw, hvalue⟩ := hestablish hk
      rw [hstep.wrote reg hw]
      exact hvalue
  · -- control comes from a branch
    dsimp only at hbranch htarget hpc hnochain
    have hnot : ¬ k' < pos := fun hlt' =>
      not_label_of_chain hlabels hreach hexec hexec' hk' hbranch (hpc.trans htarget) hdef
        (Nat.le_of_lt hlt) hlt'
    obtain rfl : k' = pos := by omega
    obtain ⟨link, hlink, hpos⟩ := huse
    exact absurd hpos (hnochain link hlink)

theorem linkHolds_run (hc : Contiguous program) (hlabels : collectLabels program reachable = some labels)
    (hreach : ∀ (k : ℕ) inst, program[k]? = some inst → Executed program inst → reachable[k]? = some true)
    (hdef : Defines program reachable labels reg pos d) (huse : ∃ link ∈ chainLinks program reachable, link.pos = pos)
    (hrun : Run isa program events s) (hcareful : ∀ e ∈ events, Careful isa program reachable e)
    (hestablish : ∀ e ∈ events, ∀ earlier later, events = later ++ e :: earlier →
      Run isa program earlier e.before → Step isa program e.inst e.before e.after →
      program[d]? = some e.inst → isa.writes e.inst e.before.scalar reg ∧
        ∀ l, e.before.exec l = true → e.after.vgpr reg l = value l) : LinkHolds program reg pos d value s := by
  induction hrun with
  | @start s hpc =>
    -- the first instruction defines nothing
    intro k inst hfetch hk hlt hle
    exfalso
    cases program with
    | nil => simp at hk
    | cons first rest =>
      rw [hpc, fetch, List.find?_cons_of_pos (by simp)] at hfetch
      have hzero := ContiguousFrom.index_unique hc hk (j := 0) (by simpa using hfetch) rfl
      omega
  | @step events inst s s' hrun hstep ih =>
    refine linkHolds_step hc hlabels hreach (hrun.executed hstep.fetched) hstep
      (hcareful _ List.mem_cons_self) hdef huse ?_ (ih ?_ ?_)
    · exact hestablish _ List.mem_cons_self events [] rfl hrun hstep
    · exact fun e he => hcareful e (List.mem_cons_of_mem _ he)
    · intro e he earlier later hevents
      refine hestablish e (List.mem_cons_of_mem _ he) earlier (⟨inst, s, s'⟩ :: later) ?_
      rw [hevents, List.cons_append]

section Chains

variable {links : List Link} (hc : Contiguous program)
  (hlabels : collectLabels program reachable = some labels)
  (hreach : ∀ (k : ℕ) inst, program[k]? = some inst → Executed program inst → reachable[k]? = some true)
  (hat : program[pos]? = some inst) (hds : inst.enc = .kDs)
  (hlinks : laneChain program reachable labels pos inst = some links)
  (chain : Chain program reachable labels pos inst links)

theorem result_of_link {e : Event} {op : LaneOp} {link : Link} (hstep : Step isa program e.inst e.before e.after)
    (hop : laneOp e.inst = some op) (hvdst : vdst e.inst = link.reg) (hvalue : ∀ l, e.before.exec l = true →
      op.value (e.before.operand (src0 e.inst) l) (e.before.operand (src1 e.inst) l) l = value l) :
    isa.writes e.inst e.before.scalar link.reg ∧ ∀ l, e.before.exec l = true → e.after.vgpr link.reg l = value l := by
  constructor
  · exact (isa.writes_laneOp hop _ _).mpr hvdst.symm
  · intro l hl
    rw [← hvdst, hstep.result op hop l hl, hvalue l hl]

include hc hlabels hreach hat hds hlinks

theorem linkHolds_high (hrun : Run isa program events s) (hcareful : ∀ e ∈ events, Careful isa program reachable e) :
    LinkHolds program chain.r2 chain.b chain.c (fun l => l.val - 32) s := by
  have hmem : (⟨chain.b, chain.r2, chain.c⟩ : Link) ∈ chainLinks program reachable :=
    mem_chainLinks hlabels hat hds hlinks (chain.mem (by simp))
  apply linkHolds_run hc hlabels hreach chain.def_c _ hrun hcareful
  · intro e he earlier later _ _ hstep hd
    have hic : chain.ic = e.inst := Option.some.inj (chain.at_c.symm.trans hd)
    obtain ⟨hop, h0, h1⟩ := chain.high
    rw [hic] at hop h0 h1
    refine result_of_link hstep hop
      ((hcareful e he).exact _ hmem hd) fun l _ => ?_
    rw [h0, h1, Wave.operand_ones, Wave.operand_inline e.before (Nat.zero_le 64), mbcntHi_value]
  · exact ⟨_, hmem, rfl⟩

theorem linkHolds_low (hrun : Run isa program events s) (hcareful : ∀ e ∈ events, Careful isa program reachable e) :
    LinkHolds program chain.r1 chain.a chain.b (fun l => l.val) s := by
  have hmem : (⟨chain.a, chain.r1, chain.b⟩ : Link) ∈ chainLinks program reachable :=
    mem_chainLinks hlabels hat hds hlinks (chain.mem (by simp))
  have hread : (⟨chain.b, chain.r2, chain.c⟩ : Link) ∈ chainLinks program reachable :=
    mem_chainLinks hlabels hat hds hlinks (chain.mem (by simp))
  apply linkHolds_run hc hlabels hreach chain.def_b _ hrun hcareful
  · intro e he earlier later hevents hrun' hstep hd
    have hib : chain.ib = e.inst := Option.some.inj (chain.at_b.symm.trans hd)
    obtain ⟨hop, h0, h1⟩ := chain.low
    rw [hib] at hop h0 h1
    refine result_of_link hstep hop
      ((hcareful e he).exact _ hmem hd) fun l hl => ?_
    have hreached := (hcareful e he).reads _ hread hd l hl
    have hhigh := linkHolds_high hc hlabels hreach hat hds hlinks chain hrun'
      (fun e' he' => hcareful e' (hevents ▸ List.mem_append_right _ (List.mem_cons_of_mem _ he')))
      chain.b e.inst hstep.fetched hd chain.def_c.lt (Nat.le_refl _) l hreached
    rw [h0, h1, Wave.operand_ones, Wave.operand_vgpr, hhigh, mbcntLo_value]
  · exact ⟨_, hmem, rfl⟩

theorem linkHolds_address (hrun : Run isa program events s)
    (hcareful : ∀ e ∈ events, Careful isa program reachable e) :
    LinkHolds program (inst.raw1 &&& 0xFF) pos chain.a (fun l => 4 * l.val) s := by
  have hmem : (⟨pos, inst.raw1 &&& 0xFF, chain.a⟩ : Link) ∈ chainLinks program reachable :=
    mem_chainLinks hlabels hat hds hlinks (chain.mem (by simp))
  have hread : (⟨chain.a, chain.r1, chain.b⟩ : Link) ∈ chainLinks program reachable :=
    mem_chainLinks hlabels hat hds hlinks (chain.mem (by simp))
  apply linkHolds_run hc hlabels hreach chain.def_a _ hrun hcareful
  · intro e he earlier later hevents hrun' hstep hd
    have hia : chain.ia = e.inst := Option.some.inj (chain.at_a.symm.trans hd)
    obtain ⟨hop, h0, h1⟩ := chain.shift
    rw [hia] at hop h0 h1
    refine result_of_link hstep hop
      ((hcareful e he).exact _ hmem hd) fun l hl => ?_
    have hreached := (hcareful e he).reads _ hread hd l hl
    have hlow := linkHolds_low hc hlabels hreach hat hds hlinks chain hrun'
      (fun e' he' => hcareful e' (hevents ▸ List.mem_append_right _ (List.mem_cons_of_mem _ he')))
      chain.a e.inst hstep.fetched hd chain.def_b.lt (Nat.le_refl _) l hreached
    have htwo : e.before.operand 130 l = 2 := e.before.operand_inline (n := 2) (by omega) l
    rw [h0, h1, htwo, Wave.operand_vgpr, hlow, lshlrev_value]
  · exact ⟨_, hmem, rfl⟩

end Chains

theorem dsAddress_of_careful (hc : Contiguous program)
    (hreach : ∀ (k : ℕ) inst, program[k]? = some inst → Executed program inst → reachable[k]? = some true)
    (hrun : Run isa program events s)
    (hcareful : ∀ e ∈ events, Careful isa program reachable e) {e : Event} (he : e ∈ events)
    (hds : e.inst.enc = .kDs) (hplan : e.inst.pc ∈ planDsOwnLane program reachable)
    {l : Lane} (hl : e.before.exec l = true) : dsAddress e.inst e.before l = 4 * l.val + dsOffset e.inst := by
  obtain ⟨earlier, later, hevents, hrun', hstep⟩ := hrun.exists_of_mem he
  have hcareful' : ∀ e' ∈ earlier, Careful isa program reachable e' := fun e' he' =>
    hcareful e' (hevents ▸ List.mem_append_right _ (List.mem_cons_of_mem _ he'))
  rw [dsAddress]
  by_cases haddtid : isAddtid e.inst = true
  · rw [if_pos haddtid, (hcareful e he).base hds haddtid, Nat.zero_add]
  · rw [if_neg haddtid]
    cases hlabels : collectLabels program reachable with
    | none =>
      rw [planDsOwnLane, hlabels] at hplan
      cases hplan
    | some labels =>
      -- the planned instruction of this pc is the executed one
      rw [planDsOwnLane, hlabels] at hplan
      obtain ⟨pos, -, hpos⟩ := List.mem_filterMap.mp hplan
      obtain ⟨inst, hat, hpos⟩ := Option.bind_eq_some_iff.mp hpos
      obtain ⟨k, hk⟩ := exists_index_of_fetch hstep.fetched
      split at hpos
      · cases hpos
      · split at hpos
        · rename_i haddtid'
          have hpc : inst.pc = e.inst.pc := by simpa using hpos
          obtain rfl := ContiguousFrom.index_unique hc hat hk hpc
          obtain rfl : inst = e.inst := Option.some.inj (hat.symm.trans hk)
          exact absurd haddtid' haddtid
        · split at hpos
          · rename_i hchain
            have hpc : inst.pc = e.inst.pc := by simpa using hpos
            obtain rfl := ContiguousFrom.index_unique hc hat hk hpc
            obtain rfl : inst = e.inst := Option.some.inj (hat.symm.trans hk)
            obtain ⟨links, hlinks⟩ := Option.isSome_iff_exists.mp hchain
            obtain ⟨chain⟩ := chain_of_laneChain hlinks
            have hreached := (hcareful e he).reads _ (mem_chainLinks hlabels hat hds hlinks
              (chain.mem List.mem_cons_self)) hat l hl
            rw [linkHolds_address hc hlabels hreach hat hds hlinks chain hrun' hcareful' pos e.inst
              hstep.fetched hat chain.def_a.lt (Nat.le_refl _) l hreached]
          · cases hpos

def IsSpill (program : Program) (reachable : List Bool) (inst : Inst) : Prop :=
  inst.pc ∈ planDsOwnLane program reachable ∧
    (isDwordStore inst = true ∨ isDwordLoad inst = true) ∧ dsOffset inst % 256 = 0

theorem mem_accesses {x : Access Lane ℕ ℕ} :
    x ∈ accesses events ↔ ∃ e ∈ events, e.inst.enc = .kDs ∧ e.before.exec x.owner = true ∧
      x.address = dsAddress e.inst e.before x.owner ∧ x.stored = if isDwordStore e.inst then
        some (e.before.vgpr ((e.inst.raw1 >>> 8) &&& 0xFF) x.owner) else none := by
  rw [accesses, List.mem_flatMap]
  constructor
  · rintro ⟨e, he, hx⟩
    rw [dsAccesses] at hx
    split at hx
    · rename_i hds
      obtain ⟨l, hl, rfl⟩ := List.mem_map.mp hx
      exact ⟨e, he, hds, (List.mem_filter.mp hl).2, rfl, rfl⟩
    · cases hx
  · rintro ⟨e, he, hds, hl, haddress, hstored⟩
    refine ⟨e, he, ?_⟩
    rw [dsAccesses, if_pos hds]
    refine List.mem_map.mpr ⟨x.owner, List.mem_filter.mpr ⟨List.mem_finRange _, hl⟩, ?_⟩
    rw [← haddress, ← hstored]

end Soundness

/-! ## A spill behind a branch -/

/-- `s_cmp_lg_u32 s0, s1`, a branch over the lane's address to the store, the address in `v0`,
`ds_write_b32 v0, v1` and the end. -/
def spillCode : Code := fun d =>
  [0xBF070100, 0xBF840004, 0xD2480000, 0x000100C1, 0x460000C1, 0x34000082, 0xD8340000, 0x00000100, 0xBF810000].getD d 0

def spillProgram : Program := decodeShader (fun _ => false) spillCode 9 .kBase

theorem spillProgram_eq : spillProgram = [⟨.kBase, .kSopc, 7, 0xBF070100, 0, 1, 0, false, 0, .kNone⟩,
      ⟨.kBase, .kSopp, 4, 0xBF840004, 0, 1, 1, false, 0, .kNone⟩,
      ⟨.kBase, .kVop3, 0x124, 0xD2480000, 0x000100C1, 2, 2, false, 0, .kNone⟩,
      ⟨.kBase, .kVop2, 0x23, 0x460000C1, 0, 1, 4, false, 0, .kNone⟩,
      ⟨.kBase, .kVop2, 0x1a, 0x34000082, 0, 1, 5, false, 0, .kNone⟩,
      ⟨.kBase, .kDs, 13, 0xD8340000, 0x00000100, 2, 6, false, 0, .kNone⟩,
      ⟨.kBase, .kSopp, 1, 0xBF810000, 0, 1, 8, false, 0, .kNone⟩] := by
  decide +kernel

theorem executed_spillProgram : ∀ inst ∈ spillProgram, Executed spillProgram inst := by
  rw [spillProgram_eq]
  intro inst hinst
  have h0 : Executed spillProgram _ := .first (by rw [spillProgram_eq]; rfl)
  have h1 := h0.next (.on rfl) (by rw [spillProgram_eq]; rfl)
  have h2 := h1.next (.notTaken rfl) (by rw [spillProgram_eq]; rfl)
  have h3 := h2.next (.on rfl) (by rw [spillProgram_eq]; rfl)
  have h4 := h3.next (.on rfl) (by rw [spillProgram_eq]; rfl)
  have h5 := h4.next (.on rfl) (by rw [spillProgram_eq]; rfl)
  have h6 := h5.next (.on rfl) (by rw [spillProgram_eq]; rfl)
  rw [spillProgram_eq] at h0 h1 h2 h3 h4 h5 h6
  simp only [List.mem_cons, List.not_mem_nil, or_false] at hinst
  rcases hinst with rfl | rfl | rfl | rfl | rfl | rfl | rfl
  · exact h0
  · exact h1
  · exact h2
  · exact h3
  · exact h4
  · exact h5
  · exact h6

theorem reachable_spillProgram : computeReachability spillProgram = List.replicate 7 true := by
  have hall := computeReachability_eq_replicate executed_spillProgram
  have hseven : spillProgram.length = 7 := by
    rw [spillProgram_eq]
    rfl
  rwa [← spillProgram, hseven] at hall

theorem planDsOwnLane_spillProgram : planDsOwnLane spillProgram (computeReachability spillProgram) = [6] := by
  rw [reachable_spillProgram, spillProgram_eq]
  decide

/-- The program's instructions write VGPRs in the lane chain only. -/
def spillIsa : Isa where
  writes inst _ r := (laneOp inst).isSome ∧ r = vdst inst
  writes_laneOp h _ _ := by simp [h]

/-- All lanes run; `v0` holds `v` and `s1` holds `b`, the other registers `0`. -/
def spillWave (b pc : ℕ) (v : Lane → ℕ) : Wave where
  pc := pc
  exec _ := true
  scalar r := if r = 1 then b else 0
  vgpr r := if r = 0 then v else fun _ => 0
  reached _ _ := true

theorem spill_step_plain {b pc pc' : ℕ} {v : Lane → ℕ} {inst : Inst}
    (hfetch : fetch spillProgram pc = some inst) (hgoes : Goes inst pc') (hop : laneOp inst = none) :
    Step spillIsa spillProgram inst (spillWave b pc v) (spillWave b pc' v) where
  fetched := hfetch
  goes := hgoes
  kept _ _ := ⟨rfl, rfl⟩
  wrote _ _ := rfl
  result op h := by simp [hop] at h

theorem spill_step_lane {b pc pc' : ℕ} {v w : Lane → ℕ} {inst : Inst} {op : LaneOp}
    (hfetch : fetch spillProgram pc = some inst) (hgoes : Goes inst pc')
    (hop : laneOp inst = some op) (hvdst : vdst inst = 0)
    (hv : ∀ l, w l = op.value ((spillWave b pc v).operand (src0 inst) l)
      ((spillWave b pc v).operand (src1 inst) l) l) :
    Step spillIsa spillProgram inst (spillWave b pc v) (spillWave b pc' w) where
  fetched := hfetch
  goes := hgoes
  kept r hr := by
    have hne : r ≠ 0 := fun h => hr ⟨by simp [hop], h.trans hvdst.symm⟩
    exact ⟨by simp [spillWave, hne], rfl⟩
  wrote _ _ := rfl
  result op' hop' l _ := by
    obtain rfl : op = op' := Option.some.inj (hop.symm.trans hop')
    rw [hvdst, ← hv l]
    rfl

theorem chainLinks_spillProgram : chainLinks spillProgram (computeReachability spillProgram) =
      [⟨5, 0, 4⟩, ⟨4, 0, 3⟩, ⟨3, 0, 2⟩] := by
  rw [reachable_spillProgram, spillProgram_eq]
  decide

theorem careful_spill {b pc : ℕ} {v w : Lane → ℕ} {inst : Inst} (hinst : inst ∈ spillProgram) :
    Careful spillIsa spillProgram (computeReachability spillProgram)
      ⟨inst, spillWave b pc v, spillWave b (inst.pc + inst.size) w⟩ where
  named r hw _ := by
    have hnames : ∀ i ∈ spillProgram, (laneOp i).isSome → (vgprDestOf i).names (vdst i) := by
      rw [spillProgram_eq]
      decide
    obtain ⟨hop, rfl⟩ := hw
    exact hnames inst hinst hop
  lands _ _ _ _ := .inl rfl
  reads _ _ _ _ _ := rfl
  exact link hlink hat := by
    have hexact : ∀ link ∈ [(⟨5, 0, 4⟩ : Link), ⟨4, 0, 3⟩, ⟨3, 0, 2⟩],
        ∀ i ∈ spillProgram[link.definition]?, vdst i = link.reg := by
      rw [spillProgram_eq]
      decide
    rw [chainLinks_spillProgram] at hlink
    exact hexact link hlink inst hat
  base hds haddtid := by
    have hplain : ∀ i ∈ spillProgram, i.enc = .kDs → isAddtid i = false := by
      rw [spillProgram_eq]
      decide
    rw [hplain inst hinst hds] at haddtid
    cases haddtid

end Prosperity.Gcn
