import Mathlib.Data.List.Dedup
import Mathlib.Data.List.GetD
import Mathlib.Data.List.Sort
import Prosperity.Foundations.Worklist

/-!
# Basic blocks

A listing is a list of instructions, each with its address, its size and the way it sends the
control. Blocks begin at the targets of branches and behind them, and a worklist marks the blocks
that the control gets to from the first one on.
-/

namespace Prosperity

/-- Where an instruction sends the control. -/
inductive FlowKind where
  | ordinary
  | relative
  | conditional
  | ends
  | indirect
  deriving DecidableEq

structure Listing (ι : Type) where
  pc : ι → ℕ
  size : ι → ℕ
  flow : ι → FlowKind
  target : ι → ℕ

namespace Listing

variable {ι : Type} (L : Listing ι)

/-- Each instruction begins where the one before it ends, the first at `pc`, and none is empty. -/
def ContiguousFrom : ℕ → List ι → Prop
  | _, [] => True
  | pc, inst :: rest => L.pc inst = pc ∧ 0 < L.size inst ∧ ContiguousFrom (pc + L.size inst) rest

def Contiguous (program : List ι) : Prop := L.ContiguousFrom 0 program

/-- The address past the last instruction. -/
def maxPc (program : List ι) : ℕ :=
  match program.getLast? with
  | none => 0
  | some inst => L.pc inst + L.size inst

def startsOf (inst : ι) : List ℕ :=
  match L.flow inst with
  | .ordinary => []
  | .relative | .conditional => [L.pc inst + L.size inst, L.target inst]
  | .ends | .indirect => [L.pc inst + L.size inst]

def starts (program : List ι) : List ℕ :=
  (((0 :: program.flatMap L.startsOf).mergeSort (· ≤ ·)).dedup).filter (· < L.maxPc program)

def blockOf (program : List ι) (pc : ℕ) : ℕ :=
  ((L.starts program).takeWhile (· ≤ pc)).length - 1

def blockStart (program : List ι) (block : ℕ) : ℕ := (L.starts program).getD block 0

def blockEnd (program : List ι) (block : ℕ) : ℕ :=
  (L.starts program).getD (block + 1) (L.maxPc program)

def blockBranch (program : List ι) (block : ℕ) : Option ι :=
  program.find? fun inst =>
    L.blockStart program block ≤ L.pc inst && L.pc inst < L.blockEnd program block && L.flow inst ≠ .ordinary

/-- The blocks behind a block, `none` where they may be any. -/
def blockSuccs (program : List ι) (block : ℕ) : Option (List ℕ) :=
  match L.blockBranch program block with
  | none => some [block + 1]
  | some inst =>
    let target :=
      if L.target inst < L.maxPc program then [L.blockOf program (L.target inst)] else []
    match L.flow inst with
    | .ordinary => some [block + 1]
    | .ends => some []
    | .indirect => none
    | .relative => some target
    | .conditional => some ((block + 1) :: target)

def blockReachable (program : List ι) : List Bool :=
  explore (L.blockSuccs program) (List.replicate (L.starts program).length false) [0]

/-- The instruction that runs when the control is at `pc`. -/
def fetch (program : List ι) (pc : ℕ) : Option ι := program.find? fun inst => pc ≤ L.pc inst

/-- Where the control may be after an instruction. -/
inductive Goes (inst : ι) : ℕ → Prop where
  | on : L.flow inst = .ordinary → Goes inst (L.pc inst + L.size inst)
  | notTaken : L.flow inst = .conditional → Goes inst (L.pc inst + L.size inst)
  | jumps : L.flow inst = .relative → Goes inst (L.target inst)
  | taken : L.flow inst = .conditional → Goes inst (L.target inst)
  | anywhere {pc : ℕ} : L.flow inst = .indirect → Goes inst pc

/-- Some execution from the first instruction on gets to `inst`. -/
inductive Executed (program : List ι) : ι → Prop where
  | first {inst : ι} : L.fetch program 0 = some inst → Executed program inst
  | next {inst inst' : ι} {pc : ℕ} : Executed program inst → L.Goes inst pc →
      L.fetch program pc = some inst' → Executed program inst'

variable {L}

/-! ### Where instructions lie -/

section Contiguous

variable {pc : ℕ} {program : List ι} {i j : ι}

theorem ContiguousFrom.le (h : L.ContiguousFrom pc program) (hi : i ∈ program) : pc ≤ L.pc i := by
  induction program generalizing pc with
  | nil => cases hi
  | cons first rest ih =>
    obtain ⟨hpc, hsize, hrest⟩ := h
    rcases List.mem_cons.mp hi with rfl | hi
    · exact Nat.le_of_eq hpc.symm
    · have := ih hrest hi
      omega

theorem ContiguousFrom.size_pos (h : L.ContiguousFrom pc program) (hi : i ∈ program) : 0 < L.size i := by
  induction program generalizing pc with
  | nil => cases hi
  | cons first rest ih =>
    obtain ⟨-, hsize, hrest⟩ := h
    rcases List.mem_cons.mp hi with rfl | hi
    · exact hsize
    · exact ih hrest hi

theorem ContiguousFrom.sorted (h : L.ContiguousFrom pc program) :
    program.Pairwise fun i j => L.pc i + L.size i ≤ L.pc j := by
  induction program generalizing pc with
  | nil => exact .nil
  | cons first rest ih =>
    obtain ⟨hpc, -, hrest⟩ := h
    exact List.pairwise_cons.mpr ⟨fun j hj => hpc ▸ hrest.le hj, ih hrest⟩

theorem ContiguousFrom.apart (h : L.ContiguousFrom pc program) (hi : i ∈ program)
    (hj : j ∈ program) : i = j ∨ L.pc i + L.size i ≤ L.pc j ∨ L.pc j + L.size j ≤ L.pc i := by
  induction program generalizing pc with
  | nil => cases hi
  | cons first rest ih =>
    obtain ⟨hpc, -, hrest⟩ := h
    rcases List.mem_cons.mp hi with hfirst | hi' <;> rcases List.mem_cons.mp hj with hfirst' | hj'
    · exact .inl (hfirst.trans hfirst'.symm)
    · subst hfirst
      exact .inr (.inl (hpc ▸ hrest.le hj'))
    · subst hfirst'
      exact .inr (.inr (hpc ▸ hrest.le hi'))
    · exact ih hrest hi' hj'

theorem ContiguousFrom.le_maxPc (h : L.ContiguousFrom pc program) (hi : i ∈ program) :
    L.pc i + L.size i ≤ L.maxPc program := by
  induction program generalizing pc i with
  | nil => cases hi
  | cons first rest ih =>
    obtain ⟨hpc, hsize, hrest⟩ := h
    cases rest with
    | nil =>
      obtain rfl := List.mem_singleton.mp hi
      exact Nat.le_refl _
    | cons second rest =>
      have hmax : L.maxPc (first :: second :: rest) = L.maxPc (second :: rest) := by
        simp only [maxPc, List.getLast?_cons_cons]
      rw [hmax]
      rcases List.mem_cons.mp hi with rfl | hi
      · have hnext := hrest.1
        have hend := ih hrest (i := second) List.mem_cons_self
        omega
      · exact ih hrest hi

end Contiguous

/-! ### Blocks -/

section Blocks

variable {program : List ι} {pc block : ℕ} {inst : ι}

theorem starts_sorted (program : List ι) : (L.starts program).Pairwise (· < ·) := by
  have hsorted : ((0 :: program.flatMap L.startsOf).mergeSort (· ≤ ·)).Pairwise (· ≤ ·) :=
    List.pairwise_mergeSort' _ _
  have hle := (hsorted.sublist (List.dedup_sublist _)).filter (· < L.maxPc program)
  have hne := (List.nodup_dedup ((0 :: program.flatMap L.startsOf).mergeSort (· ≤ ·))).filter
    (· < L.maxPc program)
  exact hle.imp₂ (fun a b hab hne => Nat.lt_of_le_of_ne hab hne) hne

theorem mem_starts : pc ∈ L.starts program ↔
    (pc = 0 ∨ ∃ inst ∈ program, pc ∈ L.startsOf inst) ∧ pc < L.maxPc program := by
  simp [starts, List.mem_flatMap]

theorem getElem_le_iff {l : List ℕ} (hl : l.Pairwise (· < ·)) {i : ℕ} (hi : i < l.length) :
    l[i] ≤ pc ↔ i < (l.takeWhile (· ≤ pc)).length := by
  induction l generalizing i with
  | nil => cases hi
  | cons a l ih =>
    obtain ⟨ha, hl⟩ := List.pairwise_cons.mp hl
    by_cases hle : a ≤ pc
    · rw [List.takeWhile_cons_of_pos (by simpa using hle), List.length_cons]
      cases i with
      | zero => simpa using hle
      | succ i => rw [List.getElem_cons_succ, ih hl (Nat.lt_of_succ_lt_succ hi), Nat.succ_lt_succ_iff]
    · rw [List.takeWhile_cons_of_neg (by simpa using hle)]
      refine iff_of_false (fun h => hle ?_) (Nat.not_lt_zero i)
      cases i with
      | zero => exact h
      | succ i => exact Nat.le_trans (Nat.le_of_lt (ha _ (List.getElem_mem _))) h

theorem zero_mem_starts (h : 0 < L.maxPc program) : 0 ∈ L.starts program := mem_starts.mpr ⟨.inl rfl, h⟩

theorem blockOf_lt (h : 0 < L.maxPc program) : L.blockOf program pc < (L.starts program).length := by
  have hpos : 0 < (L.starts program).length := List.length_pos_of_mem (zero_mem_starts h)
  have hle : ((L.starts program).takeWhile (· ≤ pc)).length ≤ (L.starts program).length :=
    (List.takeWhile_sublist _).length_le
  unfold blockOf
  omega

/-- **The starts up to `pc` are those of the blocks up to its own.** -/
theorem start_le_iff (h : 0 < L.maxPc program) (hb : block < (L.starts program).length) :
    L.blockStart program block ≤ pc ↔ block ≤ L.blockOf program pc := by
  have hzero : 0 < ((L.starts program).takeWhile (· ≤ pc)).length := by
    -- the first start is 0
    obtain ⟨i, hi, hi0⟩ := List.getElem_of_mem (zero_mem_starts h)
    have : 0 < ((L.starts program).takeWhile (· ≤ pc)).length :=
      Nat.zero_lt_of_lt ((getElem_le_iff (starts_sorted program) hi).mp (hi0 ▸ Nat.zero_le _))
    omega
  rw [blockStart, List.getD_eq_getElem _ _ hb, getElem_le_iff (starts_sorted program) hb, blockOf]
  omega

theorem blockStart_le (h : 0 < L.maxPc program) : L.blockStart program (L.blockOf program pc) ≤ pc :=
  (start_le_iff h (blockOf_lt h)).mpr (Nat.le_refl _)

theorem blockEnd_of_lt (hb : block + 1 < (L.starts program).length) :
    L.blockEnd program block = L.blockStart program (block + 1) := by
  rw [blockEnd, blockStart, List.getD_eq_getElem _ _ hb, List.getD_eq_getElem _ _ hb]

theorem blockEnd_le_iff (hpc : pc < L.maxPc program) :
    L.blockEnd program block ≤ pc ↔ block < L.blockOf program pc := by
  have h := Nat.zero_lt_of_lt hpc
  by_cases hb : block + 1 < (L.starts program).length
  · rw [blockEnd_of_lt hb, start_le_iff h hb]
    rfl
  · have hlt : L.blockOf program pc < (L.starts program).length := blockOf_lt h
    rw [blockEnd, List.getD_eq_default _ _ (Nat.not_lt.mp hb)]
    omega

theorem blockStart_mono {block' : ℕ} (hle : block ≤ block')
    (hb : block' < (L.starts program).length) : L.blockStart program block ≤ L.blockStart program block' := by
  rw [blockStart, blockStart, List.getD_eq_getElem _ _ (Nat.lt_of_le_of_lt hle hb), List.getD_eq_getElem _ _ hb]
  rcases Nat.lt_or_eq_of_le hle with hlt | rfl
  · exact Nat.le_of_lt (List.pairwise_iff_getElem.mp (starts_sorted program) _ _ _ hb hlt)
  · exact Nat.le_refl _

theorem start_le_blockStart {start : ℕ} (hstart : start ∈ L.starts program) (hle : start ≤ pc) :
    start ≤ L.blockStart program (L.blockOf program pc) := by
  have h := Nat.zero_lt_of_lt (mem_starts.mp hstart).2
  obtain ⟨i, hi, rfl⟩ := List.getElem_of_mem hstart
  have hi' : L.blockStart program i = (L.starts program)[i] := by
    rw [blockStart, List.getD_eq_getElem _ _ hi]
  rw [← hi'] at hle ⊢
  exact blockStart_mono ((start_le_iff h hi).mp hle) (blockOf_lt h)

theorem blockStart_blockOf (hpc : pc ∈ L.starts program) : L.blockStart program (L.blockOf program pc) = pc :=
  Nat.le_antisymm (blockStart_le (Nat.zero_lt_of_lt (mem_starts.mp hpc).2))
    (start_le_blockStart hpc (Nat.le_refl _))

end Blocks

/-! ### Soundness -/

section Soundness

variable {program : List ι} {pc block : ℕ} {inst inst' : ι}

theorem fetch_some (h : L.fetch program pc = some inst) : inst ∈ program ∧ pc ≤ L.pc inst := by
  rw [fetch] at h
  exact ⟨List.mem_of_find?_eq_some h, by simpa using List.find?_some h⟩

theorem fetch_first (hc : L.Contiguous program) (h : L.fetch program pc = some inst)
    (hi : inst' ∈ program) (hpc : pc ≤ L.pc inst') : L.pc inst ≤ L.pc inst' := by
  obtain ⟨-, before, after, rfl, hbefore⟩ := List.find?_eq_some_iff_append.mp h
  obtain ⟨-, hsorted, -⟩ := List.pairwise_append.mp hc.sorted
  rcases List.mem_append.mp hi with hi | hi
  · have := hbefore inst' hi
    simp only [Bool.not_eq_true', decide_eq_false_iff_not] at this
    exact absurd hpc this
  · rcases List.mem_cons.mp hi with rfl | hi
    · exact Nat.le_refl _
    · exact Nat.le_trans (Nat.le_add_right _ _) ((List.pairwise_cons.mp hsorted).1 inst' hi)

theorem lt_maxPc (hc : L.Contiguous program) (hi : inst ∈ program) : L.pc inst < L.maxPc program := by
  have hend := ContiguousFrom.le_maxPc hc hi
  have hsize := hc.size_pos hi
  omega

theorem end_mem_starts (hi : inst ∈ program) (hflow : L.flow inst ≠ .ordinary)
    (hlt : L.pc inst + L.size inst < L.maxPc program) : L.pc inst + L.size inst ∈ L.starts program := by
  refine mem_starts.mpr ⟨.inr ⟨inst, hi, ?_⟩, hlt⟩
  unfold startsOf
  cases h : L.flow inst with
  | ordinary => exact absurd h hflow
  | _ => simp

theorem target_mem_starts (hi : inst ∈ program) (hflow : L.flow inst = .relative ∨ L.flow inst = .conditional)
    (hlt : L.target inst < L.maxPc program) : L.target inst ∈ L.starts program := by
  refine mem_starts.mpr ⟨.inr ⟨inst, hi, ?_⟩, hlt⟩
  unfold startsOf
  rcases hflow with h | h <;> simp [h]

theorem branch_le_blockStart (hi : inst ∈ program)
    (hflow : L.flow inst ≠ .ordinary) (hle : L.pc inst + L.size inst ≤ pc) (hpc : pc < L.maxPc program) :
    L.pc inst + L.size inst ≤ L.blockStart program (L.blockOf program pc) :=
  start_le_blockStart (end_mem_starts hi hflow (by omega)) hle

/-- **The pass finds the branch of a block.** -/
theorem blockBranch_eq (hc : L.Contiguous program) (hi : inst ∈ program) (hflow : L.flow inst ≠ .ordinary) :
    L.blockBranch program (L.blockOf program (L.pc inst)) = some inst := by
  have hlt := lt_maxPc hc hi
  have hstart : L.blockStart program (L.blockOf program (L.pc inst)) ≤ L.pc inst :=
    blockStart_le (Nat.zero_lt_of_lt hlt)
  have hend : L.pc inst < L.blockEnd program (L.blockOf program (L.pc inst)) := by
    rw [← Nat.not_le, blockEnd_le_iff hlt]
    exact Nat.lt_irrefl _
  cases hfind : L.blockBranch program (L.blockOf program (L.pc inst)) with
  | none =>
    have := List.find?_eq_none.mp hfind inst hi
    simp only [Bool.and_eq_true, decide_eq_true_eq, ne_eq, decide_not, Bool.not_eq_true',
      decide_eq_false_iff_not, not_and, not_not] at this
    exact absurd (this ⟨hstart, hend⟩) hflow
  | some other =>
    have hother := List.mem_of_find?_eq_some hfind
    have hin := List.find?_some hfind
    simp only [Bool.and_eq_true, decide_eq_true_eq, ne_eq, decide_not, Bool.not_eq_true',
      decide_eq_false_iff_not] at hin
    obtain ⟨⟨hstart', hend'⟩, hflow'⟩ := hin
    have hsize := hc.size_pos hi
    have hsize' := ContiguousFrom.size_pos hc hother
    rcases ContiguousFrom.apart hc hother hi with heq | hbefore | hafter
    · rw [heq]
    · have := branch_le_blockStart hother hflow' hbefore hlt
      omega
    · -- behind `inst` another block begins
      have hlt' := lt_maxPc hc hother
      have hle := branch_le_blockStart hi hflow hafter hlt'
      have hblock : L.blockOf program (L.pc other) ≤ L.blockOf program (L.pc inst) := by
        rw [← Nat.not_lt, ← blockEnd_le_iff hlt']
        omega
      have := blockStart_mono hblock (blockOf_lt (Nat.zero_lt_of_lt hlt))
      omega

theorem marked_of_fallthrough {marks : List Bool} (hclosed : MarksClosed (L.blockSuccs program) marks)
    (hlen : marks.length = (L.starts program).length) (hpc : pc < L.maxPc program)
    (hmarked : Marked marks block) (hle : block ≤ L.blockOf program pc)
    (hplain : ∀ k ∈ program, L.flow k ≠ .ordinary → L.blockStart program block ≤ L.pc k → pc ≤ L.pc k) :
    Marked marks (L.blockOf program pc) := by
  -- by induction on the number of blocks still to pass
  obtain ⟨n, hn⟩ : ∃ n, L.blockOf program pc = block + n := ⟨_, (Nat.add_sub_cancel' hle).symm⟩
  induction n generalizing block with
  | zero => rwa [hn]
  | succ n ih =>
    have hlt : block < L.blockOf program pc := by omega
    have hlast : L.blockOf program pc < (L.starts program).length :=
      blockOf_lt (Nat.zero_lt_of_lt hpc)
    have hend := (blockEnd_le_iff hpc).mpr hlt
    have hnone : L.blockBranch program block = none := by
      refine List.find?_eq_none.mpr fun k hk => ?_
      simp only [Bool.and_eq_true, decide_eq_true_eq, ne_eq, decide_not, Bool.not_eq_true',
        decide_eq_false_iff_not, not_and, not_not]
      rintro ⟨hstart, hbefore⟩
      by_contra hflow
      have := hplain k hk hflow hstart
      omega
    have hsucc : L.blockSuccs program block = some [block + 1] := by rw [blockSuccs, hnone]
    refine ih ((hclosed block hmarked).1 _ hsucc _ (List.mem_singleton_self _) (by omega)) hlt
      (fun k hk hflow hstart => ?_) (by omega)
    exact hplain k hk hflow (Nat.le_trans (blockStart_mono (Nat.le_succ _) (by omega)) hstart)

theorem closed_blockReachable (program : List ι) : MarksClosed (L.blockSuccs program) (L.blockReachable program) := by
  apply marksClosed_explore
  intro b hb
  simp [Marked, List.getElem?_replicate] at hb

theorem length_blockReachable (program : List ι) : (L.blockReachable program).length = (L.starts program).length := by
  rw [blockReachable, length_explore, List.length_replicate]

theorem marked_of_succ {next : List ℕ} {s : ℕ} (h : Marked (L.blockReachable program) block)
    (hsucc : L.blockSuccs program block = some next) (hs : s ∈ next)
    (hlt : s < (L.starts program).length) : Marked (L.blockReachable program) s :=
  (closed_blockReachable program block h).1 next hsucc s hs (length_blockReachable program ▸ hlt)

theorem marked_of_fetch (hc : L.Contiguous program) (hfetch : L.fetch program pc = some inst)
    (hmarked : Marked (L.blockReachable program) block) (hstart : L.blockStart program block ≤ pc)
    (hplain : ∀ k ∈ program, L.flow k ≠ .ordinary → L.blockStart program block ≤ L.pc k → pc ≤ L.pc k) :
    Marked (L.blockReachable program) (L.blockOf program (L.pc inst)) := by
  obtain ⟨hi, hle⟩ := fetch_some hfetch
  have hlt := lt_maxPc hc hi
  have hblock : block < (L.starts program).length :=
    length_blockReachable program ▸ (List.getElem?_eq_some_iff.mp hmarked).1
  refine marked_of_fallthrough (closed_blockReachable program) (length_blockReachable program) hlt
    hmarked ((start_le_iff (Nat.zero_lt_of_lt hlt) hblock).mp (Nat.le_trans hstart hle)) ?_
  exact fun k hk hflow hk' => fetch_first hc hfetch hk (hplain k hk hflow hk')

theorem marked_of_first (hc : L.Contiguous program) (hfetch : L.fetch program 0 = some inst) :
    Marked (L.blockReachable program) (L.blockOf program (L.pc inst)) := by
  have hpos := Nat.zero_lt_of_lt (lt_maxPc hc (fetch_some hfetch).1)
  refine marked_of_fetch hc hfetch (marked_explore (.inr ⟨List.mem_singleton_self 0, ?_⟩)) ?_
    fun _ _ _ _ => Nat.zero_le _
  · rw [List.length_replicate]
    exact List.length_pos_of_mem (zero_mem_starts hpos)
  · exact Nat.le_trans (blockStart_mono (Nat.zero_le _) (blockOf_lt hpos)) (blockStart_le hpos)

section Edges

variable (hc : L.Contiguous program) (hi : inst ∈ program)
  (hmarked : Marked (L.blockReachable program) (L.blockOf program (L.pc inst)))

include hc hi hmarked

theorem marked_of_ordinary (hflow : L.flow inst = .ordinary)
    (hfetch : L.fetch program (L.pc inst + L.size inst) = some inst') :
    Marked (L.blockReachable program) (L.blockOf program (L.pc inst')) := by
  have hlt := lt_maxPc hc hi
  refine marked_of_fetch hc hfetch hmarked
    (Nat.le_trans (blockStart_le (Nat.zero_lt_of_lt hlt)) (Nat.le_add_right _ _))
    fun k hk hk' hle => ?_
  rcases ContiguousFrom.apart hc hk hi with rfl | hbefore | hafter
  · exact absurd hflow hk'
  · -- a block begins behind `k`, so that `k` is not in the block of `inst`
    have := branch_le_blockStart hk hk' hbefore hlt
    have := ContiguousFrom.size_pos hc hk
    omega
  · exact hafter

theorem marked_of_target (hflow : L.flow inst = .relative ∨ L.flow inst = .conditional)
    (hfetch : L.fetch program (L.target inst) = some inst') :
    Marked (L.blockReachable program) (L.blockOf program (L.pc inst')) := by
  have htarget : L.target inst < L.maxPc program :=
    Nat.lt_of_le_of_lt (fetch_some hfetch).2 (lt_maxPc hc (fetch_some hfetch).1)
  have hmem := target_mem_starts hi hflow htarget
  have hbranch := blockBranch_eq hc hi (by rcases hflow with h | h <;> simp [h])
  have hrange : L.blockOf program (L.target inst) < (L.starts program).length :=
    blockOf_lt (Nat.zero_lt_of_lt htarget)
  refine marked_of_fetch hc hfetch ?_ (Nat.le_of_eq (blockStart_blockOf hmem))
    fun k _ _ hle => blockStart_blockOf hmem ▸ hle
  rcases hflow with hflow | hflow
  · apply marked_of_succ hmarked _ (List.mem_singleton_self _) hrange
    rw [blockSuccs, hbranch]
    simp only [hflow, if_pos htarget]
  · apply marked_of_succ hmarked _ (List.mem_cons_of_mem _ (List.mem_singleton_self _)) hrange
    · exact L.blockOf program (L.pc inst) + 1
    · rw [blockSuccs, hbranch]
      simp only [hflow, if_pos htarget]

theorem marked_of_notTaken (hflow : L.flow inst = .conditional)
    (hfetch : L.fetch program (L.pc inst + L.size inst) = some inst') :
    Marked (L.blockReachable program) (L.blockOf program (L.pc inst')) := by
  have hpos := Nat.zero_lt_of_lt (lt_maxPc hc hi)
  have hplain : L.flow inst ≠ .ordinary := by simp [hflow]
  have hsize := hc.size_pos hi
  have hmem := end_mem_starts hi hplain
    (Nat.lt_of_le_of_lt (fetch_some hfetch).2 (lt_maxPc hc (fetch_some hfetch).1))
  have hstart := blockStart_blockOf hmem
  -- the next block is not behind the one that begins after the branch
  have hnext : L.blockOf program (L.pc inst) + 1 ≤ L.blockOf program (L.pc inst + L.size inst) := by
    by_contra hle
    have hmono := blockStart_mono (Nat.le_of_lt_succ (Nat.lt_of_not_le hle))
      (blockOf_lt hpos)
    have : L.blockStart program (L.blockOf program (L.pc inst)) ≤ L.pc inst := blockStart_le hpos
    omega
  have hrange := Nat.lt_of_le_of_lt hnext (blockOf_lt hpos)
  have hsucc : Marked (L.blockReachable program) (L.blockOf program (L.pc inst) + 1) := by
    apply marked_of_succ hmarked _ List.mem_cons_self hrange
    · exact if L.target inst < L.maxPc program then
        [L.blockOf program (L.target inst)] else []
    · rw [blockSuccs, blockBranch_eq hc hi hplain]
      simp only [hflow]
  have hbehind : L.pc inst < L.blockStart program (L.blockOf program (L.pc inst) + 1) := by
    rw [← Nat.not_le, start_le_iff hpos hrange]
    exact Nat.not_succ_le_self _
  refine marked_of_fetch hc hfetch hsucc ((start_le_iff hpos hrange).mpr hnext)
    fun k hk hk' hle => ?_
  rcases ContiguousFrom.apart hc hk hi with rfl | hbefore | hafter
  · omega
  · omega
  · exact hafter

theorem marked_of_indirect (hflow : L.flow inst = .indirect) (hi' : inst' ∈ program) :
    Marked (L.blockReachable program) (L.blockOf program (L.pc inst')) := by
  refine (closed_blockReachable program _ hmarked).2 ?_ _ ?_
  · rw [blockSuccs, blockBranch_eq hc hi (by simp [hflow])]
    simp only [hflow]
  · rw [length_blockReachable]
    exact blockOf_lt (Nat.zero_lt_of_lt (lt_maxPc hc hi'))

end Edges

theorem Executed.mem (h : L.Executed program inst) : inst ∈ program := by
  cases h with
  | first hfetch => exact (fetch_some hfetch).1
  | next _ _ hfetch => exact (fetch_some hfetch).1

/-- **The block of every executed instruction is marked.** -/
theorem marked_of_executed (hc : L.Contiguous program) (h : L.Executed program inst) :
    Marked (L.blockReachable program) (L.blockOf program (L.pc inst)) := by
  induction h with
  | first hfetch => exact marked_of_first hc hfetch
  | next hexec hgoes hfetch ih =>
    have hi := hexec.mem
    cases hgoes with
    | on hflow => exact marked_of_ordinary hc hi ih hflow hfetch
    | notTaken hflow => exact marked_of_notTaken hc hi ih hflow hfetch
    | jumps hflow => exact marked_of_target hc hi ih (.inl hflow) hfetch
    | taken hflow => exact marked_of_target hc hi ih (.inr hflow) hfetch
    | anywhere hflow => exact marked_of_indirect hc hi ih hflow (fetch_some hfetch).1

theorem Executed.behind {program : List ι} {inst inst' : ι} (h : L.Executed program inst)
    (hflow : L.flow inst = .conditional)
    (hfetch : L.fetch program (L.pc inst + L.size inst) = some inst') : L.Executed program inst' :=
  .next h (.notTaken hflow) hfetch

end Soundness

end Listing

end Prosperity
