import Prosperity.Rdna.ScalarSteps

/-!
# The slice and the whole program

The slice agrees with the whole program unless an instruction that names the null register as its
destination stands between a write of register 125, which a step that starts below it can make, and a
place where it is wanted.
-/

namespace Prosperity.Rdna

open Gcn (Enc ScalarMemory)

def wanted : Program → Finset ℕ
  | [] => ∅
  | inst :: rest =>
    if isConsumer inst = true ∨ ¬Disjoint (possibleWrites inst) (wanted rest) then
      (wanted rest \ stepKills inst) ∪ sliceUses inst
    else wanted rest

def NullClear (program : Program) : Prop :=
  ∀ before inst behind, program = before ++ inst :: behind → NamesNull inst →
    (∃ writer ∈ before, 125 ∈ stepWrites writer) → 125 ∉ wanted behind

/-! ## The replays agree -/

section Agreement

variable {α : Type} {guest : ScalarMemory} {codeAddr : ℕ} {e f : ScalarEval} {inst : Inst}
  {program rest before : Program} {observe : ScalarEval → Inst → Option α} {live : Finset ℕ} {r : ℕ}

theorem sliceBackward_cons (inst : Inst) (rest : Program) : sliceBackward (inst :: rest) =
      match sliceTurn inst (sliceBackward rest).2 with
      | some (step, live) => (⟨inst, step⟩ :: (sliceBackward rest).1, live)
      | none => sliceBackward rest := rfl

theorem live_subset_wanted (rest : Program) : (sliceBackward rest).2 ⊆ wanted rest := by
  induction rest with
  | nil => exact Finset.Subset.refl _
  | cons inst rest ih =>
    have hdead : Disjoint (stepWrites inst) (sliceBackward rest).2 →
        (sliceBackward rest).2 ⊆ wanted rest \ stepKills inst := by
      intro hdisjoint r hlive
      refine Finset.mem_sdiff.mpr ⟨ih hlive, fun hkill => ?_⟩
      exact Finset.disjoint_left.mp hdisjoint (stepKills_subset_stepWrites hkill) hlive
    rw [sliceBackward_cons, wanted]
    obtain ⟨hturn, -, hdisjoint⟩ | ⟨hturn, hconsumer, hdisjoint⟩ | ⟨hturn, hneeded⟩ :=
      sliceTurn_cases inst (sliceBackward rest).2
    · by_cases hkeep : isConsumer inst = true ∨ ¬Disjoint (possibleWrites inst) (wanted rest)
      · rw [hturn, if_pos hkeep]
        exact (hdead hdisjoint).trans Finset.subset_union_left
      · rw [hturn, if_neg hkeep]
        exact ih
    · rw [hturn, if_pos (.inl hconsumer)]
      exact Finset.union_subset_union_left (hdead hdisjoint)
    · rw [hturn, if_pos (hneeded.imp_right fun h hdisjoint => h (hdisjoint.mono_right ih))]
      exact Finset.union_subset_union_left (Finset.sdiff_subset_sdiff ih stepKills_subset_sliceKills)

/-- What is read of the consumers, from what the pass makes live before them. -/
structure Observes (observe : ScalarEval → Inst → Option α) : Prop where
  uses : ∀ {e f inst}, SameOn (sliceUses inst) e f → observe e inst = observe f inst
  consumer : ∀ e {inst : Inst}, isConsumer inst = false → observe e inst = none

/-- **A step of both**: the live registers agree behind it, and register 125 as long as nothing can have
written it. -/
theorem agree_stepped (hclear : NullClear program) (hprogram : program = before ++ inst :: rest)
    (hagree : SameOn (((sliceBackward rest).2 \ sliceKills inst) ∪ sliceUses inst) e f)
    (hnull : (∀ writer ∈ before, 125 ∉ stepWrites writer) → e.slot 125 = f.slot 125) :
    SameOn (sliceBackward rest).2 (e.step inst guest codeAddr) (f.step inst guest codeAddr) := by
  refine Tracked.Agree.step (T := sliceTracked guest codeAddr) ?_
  intro r hr
  by_cases huses : r ∈ sliceUses inst
  · exact hagree r (Finset.mem_union_right _ huses)
  obtain ⟨hlive, hkill⟩ := Finset.mem_sdiff.mp ((Finset.mem_union.mp hr).resolve_right huses)
  by_cases hslice : r ∈ sliceKills inst
  · -- The pass takes register 125 for written, which is only fair if nothing wrote it before.
    obtain ⟨hnames, rfl⟩ := (mem_stepKills_of_sliceKills hslice huses).resolve_left hkill
    by_cases hwritten : ∃ writer ∈ before, 125 ∈ stepWrites writer
    · exact absurd (live_subset_wanted rest hlive) (hclear before inst rest hprogram hnames hwritten)
    · push Not at hwritten
      exact hnull hwritten
  · exact hagree r (Finset.mem_union_left _ (Finset.mem_sdiff.mpr ⟨hlive, hslice⟩))

/-- **The replay from an instruction on**: from states that agree on the live registers, the slice shows
what the whole program does. -/
theorem replay_slice (hobserve : Observes observe) (hclear : NullClear program)
    (hprogram : program = before ++ rest) (hagree : SameOn (sliceBackward rest).2 e f)
    (hnull : (∀ writer ∈ before, 125 ∉ stepWrites writer) → e.slot 125 = f.slot 125) :
    replay guest codeAddr observe (sliceBackward rest).1 f =
      replay guest codeAddr observe (rest.map fun inst => ⟨inst, true⟩) e := by
  induction rest generalizing before e f with
  | nil => rfl
  | cons inst rest ih =>
    have hbehind : program = (before ++ [inst]) ++ rest := by
      rw [hprogram, List.append_assoc, List.singleton_append]
    -- A step that does not write register 125 leaves it as it was on either side.
    have hframe : ∀ g : ScalarEval, 125 ∉ stepWrites inst →
        (g.step inst guest codeAddr).slot 125 = g.slot 125 := fun g h =>
      (sliceTracked guest codeAddr).frame h g
    have hbefore : (∀ writer ∈ before ++ [inst], 125 ∉ stepWrites writer) →
        e.slot 125 = f.slot 125 ∧ 125 ∉ stepWrites inst := fun h =>
      ⟨hnull fun writer hw => h writer (List.mem_append_left _ hw),
        h inst (List.mem_append_right _ (List.mem_singleton_self inst))⟩
    have hskip : SameOn (sliceBackward rest).2 e f → Disjoint (stepWrites inst) (sliceBackward rest).2 →
        replay guest codeAddr observe (sliceBackward rest).1 f =
          replay guest codeAddr observe (rest.map fun inst => ⟨inst, true⟩)
            (e.step inst guest codeAddr) := by
      intro hsame hdisjoint
      refine ih hbehind (Tracked.Agree.skip (T := sliceTracked guest codeAddr) hsame hdisjoint) ?_
      intro h
      obtain ⟨hslot, hwrites⟩ := hbefore h
      rw [hframe e hwrites, hslot]
    rw [sliceBackward_cons] at hagree ⊢
    rw [List.map_cons, replay]
    obtain ⟨hturn, hconsumer, hdisjoint⟩ | ⟨hturn, -, hdisjoint⟩ | ⟨hturn, -⟩ :=
      sliceTurn_cases inst (sliceBackward rest).2
    -- Left out: only the full replay steps.
    · rw [hturn] at hagree ⊢
      rw [hobserve.consumer e hconsumer]
      exact hskip hagree hdisjoint
    -- Kept for what is observed there: again only the full replay steps.
    · rw [hturn] at hagree ⊢
      rw [replay, hobserve.uses (hagree.mono Finset.subset_union_right)]
      exact congrArg _ (hskip (hagree.mono Finset.subset_union_left) hdisjoint)
    -- Kept: both replays step.
    · rw [hturn] at hagree ⊢
      rw [replay, hobserve.uses (hagree.mono Finset.subset_union_right)]
      refine congrArg _ (ih hbehind (agree_stepped hclear hprogram hagree hnull) ?_)
      intro h
      obtain ⟨hslot, hwrites⟩ := hbefore h
      exact (hframe e hwrites).trans (hslot.trans (hframe f hwrites).symm)

end Agreement

/-! ## The descriptors -/

section Descriptors

variable {guest : ScalarMemory} {codeAddr s n : ℕ} {e f : ScalarEval} {inst : Inst} {live : Finset ℕ}
  {program : Program}

theorem resource_congr (h : SameOn live e f) (hsub : use ∅ s n ⊆ live) (hn : 2 ≤ n) :
    resource e s n = resource f s n := by
  rw [resource, resource, h.allKnown hsub]
  by_cases hall : f.allKnown s n = true
  · have hle := hall
    simp only [ScalarEval.allKnown, decide_eq_true_eq] at hle
    have hregs : ((List.range n).map fun i => e.sgpr (s + i)) =
        (List.range n).map fun i => f.sgpr (s + i) := by
      refine List.map_congr_left fun i hi => ?_
      have hlt := List.mem_range.mp hi
      rw [ScalarEval.sgpr, ScalarEval.sgpr, h.reg hsub hlt (by omega)]
    rw [if_pos hall, if_pos hall, h.ptr hsub hn hle.1, hregs]
  · rw [if_neg hall, if_neg hall]

theorem fetchOffset_congr {soff : ℕ} (h : SameSource soff e f) : fetchOffset e soff = fetchOffset f soff := by
  rw [fetchOffset, fetchOffset]
  split_ifs with hzero hinline hreg
  · rfl
  · rfl
  · rw [kRegs] at hreg
    exact h (by omega) soff le_rfl (by omega)
  · rfl

theorem observes_resolveAt : Observes resolveAt where
  uses {e f inst} h := by
    cases henc : inst.enc <;> simp only [resolveAt, henc] <;> simp only [sliceUses, henc] at h
    case kSmrd =>
      rw [resource_congr h subset_useSrc (by split <;> decide)]
    case kMimg =>
      refine resource_congr h subset_use ?_
      rw [Inst.imageDwords]
      split <;> decide
    case kFlat => rw [resource_congr h (Finset.Subset.refl _) le_rfl]
    case kMubuf | kMtbuf =>
      rw [resource_congr h subset_useSrc (by decide), fetchOffset_congr h.sameSource]
  consumer e {inst} h := by
    cases henc : inst.enc <;> simp [isConsumer, henc] at h <;> simp only [resolveAt, henc]

theorem observes_imageAt : Observes imageAt where
  uses {e f inst} h := by
    rw [imageAt, imageAt]
    split
    · rename_i henc
      simp only [sliceUses, henc] at h
      have hwindow : ∀ s n, use ∅ s n ⊆ use (use ∅ inst.srsrc inst.imageDwords) inst.ssamp 4 →
          s + n ≤ kRegs → ((List.range n).map fun i => e.reg (s + i)) =
            (List.range n).map fun i => f.reg (s + i) := by
        intro s n hsub hle
        refine List.map_congr_left fun i hi => ?_
        have hlt := List.mem_range.mp hi
        exact h.reg hsub hlt (by omega)
      have hdwords : inst.imageDwords ≤ 8 := by
        rw [Inst.imageDwords]
        split <;> decide
      have hfield : ∀ w, (w &&& 0x1F) * 4 ≤ 124 := by
        intro w
        have hle : w &&& 0x1F ≤ 0x1F := Nat.and_le_right
        omega
      have hsrsrc : inst.srsrc ≤ 124 := hfield _
      have hssamp : inst.ssamp ≤ 124 := hfield _
      rw [hwindow inst.srsrc inst.imageDwords subset_use (by rw [kRegs]; omega),
        hwindow inst.ssamp 4 (fun r hr => mem_use.mpr (.inr ?_)) (by rw [kRegs]; omega)]
      exact (mem_use.mp hr).resolve_left (Finset.notMem_empty r)
    · rfl
  consumer e {inst} h := by
    rw [imageAt, if_neg]
    intro henc
    simp [isConsumer, henc] at h

theorem imageOperands_eq_replay (insts : List SliceInst) (e : ScalarEval) :
    imageOperands guest codeAddr insts e = replay guest codeAddr imageAt insts e := by
  induction insts generalizing e with
  | nil => rfl
  | cons si insts ih =>
    rw [imageOperands, replay, ih]
    by_cases henc : si.inst.enc = .kMimg
    · have hstep : si.stepFrom guest codeAddr e = e := by
        rw [SliceInst.stepFrom, ScalarEval.step, ScalarEval.update, henc]
        exact ite_self e
      rw [hstep]
    · rw [imageAt, imageAt, if_neg henc, if_neg henc]

theorem nullClear_of_not_written (h : ∀ inst ∈ program, 125 ∉ stepWrites inst) : NullClear program := by
  rintro before inst behind rfl - ⟨writer, hwriter, hwrites⟩
  exact absurd hwrites (h writer (List.mem_append_left _ hwriter))

end Descriptors

/-- **The slice and the whole program** find the same descriptors and show the image instructions the
same operands, unless a null destination hides a write of register 125. -/
theorem slice_eq_full (guest : ScalarMemory) (codeAddr : ℕ) (userData : ℕ → UInt32)
    (userSgprs userSgprBase : ℕ) (systemUserDataAddr : UInt64) (program : Program) (hclear : NullClear program) :
    let start := ScalarEval.start userData userSgprs userSgprBase systemUserDataAddr
    resolveBuffersImpl guest codeAddr program start false = resolveBuffersImpl guest codeAddr program start true ∧
      imageOperands guest codeAddr (scalarSlice program false) start =
        imageOperands guest codeAddr (scalarSlice program true) start := by
  intro start
  have hreplay : ∀ {α : Type} {observe : ScalarEval → Inst → Option α}, Observes observe →
      replay guest codeAddr observe (scalarSlice program false) start =
        replay guest codeAddr observe (scalarSlice program true) start := fun hobserve =>
    replay_slice hobserve hclear (List.nil_append program).symm (fun _ _ => rfl) fun _ => rfl
  refine ⟨?_, ?_⟩
  · rw [resolveBuffersImpl, resolveBuffersImpl, hreplay observes_resolveAt]
  · rw [imageOperands_eq_replay, imageOperands_eq_replay, hreplay observes_imageAt]

/-- A pointer in `s[8:9]`, the descriptor that it leads to, a move to the null register and a fetch. -/
def fetchCode (i : ℕ) : ℕ :=
  [0xF4080304, 0xFA000000, 0xBEFD0308, 0xE0000000, 0x80030000, 0xBF810000].getD i 0

theorem slice_eq_full_fetch : let guest : ScalarMemory := ⟨fun _ _ => true, UInt32.ofNat⟩
    let start := ScalarEval.start (fun i => .ofNat (0x1000 * (1 - i))) 2 8 0
    let program := decodeShader fetchCode 6
    (∀ inst ∈ program, 125 ∉ stepWrites inst) ∧
      (resolveBuffersImpl guest 0x8000 program start false).map Prod.fst = [0, 3] ∧
      resolveBuffersImpl guest 0x8000 program start false = resolveBuffersImpl guest 0x8000 program start true :=
  ⟨by decide +kernel, by decide +kernel,
    (slice_eq_full ⟨fun _ _ => true, UInt32.ofNat⟩ 0x8000 (fun i => .ofNat (0x1000 * (1 - i))) 2 8 0
      (decodeShader fetchCode 6) (nullClear_of_not_written (by decide +kernel))).1⟩

/-- `s_mov_b64 s[124:125], 0`, `s_mov_b32 m0, 0`, `s_mov_b32 null, 0` and a fetch through `s[124:127]`. -/
def nullCode (i : ℕ) : ℕ :=
  [0xBEFC0480, 0xBEFC0380, 0xBEFD0380, 0xE0000000, 0x801F0000, 0xBF810000].getD i 0

/-- The whole program finds the descriptor; the slice leaves out the write of register 125. -/
theorem slice_hides_null : let guest : ScalarMemory := ⟨fun _ _ => false, fun _ => 0⟩
    let start := ScalarEval.start (fun _ => 0) 16 8 0
    let program := decodeShader nullCode 6
    resolveBuffersImpl guest 0x8000 program start true =
        [(3, { base := 0, descriptor := [0, 0, 1, 0], descriptorDwords := 4, soffsetValid := true })] ∧
      resolveBuffersImpl guest 0x8000 program start false = [] := by
  decide +kernel

end Prosperity.Rdna
