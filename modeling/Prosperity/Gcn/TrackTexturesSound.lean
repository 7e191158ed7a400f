import Prosperity.Gcn.BindingPlansSound
import Prosperity.Gcn.TrackTextures

/-!
# Textures and their bindings

`TrackTextures` finds one texture for each image binding of the plan, in the order of the bindings. The
texture is the T# that the registers hold where the binding is first used. Its S# is that of the first use
where the registers are known, which need not be the first use. A shared replay finds the same, but for
where the T# comes from: a source address that a `v_writelane` parks is of no concern to the pruning.

A binding's number is given out at its first use, by the plan and by `TrackTextures` in step, so both are
tables that the same uses fill (`planMimgBindings_table`, `trackConsumers_own`).
-/

namespace Prosperity.Gcn

open Numbering

/-! ## What the registers say -/

/-- The words of a descriptor, `none` if not all are known. -/
def ScalarEval.words (e : ScalarEval) (s n : ℕ) : Option (List UInt32) :=
  if e.allKnown s n then some ((List.range n).map fun i => e.sgpr (s + i)) else none

def readOf (inst : Inst) (e : ScalarEval) : ImageRead where
  image := e.words (srsrcOf inst) 8
  sampler := if 0x20 ≤ mimgOp inst then e.words (ssampOf inst) 4 else none
  src := e.src (srsrcOf inst)

structure ScalarFace.Reads (f : ScalarFace) (inst : Inst) (read : ImageRead) : Prop where
  image : f.words (srsrcOf inst) 8 = some read.image
  sampler : (if 0x20 ≤ mimgOp inst then f.words (ssampOf inst) 4 else some none) = some read.sampler
  src : read.image.isSome = true → f.src (srsrcOf inst) = some read.src

theorem mapM_some {α β : Type} (f : α → β) (l : List α) :
    (l.mapM fun a => (some (f a) : Option β)) = some (l.map f) := by
  induction l with
  | nil => rfl
  | cons a l ih =>
    rw [List.mapM_cons, ih]
    rfl

theorem ScalarEval.face_words (e : ScalarEval) (s n : ℕ) : e.face.words s n = some (e.words s n) := by
  have hwords := mapM_some (fun i => e.sgpr (s + i)) (List.range n)
  simp only [ScalarFace.words, ScalarEval.face, ScalarEval.words, Option.bind_eq_bind, Option.bind_some]
  rw [hwords]
  split_ifs <;> rfl

theorem ScalarEval.face_reads (e : ScalarEval) (inst : Inst) : e.face.Reads inst (readOf inst e) where
  image := e.face_words _ _
  sampler := by
    rw [readOf]
    split_ifs
    · exact e.face_words _ _
    · rfl
  src _ := rfl

/-! ## What the replay captured -/

def Window.Captured (w : Window) (e : ScalarEval) : Prop :=
  w.first + w.value.length ≤ kRegs ∧ w.value = (List.range w.value.length).map fun i => e.value (w.first + i)

theorem captured_capture (first count : ℕ) (e : ScalarEval) (h : first + count ≤ kRegs) :
    (capture first count e).Captured e ∧ (capture first count e).value.length = count := by
  have hmin : min count (kRegs - min first kRegs) = count := by omega
  have hlen : (capture first count e).value.length = count := by
    rw [capture, List.length_map, List.length_range, hmin]
  refine ⟨⟨?_, ?_⟩, hlen⟩
  · rw [hlen]
    exact h
  · rw [hlen, capture, hmin]

theorem Window.Captured.slice {w : Window} {e : ScalarEval} (hw : w.Captured e) {s n : ℕ} (hcover : w.Covers s n) :
    (w.value.drop (s - w.first)).take n = (List.range n).map fun i => e.value (s + i) := by
  obtain ⟨hlo, hhi⟩ := hcover
  refine List.ext_getElem? fun i => ?_
  by_cases hi : i < n
  · rw [List.getElem?_take_of_lt hi, List.getElem?_drop, hw.2, List.getElem?_map, List.getElem?_map,
      List.getElem?_range (by omega), List.getElem?_range hi, Option.map_some, Option.map_some]
    congr 2
    omega
  · rw [List.getElem?_eq_none (by rw [List.length_take]; omega), List.getElem?_eq_none]
    rw [List.length_map, List.length_range]
    omega

section Face

variable {c : ScalarConsumer} {e : ScalarEval}

theorem find_window {α : Type} {f : Window → α} {x : α} {s n : ℕ} (hregs : c.regs.Captured e)
    (hsampler : c.sampler.Captured e) (hcover : c.regs.Covers s n ∨ c.sampler.Covers s n)
    (hf : ∀ w : Window, w.Captured e → w.Covers s n → f w = x) :
    ([c.regs, c.sampler].find? fun w => w.Covers s n).map f = some x := by
  by_cases hfirst : c.regs.Covers s n
  · rw [List.find?_cons_of_pos (by simpa using hfirst), Option.map_some, hf _ hregs hfirst]
  · have hsecond := hcover.resolve_left hfirst
    rw [List.find?_cons_of_neg (by simpa using hfirst), List.find?_cons_of_pos (by simpa using hsecond),
      Option.map_some, hf _ hsampler hsecond]

theorem face_allKnown (hregs : c.regs.Captured e) (hsampler : c.sampler.Captured e) {s n : ℕ}
    (hcover : c.regs.Covers s n ∨ c.sampler.Covers s n) : c.face.allKnown s n = some (e.allKnown s n) := by
  have hall : ∀ w : Window, w.Captured e → w.Covers s n →
      ((w.value.drop (s - w.first)).take n).all Option.isSome = e.allKnown s n := by
    intro w hw hcov
    have hroom : s + n ≤ kRegs := by
      have := hw.1
      have := hcov.2
      omega
    rw [hw.slice hcov, allKnown_eq, Bool.eq_iff_iff, List.all_eq_true]
    simp [hroom]
  exact find_window hregs hsampler hcover hall

theorem face_sgpr (hregs : c.regs.Captured e) (hsampler : c.sampler.Captured e) {s : ℕ}
    (hcover : c.regs.Covers s 1 ∨ c.sampler.Covers s 1) (hknown : (e.value s).isSome = true) :
    c.face.sgpr s = some (e.sgpr s) := by
  obtain ⟨v, hv⟩ := Option.isSome_iff_exists.mp hknown
  have hvalue : ∀ w : Window, w.Captured e → w.Covers s 1 →
      (w.value.getD (s - w.first) none).getD 0 = e.sgpr s := by
    intro w hw hcov
    have hslice := hw.slice hcov
    have hhead : w.value[s - w.first]? = some (e.value s) := by
      have := congrArg (·[0]?) hslice
      simpa [List.getElem?_take_of_lt, List.getElem?_drop] using this
    rw [List.getD_eq_getElem?_getD, hhead, Option.getD_some, hv, Option.getD_some]
    exact (value_eq_some.mp hv).2.symm
  exact find_window hregs hsampler hcover hvalue

theorem face_words (hregs : c.regs.Captured e) (hsampler : c.sampler.Captured e) {s n : ℕ}
    (hcover : c.regs.Covers s n ∨ c.sampler.Covers s n) : c.face.words s n = some (e.words s n) := by
  rw [ScalarFace.words, face_allKnown hregs hsampler hcover, ScalarEval.words]
  cases hall : e.allKnown s n with
  | false => rfl
  | true =>
    have hknown := of_decide_eq_true ((allKnown_eq s n).symm.trans hall)
    have hmap : ∀ l : List ℕ, (∀ i ∈ l, i < n) →
        l.mapM (fun i => c.face.sgpr (s + i)) = some (l.map fun i => e.sgpr (s + i)) := by
      intro l hl
      induction l with
      | nil => rfl
      | cons i l ih =>
        rw [List.forall_mem_cons] at hl
        have hcov : c.regs.Covers (s + i) 1 ∨ c.sampler.Covers (s + i) 1 := by
          unfold Window.Covers at hcover ⊢
          omega
        rw [List.mapM_cons, face_sgpr hregs hsampler hcov (hknown.2 i hl.1), ih hl.2]
        rfl
    simp only [Option.bind_eq_bind, Option.bind_some, if_true, hmap _ fun i hi => List.mem_range.mp hi]

end Face

/-! ## The plan as a table -/

def bindingOf (plan : Numbering ℕ ℕ MimgBinding) (inst : Inst) : ℕ := (plan.byUse inst.pc).getD 0

def imageUses (reached : ℕ → Bool) (l : List (Inst × ℕ)) : List Inst :=
  (l.filter fun at_ => reached at_.2 && (at_.1.enc == .kMimg)).map Prod.fst

def mimgEntry (inst : Inst) : MimgBinding := { srsrc := srsrcOf inst, storage := isStorage inst }

theorem mimgDemand_eq_use {loads : List (Overlay ℕ)} {inst : Inst} {r : Request ℕ MimgBinding}
    (h : mimgDemand loads inst = .use r) : inst.enc = .kMimg ∧ (∀ b, r.entry b = mimgEntry inst) ∧ r.merge = id := by
  unfold mimgDemand at h
  split_ifs at h with henc
  cases h
  exact ⟨not_not.mp henc, fun _ => rfl, rfl⟩

theorem mimgDemand_eq_pass {loads : List (Overlay ℕ)} {inst : Inst} (h : mimgDemand loads inst = .pass) :
    inst.enc ≠ .kMimg := by
  unfold mimgDemand at h
  split_ifs at h with henc
  exact henc

/-- **The plan from an instruction on** is the table that the image instructions fill in the order of
their bindings. -/
theorem foldlM_mimgPlanner {reached : ℕ → Bool} {l : List (Inst × ℕ)}
    {state state' : List (Overlay ℕ) × Numbering ℕ ℕ MimgBinding} (hpcs : (l.map fun at_ => at_.1.pc).Nodup)
    (hrange : ∀ key number, state.2.byKey key = some number → number < state.2.entries.length)
    (h : l.foldlM (mimgPlanner.step reached) state = some state') :
    (∀ pc, pc ∉ l.map (fun at_ => at_.1.pc) → state'.2.byUse pc = state.2.byUse pc) ∧
      (∀ inst ∈ imageUses reached l, (state'.2.byUse inst.pc).isSome = true) ∧
      InTurn (bindingOf state'.2) state.2.entries.length (imageUses reached l) ∧
      state'.2.entries = (imageUses reached l).foldl (enroll (bindingOf state'.2) mimgEntry fun _ => id)
        state.2.entries := by
  induction l generalizing state with
  | nil =>
    obtain rfl := Option.some.inj h
    exact ⟨fun _ _ => rfl, fun _ hmem => absurd hmem List.not_mem_nil, trivial, rfl⟩
  | cons at_ l ih =>
    obtain ⟨inst, index⟩ := at_
    rw [List.foldlM_cons] at h
    obtain ⟨next, hnext, hrest⟩ := Option.bind_eq_some_iff.mp h
    rw [List.map_cons, List.nodup_cons] at hpcs
    obtain ⟨hnew, hpcs⟩ := hpcs
    -- An instruction that has no binding changes nothing.
    have hpass : next.2 = state.2 → imageUses reached ((inst, index) :: l) = imageUses reached l →
        (∀ pc, pc ∉ ((inst, index) :: l).map (fun at_ => at_.1.pc) →
            state'.2.byUse pc = state.2.byUse pc) ∧
          (∀ u ∈ imageUses reached ((inst, index) :: l), (state'.2.byUse u.pc).isSome = true) ∧
          InTurn (bindingOf state'.2) state.2.entries.length (imageUses reached ((inst, index) :: l)) ∧
          state'.2.entries = (imageUses reached ((inst, index) :: l)).foldl
            (enroll (bindingOf state'.2) mimgEntry fun _ => id) state.2.entries := by
      intro hsame huses
      obtain ⟨huse, hsome, hturn, hentries⟩ := ih hpcs (by rwa [hsame]) hrest
      rw [hsame] at huse hturn hentries
      rw [huses]
      refine ⟨fun pc hpc => huse pc fun hmem => hpc (List.mem_cons_of_mem _ hmem), hsome, hturn, hentries⟩
    obtain ⟨hreached, rfl⟩ | ⟨-, hdemand, rfl⟩ | ⟨hreached, r, plan, hdemand, hput, rfl⟩ |
      ⟨-, hstrict, -⟩ := Planner.step_cases hnext
    · exact hpass rfl (by simp [imageUses, hreached])
    · exact hpass rfl (by simp [imageUses, mimgDemand_eq_pass hdemand])
    · obtain ⟨henc, hentry, hmerge⟩ := mimgDemand_eq_use hdemand
      have huses : imageUses reached ((inst, index) :: l) = inst :: imageUses reached l := by
        simp [imageUses, hreached, henc]
      obtain ⟨number, hnumber, hkey⟩ := put_byUse hput
      have hrange' : ∀ key b, plan.byKey key = some b → b < plan.entries.length := by
        intro key b hb
        obtain hold | ⟨-, hb, hlen⟩ := byKey_put_cases hput hb
        · have := hrange key b hold
          obtain hlen | ⟨-, hlen⟩ := length_put hput <;> omega
        · have hfirst : mimgPlanner.first = 0 := rfl
          omega
      obtain ⟨huse, hsome, hturn, hentries⟩ := ih hpcs hrange' hrest
      have hbinding : state'.2.byUse inst.pc = some number := (huse _ hnew).trans hnumber
      have hof : bindingOf state'.2 inst = number := by
        rw [bindingOf, hbinding]
        rfl
      -- The instruction takes the binding of its key, or the next one.
      have htable : plan.entries = enroll (bindingOf state'.2) mimgEntry (fun _ => id) state.2.entries inst ∧
          number ≤ state.2.entries.length ∧
          plan.entries.length = if number < state.2.entries.length then state.2.entries.length
            else state.2.entries.length + 1 := by
        obtain ⟨b, hb, hplan⟩ | ⟨-, -, hplan⟩ := put_cases hput
        · have heq : b = number := by
            rw [hplan] at hkey
            exact Option.some.inj (hb.symm.trans hkey)
          have hlt : number < state.2.entries.length := heq ▸ hrange _ _ hb
          have hentries : plan.entries = state.2.entries := by
            rw [hplan, hmerge]
            exact List.modify_id _ _
          refine ⟨?_, Nat.le_of_lt hlt, by rw [if_pos hlt, hentries]⟩
          rw [enroll, hof, if_pos hlt, hentries]
          exact (List.modify_id _ _).symm
        · have heq : number = state.2.entries.length := by
            rw [hplan] at hnumber
            dsimp only at hnumber
            rw [Function.update_self] at hnumber
            exact (Option.some.inj hnumber).symm.trans (Nat.zero_add _)
          have hentries : plan.entries = state.2.entries ++ [mimgEntry inst] := by
            rw [hplan, ← hentry]
          refine ⟨?_, Nat.le_of_eq heq, ?_⟩
          · rw [enroll, hof, if_neg (by omega), hentries]
          · rw [if_neg (by omega), hentries, List.length_append]
            rfl
      rw [huses]
      refine ⟨fun pc hpc => ?_, ?_, ⟨?_, ?_⟩, ?_⟩
      · rw [List.map_cons, List.mem_cons, not_or] at hpc
        rw [huse pc hpc.2]
        exact byUse_put_of_ne hput hpc.1
      · refine List.forall_mem_cons.mpr ⟨?_, hsome⟩
        rw [hbinding]
        rfl
      · rw [hof]
        exact htable.2.1
      · rw [hof, ← htable.2.2]
        exact hturn
      · rw [List.foldl_cons, ← htable.1]
        exact hentries
    · cases hstrict

/-! ## The walks as tables -/

section Walks

variable (guest : ScalarMemory) (codeBase : ℕ)

def imageReads : List Inst → ScalarEval → List (Inst × ScalarEval)
  | [], _ => []
  | inst :: insts, e =>
    (if inst.enc = .kMimg then [(inst, e)] else []) ++ imageReads insts (e.step inst guest codeBase)

theorem map_imageReads (insts : List Inst) (e : ScalarEval) :
    (imageReads guest codeBase insts e).map Prod.fst = insts.filter fun inst => inst.enc == .kMimg := by
  induction insts generalizing e with
  | nil => rfl
  | cons inst insts ih =>
    rw [imageReads, List.map_append, ih, List.filter_cons]
    by_cases henc : inst.enc = .kMimg <;> simp [henc]

theorem imageReads_filter (insts : List Inst) (e : ScalarEval) :
    imageReads guest codeBase (insts.filter isScalarInst) e = imageReads guest codeBase insts e := by
  induction insts generalizing e with
  | nil => rfl
  | cons inst insts ih =>
    rw [List.filter_cons]
    split_ifs with h
    · rw [imageReads, imageReads, ih]
    · obtain ⟨hstep, -, hresource⟩ := step_of_not_isScalarInst guest codeBase e (by simpa using h)
      have henc : inst.enc ≠ .kMimg := by
        intro henc
        simp [isResourceConsumer, henc] at hresource
      rw [imageReads, ih, hstep, if_neg henc]
      rfl

theorem step_mimg {inst : Inst} (henc : inst.enc = .kMimg) (e : ScalarEval) :
    e.step inst guest codeBase = e := ScalarEval.step_other (by simp [henc]) (by simp [henc])

theorem not_isSmrdConsumer {inst : Inst} (henc : inst.enc = .kMimg) : isSmrdConsumer inst = false := by
  simp [isSmrdConsumer, henc]

theorem isResourceConsumer_mimg {inst : Inst} (henc : inst.enc = .kMimg) : isResourceConsumer inst = true := by
  simp [isResourceConsumer, henc]

variable {plan : Numbering ℕ ℕ MimgBinding} {result result' : List TrackedTexture}

/-- One image instruction of the table of textures. -/
def trackRead (range : ℕ → Bool) (plan : Numbering ℕ ℕ MimgBinding) :
    List TrackedTexture → Inst × ImageRead → List TrackedTexture :=
  enroll (fun u => bindingOf plan u.1) (fun u => introduce range u.1 u.2) fun u => backfill u.2.sampler

theorem consume_other (range : ℕ → Bool) (plan : Numbering ℕ ℕ MimgBinding) (result : List TrackedTexture)
    {inst : Inst} (henc : inst.enc ≠ .kMimg) (f : ScalarFace) :
    consume range plan result inst f = some result := if_pos henc

theorem consume_eq (range : ℕ → Bool) (result : List TrackedTexture) {inst : Inst} (henc : inst.enc = .kMimg)
    (hplan : (plan.byUse inst.pc).isSome = true) {f : ScalarFace} {read : ImageRead} (hreads : f.Reads inst read) :
    consume range plan result inst f = some (trackRead range plan result (inst, read)) := by
  obtain ⟨b, hb⟩ := Option.isSome_iff_exists.mp hplan
  have hof : bindingOf plan inst = b := by
    rw [bindingOf, hb]
    rfl
  rw [consume, if_neg (not_not.mpr henc), hb]
  dsimp only
  rw [hreads.sampler, Option.bind_some, trackRead, enroll, hof]
  split_ifs with hlt
  · rfl
  · rw [hreads.image, Option.bind_some]
    obtain ⟨image, sampler, src⟩ := read
    cases image with
    | none => rfl
    | some words =>
      have hsrc := hreads.src rfl
      dsimp only at hsrc ⊢
      rw [Option.isSome_some, if_pos rfl, hsrc]
      rfl

/-- **The program's own walk** fills the table with what its image instructions read. -/
theorem trackConsumers_own (insts : List Inst) (e : ScalarEval)
    (hplan : ∀ inst ∈ insts, inst.enc = .kMimg → (plan.byUse inst.pc).isSome = true) (result : List TrackedTexture) :
    (ownConsumers guest codeBase insts e).foldlM
        (fun result c => consume (guest.range · 1) plan result c.1 c.2) result =
      some (((imageReads guest codeBase insts e).map fun r => (r.1, readOf r.1 r.2)).foldl
        (trackRead (guest.range · 1) plan) result) := by
  induction insts generalizing e result with
  | nil => rfl
  | cons inst insts ih =>
    rw [List.forall_mem_cons] at hplan
    rw [ownConsumers, imageReads, List.foldlM_append, List.foldlM_append, List.map_append, List.foldl_append]
    by_cases henc : inst.enc = .kMimg
    · rw [not_isSmrdConsumer henc, isResourceConsumer_mimg henc, if_pos henc, step_mimg guest codeBase henc]
      have huse := consume_eq (guest.range · 1) result henc (hplan.1 henc) (e.face_reads inst)
      simp [huse, ih _ hplan.2]
    · rw [if_neg henc]
      have hother := fun f result => consume_other (guest.range · 1) plan result henc f
      cases isSmrdConsumer inst <;> cases isResourceConsumer inst <;> simp [hother, ih _ hplan.2]

/-! ## The shared replay -/

def TrackedTexture.forgetSrc (t : TrackedTexture) : TrackedTexture := { t with src := 0 }

theorem introduce_forgetSrc (range : ℕ → Bool) (inst : Inst) (image sampler : Option (List UInt32))
    (src src' : ℕ) : (introduce range inst ⟨image, sampler, src⟩).forgetSrc =
      (introduce range inst ⟨image, sampler, src'⟩).forgetSrc := by
  cases image <;> rfl

theorem trackRead_forgetSrc {range : ℕ → Bool}
    (h : result.map TrackedTexture.forgetSrc = result'.map TrackedTexture.forgetSrc) (inst : Inst)
    (read : ImageRead) (src : ℕ) :
    (trackRead range plan result (inst, { read with src := src })).map TrackedTexture.forgetSrc =
      (trackRead range plan result' (inst, read)).map TrackedTexture.forgetSrc := by
  have hlen : result.length = result'.length := by
    have := congrArg List.length h
    simpa using this
  have hmodify : ∀ (l : List TrackedTexture) k, (l.modify k (backfill read.sampler)).map
      TrackedTexture.forgetSrc = (l.map TrackedTexture.forgetSrc).modify k (backfill read.sampler) := by
    intro l k
    refine List.ext_getElem? fun i => ?_
    rw [List.getElem?_map, List.getElem?_modify, List.getElem?_modify, List.getElem?_map]
    cases l[i]? with
    | none => rfl
    | some t =>
      by_cases heq : k = i
      · simp only [heq, if_true]
        rfl
      · simp [heq]
  unfold trackRead enroll
  dsimp only
  rw [hlen]
  split_ifs
  · rw [hmodify, hmodify, h]
  · rw [List.map_append, List.map_append, h]
    congr 1
    exact congrArg (fun t => [t]) (introduce_forgetSrc range inst read.image read.sampler src read.src)

theorem captured_reads {c : ScalarConsumer} {inst : Inst} {e : ScalarEval} (henc : inst.enc = .kMimg)
    (hcapture : (c.regs, c.sampler) = captureResource inst e) :
    c.face.Reads inst { readOf inst e with src := c.src } := by
  have hkRegs : kRegs = 136 := rfl
  have hsrsrc : resourceSgpr inst ≤ 124 := by
    have := and_mask_lt (inst.raw1 >>> 16) 5 (rfl : 0x1F = 2 ^ 5 - 1)
    unfold resourceSgpr
    omega
  have hssamp : samplerSgpr inst ≤ 124 := by
    have := and_mask_lt (inst.raw1 >>> 21) 5 (rfl : 0x1F = 2 ^ 5 - 1)
    unfold samplerSgpr
    omega
  rw [captureResource, if_pos henc, if_pos henc] at hcapture
  obtain ⟨hregs, hsampler⟩ := Prod.mk.inj hcapture
  obtain ⟨hcapturedRegs, hlenRegs⟩ := captured_capture (resourceSgpr inst) 8 e (by omega)
  obtain ⟨hcapturedSampler, hlenSampler⟩ :=
    captured_capture (samplerSgpr inst) 4 e (by omega)
  rw [← hregs] at hcapturedRegs hlenRegs
  rw [← hsampler] at hcapturedSampler hlenSampler
  have hfirst : c.regs.first = srsrcOf inst := by
    rw [hregs]
    rfl
  have hfirst' : c.sampler.first = ssampOf inst := by
    rw [hsampler]
    rfl
  refine ⟨?_, ?_, fun _ => if_pos hfirst.symm⟩
  · exact face_words hcapturedRegs hcapturedSampler (.inl ⟨Nat.le_of_eq hfirst, by omega⟩)
  · show _ = some (readOf inst e).sampler
    rw [readOf]
    split_ifs
    · exact face_words hcapturedRegs hcapturedSampler (.inr ⟨Nat.le_of_eq hfirst', by omega⟩)
    · rfl

theorem foldlM_consume_other {range : ℕ → Bool} {all : List Inst} {cs : List ScalarConsumer}
    (h : ∀ c ∈ cs, ∃ inst, all[c.index]? = some inst ∧ inst.enc ≠ .kMimg) (result : List TrackedTexture) :
    (cs.filterMap fun c => all[c.index]?.map fun inst => (inst, c.face)).foldlM
      (fun result c => consume range plan result c.1 c.2) result = some result := by
  induction cs with
  | nil => rfl
  | cons c cs ih =>
    rw [List.forall_mem_cons] at h
    obtain ⟨⟨inst, hinst, henc⟩, hrest⟩ := h
    rw [List.filterMap_cons, hinst, Option.map_some, List.foldlM_cons, consume_other _ _ _ henc]
    exact ih hrest

/-- **The shared replay** fills the table with the same reads, apart from the sources. -/
theorem trackConsumers_shared (result result' : List TrackedTexture) {all : List Inst} (insts : List Inst) (e : ScalarEval)
    (hplan : ∀ inst ∈ insts, inst.enc = .kMimg → (plan.byUse inst.pc).isSome = true) {cs : List ScalarConsumer}
    (hcs : cs.map (seen all) = (evaluateAll guest codeBase insts e).map fun x => (some x.1, x.2))
    (h : result.map TrackedTexture.forgetSrc = result'.map TrackedTexture.forgetSrc) :
    ∃ r, (cs.filterMap fun c => all[c.index]?.map fun inst => (inst, c.face)).foldlM
        (fun result c => consume (guest.range · 1) plan result c.1 c.2) result = some r ∧
      r.map TrackedTexture.forgetSrc = (((imageReads guest codeBase insts e).map fun r => (r.1, readOf r.1 r.2)).foldl
          (trackRead (guest.range · 1) plan) result').map TrackedTexture.forgetSrc := by
  induction insts generalizing e cs result result' with
  | nil =>
    obtain rfl := List.map_eq_nil_iff.mp hcs
    exact ⟨result, rfl, h⟩
  | cons inst insts ih =>
    rw [List.forall_mem_cons] at hplan
    rw [evaluateAll, List.map_append] at hcs
    obtain ⟨here, later, rfl, hhere, hlater⟩ := List.map_eq_append_iff.mp hcs
    rw [List.filterMap_append, List.foldlM_append, imageReads, List.map_append, List.foldl_append]
    by_cases henc : inst.enc = .kMimg
    · rw [not_isSmrdConsumer henc, isResourceConsumer_mimg henc, step_mimg guest codeBase henc] at hhere
      rw [step_mimg guest codeBase henc] at hlater
      obtain ⟨c, tail, rfl, hc, htail⟩ := List.map_eq_cons_iff.mp hhere
      obtain rfl := List.map_eq_nil_iff.mp htail
      obtain ⟨hinst, hcapture⟩ := Prod.mk.inj hc
      have huse := consume_eq (guest.range · 1) result henc (hplan.1 henc)
        (captured_reads henc hcapture)
      obtain ⟨r, hr, hforget⟩ := ih _ _ e hplan.2 hlater
        (trackRead_forgetSrc h inst (readOf inst e) c.src)
      refine ⟨r, ?_, ?_⟩
      · simpa [hinst, huse] using hr
      · rw [hforget, if_pos henc, step_mimg guest codeBase henc]
        rfl
    · have hother : ∀ c ∈ here, ∃ inst, all[c.index]? = some inst ∧ inst.enc ≠ .kMimg := by
        intro c hc
        have hmem := List.mem_map_of_mem (f := seen all) hc
        rw [hhere] at hmem
        obtain ⟨x, hx, hseen⟩ := List.mem_map.mp hmem
        have hfst : x.1 = inst := by
          rcases List.mem_append.mp hx with hx | hx <;> split_ifs at hx <;> simp at hx <;> rw [hx]
        refine ⟨inst, ?_, henc⟩
        have := congrArg Prod.fst hseen
        rw [hfst] at this
        exact this.symm
      obtain ⟨r, hr, hforget⟩ := ih _ _ (e.step inst guest codeBase) hplan.2 hlater h
      refine ⟨r, ?_, ?_⟩
      · rw [foldlM_consume_other hother]
        exact hr
      · rw [hforget, if_neg henc]
        rfl

end Walks

/-! ## Textures and bindings -/

section Pairs

variable (guest : ScalarMemory) (codeBase : ℕ) (userData : ℕ → UInt32)

theorem imageUses_zipIdx {program : Program} (reachable : List Bool) {reached : ℕ → Bool} {n : ℕ}
    (h : ∀ i, reached (n + i) = reachable.getD i false) : imageUses reached (program.zipIdx n) =
      (reachedInsts program reachable).filter fun inst => inst.enc == .kMimg := by
  induction program generalizing reachable n with
  | nil => rfl
  | cons inst program ih =>
    have hhead : reached n = reachable.getD 0 false := h 0
    have htail : ∀ i, reached (n + 1 + i) = reachable.tail.getD i false := by
      intro i
      rw [Nat.add_assoc, Nat.add_comm 1 i, h]
      cases reachable <;> rfl
    have hrest := ih reachable.tail htail
    unfold imageUses reachedInsts at hrest ⊢
    rw [List.zipIdx_cons, List.filter_cons, hhead]
    cases reachable with
    | nil =>
      simp only [List.tail_nil, List.zip_nil_right] at hrest ⊢
      simpa using hrest
    | cons r rest =>
      simp only [List.tail_cons] at hrest
      cases r <;> by_cases henc : inst.enc = .kMimg <;> simp [henc, hrest]

theorem nodup_pcs (readable : ℕ → Bool) (code : Code) (maxDwords : ℕ) (mode : IsaMode) :
    (((decodeShader readable code maxDwords mode).zipIdx).map fun at_ => at_.1.pc).Nodup := by
  have hcont := contiguous_decodeShader readable code maxDwords mode
  have hfst : ((decodeShader readable code maxDwords mode).zipIdx.map fun at_ => at_.1.pc) =
      (decodeShader readable code maxDwords mode).map Inst.pc := by
    conv_rhs => rw [← List.zipIdx_map_fst 0 (decodeShader readable code maxDwords mode), List.map_map]
    rfl
  rw [hfst, List.nodup_iff_pairwise_ne, List.pairwise_map]
  refine hcont.sorted.imp_of_mem fun ha _ hle => ?_
  have := hcont.size_pos ha
  omega

def laterSampler (uses : List (Inst × ScalarEval)) : Option (List UInt32) :=
  uses.findSome? fun r => (readOf r.1 r.2).sampler

theorem foldl_backfill (uses : List (Inst × ScalarEval)) (t : TrackedTexture) :
    (uses.map fun r => (r.1, readOf r.1 r.2)).foldl (fun t u => backfill u.2.sampler t) t =
      backfill (laterSampler uses) t := by
  induction uses generalizing t with
  | nil => simp [laterSampler, backfill]
  | cons r uses ih =>
    rw [List.map_cons, List.foldl_cons, ih]
    simp only [laterSampler, backfill, List.findSome?_cons]
    cases t.sampler <;> cases (readOf r.1 r.2).sampler <;> rfl

end Pairs

/-! ## A late sampler, and a source that is forgotten -/

/-- `image_sample` with the S# in `s[16:19]`, which is no user data; then the S# is moved there, and the
same instruction comes again. -/
def lateSamplerCode : Code := fun d =>
  [0xF0800F00, 0x00800000, 0xBE900300, 0xBE910300, 0xBE920300, 0xBE930300, 0xF0800F00, 0x00800000, 0xBF810000].getD d 0

/-- A load into `s4`, which a move overwrites. `s4` goes through a lane of `v0` to `s8`, the first word of
a T#. -/
def parkedSourceCode : Code := fun d =>
  [0xC0020100, 0xBE840302, 0x04010004, 0x02110100, 0xF0000F00, 0x00020000, 0xBF810000].getD d 0

def zeroMemory : ScalarMemory := ⟨fun _ _ => true, fun _ => 0⟩

def ReadAtFirstUse (guest : ScalarMemory) (codeBase : ℕ) (userData : ℕ → UInt32) (program : Program)
    (reachable : List Bool) : Prop :=
  ∀ plan own, planMimgBindings program (fun i => reachable.getD i false) = some plan →
    trackTextures guest codeBase program reachable userData false = some own →
    ∀ k t, own[k]? = some t → ∃ inst e later,
      (imageReads guest codeBase (reachedInsts program reachable) (ScalarEval.start userData)).filter
        (fun r => plan.byUse r.1.pc = some k) = (inst, e) :: later ∧
      t = introduce (guest.range · 1) inst (readOf inst e)

end Prosperity.Gcn
