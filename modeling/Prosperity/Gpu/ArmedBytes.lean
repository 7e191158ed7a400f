import Prosperity.Gpu.RunMapCounts
import Prosperity.Gpu.WriteTrackerReports

/-!
# The armed bytes of the write tracker

`armed_bytes_` is kept beside the run map `armed_`: every insertion adds what `InsertRun` returns
and every erasure subtracts what `EraseRun` returns. The limit of `ArmFault` reads it, so a drift
would disarm the tracker for good.

Fault mode is the tracker of `WriteTracker`, and the count is exact in each of its runs. In scan
mode `armed_` changes in calls of the owner alone; what the kernel and the page table answer on the
way is an argument of the call.
-/

namespace Prosperity.Gpu

/-! ## Fault mode -/

namespace WriteTracker

variable {ι : Type*} [DecidableEq ι] [Fintype ι] {s s' : WriteTracker ι}

def ArmedCounted (s : WriteTracker ι) : Prop := s.armedPages = totalLength s.armed

/-- **The count, at every step of the owner.** -/
theorem ArmedCounted.ownerStep (h : s.ArmedCounted) (hranges : RangesInv s) {ok : Bool} (hs : s.ownerStep ok = some s') :
    s'.ArmedCounted := by
  have hco := hranges.coalesced
  have hranged := hranges.ranged
  have herase {first end_ : ℕ} (hlt : first < end_) :
      s.armedPages - (eraseRun s.armed first end_).2 = totalLength (eraseRun s.armed first end_).1 := by
    rw [totalLength_eraseRun hco hlt, h]
  rw [WriteTracker.ownerStep] at hs
  cases hc : s.owner <;> simp only [hc, Option.some.injEq, reduceCtorEq] at hs <;> try subst hs
  all_goals simp only [hc, Owner.Ranged] at hranged
  case allArmed first end_ page =>
    unfold stepAllArmed
    split_ifs <;> exact h
  case refuse first end_ page =>
    unfold stepRefuse
    split_ifs <;> exact h
  case mark first end_ page run =>
    have hinsert : s.armedPages + (insertRun s.armed first end_).2 = totalLength (insertRun s.armed first end_).1 := by
      rw [totalLength_insertRun hco hranged.1, h]
    unfold stepMark
    split_ifs <;> first | exact h | exact hinsert
  case protect first end_ at_ run =>
    unfold stepProtect
    split_ifs <;> exact h
  case rollback page at_ =>
    unfold stepRollback
    split_ifs <;> exact h
  case disarm first end_ page rest =>
    unfold stepDisarm
    split <;> exact h
  case disarmOpen first end_ rest => exact h
  case disarmErase first end_ rest => exact herase hranged.1
  case disarmNote first end_ rest | drainNext rest | reopenNext rest => cases rest <;> exact h
  case drain => exact h
  case eraseArmed first end_ page rest =>
    unfold stepEraseArmed
    split
    · exact h
    · exact herase hranged.1
  case takeFaulted =>
    unfold stepTakeFaulted
    split_ifs <;> exact h
  case takeSlot at_ stop pages =>
    unfold stepTakeSlot at hs
    split_ifs at hs <;> obtain rfl := Option.some.inj hs <;> exact h
  case reopen first end_ page rest =>
    unfold stepReopen
    split
    · exact h
    · exact herase hranged.1
  case report =>
    unfold report
    rw [countReport_rest]
    exact h

omit [Fintype ι] in
theorem ArmedCounted.threadStep (h : s.ArmedCounted) {t : ι} {ok : Bool} (hs : s.threadStep t ok = some s') : s'.ArmedCounted := by
  rw [WriteTracker.threadStep] at hs
  generalize s.thread t = c at hs
  cases c <;> simp only [Option.some.injEq, reduceCtorEq] at hs <;> subst hs
  case fault page =>
    unfold onWriteFault
    split_ifs <;> exact h
  case hostWrite page end_ run =>
    unfold onHostWrite
    split_ifs <;> exact h
  all_goals exact h

theorem ArmedCounted.step {e : WriteEvent ι} (h : s.ArmedCounted) (hranges : RangesInv s) (hs : s.step e = some s') :
    s'.ArmedCounted := by
  cases e with
  | owner ok => exact h.ownerStep hranges hs
  | thread t ok => exact h.threadStep hs
  | write addr =>
    simp only [WriteTracker.step, Option.ite_none_left_eq_some, Option.some.injEq] at hs
    exact hs.2 ▸ h
  | endFrame =>
    simp only [WriteTracker.step, Option.ite_none_right_eq_some, Option.some.injEq] at hs
    obtain ⟨_, rfl⟩ := hs
    unfold WriteTracker.beginEndFrame
    cases groupDemoted (s.demoted.insertionSort (· ≤ ·)) <;> exact h
  | arm | collect | release | noteWrite | fault | hostWrite | remap =>
    simp only [WriteTracker.step, Option.ite_none_right_eq_some, Option.some.injEq] at hs
    exact hs.2 ▸ h

/-- What the count rests on. -/
def CountInv (s : WriteTracker ι) : Prop := RangesInv s ∧ s.ArmedCounted

theorem CountInv.step {e : WriteEvent ι} (h : CountInv s) (hs : s.step e = some s') : CountInv s' :=
  ⟨h.1.step hs, h.2.step h.1 hs⟩

theorem always_armedCounted (ls : List (WriteEvent ι)) : (system ι).Always ArmedCounted init ls :=
  (system ι).always_of_invariant (fun _ _ _ h _ hs => CountInv.step h hs) (fun _ h => And.right h) ⟨.init, rfl⟩
    ((system ι).meets_true _ _)

end WriteTracker

/-! ## Scan mode -/

def kCoalesceGap : ℕ := 64 * 1024 / kPage

def kRegisterAlign : ℕ := 4096 / kPage

/-- What `ArmRange` is told: whether a page is volatile, and for each gap whether it is registered on the coarser
range, whether on its own, and whether it is write-protected. -/
structure ScanAnswers where
  hot : Bool
  coarse : Range → Bool
  exact : Range → Bool
  protects : Range → Bool

structure ScanTracker where
  armed : List Range
  registered : List Range
  armedPages : ℕ
  noted : List Range
  remapped : List Range

namespace ScanTracker

/-- The loop of `Register` over the gaps: the runs registered, and whether all of them are. -/
def registerGaps (a : ScanAnswers) : List Range → List Range → List Range × Bool
  | [], registered => (registered, true)
  | (lo, hi) :: rest, registered =>
    let wideLo := lo / kRegisterAlign * kRegisterAlign
    let wideHi := (hi + kRegisterAlign - 1) / kRegisterAlign * kRegisterAlign
    if a.coarse (lo, hi) then registerGaps a rest (insertRun registered wideLo wideHi).1
    else if a.exact (lo, hi) then registerGaps a rest (insertRun registered lo hi).1
    else (registered, false)

/-- The loop of `ArmRange` over the gaps. -/
def protectGaps (a : ScanAnswers) : List Range → ScanTracker → ScanTracker × Bool
  | [], s => (s, true)
  | (lo, hi) :: rest, s =>
    if a.protects (lo, hi) then
      protectGaps a rest { s with
        armed := (insertRun s.armed lo hi).1
        armedPages := s.armedPages + (insertRun s.armed lo hi).2 }
    else (s, false)

def armRange (s : ScanTracker) (a : ScanAnswers) (first end_ : ℕ) : ScanTracker × Bool :=
  if a.hot then (s, false)
  else
    let (registered, ok) := registerGaps a (gaps s.registered first end_) s.registered
    if ok then protectGaps a (gaps s.armed first end_) { s with registered := registered }
    else ({ s with registered := registered }, false)

/-- The range of `Arm` with a small gap to the run before it and the one behind it. -/
def wideRange (s : ScanTracker) (first end_ : ℕ) : Range :=
  let next := s.armed.dropWhile fun r => r.1 < first
  let wideFirst := match (s.armed.takeWhile fun r => r.1 < first).getLast? with
    | some prev => if prev.2 < first ∧ first - prev.2 ≤ kCoalesceGap then prev.2 else first
    | none => first
  let wideEnd := match next.head? with
    | some r => if r.1 > end_ ∧ r.1 - end_ ≤ kCoalesceGap then r.1 else end_
    | none => end_
  (wideFirst, wideEnd)

/-- `Arm`. `filtered` and `allArmed` are what `arm_filter` and `AllArmed` answer; the two `ScanAnswers` are for the
wide range and for the one asked for. -/
def arm (s : ScanTracker) (filtered allArmed : Bool) (wide narrow : ScanAnswers) (base bytes : ℕ) : ScanTracker × Bool :=
  if bytes = 0 then (s, false)
  else
    let first := pageDown base
    let end_ := pageUp (base + bytes)
    if filtered then (s, false)
    else if allArmed then (s, true)
    else
      let w := s.wideRange first end_
      if w ≠ (first, end_) then
        let (s, ok) := s.armRange wide w.1 w.2
        if ok then (s, true) else s.armRange narrow first end_
      else s.armRange narrow first end_

/-- `EraseRun` on both maps, as `Disarm` and `Drain` do it. -/
def erase (s : ScanTracker) (r : Range) : ScanTracker :=
  { s with
    registered := (eraseRun s.registered r.1 r.2).1
    armed := (eraseRun s.armed r.1 r.2).1
    armedPages := s.armedPages - (eraseRun s.armed r.1 r.2).2 }

/-- The part of `Collect` that changes the runs, `Drain`. -/
def collect (s : ScanTracker) : ScanTracker := s.remapped.foldl erase { s with noted := [], remapped := [] }

def noteWrite (s : ScanTracker) (base bytes : ℕ) : ScanTracker :=
  if bytes = 0 then s else { s with noted := s.noted ++ [(pageDown base, pageUp (base + bytes))] }

def release (s : ScanTracker) (base bytes : ℕ) : ScanTracker :=
  if bytes = 0 then s else (s.erase (pageDown base, pageUp (base + bytes))).noteWrite base bytes

def noteRemap (s : ScanTracker) (base bytes : ℕ) : ScanTracker :=
  if bytes = 0 then s else { s with remapped := s.remapped ++ [(pageDown base, pageUp (base + bytes))] }

/-- `EndFrame` with the pages it demotes. -/
def endFrame (s : ScanTracker) (demote : List ℕ) : ScanTracker :=
  (groupDemoted (demote.insertionSort (· ≤ ·))).foldl
    (fun s r => { s.erase r with noted := s.noted ++ [r] }) s

end ScanTracker

inductive ScanCall
  | arm (filtered allArmed : Bool) (wide narrow : ScanAnswers) (base bytes : ℕ)
  | collect
  | noteWrite (base bytes : ℕ)
  | release (base bytes : ℕ)
  | noteRemap (base bytes : ℕ)
  | endFrame (demote : List ℕ)
  | reset

namespace ScanTracker

/-- The tracker as `EnableScan` leaves it. -/
def init : ScanTracker := ⟨[], [], 0, [], []⟩

def call (s : ScanTracker) : ScanCall → ScanTracker
  | .arm filtered allArmed wide narrow base bytes => (s.arm filtered allArmed wide narrow base bytes).1
  | .collect => s.collect
  | .noteWrite base bytes => s.noteWrite base bytes
  | .release base bytes => s.release base bytes
  | .noteRemap base bytes => s.noteRemap base bytes
  | .endFrame demote => s.endFrame demote
  | .reset => init

structure Inv (s : ScanTracker) : Prop where
  armed : Coalesced s.armed
  registered : Coalesced s.registered
  remapped : ∀ r ∈ s.remapped, r.1 < r.2
  count : s.armedPages = totalLength s.armed

variable {s : ScanTracker}

theorem inv_init : Inv init := ⟨coalesced_nil, coalesced_nil, by simp [init], rfl⟩

theorem registerGaps_coalesced (a : ScanAnswers) {gs : List Range} (hgs : ∀ g ∈ gs, g.1 < g.2) {registered : List Range}
    (h : Coalesced registered) : Coalesced (registerGaps a gs registered).1 := by
  induction gs generalizing registered with
  | nil => exact h
  | cons g gs ih =>
    obtain ⟨hg, hrest⟩ := List.forall_mem_cons.mp hgs
    rw [registerGaps]
    split_ifs
    · refine ih hrest (h.insertRun ?_)
      simp only [kRegisterAlign, kPage]
      omega
    · exact ih hrest (h.insertRun hg)
    · exact h

theorem Inv.protectGaps (h : Inv s) (a : ScanAnswers) {gs : List Range} (hgs : ∀ g ∈ gs, g.1 < g.2) :
    Inv (protectGaps a gs s).1 := by
  induction gs generalizing s with
  | nil => exact h
  | cons g gs ih =>
    obtain ⟨hg, hrest⟩ := List.forall_mem_cons.mp hgs
    rw [ScanTracker.protectGaps]
    split_ifs
    · refine ih ⟨h.armed.insertRun hg, h.registered, h.remapped, ?_⟩ hrest
      rw [totalLength_insertRun h.armed hg, h.count]
    · exact h

theorem Inv.armRange (h : Inv s) (a : ScanAnswers) (first end_ : ℕ) : Inv (s.armRange a first end_).1 := by
  have hregistered := registerGaps_coalesced a (gaps_spec h.registered first end_).1.1 h.registered
  unfold ScanTracker.armRange
  split_ifs
  · exact h
  · dsimp only
    split_ifs
    · have hs : Inv { s with registered := (registerGaps a (gaps s.registered first end_) s.registered).1 } :=
        ⟨h.armed, hregistered, h.remapped, h.count⟩
      exact hs.protectGaps a (gaps_spec h.armed first end_).1.1
    · exact ⟨h.armed, hregistered, h.remapped, h.count⟩

theorem Inv.arm (h : Inv s) (filtered allArmed : Bool) (wide narrow : ScanAnswers) (base bytes : ℕ) :
    Inv (s.arm filtered allArmed wide narrow base bytes).1 := by
  unfold ScanTracker.arm
  split_ifs
  · exact h
  · exact h
  · exact h
  · dsimp only
    split_ifs
    · exact h.armRange ..
    · exact (h.armRange ..).armRange ..
    · exact h.armRange ..

theorem Inv.erase (h : Inv s) {r : Range} (hr : r.1 < r.2) : Inv (s.erase r) := by
  refine ⟨h.armed.eraseRun hr, h.registered.eraseRun hr, h.remapped, ?_⟩
  change s.armedPages - (eraseRun s.armed r.1 r.2).2 = _
  rw [h.count]
  exact (totalLength_eraseRun h.armed hr).symm

theorem Inv.noteWrite (h : Inv s) (base bytes : ℕ) : Inv (s.noteWrite base bytes) := by
  unfold ScanTracker.noteWrite
  split_ifs
  · exact h
  · exact ⟨h.armed, h.registered, h.remapped, h.count⟩

theorem Inv.foldl_erase {rs : List Range} (hrs : ∀ r ∈ rs, r.1 < r.2) (h : Inv s) : Inv (rs.foldl ScanTracker.erase s) := by
  induction rs generalizing s with
  | nil => exact h
  | cons r rs ih =>
    obtain ⟨hr, hrest⟩ := List.forall_mem_cons.mp hrs
    exact ih hrest (h.erase hr)

theorem Inv.endFrame (h : Inv s) (demote : List ℕ) : Inv (s.endFrame demote) := by
  have hgroups := groupDemoted_lt (demote.insertionSort (· ≤ ·))
  unfold ScanTracker.endFrame
  generalize groupDemoted (demote.insertionSort (· ≤ ·)) = groups at hgroups
  induction groups generalizing s with
  | nil => exact h
  | cons r rs ih =>
    obtain ⟨hr, hrest⟩ := List.forall_mem_cons.mp hgroups
    obtain ⟨harmed, hregistered, hremapped, hcount⟩ := h.erase hr
    exact ih ⟨harmed, hregistered, hremapped, hcount⟩ hrest

/-- **What every call of scan mode keeps.** -/
theorem Inv.call (h : Inv s) (c : ScanCall) : Inv (s.call c) := by
  cases c with
  | arm filtered allArmed wide narrow base bytes => exact h.arm filtered allArmed wide narrow base bytes
  | collect => exact .foldl_erase h.remapped ⟨h.armed, h.registered, by simp, h.count⟩
  | noteWrite base bytes => exact h.noteWrite base bytes
  | release base bytes =>
    change Inv (s.release base bytes)
    unfold ScanTracker.release
    split_ifs with hbytes
    · exact h
    · exact (h.erase (WriteTracker.pageDown_lt (Nat.pos_of_ne_zero hbytes))).noteWrite base bytes
  | noteRemap base bytes =>
    change Inv (s.noteRemap base bytes)
    unfold ScanTracker.noteRemap
    split_ifs with hbytes
    · exact h
    · refine ⟨h.armed, h.registered, fun r hr => ?_, h.count⟩
      rcases List.mem_append.mp hr with hr | hr
      · exact h.remapped r hr
      · rw [List.mem_singleton.mp hr]
        exact WriteTracker.pageDown_lt (Nat.pos_of_ne_zero hbytes)
  | endFrame demote => exact h.endFrame demote
  | reset => exact inv_init

theorem Inv.calls (cs : List ScanCall) : Inv (cs.foldl ScanTracker.call init) := by
  induction cs using List.reverseRecOn with
  | nil => exact inv_init
  | append_singleton cs c ih =>
    rw [List.foldl_append]
    exact ih.call c

end ScanTracker

/-- **The algebra of the run maps**, and what it gives the tracker: after any steps in fault mode and after any
calls in scan mode the count is the length of what is armed. -/
theorem run_maps_count (ι : Type*) [DecidableEq ι] [Fintype ι] :
    (∀ runs, Coalesced runs → ∀ first end_, first < end_ →
      (Coalesced (insertRun runs first end_).1 ∧
        (∀ x, Covers (insertRun runs first end_).1 x ↔ (first ≤ x ∧ x < end_) ∨ Covers runs x) ∧
        (insertRun runs first end_).2 = (Finset.Ico first end_ \ footprint runs).card) ∧
      (Coalesced (eraseRun runs first end_).1 ∧
        (∀ x, Covers (eraseRun runs first end_).1 x ↔ Covers runs x ∧ ¬(first ≤ x ∧ x < end_)) ∧
        (eraseRun runs first end_).2 = (Finset.Ico first end_ ∩ footprint runs).card) ∧
      Coalesced (gaps runs first end_) ∧
        ∀ x, Covers (gaps runs first end_) x ↔ (first ≤ x ∧ x < end_) ∧ ¬Covers runs x) ∧
    (∀ ls, (WriteTracker.system ι).Always (fun s => s.armedPages = totalLength s.armed) WriteTracker.init ls) ∧
    ∀ cs : List ScanCall,
      (cs.foldl ScanTracker.call .init).armedPages = totalLength (cs.foldl ScanTracker.call .init).armed := by
  refine ⟨fun runs h first end_ hne => ⟨⟨h.insertRun hne, covers_insertRun h hne, insertRun_added h hne⟩,
    ⟨h.eraseRun hne, covers_eraseRun h hne, eraseRun_removed h hne⟩, gaps_spec h first end_⟩, ?_, fun cs => ?_⟩
  · exact WriteTracker.always_armedCounted
  · exact (ScanTracker.Inv.calls cs).count

theorem run_maps_count_touching :
    Coalesced [(1, 2), (3, 4)] ∧ (insertRun [(1, 2), (3, 4)] 2 3).2 = (Finset.Ico 2 3 \ footprint [(1, 2), (3, 4)]).card :=
  have hco : Coalesced [(1, 2), (3, 4)] := by simp [Coalesced]
  ⟨hco, ((run_maps_count (Fin 1)).1 _ hco 2 3 (by decide)).1.2.2⟩

end Prosperity.Gpu
