import Prosperity.Gpu.WriteTrackerProtection

/-!
# Reports of the write tracker

A page a caller of `Arm` trusts is written, announced or remapped: the next `Collect` reports it,
or the first one after its handler has finished. `Arm` answers from the page states alone, so the
promise rests on what a state says about the page: `kProtected` that the page is read-only, or
about to be, or has a remap pending, and that `armed_` has it, so that a remap clears it;
`kQueued` that it is in the ring or on its way there.

The invariant says this of one page at a time. A step of a handler is one lemma for all of them;
the steps of the owner follow its loops. The ring is separate: a claimed slot belongs to one
handler and is empty, and entries are taken in the order of their slots.
-/

set_option linter.unusedSectionVars false

namespace Prosperity.Gpu

/-! ## Ranges of pages -/

theorem mergeFaulted_go {pages : List ℕ} (hsorted : pages.Pairwise (· ≤ ·)) {first end_ : ℕ}
    (hlt : first < end_) (hlast : ∀ x ∈ pages, end_ ≤ x + 1) : (∀ r ∈ mergeFaulted.go first end_ pages, r.1 < r.2) ∧
      ∀ p, Covers (mergeFaulted.go first end_ pages) p ↔ (first ≤ p ∧ p < end_) ∨ p ∈ pages := by
  induction pages generalizing first end_ with
  | nil => exact ⟨by simpa [mergeFaulted.go] using hlt, fun p => by simp [mergeFaulted.go]⟩
  | cons x xs ih =>
    obtain ⟨hx, hxs⟩ := List.pairwise_cons.mp hsorted
    have hend := hlast x List.mem_cons_self
    rw [mergeFaulted.go]
    by_cases hle : x ≤ end_
    · rw [if_pos hle]
      obtain ⟨hne, hcov⟩ := ih hxs (by omega : first < max end_ (x + 1))
        fun y hy => by have := hx y hy; omega
      refine ⟨hne, fun p => ?_⟩
      -- `x` is the last page so far, or the one behind it
      have hgrow : (first ≤ p ∧ p < max end_ (x + 1)) ↔ (first ≤ p ∧ p < end_) ∨ p = x := by omega
      rw [hcov, hgrow, List.mem_cons, or_assoc]
    · rw [if_neg hle]
      obtain ⟨hne, hcov⟩ := ih hxs (Nat.lt_succ_self x)
        fun y hy => Nat.succ_le_succ (hx y hy)
      refine ⟨fun r hr => ?_, fun p => ?_⟩
      · rcases List.mem_cons.mp hr with rfl | hr
        · exact hlt
        · exact hne r hr
      · have hone : (x ≤ p ∧ p < x + 1) ↔ p = x := by omega
        rw [covers_cons, hcov, hone, List.mem_cons]

theorem mergeFaulted_spec (pages : List ℕ) : (∀ r ∈ mergeFaulted (pages.insertionSort (· ≤ ·)), r.1 < r.2) ∧
      ∀ p, Covers (mergeFaulted (pages.insertionSort (· ≤ ·))) p ↔ p ∈ pages := by
  have hsorted := List.pairwise_insertionSort (· ≤ ·) pages
  have hmem : ∀ p, p ∈ pages.insertionSort (· ≤ ·) ↔ p ∈ pages :=
    fun p => (List.perm_insertionSort (· ≤ ·) pages).mem_iff
  simp only [← hmem]
  generalize pages.insertionSort (· ≤ ·) = sorted at hsorted
  cases sorted with
  | nil => simp [mergeFaulted]
  | cons x xs =>
    obtain ⟨hx, hxs⟩ := List.pairwise_cons.mp hsorted
    obtain ⟨hne, hcov⟩ := mergeFaulted_go hxs (Nat.lt_succ_self x)
      fun y hy => Nat.succ_le_succ (hx y hy)
    refine ⟨hne, fun p => ?_⟩
    have hone : (x ≤ p ∧ p < x + 1) ↔ p = x := by omega
    rw [mergeFaulted, hcov, hone, List.mem_cons]

theorem groupDemoted_go {pages : List ℕ} {first end_ : ℕ} (hlt : first < end_) :
    ∀ r ∈ groupDemoted.go first end_ pages, r.1 < r.2 := by
  induction pages generalizing first end_ with
  | nil => simpa [groupDemoted.go] using hlt
  | cons x xs ih =>
    rw [groupDemoted.go]
    split
    · exact ih (Nat.lt_succ_of_lt hlt)
    · intro r hr
      rcases List.mem_cons.mp hr with rfl | hr
      · exact hlt
      · exact ih (Nat.lt_succ_self x) r hr

theorem groupDemoted_lt (pages : List ℕ) : ∀ r ∈ groupDemoted pages, r.1 < r.2 := by
  cases pages with
  | nil => simp [groupDemoted]
  | cons x xs => exact groupDemoted_go (Nat.lt_succ_self x)

/-! ## Where a page stands -/

def SomeThread {ι : Type*} (f : ι → Thread) (P : Thread → ℕ → Prop) (page : ℕ) : Prop :=
  ∃ t, P (f t) page

/-- The page is in a filled slot, from index `lo` up to `hi`. -/
def Queued (queue : ℕ → ℕ) (lo hi page : ℕ) : Prop :=
  page ≠ 0 ∧ ∃ i, lo ≤ i ∧ i < hi ∧ queue (i % kQueueSize) = page

theorem Queued.mono {queue : ℕ → ℕ} {lo hi hi' page : ℕ} (h : Queued queue lo hi page)
    (hle : hi ≤ hi') : Queued queue lo hi' page := by
  obtain ⟨hne, i, hlo, hhi, heq⟩ := h
  exact ⟨hne, i, hlo, by omega, heq⟩

theorem Queued.pop {queue : ℕ → ℕ} {at_ hi page : ℕ} (h : Queued queue at_ hi page) : page = queue (at_ % kQueueSize) ∨
      Queued (Function.update queue (at_ % kQueueSize) 0) (at_ + 1) hi page := by
  obtain ⟨hne, i, hlo, hhi, heq⟩ := h
  by_cases hslot : i % kQueueSize = at_ % kQueueSize
  · rw [hslot] at heq
    exact .inl heq.symm
  · have hnei : i ≠ at_ := fun h => hslot (congrArg (· % kQueueSize) h)
    exact .inr ⟨hne, i, by omega, hhi, by rw [Function.update_of_ne hslot, heq]⟩

theorem Queued.of_pop {queue : ℕ → ℕ} {at_ hi page : ℕ}
    (h : Queued (Function.update queue (at_ % kQueueSize) 0) (at_ + 1) hi page) : Queued queue at_ hi page := by
  obtain ⟨hne, i, hlo, hhi, heq⟩ := h
  by_cases hslot : i % kQueueSize = at_ % kQueueSize
  · rw [hslot, Function.update_self] at heq
    exact absurd heq.symm hne
  · rw [Function.update_of_ne hslot] at heq
    exact ⟨hne, i, by omega, hhi, heq⟩

theorem Queued.fill {queue : ℕ → ℕ} {lo hi page at_ : ℕ} (h : Queued queue lo hi page)
    (hempty : queue (at_ % kQueueSize) = 0) (v : ℕ) :
    Queued (Function.update queue (at_ % kQueueSize) v) lo hi page := by
  obtain ⟨hne, i, hlo, hhi, heq⟩ := h
  refine ⟨hne, i, hlo, hhi, ?_⟩
  rw [Function.update_of_ne, heq]
  intro hslot
  rw [hslot, hempty] at heq
  exact hne heq.symm

namespace Thread

def Holds (c : Thread) (p : ℕ) : Prop := c.Claims p ∨ c.Opens p

def Slot : Thread → Option ℕ
  | .faultStore _ at_ | .hostStore _ _ _ at_ => some at_
  | _ => none

def Ranged : Thread → Prop
  | .flush _ _ run => run ≠ 0
  | .noteRemap first end_ => first < end_
  | _ => True

instance (c : Thread) (p : ℕ) : Decidable (c.Holds p) :=
  inferInstanceAs (Decidable (c.Claims p ∨ c.Opens p))

end Thread

namespace Owner

/-- The index of the next slot to take. -/
@[simp] def cursor (tail : ℕ) : Owner → ℕ
  | .takeSlot at_ _ _ => at_
  | _ => tail

/-- The index behind the last slot this `Collect` takes. -/
@[simp] def limit (head : ℕ) : Owner → ℕ
  | .drain | .drainNext _ | .eraseArmed .. | .takeFaulted => head
  | .takeSlot _ stop _ => stop
  | _ => 0

theorem limit_mono (o : Owner) {head head' : ℕ} (h : head ≤ head') : o.limit head ≤ o.limit head' := by
  cases o <;> simp [limit, h]

/-- A `Collect` is running. -/
@[simp] def Collecting : Owner → Prop
  | .drain | .drainNext _ | .eraseArmed .. | .takeFaulted | .takeSlot .. | .reopenNext _
  | .reopen .. | .report => True
  | _ => False

/-- The remapped pages whose state `Drain` has still to clear. -/
@[simp] def Remaps : Owner → ℕ → Prop
  | .drainNext rest, p => Covers rest p
  | .eraseArmed _ end_ page rest, p => (page ≤ p ∧ p < end_) ∨ Covers rest p
  | _, _ => False

/-- The pages taken from the ring and not reported yet. -/
@[simp] def Takes : Owner → ℕ → Prop
  | .takeSlot _ _ pages, p => p ∈ pages
  | .reopenNext rest, p => Covers rest p
  | .reopen first end_ _ rest, p => (first ≤ p ∧ p < end_) ∨ Covers rest p
  | _, _ => False

/-- The remapped pages not reported yet. -/
@[simp] def Drains : Owner → ℕ → Prop
  | .drainNext rest, p => Covers rest p
  | .eraseArmed first end_ _ rest, p => (first ≤ p ∧ p < end_) ∨ Covers rest p
  | _, _ => False

/-- The pages that `Release` or `EndFrame` has still to note. -/
@[simp] def Notes : Owner → ℕ → Prop
  | .disarm first end_ _ _, p | .disarmOpen first end_ _, p | .disarmErase first end_ _, p
  | .disarmNote first end_ _, p => first ≤ p ∧ p < end_
  | _, _ => False

/-- The pages `Arm` has marked or passed, not in `armed_` yet. -/
@[simp] def Marks : Owner → ℕ → Prop
  | .mark first _ page _, p | .protect first _ page _, p => first ≤ p ∧ p < page
  | .rollback page at_, p => page ≤ p ∧ p < at_
  | _, _ => False

/-- The pages `Arm` has found armed, or armed itself. -/
@[simp] def Found : Owner → ℕ → Prop
  | .allArmed first _ page, p | .mark first _ page _, p => first ≤ p ∧ p < page
  | .protect first end_ at_ _, p => first ≤ p ∧ (p < at_ ∨ (p = at_ ∧ at_ < end_))
  | _, _ => False

/-- The pages whose state a loop has cleared, still in `armed_`. -/
@[simp] def Cleared : Owner → ℕ → Prop
  | .disarm first _ page _, p | .eraseArmed first _ page _, p => first ≤ p ∧ p < page
  | .disarmOpen first end_ _, p | .disarmErase first end_ _, p => first ≤ p ∧ p < end_
  | _, _ => False

/-- The pages of a range from the ring whose state is open again. -/
@[simp] def Reopened : Owner → ℕ → Prop
  | .reopen first _ page _, p => first ≤ p ∧ p < page
  | _, _ => False

@[simp] def Ranged : Owner → Prop
  | .allArmed first end_ page | .refuse first end_ page => first < end_ ∧ first ≤ page
  | .mark first end_ page run =>
    first < end_ ∧ first ≤ page ∧ page ≤ end_ ∧ (run ≠ 0 → first ≤ run ∧ run < page)
  | .protect first end_ at_ run => first < end_ ∧ run < at_ ∧ at_ ≤ end_ ∧ first ≤ run
  | .disarm first end_ page rest => first < end_ ∧ first ≤ page ∧ ∀ r ∈ rest, r.1 < r.2
  | .disarmOpen first end_ rest | .disarmErase first end_ rest | .disarmNote first end_ rest =>
    first < end_ ∧ ∀ r ∈ rest, r.1 < r.2
  | .eraseArmed first end_ page rest | .reopen first end_ page rest =>
    first < end_ ∧ first ≤ page ∧ ∀ r ∈ rest, r.1 < r.2
  | .drainNext rest | .reopenNext rest => ∀ r ∈ rest, r.1 < r.2
  | _ => True

end Owner

/-- The pages that `Arm` may still mark. -/
def Owner.todo : Owner → ℕ
  | .refuse first end_ _ => end_ - first
  | .mark _ end_ page _ => end_ - page
  | .protect _ end_ at_ _ => end_ - at_
  | _ => 0

namespace WriteTracker

variable {ι : Type*} [DecidableEq ι] [Fintype ι]

@[simp] def InRing (s : WriteTracker ι) (page : ℕ) : Prop :=
  Queued s.queue (s.owner.cursor s.queueTail) s.queueHead page

@[simp] def RemapPending (s : WriteTracker ι) (page : ℕ) : Prop :=
  Covers s.remapped page ∨ SomeThread s.thread Thread.Remaps page ∨ s.owner.Remaps page

@[simp] def Pending (s : WriteTracker ι) (page : ℕ) : Prop :=
  Covers s.noted page ∨ s.RemapPending page ∨ SomeThread s.thread Thread.Claims page ∨
    s.InRing page ∨ s.owner.Drains page ∨ s.owner.Takes page ∨ s.owner.Notes page ∨
    (s.owner.Collecting ∧ Covers s.out page)

/-- The page is on its way to the report of the running `Collect`. -/
@[simp] def Scheduled (s : WriteTracker ι) (page : ℕ) : Prop :=
  s.owner.Collecting ∧ (Covers s.out page ∨ s.owner.Drains page ∨ s.owner.Takes page ∨
      (s.owner = .drain ∧ (Covers s.noted page ∨ Covers s.remapped page)) ∨
      Queued s.queue (s.owner.cursor s.queueTail) (s.owner.limit s.queueHead) page)

/-- What the `Collect` that ends here has to report is in what it reports. -/
def Reported (s : WriteTracker ι) : Prop :=
  s.owner = .report → ∀ page, s.due page = true → Covers s.out page

/-- Every page that `Arm` leaves kProtected where it gives up, among those before `stop`, is in
`armed_`, and is not one it has marked and not protected. -/
def Leaves (s : WriteTracker ι) (first stop : ℕ) : Prop :=
  ∀ p, first ≤ p → p < stop → s.state p = .kProtected → Covers s.armed p ∧ ¬s.owner.Run p

/-- The steps that lose no page. `Arm` marks a page other than page 0, which no handler holds and
which is not in the ring; it gives up at a page without a record, or where `mprotect` fails, only
if it leaves no page kProtected that is not in `armed_`. A slot is claimed only while the ring has
a free one. -/
def Tracked (s : WriteTracker ι) : WriteEvent ι → Prop
  | .thread t _ =>
    match s.thread t with
    | .faultEnqueue _ | .hostEnqueue _ _ _ =>
      s.queueHead < s.owner.cursor s.queueTail + kQueueSize
    | _ => True
  | .owner ok =>
    match s.owner with
    | .mark first end_ page _ =>
      page < end_ → if covered page then
          s.state page = .kOpen → page ≠ 0 ∧ ¬SomeThread s.thread Thread.Holds page ∧ ¬s.InRing page
        else s.Leaves first page
    | .protect first _ _ run => ok = false → s.Leaves first run
    | _ => True
  | _ => True

/-! ## The ring -/

/-- Claimed slots are empty, in the window and each of one handler; the slots not claimed are
empty too. -/
structure RingInv (s : WriteTracker ι) : Prop where
  lower : s.owner.cursor s.queueTail ≤ s.queueHead
  upper : s.queueHead ≤ s.owner.cursor s.queueTail + kQueueSize
  limit : ∀ at_ stop pages, s.owner = .takeSlot at_ stop pages → at_ ≤ stop ∧ stop ≤ s.queueHead
  slot : ∀ t i, (s.thread t).Slot = some i →
    s.owner.cursor s.queueTail ≤ i ∧ i < s.queueHead ∧ s.queue (i % kQueueSize) = 0
  distinct : ∀ t u i, (s.thread t).Slot = some i → (s.thread u).Slot = some i → t = u
  empty : ∀ i, s.queueHead ≤ i → i < s.owner.cursor s.queueTail + kQueueSize → s.queue (i % kQueueSize) = 0

theorem slot_ne {i j : ℕ} (hne : i ≠ j) (hi : i < j + kQueueSize) (hj : j < i + kQueueSize) :
    i % kQueueSize ≠ j % kQueueSize := by
  simp only [kQueueSize] at hi hj ⊢
  omega

theorem RingInv.init : RingInv (init : WriteTracker ι) where
  lower := Nat.le_refl _
  upper := Nat.zero_le _
  limit := by simp [WriteTracker.init]
  slot := by simp [WriteTracker.init, Thread.Slot]
  distinct := by simp [WriteTracker.init, Thread.Slot]
  empty _ _ _ := rfl

theorem RingInv.frame {s s' : WriteTracker ι} (h : RingInv s) (hqueue : s'.queue = s.queue)
    (hhead : s'.queueHead = s.queueHead) (hcursor : s'.owner.cursor s'.queueTail = s.owner.cursor s.queueTail)
    (hslot : ∀ t i, (s'.thread t).Slot = some i → (s.thread t).Slot = some i)
    (hlimit : ∀ at_ stop pages, s'.owner = .takeSlot at_ stop pages →
      at_ ≤ stop ∧ stop ≤ s.queueHead) : RingInv s' := by
  refine ⟨?_, ?_, ?_, fun t i hi => ?_, fun t u i ht hu => ?_, ?_⟩
  · rw [hcursor, hhead]
    exact h.lower
  · rw [hcursor, hhead]
    exact h.upper
  · rw [hhead]
    exact hlimit
  · rw [hcursor, hhead, hqueue]
    exact h.slot t i (hslot t i hi)
  · exact h.distinct t u i (hslot t i ht) (hslot u i hu)
  · rw [hcursor, hhead, hqueue]
    exact h.empty

theorem RingInv.goto {s s' : WriteTracker ι} (h : RingInv s) (t : ι) (c : Thread)
    (hqueue : s'.queue = s.queue) (hhead : s'.queueHead = s.queueHead)
    (htail : s'.queueTail = s.queueTail) (howner : s'.owner = s.owner)
    (hthread : s'.thread = Function.update s.thread t c)
    (hslot : ∀ i, c.Slot = some i → (s.thread t).Slot = some i) : RingInv s' := by
  refine h.frame hqueue hhead (by rw [howner, htail]) (fun u i hi => ?_) (howner ▸ h.limit)
  rw [hthread] at hi
  by_cases hut : u = t
  · subst hut
    rw [Function.update_self] at hi
    exact hslot i hi
  · rwa [Function.update_of_ne hut] at hi

theorem RingInv.claimSlot {s : WriteTracker ι} (h : RingInv s) (t : ι) (c : Thread)
    (hfree : s.queueHead < s.owner.cursor s.queueTail + kQueueSize)
    (hslot : c.Slot = some s.queueHead) : RingInv (s.claimSlot.goto t c) := by
  have hlower := h.lower
  -- the slots of the other handlers are below the head
  have hcase : ∀ u i, (Function.update s.thread t c u).Slot = some i →
      (u = t ∧ i = s.queueHead) ∨ (s.thread u).Slot = some i := by
    intro u i hi
    by_cases hut : u = t
    · subst hut
      rw [Function.update_self, hslot] at hi
      exact .inl ⟨rfl, (Option.some.inj hi).symm⟩
    · rw [Function.update_of_ne hut] at hi
      exact .inr hi
  refine ⟨?_, ?_, fun at_ stop pages hc => ?_, fun u i hi => ?_, fun u v i hu hv => ?_,
    fun i hlo hhi => ?_⟩
  · exact Nat.le_succ_of_le hlower
  · exact hfree
  · obtain ⟨hle, hstop⟩ := h.limit at_ stop pages hc
    exact ⟨hle, Nat.le_succ_of_le hstop⟩
  · rcases hcase u i hi with ⟨_, rfl⟩ | hold
    · exact ⟨hlower, Nat.lt_succ_self _, h.empty _ (Nat.le_refl _) hfree⟩
    · obtain ⟨hlo, hlt, hempty⟩ := h.slot u i hold
      exact ⟨hlo, Nat.lt_succ_of_lt hlt, hempty⟩
  · rcases hcase u i hu with ⟨hut, hi⟩ | hold <;> rcases hcase v i hv with ⟨hvt, hi'⟩ | hold'
    · exact hut.trans hvt.symm
    · have := (h.slot v i hold').2.1
      omega
    · have := (h.slot u i hold).2.1
      omega
    · exact h.distinct u v i hold hold'
  · exact h.empty i (Nat.le_of_succ_le hlo) hhi

theorem RingInv.fillSlot {s : WriteTracker ι} (h : RingInv s) (t : ι) (c : Thread) {at_ page : ℕ}
    (hat : (s.thread t).Slot = some at_) (hslot : c.Slot = none) : RingInv ((s.fillSlot at_ page).goto t c) := by
  have hlower := h.lower
  have hupper := h.upper
  obtain ⟨hlo, hhi, _⟩ := h.slot t at_ hat
  have hcase : ∀ u i, (Function.update s.thread t c u).Slot = some i →
      u ≠ t ∧ (s.thread u).Slot = some i := by
    intro u i hi
    by_cases hut : u = t
    · subst hut
      rw [Function.update_self, hslot] at hi
      cases hi
    · rw [Function.update_of_ne hut] at hi
      exact ⟨hut, hi⟩
  refine ⟨hlower, hupper, h.limit, fun u i hi => ?_, fun u v i hu hv => ?_, fun i hilo hihi => ?_⟩
  · obtain ⟨hut, hold⟩ := hcase u i hi
    obtain ⟨hilo, hihi, hempty⟩ := h.slot u i hold
    have hne : i ≠ at_ := by
      rintro rfl
      exact hut (h.distinct u t i hold hat)
    refine ⟨hilo, hihi, ?_⟩
    dsimp only [WriteTracker.goto, WriteTracker.fillSlot]
    rw [Function.update_of_ne (slot_ne hne (by omega) (by omega))]
    exact hempty
  · exact h.distinct u v i (hcase u i hu).2 (hcase v i hv).2
  · dsimp only [WriteTracker.goto, WriteTracker.fillSlot] at hilo hihi ⊢
    rw [Function.update_of_ne (slot_ne (by omega) (by omega) (by omega))]
    exact h.empty i hilo hihi

theorem RingInv.takeSlot {s : WriteTracker ι} (h : RingInv s) {at_ stop : ℕ} {pages : List ℕ}
    (hc : s.owner = .takeSlot at_ stop pages) (hlt : at_ < stop) (hfilled : s.queue (at_ % kQueueSize) ≠ 0) :
    RingInv { s with
      queue := Function.update s.queue (at_ % kQueueSize) 0
      owner := .takeSlot (at_ + 1) stop (pages ++ [s.queue (at_ % kQueueSize)]) } := by
  obtain ⟨hlower, hupper, hlimit, hslot, hdistinct, hempty⟩ := h
  obtain ⟨_, hstop⟩ := hlimit at_ stop pages hc
  simp only [hc, Owner.cursor] at hlower hupper hslot hempty
  refine ⟨?_, ?_, fun a b l hal => ?_, fun u i hi => ?_, hdistinct, fun i hilo hihi => ?_⟩ <;>
    dsimp only [Owner.cursor] at *
  · omega
  · omega
  · injection hal with ha hb _
    omega
  · obtain ⟨hilo, hihi, hzero⟩ := hslot u i hi
    have hne : i ≠ at_ := by
      rintro rfl
      exact hfilled hzero
    refine ⟨by omega, hihi, ?_⟩
    rw [Function.update_of_ne (slot_ne hne (by omega) (by omega))]
    exact hzero
  · by_cases hround : i = at_ + kQueueSize
    · rw [hround, Nat.add_mod_right, Function.update_self]
    · rw [Function.update_of_ne (slot_ne (by omega) (by omega) (by omega))]
      exact hempty i hilo (by omega)

/-! ## One page -/

structure PageInv (s : WriteTracker ι) (p : ℕ) : Prop where
  record : s.state p ≠ .kOpen → covered p ∧ p ≠ 0
  claims : SomeThread s.thread Thread.Claims p → p ≠ 0
  guarded : s.state p = .kProtected → s.readOnly p = true ∨ s.RemapPending p ∨ s.owner.Run p
  mapped : s.state p = .kProtected → Covers s.armed p ∨ s.owner.Marks p
  loose : SomeThread s.thread Thread.Holds p ∨ s.InRing p ∨ s.owner.Takes p → s.state p ≠ .kProtected
  queued : s.state p = .kQueued → SomeThread s.thread Thread.Claims p ∨ s.InRing p ∨ s.owner.Takes p
  cleared : s.owner.Cleared p → s.state p ≠ .kProtected
  reopened : s.owner.Reopened p → s.state p = .kOpen
  found : s.owner.Found p → s.state p = .kProtected ∨ s.Pending p
  trusted : s.trusted p = true → (s.state p = .kProtected ∧ ¬s.owner.Run p) ∨ s.Pending p
  dirty : s.dirty p = true → s.trusted p = true ∧ (s.Pending p ∨ SomeThread s.thread Thread.Announces p)
  due : s.due p = true → s.Scheduled p

theorem PageInv.init (p : ℕ) : PageInv (init : WriteTracker ι) p := by
  constructor <;>
    simp [WriteTracker.init, SomeThread, Thread.Claims, Thread.Holds, Thread.Opens, InRing, Queued,
      Owner.Takes, Owner.Cleared, Owner.Reopened, Owner.Found]

theorem PageInv.reported {s : WriteTracker ι} (h : ∀ p, PageInv s p) : Reported s := by
  intro hc page hdue
  obtain ⟨_, hwhere⟩ := (h page).due hdue
  rw [hc] at hwhere
  rcases hwhere with hout | hdrains | htakes | ⟨hdrain, _⟩ | ⟨_, i, _, hlt, _⟩
  · exact hout
  · exact hdrains.elim
  · exact htakes.elim
  · cases hdrain
  · exact absurd hlt (Nat.not_lt_zero i)

/-! ### Steps of the handlers -/

theorem PageInv.of_thread {s s' : WriteTracker ι} {p : ℕ} (h : PageInv s p) (t : ι) (c : Thread)
    (howner : s'.owner = s.owner) (harmed : s'.armed = s.armed) (hout : s'.out = s.out)
    (hnoted : s'.noted = s.noted) (htrusted : s'.trusted = s.trusted) (hdue : s'.due = s.due)
    (hthread : s'.thread = Function.update s.thread t c)
    (hstate : s'.state p = s.state p ∨ (s.state p = .kProtected ∧ s'.state p = .kQueued ∧ c.Claims p))
    (hro : s'.readOnly p = s.readOnly p ∨ (s.thread t).Holds p ∨ c.Remaps p) (hring : s.InRing p → s'.InRing p)
    (hring' : s'.InRing p → s.InRing p ∨ (s.thread t).Holds p)
    (hlimit : Queued s.queue (s.owner.cursor s.queueTail) (s.owner.limit s.queueHead) p →
      Queued s'.queue (s.owner.cursor s'.queueTail) (s.owner.limit s'.queueHead) p)
    (hclaims : (s.thread t).Claims p → c.Claims p ∨ s'.InRing p)
    (hclaims' : c.Claims p → (s.thread t).Claims p ∨ s.state p = .kProtected)
    (hholds : c.Holds p → (s.thread t).Holds p ∨ s'.state p ≠ .kProtected)
    (hremaps : (s.thread t).Remaps p → c.Remaps p ∨ Covers s'.remapped p)
    (hremapped : Covers s.remapped p → Covers s'.remapped p)
    (hdirty : s'.dirty p = true → s.dirty p = true ∨ (s.trusted p = true ∧ (c.Announces p ∨ c.Remaps p)))
    (hannounces : (s.thread t).Announces p → c.Announces p ∨ s'.state p ≠ .kProtected) : PageInv s' p := by
  have hnew : ∀ P : Thread → ℕ → Prop, SomeThread s'.thread P p ↔
      P c p ∨ ∃ u, u ≠ t ∧ P (s.thread u) p := fun P => by
    rw [SomeThread, hthread]
    exact exists_update_iff s.thread t c (P · p)
  have hold : ∀ P : Thread → ℕ → Prop, SomeThread s.thread P p ↔ P (s.thread t) p ∨ ∃ u, u ≠ t ∧ P (s.thread u) p :=
    fun P => exists_thread_iff s.thread t (P · p)
  have hremap : s.RemapPending p → s'.RemapPending p := by
    unfold RemapPending
    rw [howner, hnew, hold]
    rintro (hr | (hr | hr) | hr)
    · exact .inl (hremapped hr)
    · rcases hremaps hr with hr | hr
      · exact .inr (.inl (.inl hr))
      · exact .inl hr
    · exact .inr (.inl (.inr hr))
    · exact .inr (.inr hr)
  have hclaiming : SomeThread s.thread Thread.Claims p →
      SomeThread s'.thread Thread.Claims p ∨ s'.InRing p := by
    rw [hnew, hold]
    rintro (hr | hr)
    · rcases hclaims hr with hr | hr
      · exact .inl (.inl hr)
      · exact .inr hr
    · exact .inl (.inr hr)
  have hpending : s.Pending p → s'.Pending p := by
    unfold Pending
    rw [howner, hnoted, hout]
    rintro (hr | hr | hr | hr | hr | hr | hr | hr)
    · exact .inl hr
    · exact .inr (.inl (hremap hr))
    · rcases hclaiming hr with hr | hr
      · exact .inr (.inr (.inl hr))
      · exact .inr (.inr (.inr (.inl hr)))
    · exact .inr (.inr (.inr (.inl (hring hr))))
    · exact .inr (.inr (.inr (.inr (.inl hr))))
    · exact .inr (.inr (.inr (.inr (.inr (.inl hr)))))
    · exact .inr (.inr (.inr (.inr (.inr (.inr (.inl hr))))))
    · exact .inr (.inr (.inr (.inr (.inr (.inr (.inr hr))))))
  -- a page taken in this step is claimed by `t`
  have htaken : s'.state p ≠ s.state p → s'.Pending p := fun hne => by
    rcases hstate with heq | ⟨_, _, hc⟩
    · exact absurd heq hne
    · exact .inr (.inr (.inl ((hnew Thread.Claims).mpr (.inl hc))))
  have htrust : s'.trusted p = true →
      (s'.state p = .kProtected ∧ ¬s'.owner.Run p) ∨ s'.Pending p := by
    rw [htrusted, howner]
    intro htr
    by_cases heq : s'.state p = s.state p
    · rw [heq]
      exact (h.trusted htr).imp_right hpending
    · exact .inr (htaken heq)
  have hnotprot : s.state p ≠ .kProtected → s'.state p ≠ .kProtected := by
    rcases hstate with heq | ⟨_, heq, _⟩ <;> rw [heq]
    · exact id
    · exact fun _ => nofun
  refine ⟨fun hne => ?_, fun hcl => ?_, fun hp => ?_, fun hp => ?_, fun hl => ?_, fun hq => ?_,
    fun hcl => ?_, fun hre => ?_, fun hf => ?_, htrust, fun hd => ?_, fun hd => ?_⟩
  · rcases hstate with heq | ⟨hprot, _⟩
    · exact h.record (heq ▸ hne)
    · exact h.record (by rw [hprot]; nofun)
  · rcases (hnew _).mp hcl with hc | hother
    · rcases hclaims' hc with hc | hprot
      · exact h.claims ((hold _).mpr (.inl hc))
      · exact (h.record (by rw [hprot]; nofun)).2
    · exact h.claims ((hold _).mpr (.inr hother))
  · have hp₀ : s.state p = .kProtected := Classical.byContradiction fun hne => hnotprot hne hp
    rcases hro with heq | hh | hr
    · rw [heq, howner]
      rcases h.guarded hp₀ with hr | hr | hr
      · exact .inl hr
      · exact .inr (.inl (hremap hr))
      · exact .inr (.inr hr)
    · exact absurd hp₀ (h.loose (.inl ((hold _).mpr (.inl hh))))
    · exact .inr (.inl (.inr (.inl ((hnew _).mpr (.inl hr)))))
  · have hp₀ : s.state p = .kProtected := Classical.byContradiction fun hne => hnotprot hne hp
    rw [harmed, howner]
    exact h.mapped hp₀
  · rw [howner] at hl
    rcases hl with hh | hq | ht
    · rcases (hnew _).mp hh with hc | hother
      · rcases hholds hc with hh | hne
        · exact hnotprot (h.loose (.inl ((hold _).mpr (.inl hh))))
        · exact hne
      · exact hnotprot (h.loose (.inl ((hold _).mpr (.inr hother))))
    · rcases hring' hq with hq | hh
      · exact hnotprot (h.loose (.inr (.inl hq)))
      · exact hnotprot (h.loose (.inl ((hold _).mpr (.inl hh))))
    · exact hnotprot (h.loose (.inr (.inr ht)))
  · rw [howner]
    rcases hstate with heq | ⟨_, _, hc⟩
    · rcases h.queued (heq ▸ hq) with hcl | hr | ht
      · exact (hclaiming hcl).imp_right .inl
      · exact .inr (.inl (hring hr))
      · exact .inr (.inr ht)
    · exact .inl ((hnew _).mpr (.inl hc))
  · exact hnotprot (h.cleared (howner ▸ hcl))
  · have hopen := h.reopened (howner ▸ hre)
    rcases hstate with heq | ⟨hprot, _⟩
    · rw [heq, hopen]
    · rw [hopen] at hprot
      cases hprot
  · by_cases heq : s'.state p = s.state p
    · rw [heq]
      exact (h.found (howner ▸ hf)).imp_right hpending
    · exact .inr (htaken heq)
  · rcases hdirty hd with hd | ⟨htr, hc⟩
    · obtain ⟨htr, hwhere⟩ := h.dirty hd
      refine ⟨htrusted ▸ htr, ?_⟩
      rcases hwhere with hpend | han
      · exact .inl (hpending hpend)
      · rcases (hold _).mp han with hmine | hother
        · rcases hannounces hmine with hc | hne
          · exact .inr ((hnew _).mpr (.inl hc))
          · exact .inl ((htrust (htrusted ▸ htr)).resolve_left fun hp => hne hp.1)
        · exact .inr ((hnew _).mpr (.inr hother))
    · refine ⟨htrusted ▸ htr, ?_⟩
      rcases hc with hc | hc
      · exact .inr ((hnew _).mpr (.inl hc))
      · exact .inl (.inr (.inl (.inr (.inl ((hnew _).mpr (.inl hc))))))
  · obtain ⟨hcoll, hwhere⟩ := h.due (hdue ▸ hd)
    unfold Scheduled
    rw [howner, hout, hnoted]
    refine ⟨hcoll, ?_⟩
    rcases hwhere with hr | hr | hr | ⟨hdr, hr | hr⟩ | hr
    · exact .inl hr
    · exact .inr (.inl hr)
    · exact .inr (.inr (.inl hr))
    · exact .inr (.inr (.inr (.inl ⟨hdr, .inl hr⟩)))
    · exact .inr (.inr (.inr (.inl ⟨hdr, .inr (hremapped hr)⟩)))
    · exact .inr (.inr (.inr (.inr (hlimit hr))))

theorem PageInv.goto {s : WriteTracker ι} {p : ℕ} (h : PageInv s p) (t : ι) (c : Thread)
    (hclaims : c.Claims p ↔ (s.thread t).Claims p) (hholds : c.Holds p → (s.thread t).Holds p)
    (hremaps : ¬(s.thread t).Remaps p)
    (hannounces : (s.thread t).Announces p → c.Announces p ∨ s.state p ≠ .kProtected) : PageInv (s.goto t c) p :=
  h.of_thread t c rfl rfl rfl rfl rfl rfl rfl (.inl rfl) (.inl rfl) id .inl id
    (fun hc => .inl (hclaims.mpr hc)) (fun hc => .inl (hclaims.mp hc)) (fun hh => .inl (hholds hh))
    (fun hr => (hremaps hr).elim) id .inl hannounces

theorem PageInv.take {s : WriteTracker ι} {p : ℕ} (h : PageInv s p) (t : ι) (c : Thread)
    {page : ℕ} (htakes : s.takes page) (hclaims : c.Claims p ↔ p = page) (hclaims₀ : ¬(s.thread t).Claims p)
    (hholds : c.Holds p → (s.thread t).Holds p ∨ p = page) (hremaps : ¬(s.thread t).Remaps p)
    (hannounces : (s.thread t).Announces p → c.Announces p ∨ p = page) : PageInv ((s.take page).goto t c) p := by
  have hpage : p = page → ((s.take page).goto t c).state p = .kQueued := by
    rintro rfl
    exact Function.update_self ..
  have hqueued : p = page → ((s.take page).goto t c).state p ≠ .kProtected := fun hp => by
    rw [hpage hp]
    nofun
  refine h.of_thread t c rfl rfl rfl rfl rfl rfl rfl ?_ (.inl rfl) id .inl id
    (fun hc => (hclaims₀ hc).elim) (fun hc => .inr (hclaims.mp hc ▸ htakes.2))
    (fun hh => (hholds hh).imp_right hqueued) (fun hr => (hremaps hr).elim) id .inl
    (fun ha => (hannounces ha).imp_right hqueued)
  by_cases hp : p = page
  · exact .inr ⟨hp ▸ htakes.2, hpage hp, hclaims.mpr hp⟩
  · exact .inl (Function.update_of_ne hp ..)

theorem PageInv.openPages {s : WriteTracker ι} {p : ℕ} (h : PageInv s p) (t : ι) (c : Thread)
    (ok : Bool) (first end_ : ℕ) (hrange : first ≤ p ∧ p < end_ → (s.thread t).Holds p)
    (hclaims : c.Claims p ↔ (s.thread t).Claims p) (hholds : c.Holds p → (s.thread t).Holds p)
    (hremaps : ¬(s.thread t).Remaps p) (hannounces : (s.thread t).Announces p → c.Announces p) :
    PageInv ((s.openPages ok first end_).goto t c) p := by
  refine h.of_thread t c rfl rfl rfl rfl rfl rfl rfl (.inl rfl) ?_ id .inl id
    (fun hc => .inl (hclaims.mpr hc)) (fun hc => .inl (hclaims.mp hc)) (fun hh => .inl (hholds hh))
    (fun hr => (hremaps hr).elim) id .inl (fun ha => .inl (hannounces ha))
  by_cases hin : first ≤ p ∧ p < end_
  · exact .inr (.inl (hrange hin))
  · refine .inl ?_
    dsimp only [WriteTracker.goto, WriteTracker.openPages]
    split
    · exact setRange_of_not_mem _ _ hin
    · rfl

theorem PageInv.claimSlot {s : WriteTracker ι} {p : ℕ} (h : PageInv s p) (hring : RingInv s)
    (hfree : s.queueHead < s.owner.cursor s.queueTail + kQueueSize) (t : ι) (c : Thread)
    (hclaims : c.Claims p ↔ (s.thread t).Claims p) (hholds : c.Holds p → (s.thread t).Holds p)
    (hremaps : ¬(s.thread t).Remaps p) (hannounces : (s.thread t).Announces p → c.Announces p) :
    PageInv (s.claimSlot.goto t c) p := by
  refine h.of_thread t c rfl rfl rfl rfl rfl rfl rfl (.inl rfl) (.inl rfl)
    (fun hq => hq.mono (Nat.le_succ _)) (fun hq => .inl ?_)
    (fun hq => hq.mono (s.owner.limit_mono (Nat.le_succ _)))
    (fun hc => .inl (hclaims.mpr hc)) (fun hc => .inl (hclaims.mp hc)) (fun hh => .inl (hholds hh))
    (fun hr => (hremaps hr).elim) id .inl (fun ha => .inl (hannounces ha))
  obtain ⟨hne, i, hlo, hhi, heq⟩ := hq
  refine ⟨hne, i, hlo, Nat.lt_of_le_of_ne (Nat.le_of_lt_succ hhi) ?_, heq⟩
  rintro rfl
  exact hne (heq.symm.trans (hring.empty _ (Nat.le_refl _) hfree))

theorem PageInv.fillSlot {s : WriteTracker ι} {p : ℕ} (h : PageInv s p) (hring : RingInv s)
    (t : ι) (c : Thread) {at_ page : ℕ} (hat : (s.thread t).Slot = some at_)
    (hpage : (s.thread t).Claims p ↔ p = page) (hclaims : ¬c.Claims p) (hholds : c.Holds p → (s.thread t).Holds p)
    (hremaps : ¬(s.thread t).Remaps p) (hannounces : (s.thread t).Announces p → c.Announces p) :
    PageInv ((s.fillSlot at_ page).goto t c) p := by
  obtain ⟨hlo, hhi, hempty⟩ := hring.slot t at_ hat
  refine h.of_thread t c rfl rfl rfl rfl rfl rfl rfl (.inl rfl) (.inl rfl)
    (fun hq => hq.fill hempty _) ?_ (fun hq => hq.fill hempty _)
    (fun hc => .inr ⟨h.claims ⟨t, hc⟩, at_, hlo, hhi, ?_⟩) (fun hc => (hclaims hc).elim)
    (fun hh => .inl (hholds hh)) (fun hr => (hremaps hr).elim) id .inl
    (fun ha => .inl (hannounces ha))
  · rintro ⟨hne, i, hilo, hihi, heq⟩
    by_cases hslot : i % kQueueSize = at_ % kQueueSize
    · refine .inr (.inl (hpage.mpr ?_))
      rw [← heq, hslot]
      exact Function.update_self ..
    · refine .inl ⟨hne, i, hilo, hihi, ?_⟩
      rw [← heq]
      exact (Function.update_of_ne hslot ..).symm
  · rw [hpage.mp hc]
    exact Function.update_self ..

/-- **A step of a handler keeps what holds of a page.** -/
theorem PageInv.threadStep {s s' : WriteTracker ι} {p : ℕ} (h : PageInv s p) (hring : RingInv s)
    {t : ι} (hranged : (s.thread t).Ranged) {ok : Bool} (hok : s.Tracked (.thread t ok))
    (hs : s.threadStep t ok = some s') : PageInv s' p := by
  rw [WriteTracker.threadStep] at hs
  simp only [Tracked] at hok
  generalize hc : s.thread t = c at hs hok hranged
  cases c <;> simp only [Option.some.injEq, reduceCtorEq] at hs <;> subst hs
  case fault page =>
    unfold onWriteFault
    split
    next htakes =>
      refine h.take t _ htakes.2 ?_ ?_ ?_ ?_ ?_ <;>
        simp [hc, Thread.Claims, Thread.Holds, Thread.Opens, Thread.Remaps, Thread.Announces]
    next =>
      refine h.goto t _ ?_ ?_ ?_ ?_ <;>
        simp [hc, Thread.Claims, Thread.Holds, Thread.Opens, Thread.Remaps, Thread.Announces]
  case faultOpen page =>
    refine h.openPages t _ ok page (page + 1) ?_ ?_ ?_ ?_ ?_ <;>
      simp [hc, Thread.Claims, Thread.Holds, Thread.Opens, Thread.Remaps, Thread.Announces]
    omega
  case faultEnqueue page | hostEnqueue page end_ run =>
    refine h.claimSlot hring hok t _ ?_ ?_ ?_ ?_ <;>
      simp [hc, Thread.Claims, Thread.Holds, Thread.Opens, Thread.Remaps, Thread.Announces]
  case faultStore page at_ =>
    refine h.fillSlot hring t _ (by rw [hc]; rfl) ?_ ?_ ?_ ?_ ?_ <;>
      simp [hc, Thread.Claims, Thread.Holds, Thread.Opens, Thread.Remaps, Thread.Announces]
  case hostWrite page end_ run =>
    unfold onHostWrite
    by_cases hlt : page < end_
    · rw [if_pos hlt]
      by_cases htakes : s.takes page
      · rw [if_pos htakes]
        refine h.take t _ htakes ?_ ?_ ?_ ?_ ?_ <;>
          simp only [hc, Thread.Claims, Thread.Holds, Thread.Opens, Thread.Remaps, Thread.Announces]
        · tauto
        · split <;> omega
        · tauto
        · omega
      · rw [if_neg htakes]
        -- a page the compare-exchange does not take is not protected
        have hpass : p = page → s.state p ≠ .kProtected := by
          rintro rfl hprot
          exact htakes ⟨(h.record (by rw [hprot]; rintro ⟨⟩)).1, hprot⟩
        have hannounces : page ≤ p ∧ p < end_ →
            (page + 1 ≤ p ∧ p < end_) ∨ s.state p ≠ .kProtected := fun ha => by
          by_cases hp : p = page
          · exact .inr (hpass hp)
          · exact .inl (by omega)
        by_cases hrun : run = 0
        · rw [if_pos hrun]
          refine h.goto t _ ?_ ?_ ?_ ?_ <;> rw [hc]
          · exact Iff.rfl
          · simp [Thread.Holds, Thread.Claims, Thread.Opens]
          · exact id
          · exact hannounces
        · rw [if_neg hrun]
          refine h.goto t _ ?_ ?_ ?_ ?_ <;> rw [hc]
          · exact Iff.rfl
          · exact id
          · exact id
          · exact hannounces
    · rw [if_neg hlt]
      split
      · refine h.goto t _ ?_ ?_ ?_ ?_ <;> rw [hc]
        · exact Iff.rfl
        · simp [Thread.Holds, Thread.Claims, Thread.Opens]
        · exact id
        · exact fun ha => absurd ha.2 (by have := ha.1; omega)
      · refine h.goto t _ ?_ ?_ ?_ ?_ <;> rw [hc]
        · exact Iff.rfl
        · rintro (hf | ⟨h0, hlo, hhi⟩)
          · exact hf.elim
          · exact .inr ⟨h0, hlo, by omega⟩
        · exact id
        · exact fun ha => absurd ha.2 (by have := ha.1; omega)
  case hostStore page end_ run at_ =>
    refine h.fillSlot hring t _ (by rw [hc]; rfl) ?_ ?_ ?_ ?_ ?_ <;>
      simp [hc, Thread.Claims, Thread.Holds, Thread.Opens, Thread.Remaps, Thread.Announces]
    all_goals omega
  case flush page end_ run =>
    simp only [Thread.Ranged] at hranged
    refine h.openPages t _ ok run page ?_ ?_ ?_ ?_ ?_
    · rw [hc]
      exact fun hin => .inr ⟨hranged, hin⟩
    · rw [hc]
      split <;> exact Iff.rfl
    · split <;> simp [Thread.Holds, Thread.Claims, Thread.Opens]
    · rw [hc]
      exact id
    · rw [hc]
      simp only [Thread.Announces]
      intro ha
      rw [if_pos (by omega)]
      exact ha
  case noteRemap first end_ =>
    refine h.of_thread t _ rfl rfl rfl rfl rfl rfl rfl (.inl rfl) (.inl rfl) id .inl id ?_ ?_ ?_ ?_
      (fun hr => covers_append.mpr (.inl hr)) .inl ?_ <;>
      simp [hc, Thread.Claims, Thread.Holds, Thread.Opens, Thread.Remaps, Thread.Announces, WriteTracker.goto]
    tauto

/-! ### Steps of the owner -/

theorem state_cases (a : Armed) : a = .kOpen ∨ a = .kProtected ∨ a = .kQueued := by
  cases a <;> simp

section OwnerSteps

variable {s : WriteTracker ι} {p : ℕ}

variable {first end_ page run at_ : ℕ} {rest : List Range}

/-- A loop of the owner that steps past another page says of this one what it said before. -/
theorem PageInv.advance (h : PageInv s p) {state : ℕ → Armed} {everArmed : ℕ → Bool} {o : Owner}
    (hstate : state p = s.state p) (hcursor : o.cursor s.queueTail = s.owner.cursor s.queueTail)
    (hlimit : o.limit s.queueHead = s.owner.limit s.queueHead)
    (hcollecting : o.Collecting = s.owner.Collecting) (hdrain : o ≠ .drain) (hdrained : s.owner ≠ .drain)
    (hrun : o.Run p ↔ s.owner.Run p) (hmarks : o.Marks p ↔ s.owner.Marks p)
    (htakes : o.Takes p ↔ s.owner.Takes p) (hcleared : o.Cleared p → s.owner.Cleared p)
    (hreopened : o.Reopened p → s.owner.Reopened p) (hfound : o.Found p → s.owner.Found p)
    (hremaps : o.Remaps p ↔ s.owner.Remaps p) (hdrains : o.Drains p ↔ s.owner.Drains p)
    (hnotes : o.Notes p ↔ s.owner.Notes p) :
    PageInv { s with state := state, everArmed := everArmed, owner := o } p := by
  have hpending : ∀ s' : WriteTracker ι, s' = { s with state := state, everArmed := everArmed, owner := o } →
      (s'.Pending p ↔ s.Pending p) := by
    rintro s' rfl
    simp only [Pending, RemapPending, InRing, hcursor, hcollecting, htakes, hremaps, hdrains, hnotes]
  have hscheduled : ∀ s' : WriteTracker ι, s' = { s with state := state, everArmed := everArmed, owner := o } →
      (s'.Scheduled p ↔ s.Scheduled p) := by
    rintro s' rfl
    simp only [Scheduled, hcursor, hlimit, hcollecting, htakes, hdrains, hdrain, hdrained, false_and]
  obtain ⟨record, claims, guarded, mapped, loose, queued, cleared, reopened, found, trusted, dirty, due⟩ := h
  constructor <;> dsimp only
  · rwa [hstate]
  · exact claims
  · simpa only [RemapPending, hstate, hremaps, hrun] using guarded
  · rwa [hstate, hmarks]
  · simpa only [InRing, hstate, hcursor, htakes] using loose
  · simpa only [InRing, hstate, hcursor, htakes] using queued
  · exact fun hc => hstate ▸ cleared (hcleared hc)
  · exact fun hc => hstate ▸ reopened (hreopened hc)
  · rw [hstate, hpending _ rfl]
    exact fun hf => found (hfound hf)
  · rwa [hstate, hrun, hpending _ rfl]
  · rwa [hpending _ rfl]
  · rwa [hscheduled _ rfl]

theorem PageInv.stepAllArmed (h : PageInv s p)
    (hc : s.owner = .allArmed first end_ page) : PageInv (s.stepAllArmed first end_ page) p := by
  have hcases := state_cases (s.state p)
  obtain ⟨record, claims, guarded, mapped, loose, queued, -, -, found, trusted, dirty, due⟩ := h
  simp [hc] at guarded mapped loose queued found trusted dirty due
  unfold WriteTracker.stepAllArmed
  split_ifs <;> constructor <;> simp [setRange] <;> grind

theorem PageInv.stepRefuse (h : PageInv s p)
    (hc : s.owner = .refuse first end_ page) : PageInv (s.stepRefuse first end_ page) p := by
  unfold WriteTracker.stepRefuse
  split_ifs
  · obtain ⟨record, claims, guarded, mapped, loose, queued, -, -, found, trusted, dirty, due⟩ := h
    simp [hc] at guarded mapped loose queued found trusted dirty due
    constructor <;> simp <;> grind
  · apply h.advance <;> simp [hc]
  · apply h.advance <;> simp [hc]

theorem PageInv.stepMark_self (h : PageInv s p) {ok : Bool} (hlt : p < end_)
    (hc : s.owner = .mark first end_ p run) (hranged : s.owner.Ranged)
    (hok : s.Tracked (.owner ok)) : PageInv (s.stepMark first end_ p run) p := by
  have hcases := state_cases (s.state p)
  obtain ⟨record, claims, guarded, mapped, loose, queued, -, -, found, trusted, dirty, due⟩ := h
  simp only [Tracked, hc, Leaves, InRing, Owner.cursor, Owner.Run] at hok
  simp [hc] at guarded mapped loose queued found trusted dirty due hranged
  unfold WriteTracker.stepMark
  rw [if_pos hlt]
  split_ifs <;> constructor <;> simp <;> grind

theorem PageInv.stepMark_ne (h : PageInv s p) {ok : Bool}
    (hp : p ≠ page) (hlt : page < end_) (hc : s.owner = .mark first end_ page run)
    (hranged : s.owner.Ranged) (hok : s.Tracked (.owner ok)) : PageInv (s.stepMark first end_ page run) p := by
  unfold WriteTracker.stepMark
  rw [if_pos hlt]
  by_cases hcovered : covered page
  · rw [if_neg (not_not.mpr hcovered)]
    by_cases hopen : s.state page = .kOpen
    · rw [if_neg (not_not.mpr hopen)]
      apply h.advance <;> simp [hc, hp]
      all_goals first | omega | (split_ifs <;> omega)
    · rw [if_pos hopen]
      split_ifs with hrun
      · apply h.advance <;> simp [hc, hrun] <;> omega
      · apply h.advance <;> simp [hc] <;> omega
  · rw [if_pos hcovered]
    have hcases := state_cases (s.state p)
    obtain ⟨record, claims, guarded, mapped, loose, queued, -, -, found, trusted, dirty, due⟩ := h
    simp only [Tracked, hc, hlt, hcovered, if_false, true_implies, Leaves, Owner.Run] at hok
    simp [hc] at guarded mapped loose queued found trusted dirty due hranged
    constructor <;> simp <;> grind

theorem PageInv.stepMark_end (h : PageInv s p) (hend : ¬ page < end_)
    (hc : s.owner = .mark first end_ page run) (hranged : s.owner.Ranged)
    (hco : Coalesced s.armed) : PageInv (s.stepMark first end_ page run) p := by
  have hcases := state_cases (s.state p)
  obtain ⟨record, claims, guarded, mapped, loose, queued, -, -, found, trusted, dirty, due⟩ := h
  simp [hc] at guarded mapped loose queued found trusted dirty due hranged
  have hinsert := covers_insertRun hco hranged.1 p
  unfold WriteTracker.stepMark
  rw [if_neg hend]
  split_ifs <;> constructor <;> simp [setRange] <;> grind

theorem PageInv.stepMark (h : PageInv s p) {ok : Bool}
    (hc : s.owner = .mark first end_ page run) (hranged : s.owner.Ranged)
    (hok : s.Tracked (.owner ok)) (hco : Coalesced s.armed) : PageInv (s.stepMark first end_ page run) p := by
  by_cases hlt : page < end_
  · by_cases hp : p = page
    · subst hp
      exact h.stepMark_self hlt hc hranged hok
    · exact h.stepMark_ne hp hlt hc hranged hok
  · exact h.stepMark_end hlt hc hranged hco

theorem PageInv.stepProtect (h : PageInv s p) (ok : Bool) (hc : s.owner = .protect first end_ at_ run)
    (hranged : s.owner.Ranged) (hok : ok = false → s.Leaves first run) :
    PageInv (s.stepProtect ok first end_ at_ run) p := by
  obtain ⟨record, claims, guarded, mapped, loose, queued, -, -, found, trusted, dirty, due⟩ := h
  simp [hc] at guarded mapped loose queued found trusted dirty due hranged
  simp only [Leaves, hc, Owner.Run] at hok
  unfold WriteTracker.stepProtect
  split_ifs <;> constructor <;> simp [setRange] <;> grind

theorem PageInv.stepRollback (h : PageInv s p)
    (hc : s.owner = .rollback page at_) : PageInv (s.stepRollback page at_) p := by
  unfold WriteTracker.stepRollback
  by_cases hp : p ≠ page ∧ page < at_
  · obtain ⟨hne, hlt⟩ := hp
    rw [if_pos hlt]
    apply h.advance <;> simp [hc, hne] <;> omega
  · obtain ⟨record, claims, guarded, mapped, loose, queued, -, -, found, trusted, dirty, due⟩ := h
    simp [hc] at guarded mapped loose queued found trusted dirty due
    split_ifs with hlt
    · obtain rfl : p = page := Classical.byContradiction fun hne => hp ⟨hne, hlt⟩
      constructor <;> simp <;> grind
    · constructor <;> simp <;> grind

theorem PageInv.stepDisarm (h : PageInv s p)
    (hc : s.owner = .disarm first end_ page rest) (hranged : s.owner.Ranged) :
    PageInv (s.stepDisarm first end_ page rest) p := by
  unfold WriteTracker.stepDisarm
  by_cases hlt : page < end_
  · rw [if_pos hlt]
    by_cases hp : p = page
    · subst hp
      obtain ⟨record, claims, guarded, mapped, loose, queued, cleared, -, found, trusted, dirty, due⟩ := h
      simp [hc] at guarded mapped loose queued found trusted dirty due hranged cleared
      split_ifs <;> constructor <;> simp <;> grind
    · apply h.advance <;> simp [hc, ite_apply, hp] <;> omega
  · rw [if_neg hlt]
    apply h.advance <;> simp [hc] <;> omega

theorem PageInv.stepDisarmOpen (h : PageInv s p) (ok : Bool) (hc : s.owner = .disarmOpen first end_ rest) :
    PageInv (s.stepDisarmOpen ok first end_ rest) p := by
  obtain ⟨record, claims, guarded, mapped, loose, queued, cleared, -, found, trusted, dirty, due⟩ := h
  simp [hc] at guarded mapped loose queued found trusted dirty due cleared
  unfold WriteTracker.stepDisarmOpen
  cases ok <;> constructor <;> simp [setRange] <;> grind

theorem PageInv.stepDisarmErase (h : PageInv s p)
    (hc : s.owner = .disarmErase first end_ rest) (hranged : s.owner.Ranged)
    (hco : Coalesced s.armed) : PageInv (s.stepDisarmErase first end_ rest) p := by
  obtain ⟨record, claims, guarded, mapped, loose, queued, cleared, -, found, trusted, dirty, due⟩ := h
  simp [hc] at guarded mapped loose queued found trusted dirty due hranged cleared
  have herase := covers_eraseRun hco hranged.1 p
  unfold WriteTracker.stepDisarmErase
  constructor <;> simp <;> grind

theorem PageInv.note (h : PageInv s p) (r : Range) :
    PageInv { s with noted := s.noted ++ [r] } p := by
  obtain ⟨record, claims, guarded, mapped, loose, queued, cleared, reopened, found, trusted, dirty, due⟩ := h
  simp only [Pending, RemapPending, InRing, Scheduled] at guarded loose queued found trusted dirty due
  constructor <;> simp only [Pending, RemapPending, InRing, Scheduled, covers_append] <;> grind

theorem PageInv.demoteNext (h : PageInv s p) (rest : List Range)
    (hc : s.owner = .idle ∨ ∃ first end_, s.owner = .disarmNote first end_ rest ∧
      (first ≤ p ∧ p < end_ → Covers s.noted p)) : PageInv (s.demoteNext rest) p := by
  obtain ⟨record, claims, guarded, mapped, loose, queued, cleared, -, found, trusted, dirty, due⟩ := h
  rcases hc with hc | ⟨first, end_, hc, hnoted⟩
  · simp [hc] at guarded mapped loose queued found trusted dirty due cleared
    cases rest <;> unfold WriteTracker.demoteNext <;> constructor <;> simp <;> grind
  · simp [hc] at guarded mapped loose queued found trusted dirty due cleared
    cases rest <;> unfold WriteTracker.demoteNext <;> constructor <;> simp <;> grind

theorem PageInv.stepDrain (h : PageInv s p) (hc : s.owner = .drain) : PageInv s.stepDrain p := by
  obtain ⟨record, claims, guarded, mapped, loose, queued, cleared, -, found, trusted, dirty, due⟩ := h
  simp [hc] at guarded mapped loose queued found trusted dirty due cleared
  unfold WriteTracker.stepDrain
  constructor <;> simp <;> grind

theorem PageInv.stepDrainNext (h : PageInv s p)
    (hc : s.owner = .drainNext rest) : PageInv (s.stepDrainNext rest) p := by
  obtain ⟨record, claims, guarded, mapped, loose, queued, cleared, -, found, trusted, dirty, due⟩ := h
  cases rest <;> simp [hc] at guarded mapped loose queued found trusted dirty due cleared <;>
    unfold WriteTracker.stepDrainNext <;> constructor <;> simp <;> grind

theorem PageInv.stepEraseArmed (h : PageInv s p)
    (hc : s.owner = .eraseArmed first end_ page rest) (hranged : s.owner.Ranged)
    (hco : Coalesced s.armed) : PageInv (s.stepEraseArmed first end_ page rest) p := by
  unfold WriteTracker.stepEraseArmed
  by_cases hp : p ≠ page ∧ page < end_
  · obtain ⟨hne, hlt⟩ := hp
    rw [if_pos hlt]
    apply h.advance <;> simp [hc, ite_apply, hne] <;> grind
  · obtain ⟨record, claims, guarded, mapped, loose, queued, cleared, -, found, trusted, dirty, due⟩ := h
    simp [hc] at guarded mapped loose queued found trusted dirty due hranged cleared
    have herase := covers_eraseRun hco hranged.1 p
    split_ifs with hlt
    · obtain rfl : p = page := Classical.byContradiction fun hne => hp ⟨hne, hlt⟩
      constructor <;> simp <;> grind
    · obtain rfl : p = page := Classical.byContradiction fun hne => hp ⟨hne, hlt⟩
      constructor <;> simp <;> grind
    · constructor <;> simp <;> grind

theorem PageInv.stepTakeFaulted (h : PageInv s p) (hc : s.owner = .takeFaulted) : PageInv s.stepTakeFaulted p := by
  obtain ⟨record, claims, guarded, mapped, loose, queued, cleared, -, found, trusted, dirty, due⟩ := h
  simp [hc] at guarded mapped loose queued found trusted dirty due cleared
  unfold WriteTracker.stepTakeFaulted
  split_ifs with hempty
  · -- no slot is claimed, so nothing is in the ring
    have hring : ¬Queued s.queue s.queueTail s.queueHead p := by
      rintro ⟨_, i, hlo, hhi, _⟩
      omega
    constructor <;> simp <;> grind
  · constructor <;> simp <;> grind

theorem PageInv.stepReopenNext (h : PageInv s p)
    (hc : s.owner = .reopenNext rest) : PageInv (s.stepReopenNext rest) p := by
  obtain ⟨record, claims, guarded, mapped, loose, queued, cleared, -, found, trusted, dirty, due⟩ := h
  have hnone : ¬Queued s.queue s.queueTail 0 p := by
    rintro ⟨_, i, _, hlt, _⟩
    omega
  cases rest <;> simp [hc] at guarded mapped loose queued found trusted dirty due cleared <;>
    unfold WriteTracker.stepReopenNext <;> constructor <;> simp <;> grind

theorem PageInv.stepReopen (h : PageInv s p) (hc : s.owner = .reopen first end_ page rest) (hranged : s.owner.Ranged)
    (hco : Coalesced s.armed) : PageInv (s.stepReopen first end_ page rest) p := by
  unfold WriteTracker.stepReopen
  by_cases hp : p ≠ page ∧ page < end_
  · obtain ⟨hne, hlt⟩ := hp
    rw [if_pos hlt]
    apply h.advance <;> simp [hc, ite_apply, hne] <;> omega
  · have hcases := state_cases (s.state p)
    obtain ⟨record, claims, guarded, mapped, loose, queued, -, reopened, found, trusted, dirty, due⟩ := h
    simp [hc] at guarded mapped loose queued found trusted dirty due hranged reopened
    have herase := covers_eraseRun hco hranged.1 p
    split_ifs with hlt
    · obtain rfl : p = page := Classical.byContradiction fun hne => hp ⟨hne, hlt⟩
      constructor <;> simp <;> grind
    · obtain rfl : p = page := Classical.byContradiction fun hne => hp ⟨hne, hlt⟩
      constructor <;> simp <;> grind
    · constructor <;> simp <;> grind

theorem countReport_rest (pages : List ℕ) (s : WriteTracker ι) : pages.foldl countReport s =
      { s with
        reports := (pages.foldl countReport s).reports
        reported := (pages.foldl countReport s).reported } := by
  induction pages generalizing s with
  | nil => rfl
  | cons page pages ih =>
    rw [List.foldl_cons, ih]
    unfold countReport
    dsimp only
    split_ifs <;> rfl

theorem PageInv.report (h : PageInv s p) (hc : s.owner = .report) : PageInv s.report p := by
  obtain ⟨record, claims, guarded, mapped, loose, queued, cleared, -, found, trusted, dirty, due⟩ := h
  simp [hc] at guarded mapped loose queued found trusted dirty due cleared
  unfold WriteTracker.report
  rw [countReport_rest]
  constructor <;> simp <;> grind

theorem PageInv.beginCollect (h : PageInv s p) (hc : s.owner = .idle) : PageInv s.beginCollect p := by
  obtain ⟨record, claims, guarded, mapped, loose, queued, cleared, -, found, trusted, dirty, due⟩ := h
  simp [hc] at guarded mapped loose queued found trusted dirty due cleared
  have hat : (∀ t, ¬(s.thread t).At p) → ¬SomeThread s.thread Thread.Claims p ∧
      ¬SomeThread s.thread Thread.Announces p ∧ ¬SomeThread s.thread Thread.Remaps p := fun hn =>
    ⟨fun ⟨t, ht⟩ => hn t (.inl ht), fun ⟨t, ht⟩ => hn t (.inr (.inl ht)),
      fun ⟨t, ht⟩ => hn t (.inr (.inr ht))⟩
  unfold WriteTracker.beginCollect
  constructor <;> simp <;> grind

theorem PageInv.stepTakeSlot {s' : WriteTracker ι} (h : PageInv s p) (hring : RingInv s)
    {stop : ℕ} {pages : List ℕ} (hc : s.owner = .takeSlot at_ stop pages)
    (hs : s.stepTakeSlot at_ stop pages = some s') : PageInv s' p := by
  obtain ⟨hle, hstop⟩ := hring.limit at_ stop pages hc
  obtain ⟨record, claims, guarded, mapped, loose, queued, cleared, -, found, trusted, dirty, due⟩ := h
  simp [hc] at guarded mapped loose queued found trusted dirty due cleared
  unfold WriteTracker.stepTakeSlot at hs
  split_ifs at hs with hlt hempty
  · obtain rfl := Option.some.inj hs
    have hpop : Queued s.queue at_ s.queueHead p → _ := Queued.pop
    have hpop' : Queued s.queue at_ stop p → _ := Queued.pop
    have hback : _ → Queued s.queue at_ s.queueHead p := Queued.of_pop
    have hslot : p = s.queue (at_ % kQueueSize) → Queued s.queue at_ s.queueHead p := fun hp =>
      ⟨hp ▸ hempty, at_, Nat.le_refl _, by omega, hp.symm⟩
    constructor <;> simp <;> grind
  · obtain rfl := Option.some.inj hs
    obtain rfl : at_ = stop := by omega
    have hmerge := (mergeFaulted_spec pages).2 p
    have hnone : ¬Queued s.queue at_ at_ p := by
      rintro ⟨_, i, hlo, hhi, _⟩
      omega
    constructor <;> simp <;> grind

/-! ### Calls and writes -/

theorem PageInv.beginArm (h : PageInv s p) (hc : s.owner = .idle) (first end_ : ℕ) :
    PageInv { s with owner := .allArmed first end_ first } p := by
  obtain ⟨record, claims, guarded, mapped, loose, queued, cleared, -, found, trusted, dirty, due⟩ := h
  simp [hc] at guarded mapped loose queued found trusted dirty due cleared
  constructor <;> simp <;> grind

theorem PageInv.beginRelease (h : PageInv s p) (hc : s.owner = .idle) (first end_ : ℕ) :
    PageInv { s with owner := .disarm first end_ first [] } p := by
  obtain ⟨record, claims, guarded, mapped, loose, queued, cleared, -, found, trusted, dirty, due⟩ := h
  simp [hc] at guarded mapped loose queued found trusted dirty due cleared
  constructor <;> simp <;> grind

theorem PageInv.beginEndFrame (h : PageInv s p) :
    PageInv { s with reported := [], frame := s.frame + 1 } p := by
  obtain ⟨record, claims, guarded, mapped, loose, queued, cleared, reopened, found, trusted, dirty, due⟩ := h
  exact ⟨record, claims, guarded, mapped, loose, queued, cleared, reopened, found, trusted, dirty, due⟩

theorem PageInv.write (h : PageInv s p) (hro : s.readOnly page = false) : PageInv (s.touch page (page + 1)) p := by
  obtain ⟨record, claims, guarded, mapped, loose, queued, cleared, reopened, found, trusted, dirty, due⟩ := h
  simp only [Pending, RemapPending, InRing, Scheduled] at guarded loose queued found trusted dirty due
  constructor <;> simp only [touch, Pending, RemapPending, InRing, Scheduled] <;> grind

end OwnerSteps

/-! ## Every step -/

/-- No range that the owner and the handlers are at is empty, and `armed_` is coalesced. -/
structure RangesInv (s : WriteTracker ι) : Prop where
  coalesced : Coalesced s.armed
  ranged : s.owner.Ranged
  remapped : ∀ r ∈ s.remapped, r.1 < r.2
  threads : ∀ t, (s.thread t).Ranged

theorem RangesInv.init : RangesInv (init : WriteTracker ι) where
  coalesced := coalesced_nil
  ranged := trivial
  remapped := by simp [WriteTracker.init]
  threads _ := trivial

theorem RangesInv.of_owner {s s' : WriteTracker ι} (h : RangesInv s) (hthread : s'.thread = s.thread)
    (hremapped : s'.remapped = s.remapped ∨ s'.remapped = []) (hco : Coalesced s'.armed)
    (hranged : s'.owner.Ranged) : RangesInv s' := by
  refine ⟨hco, hranged, ?_, hthread ▸ h.threads⟩
  rcases hremapped with heq | heq <;> rw [heq]
  · exact h.remapped
  · simp

theorem RangesInv.demoteNext {s : WriteTracker ι} (h : RangesInv s) {rest : List Range}
    (hrest : ∀ r ∈ rest, r.1 < r.2) : RangesInv (s.demoteNext rest) := by
  cases rest with
  | nil => exact h.of_owner rfl (.inl rfl) h.coalesced trivial
  | cons r rest =>
    exact h.of_owner rfl (.inl rfl) h.coalesced
      ⟨hrest r List.mem_cons_self, Nat.le_refl _, fun x hx => hrest x (List.mem_cons_of_mem _ hx)⟩

/-- **The ranges, at every step of the owner.** -/
theorem RangesInv.ownerStep {s s' : WriteTracker ι} (h : RangesInv s) {ok : Bool}
    (hs : s.ownerStep ok = some s') : RangesInv s' := by
  have hco := h.coalesced
  have hranged := h.ranged
  rw [WriteTracker.ownerStep] at hs
  cases hc : s.owner <;> simp only [hc, Option.some.injEq, reduceCtorEq] at hs <;> try subst hs
  all_goals simp only [hc, Owner.Ranged] at hranged
  case allArmed first end_ page =>
    unfold WriteTracker.stepAllArmed
    split_ifs <;> refine h.of_owner rfl (.inl rfl) hco ?_ <;> simp <;> omega
  case refuse first end_ page =>
    unfold WriteTracker.stepRefuse
    split_ifs <;> refine h.of_owner rfl (.inl rfl) hco ?_ <;> simp <;> omega
  case mark first end_ page run =>
    unfold WriteTracker.stepMark
    split_ifs <;> refine h.of_owner rfl (.inl rfl) ?_ ?_
    all_goals first | exact hco | exact hco.insertRun hranged.1 | (simp <;> omega)
  case protect first end_ at_ run =>
    unfold WriteTracker.stepProtect
    split_ifs <;> refine h.of_owner rfl (.inl rfl) hco ?_ <;> simp <;> omega
  case rollback page at_ =>
    unfold WriteTracker.stepRollback
    split_ifs <;> exact h.of_owner rfl (.inl rfl) hco trivial
  case disarm first end_ page rest =>
    unfold WriteTracker.stepDisarm
    split
    · exact h.of_owner rfl (.inl rfl) hco ⟨hranged.1, Nat.le_succ_of_le hranged.2.1, hranged.2.2⟩
    · exact h.of_owner rfl (.inl rfl) hco ⟨hranged.1, hranged.2.2⟩
  case disarmOpen first end_ rest => exact h.of_owner rfl (.inl rfl) hco hranged
  case disarmErase first end_ rest => exact h.of_owner rfl (.inl rfl) (hco.eraseRun hranged.1) hranged
  case disarmNote first end_ rest =>
    have hnote : RangesInv { s with noted := s.noted ++ [(first, end_)] } := h.of_owner rfl (.inl rfl) hco h.ranged
    exact hnote.demoteNext hranged.2
  case drain => exact h.of_owner rfl (.inr rfl) hco h.remapped
  case drainNext rest | reopenNext rest =>
    cases rest with
    | nil => exact h.of_owner rfl (.inl rfl) hco trivial
    | cons r rest =>
      obtain ⟨hr, hrest⟩ := List.forall_mem_cons.mp hranged
      exact h.of_owner rfl (.inl rfl) hco ⟨hr, Nat.le_refl _, hrest⟩
  case eraseArmed first end_ page rest =>
    unfold WriteTracker.stepEraseArmed
    split
    · exact h.of_owner rfl (.inl rfl) hco ⟨hranged.1, Nat.le_succ_of_le hranged.2.1, hranged.2.2⟩
    · exact h.of_owner rfl (.inl rfl) (hco.eraseRun hranged.1) hranged.2.2
  case takeFaulted =>
    unfold WriteTracker.stepTakeFaulted
    split_ifs <;> exact h.of_owner rfl (.inl rfl) hco trivial
  case takeSlot at_ stop pages =>
    unfold WriteTracker.stepTakeSlot at hs
    split_ifs at hs <;> obtain rfl := Option.some.inj hs
    · exact h.of_owner rfl (.inl rfl) hco trivial
    · exact h.of_owner rfl (.inl rfl) hco (mergeFaulted_spec pages).1
  case reopen first end_ page rest =>
    unfold WriteTracker.stepReopen
    split
    · exact h.of_owner rfl (.inl rfl) hco ⟨hranged.1, Nat.le_succ_of_le hranged.2.1, hranged.2.2⟩
    · exact h.of_owner rfl (.inl rfl) (hco.eraseRun hranged.1) hranged.2.2
  case report =>
    unfold WriteTracker.report
    rw [countReport_rest]
    exact h.of_owner rfl (.inl rfl) hco trivial

theorem ranged_update {f : ι → Thread} (h : ∀ u, (f u).Ranged) (t : ι) {c : Thread}
    (hc : c.Ranged) (u : ι) : (Function.update f t c u).Ranged := by
  by_cases hut : u = t
  · rw [hut, Function.update_self]
    exact hc
  · rw [Function.update_of_ne hut]
    exact h u

/-- **The ranges, at every step of a handler.** -/
theorem RangesInv.threadStep {s s' : WriteTracker ι} (h : RangesInv s) {t : ι} {ok : Bool}
    (hs : s.threadStep t ok = some s') : RangesInv s' := by
  have hranged := h.threads t
  rw [WriteTracker.threadStep] at hs
  generalize hc : s.thread t = c at hs hranged
  cases c <;> simp only [Option.some.injEq, reduceCtorEq] at hs <;> subst hs
  case noteRemap first end_ =>
    refine ⟨h.coalesced, h.ranged, fun r hr => ?_, ranged_update h.threads t trivial⟩
    rcases List.mem_append.mp hr with hr | hr
    · exact h.remapped r hr
    · rw [List.mem_singleton.mp hr]
      exact hranged
  case fault page =>
    unfold onWriteFault
    split_ifs <;> exact ⟨h.coalesced, h.ranged, h.remapped, ranged_update h.threads t trivial⟩
  case hostWrite page end_ run =>
    unfold onHostWrite
    split_ifs with hlt htakes hrun hrun hrun
    all_goals
      refine ⟨h.coalesced, h.ranged, h.remapped, ranged_update h.threads t ?_⟩
      first | exact trivial | exact hrun
  case flush page end_ run =>
    refine ⟨h.coalesced, h.ranged, h.remapped, ranged_update h.threads t ?_⟩
    split <;> trivial
  all_goals exact ⟨h.coalesced, h.ranged, h.remapped, ranged_update h.threads t trivial⟩

theorem pageDown_lt {base bytes : ℕ} (h : 0 < bytes) : pageDown base < pageUp (base + bytes) := by
  simp only [pageDown, pageUp, kPage]
  omega

theorem RangesInv.step {s s' : WriteTracker ι} {e : WriteEvent ι} (h : RangesInv s) (hs : s.step e = some s') :
    RangesInv s' := by
  have hthread (t : ι) {c : Thread} (hc : c.Ranged) : ∀ u, (Function.update s.thread t c u).Ranged :=
    ranged_update h.threads t hc
  cases e with
  | owner ok => exact h.ownerStep hs
  | thread t ok => exact h.threadStep hs
  | write addr =>
    simp only [WriteTracker.step, Option.ite_none_left_eq_some, Option.some.injEq] at hs
    obtain ⟨_, rfl⟩ := hs
    exact h.of_owner rfl (.inl rfl) h.coalesced h.ranged
  | arm base bytes =>
    simp only [WriteTracker.step, Option.ite_none_right_eq_some, Option.some.injEq] at hs
    obtain ⟨⟨_, hbytes, _⟩, rfl⟩ := hs
    exact h.of_owner rfl (.inl rfl) h.coalesced ⟨pageDown_lt hbytes, Nat.le_refl _⟩
  | collect =>
    simp only [WriteTracker.step, Option.ite_none_right_eq_some, Option.some.injEq] at hs
    obtain ⟨_, rfl⟩ := hs
    exact h.of_owner rfl (.inl rfl) h.coalesced trivial
  | release base bytes =>
    simp only [WriteTracker.step, Option.ite_none_right_eq_some, Option.some.injEq] at hs
    obtain ⟨⟨_, hbytes, _⟩, rfl⟩ := hs
    exact h.of_owner rfl (.inl rfl) h.coalesced ⟨pageDown_lt hbytes, Nat.le_refl _, by simp⟩
  | endFrame =>
    simp only [WriteTracker.step, Option.ite_none_right_eq_some, Option.some.injEq] at hs
    obtain ⟨_, rfl⟩ := hs
    have hframe : RangesInv { s with reported := [], frame := s.frame + 1 } :=
      h.of_owner rfl (.inl rfl) h.coalesced h.ranged
    exact hframe.demoteNext (groupDemoted_lt _)
  | noteWrite base bytes =>
    simp only [WriteTracker.step, Option.ite_none_right_eq_some, Option.some.injEq] at hs
    obtain ⟨_, rfl⟩ := hs
    exact h.of_owner rfl (.inl rfl) h.coalesced h.ranged
  | fault t addr | hostWrite t addr len =>
    simp only [WriteTracker.step, Option.ite_none_right_eq_some, Option.some.injEq] at hs
    obtain ⟨_, rfl⟩ := hs
    exact ⟨h.coalesced, h.ranged, h.remapped, hthread t trivial⟩
  | remap t base bytes =>
    simp only [WriteTracker.step, Option.ite_none_right_eq_some, Option.some.injEq] at hs
    obtain ⟨⟨_, hbytes, _⟩, rfl⟩ := hs
    exact ⟨h.coalesced, h.ranged, h.remapped, hthread t (pageDown_lt hbytes)⟩

/-! ### What a step of the owner does to the ring -/

section Owner

variable {s s' : WriteTracker ι} {ok : Bool}

theorem demoteNext_frame (s : WriteTracker ι) (rest : List Range) :
    (s.demoteNext rest).thread = s.thread ∧ (s.demoteNext rest).queueHead = s.queueHead ∧
      (s.demoteNext rest).queue = s.queue ∧ (s.demoteNext rest).queueTail = s.queueTail ∧
      (s.demoteNext rest).state = s.state ∧ (s.demoteNext rest).owner.todo = 0 ∧
      (∀ tail, (s.demoteNext rest).owner.cursor tail = tail) ∧
      ∀ at_ stop pages, (s.demoteNext rest).owner ≠ .takeSlot at_ stop pages := by
  cases rest <;> exact ⟨rfl, rfl, rfl, rfl, rfl, rfl, fun _ => rfl, nofun⟩

theorem ownerStep_ring (hs : s.ownerStep ok = some s') : s'.thread = s.thread ∧ s'.queueHead = s.queueHead ∧
      (RingInv s → (s'.queue = s.queue ∧ s'.owner.cursor s'.queueTail = s.owner.cursor s.queueTail ∧
          ∀ at_ stop pages, s'.owner = .takeSlot at_ stop pages → at_ ≤ stop ∧ stop ≤ s.queueHead) ∨
        ∃ at_ stop pages, s.owner = .takeSlot at_ stop pages ∧ at_ < stop ∧ s.queue (at_ % kQueueSize) ≠ 0 ∧
          s' = { s with
            queue := Function.update s.queue (at_ % kQueueSize) 0
            owner := .takeSlot (at_ + 1) stop (pages ++ [s.queue (at_ % kQueueSize)]) }) := by
  rw [WriteTracker.ownerStep] at hs
  cases hc : s.owner <;> simp only [hc, Option.some.injEq, reduceCtorEq] at hs <;> try subst hs
  case allArmed | refuse | mark | protect | rollback | disarm | eraseArmed | reopen =>
    simp only [stepAllArmed, stepRefuse, stepMark, stepProtect, stepRollback, stepDisarm, stepEraseArmed, stepReopen]
    split_ifs <;> exact ⟨rfl, rfl, fun _ => .inl ⟨rfl, rfl, by simp⟩⟩
  case disarmOpen |
    disarmErase |
    drain => exact ⟨rfl, rfl, fun _ => .inl ⟨rfl, rfl, fun _ _ _ h => Owner.noConfusion h⟩⟩
  case disarmNote first end_ rest =>
    obtain ⟨hthread, hhead, hqueue, htail, -, -, hcursor, hne⟩ :=
      demoteNext_frame { s with noted := s.noted ++ [(first, end_)] } rest
    refine ⟨hthread, hhead, fun _ => .inl ⟨hqueue, (hcursor _).trans htail, ?_⟩⟩
    exact fun _ _ _ h => absurd h (hne _ _ _)
  case drainNext rest | reopenNext rest =>
    cases rest <;> exact ⟨rfl, rfl, fun _ => .inl ⟨rfl, rfl, fun _ _ _ h => Owner.noConfusion h⟩⟩
  case takeFaulted =>
    unfold WriteTracker.stepTakeFaulted
    split_ifs
    · exact ⟨rfl, rfl, fun _ => .inl ⟨rfl, rfl, by simp⟩⟩
    · refine ⟨rfl, rfl, fun h => .inl ⟨rfl, rfl, ?_⟩⟩
      have hlower := h.lower
      rw [hc] at hlower
      intro at_ stop pages heq
      injection heq with hat hstop _
      subst hat hstop
      exact ⟨hlower, Nat.le_refl _⟩
  case takeSlot at_ stop pages =>
    unfold WriteTracker.stepTakeSlot at hs
    split_ifs at hs with hlt hempty
    · obtain rfl := Option.some.inj hs
      exact ⟨rfl, rfl, fun _ => .inr ⟨at_, stop, pages, rfl, hlt, hempty, rfl⟩⟩
    · obtain rfl := Option.some.inj hs
      refine ⟨rfl, rfl, fun h => ?_⟩
      obtain ⟨hle, -⟩ := h.limit at_ stop pages hc
      exact .inl ⟨rfl, Nat.le_antisymm (Nat.le_of_not_lt hlt) hle, by simp⟩
  case report =>
    unfold WriteTracker.report
    rw [countReport_rest]
    exact ⟨rfl, rfl, fun _ => .inl ⟨rfl, rfl, by simp⟩⟩

end Owner

/-- **The ring, at every step of the owner.** -/
theorem RingInv.ownerStep {s s' : WriteTracker ι} (h : RingInv s) {ok : Bool} (hs : s.ownerStep ok = some s') :
    RingInv s' := by
  obtain ⟨hthread, hhead, hring⟩ := ownerStep_ring hs
  rcases hring h with ⟨hqueue, hcursor, hlimit⟩ | ⟨at_, stop, pages, hc, hlt, hempty, rfl⟩
  · exact h.frame hqueue hhead hcursor (fun t i hi => by rwa [hthread] at hi) hlimit
  · exact h.takeSlot hc hlt hempty

/-- **The ring, at every step of a handler.** -/
theorem RingInv.threadStep {s s' : WriteTracker ι} (h : RingInv s) {t : ι} {ok : Bool}
    (hok : s.Tracked (.thread t ok)) (hs : s.threadStep t ok = some s') : RingInv s' := by
  rw [WriteTracker.threadStep] at hs
  simp only [Tracked] at hok
  generalize hc : s.thread t = c at hs hok
  cases c <;> simp only [Option.some.injEq, reduceCtorEq] at hs <;> subst hs
  case fault page =>
    unfold onWriteFault
    split <;> exact h.goto t _ rfl rfl rfl rfl rfl (by rintro _ ⟨⟩)
  case faultOpen page | noteRemap first end_ => exact h.goto t _ rfl rfl rfl rfl rfl (by rintro _ ⟨⟩)
  case faultEnqueue page => exact h.claimSlot t _ hok rfl
  case faultStore page at_ | hostStore page end_ run at_ => exact h.fillSlot t _ (by rw [hc]; rfl) rfl
  case hostWrite page end_ run =>
    unfold onHostWrite
    split_ifs <;> exact h.goto t _ rfl rfl rfl rfl rfl (by rintro _ ⟨⟩)
  case hostEnqueue page end_ run => exact h.claimSlot t _ hok rfl
  case flush page end_ run =>
    split <;> exact h.goto t _ rfl rfl rfl rfl rfl (by rintro _ ⟨⟩)

/-- **A page, at every step of the owner.** -/
theorem PageInv.ownerStep {s s' : WriteTracker ι} {p : ℕ} (h : PageInv s p) (hring : RingInv s) (hranges : RangesInv s)
    {ok : Bool} (hok : s.Tracked (.owner ok)) (hs : s.ownerStep ok = some s') : PageInv s' p := by
  have hco := hranges.coalesced
  have hranged := hranges.ranged
  rw [WriteTracker.ownerStep] at hs
  cases hc : s.owner <;> simp only [hc, Option.some.injEq, reduceCtorEq] at hs <;> try subst hs
  case allArmed first end_ page => exact h.stepAllArmed hc
  case refuse first end_ page => exact h.stepRefuse hc
  case mark first end_ page run => exact h.stepMark hc hranged hok hco
  case protect first end_ at_ run => exact h.stepProtect ok hc hranged (by simpa only [Tracked, hc] using hok)
  case rollback page at_ => exact h.stepRollback hc
  case disarm first end_ page rest => exact h.stepDisarm hc hranged
  case disarmOpen first end_ rest => exact h.stepDisarmOpen ok hc
  case disarmErase first end_ rest => exact h.stepDisarmErase hc hranged hco
  case disarmNote first end_ rest =>
    refine (h.note (first, end_)).demoteNext rest (.inr ⟨first, end_, hc, fun hin => ?_⟩)
    exact covers_append.mpr (.inr (covers_cons.mpr (.inl hin)))
  case drain => exact h.stepDrain hc
  case drainNext rest => exact h.stepDrainNext hc
  case eraseArmed first end_ page rest => exact h.stepEraseArmed hc hranged hco
  case takeFaulted => exact h.stepTakeFaulted hc
  case takeSlot at_ stop pages => exact h.stepTakeSlot hring hc hs
  case reopenNext rest => exact h.stepReopenNext hc
  case reopen first end_ page rest => exact h.stepReopen hc hranged hco
  case report => exact h.report hc

/-- What every step that meets the condition keeps. -/
structure ReportInv (s : WriteTracker ι) : Prop extends RangesInv s where
  ring : RingInv s
  page : ∀ p, PageInv s p

theorem ReportInv.init : ReportInv (init : WriteTracker ι) := ⟨.init, .init, .init⟩

/-- **What every step that meets the condition keeps.** -/
theorem ReportInv.step {s s' : WriteTracker ι} {e : WriteEvent ι} (h : ReportInv s)
    (hok : s.Tracked e) (hs : s.step e = some s') : ReportInv s' := by
  have hranges := h.toRangesInv.step hs
  have hkeeps {o : Owner} (hcursor : o.cursor s.queueTail = s.owner.cursor s.queueTail)
      (hlimit : ∀ at_ stop pages, o ≠ .takeSlot at_ stop pages) {s' : WriteTracker ι} (hqueue : s'.queue = s.queue)
      (hhead : s'.queueHead = s.queueHead) (htail : s'.queueTail = s.queueTail) (hthread : s'.thread = s.thread)
      (howner : s'.owner = o) : RingInv s' :=
    h.ring.frame hqueue hhead (by rw [howner, htail, hcursor]) (fun t i hi => by rwa [hthread] at hi)
      fun at_ stop pages heq => absurd (howner ▸ heq) (hlimit at_ stop pages)
  cases e with
  | arm base bytes =>
    simp only [WriteTracker.step, Option.ite_none_right_eq_some, Option.some.injEq] at hs
    obtain ⟨⟨hc, hbytes, _⟩, rfl⟩ := hs
    exact ⟨hranges, hkeeps (by rw [hc]; rfl) (by rintro _ _ _ ⟨⟩) rfl rfl rfl rfl rfl, fun p => (h.page p).beginArm hc _ _⟩
  | collect =>
    simp only [WriteTracker.step, Option.ite_none_right_eq_some, Option.some.injEq] at hs
    obtain ⟨hc, rfl⟩ := hs
    exact ⟨hranges, hkeeps (by rw [hc]; rfl) (by rintro _ _ _ ⟨⟩) rfl rfl rfl rfl rfl, fun p => (h.page p).beginCollect hc⟩
  | release base bytes =>
    simp only [WriteTracker.step, Option.ite_none_right_eq_some, Option.some.injEq] at hs
    obtain ⟨⟨hc, hbytes, _⟩, rfl⟩ := hs
    exact ⟨hranges, hkeeps (by rw [hc]; rfl) (by rintro _ _ _ ⟨⟩) rfl rfl rfl rfl rfl, fun p => (h.page p).beginRelease hc _ _⟩
  | endFrame =>
    simp only [WriteTracker.step, Option.ite_none_right_eq_some, Option.some.injEq] at hs
    obtain ⟨hc, rfl⟩ := hs
    refine ⟨hranges, ?_, fun p => (h.page p).beginEndFrame.demoteNext _ (.inl hc)⟩
    unfold WriteTracker.beginEndFrame
    cases groupDemoted (s.demoted.insertionSort (· ≤ ·)) <;>
      exact hkeeps (by rw [hc]; rfl) (by rintro _ _ _ ⟨⟩) rfl rfl rfl rfl rfl
  | owner ok =>
    exact ⟨hranges, h.ring.ownerStep hs, fun p => (h.page p).ownerStep h.ring h.toRangesInv hok hs⟩
  | fault t addr =>
    simp only [WriteTracker.step, Option.ite_none_right_eq_some, Option.some.injEq] at hs
    obtain ⟨hc, rfl⟩ := hs
    refine ⟨hranges, h.ring.goto t _ rfl rfl rfl rfl rfl (by rintro _ ⟨⟩), fun p =>
      (h.page p).goto t _ ?_ ?_ ?_ ?_⟩ <;>
      simp [hc, Thread.Claims, Thread.Holds, Thread.Opens, Thread.Remaps, Thread.Announces]
  | hostWrite t addr len =>
    simp only [WriteTracker.step, Option.ite_none_right_eq_some, Option.some.injEq] at hs
    obtain ⟨⟨hc, _⟩, rfl⟩ := hs
    refine ⟨hranges, h.ring.goto t _ rfl rfl rfl rfl rfl (by rintro _ ⟨⟩), fun p => ?_⟩
    refine (h.page p).of_thread t _ rfl rfl rfl rfl rfl rfl rfl (.inl rfl) (.inl rfl) id .inl id
      ?_ ?_ ?_ ?_ id ?_ ?_ <;>
      simp [hc, Thread.Claims, Thread.Holds, Thread.Opens, Thread.Remaps, Thread.Announces,
        WriteTracker.goto, WriteTracker.touch]
    grind
  | remap t base bytes =>
    simp only [WriteTracker.step, Option.ite_none_right_eq_some, Option.some.injEq] at hs
    obtain ⟨⟨hc, hbytes, _⟩, rfl⟩ := hs
    refine ⟨hranges, h.ring.goto t _ rfl rfl rfl rfl rfl (by rintro _ ⟨⟩), fun p => ?_⟩
    refine (h.page p).of_thread t _ rfl rfl rfl rfl rfl rfl rfl (.inl rfl) ?_ id .inl id
      ?_ ?_ ?_ ?_ id ?_ ?_ <;>
      simp [hc, Thread.Claims, Thread.Holds, Thread.Opens, Thread.Remaps, Thread.Announces,
        WriteTracker.goto, WriteTracker.remap, WriteTracker.touch, setRange]
    all_goals grind
  | thread t ok =>
    exact ⟨hranges, h.ring.threadStep hok hs, fun p => (h.page p).threadStep h.ring (h.threads t) hok hs⟩
  | write addr =>
    simp only [WriteTracker.step, Option.ite_none_left_eq_some, Option.some.injEq] at hs
    obtain ⟨hro, rfl⟩ := hs
    exact ⟨hranges, h.ring.frame rfl rfl rfl (fun _ _ hi => hi) h.ring.limit,
      fun p => (h.page p).write (by simpa using hro)⟩
  | noteWrite base bytes =>
    simp only [WriteTracker.step, Option.ite_none_right_eq_some, Option.some.injEq] at hs
    obtain ⟨_, rfl⟩ := hs
    exact ⟨hranges, h.ring.frame rfl rfl rfl (fun _ _ hi => hi) h.ring.limit, fun p => (h.page p).note _⟩

/-- **No write to a trusted page is lost**: every `Collect` reports the trusted pages that were
written, announced or remapped before it and that no handler was still at, in every run of steps
that meet the condition. -/
theorem reported_of_tracked (ls : List (WriteEvent ι))
    (hok : (system ι).Meets Tracked init ls) : (system ι).Always Reported init ls :=
  (system ι).always_of_invariant (fun _ _ _ h hok hs => ReportInv.step h hok hs)
    (fun _ h => PageInv.reported (ReportInv.page h)) ReportInv.init hok

instance (s : WriteTracker ι) (page : ℕ) : Decidable (s.InRing page) :=
  decidable_of_iff
    (page ≠ 0 ∧ ∃ i, i < s.queueHead ∧ s.owner.cursor s.queueTail ≤ i ∧ s.queue (i % kQueueSize) = page)
    (and_congr_right fun _ => exists_congr fun _ => and_left_comm)

instance (s : WriteTracker ι) (first stop : ℕ) : Decidable (s.Leaves first stop) :=
  decidable_of_iff
    (∀ p, p < stop → first ≤ p → s.state p = .kProtected → Covers s.armed p ∧ ¬s.owner.Run p)
    (forall_congr' fun _ => forall_comm)

instance (s : WriteTracker ι) (e : WriteEvent ι) : Decidable (s.Tracked e) := by
  induction e using WriteEvent.casesOn with
  | thread t ok =>
    dsimp only [Tracked, SomeThread]
    generalize s.thread t = c
    induction c using Thread.casesOn <;> infer_instance
  | owner ok =>
    dsimp only [Tracked, SomeThread]
    generalize s.owner = c
    induction c using Owner.casesOn <;> infer_instance
  | _ => exact instDecidableTrue

theorem reported_writeRun : (system (Fin 1)).Always Reported init writeRun :=
  reported_of_tracked writeRun (by decide +kernel)

local instance neZero_one : @NeZero ℕ Zero.ofOfNat0 1 := ⟨Nat.one_ne_zero⟩

/-- Page 11 is armed. `Arm` over pages 10 to 12 protects page 10 and fails at page 12. Page 10 is
remapped and the remap collected; `Arm` finds it armed, and it is written. -/
def failedArmRun : List (WriteEvent (Fin 1)) :=
  [.arm 45056 4096] ++ List.replicate 7 (.owner true) ++
    [.arm 40960 12288] ++ List.replicate 10 (.owner true) ++ List.replicate 3 (.owner false) ++
    [.remap 0 40960 4096, .thread 0 true, .collect] ++ List.replicate 7 (.owner true) ++
    [.arm 40960 4096] ++ List.replicate 2 (.owner true) ++
    [.write 40960, .collect] ++ List.replicate 3 (.owner true)

/-- A page that a failed `Arm` leaves protected is not in `armed_`, so that a remap does not clear
its state, and a write to it is not reported. -/
theorem failed_arm_loses_write : ¬∀ ls, (system (Fin 1)).Always Reported init ls := by
  intro h
  have hrun : ((system (Fin 1)).exec init failedArmRun).any
      (fun s => s.owner = .report ∧ s.due 10 = true ∧ s.out = []) = true := by decide +kernel
  refine (system (Fin 1)).not_always_of_exec hrun (fun s hs hr => ?_) (h failedArmRun)
  obtain ⟨howner, hdue, hout⟩ := of_decide_eq_true hs
  have hcovers := hr howner 10 hdue
  rw [hout] at hcovers
  exact not_covers_nil 10 hcovers

end WriteTracker

end Prosperity.Gpu
