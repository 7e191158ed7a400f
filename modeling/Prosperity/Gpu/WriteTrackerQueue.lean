import Prosperity.Foundations.Tally
import Prosperity.Gpu.WriteTrackerReports

/-!
# The ring of the write tracker has room

A protected page that is written goes into the ring, so what waits there and what is still
protected is what `Arm` has protected and `Collect` has not taken. `Arm` keeps the pages that
`armed_bytes_` counts below half the ring. It counts them until they are released, demoted or
remapped; the write of such a page may still wait in the ring. The ring has room as long as what
`armed_bytes_` leaves out is at most the other half.
-/

set_option linter.unusedSectionVars false

namespace Prosperity.Gpu

def tablePages : ℕ := kChunks * kPagesPerChunk

theorem covered_iff {page : ℕ} : covered page ↔ page < tablePages :=
  Nat.div_lt_iff_lt_mul (by decide)

-- too large a number to compute with
attribute [irreducible] tablePages

def Thread.Taken : Thread → Bool
  | .faultOpen _ | .faultEnqueue _ | .hostEnqueue .. => true
  | _ => false

/-- The state is kProtected. -/
def Armed.isProtected (a : Armed) : Bool := decide (a = .kProtected)

namespace WriteTracker

variable {ι : Type*} [DecidableEq ι] [Fintype ι]

def protectedPages (s : WriteTracker ι) : ℕ :=
  tally Armed.isProtected fun page : Fin tablePages => s.state page

/-- The number of pages enqueued and not taken by `Collect`. -/
def enqueued (s : WriteTracker ι) : ℕ := s.queueHead - s.owner.cursor s.queueTail

def waiting (s : WriteTracker ι) : ℕ := s.enqueued + tally Thread.Taken s.thread

/-- Thread `t` fills the slot with its next step, however long the others go on before. -/
def FillsNext (s : WriteTracker ι) (t : ι) (at_ : ℕ) : Prop :=
  ∀ ls s', (∀ ok, WriteEvent.thread t ok ∉ ls) → (system ι).exec s ls = some s' →
    ∀ ok, ∃ s'', (system ι).step s' (.thread t ok) = some s'' ∧ s''.queue (at_ % kQueueSize) ≠ 0

/-- The ring holds what is enqueued, a slot that is about to be filled holds no unread page, and
where `TakeFaulted` waits for a slot, some handler is about to fill it. -/
structure HasRoom (s : WriteTracker ι) : Prop where
  room : s.queueHead ≤ s.owner.cursor s.queueTail + kQueueSize
  unread : ∀ t at_, (s.thread t).Slot = some at_ → s.queue (at_ % kQueueSize) = 0
  served : ∀ at_ stop pages, s.owner = .takeSlot at_ stop pages → at_ < stop →
    s.queue (at_ % kQueueSize) = 0 → ∃ t, s.FillsNext t at_

/-- The steps that keep room in the ring. Where `Arm` passes its test of `armed_bytes_`, the pages
that are protected or whose write waits are at most half the ring more than `armed_bytes_` counts.
`Arm` does not mark page 0, whose entry reads as a slot not filled. -/
def Counted (s : WriteTracker ι) : WriteEvent ι → Prop
  | .owner _ =>
    match s.owner with
    | .allArmed first end_ page =>
      page < end_ → ¬(covered page ∧ s.state page = .kProtected) → s.armedPages + (end_ - first) < kQueueSize / 2 →
          s.waiting + s.protectedPages ≤ s.armedPages + kQueueSize / 2
    | .mark _ end_ page _ => page < end_ → covered page → s.state page = .kOpen → page ≠ 0
    | _ => True
  | _ => True

/-! ## Counting -/

theorem tally_state_update (f : ℕ → Armed) {page : ℕ} (h : covered page) (a : Armed) :
    tally Armed.isProtected (fun p : Fin tablePages => Function.update f page a p) + (f page).isProtected.toNat =
      tally Armed.isProtected (fun p : Fin tablePages => f p) + a.isProtected.toNat := by
  let i : Fin tablePages := ⟨page, covered_iff.mp h⟩
  have hupdate : (fun p : Fin tablePages => Function.update f page a p) =
      Function.update (fun p : Fin tablePages => f p) i a := by
    funext p
    by_cases hp : p = i
    · subst hp
      rw [Function.update_self, Function.update_self]
    · rw [Function.update_of_ne hp, Function.update_of_ne fun heq => hp (Fin.ext heq)]
  rw [hupdate]
  exact tally_update Armed.isProtected (fun p : Fin tablePages => f p) i a

theorem protectedPages_le {s s' : WriteTracker ι} (h : ∀ p, s'.state p = .kProtected → s.state p = .kProtected) :
    s'.protectedPages ≤ s.protectedPages := by
  refine tally_le_tally fun p hp => ?_
  exact decide_eq_true (h p (of_decide_eq_true hp))

theorem goto_thread_self (s : WriteTracker ι) (t : ι) (c : Thread) : (s.goto t c).thread t = c :=
  Function.update_self ..

/-! ## What a step of the owner can do -/

section Owner

variable {s s' : WriteTracker ι} {ok : Bool}

theorem protected_of_update {state : ℕ → Armed} {page p : ℕ}
    (h : Function.update state page .kOpen p = .kProtected) : state p = .kProtected := by
  by_cases hp : p = page
  · subst hp
    rw [Function.update_self] at h
    cases h
  · rwa [Function.update_of_ne hp] at h

theorem protected_of_opened {c : Prop} [Decidable c] {state : ℕ → Armed} {page p : ℕ}
    (h : (if c then Function.update state page .kOpen else state) p = .kProtected) : state p = .kProtected := by
  split_ifs at h
  · exact protected_of_update h
  · exact h

theorem ownerStep_state (hs : s.ownerStep ok = some s') :
    ((∀ p, s'.state p = .kProtected → s.state p = .kProtected) ∧ s'.owner.todo ≤ s.owner.todo) ∨
      (∃ first end_ page run, s.owner = .mark first end_ page run ∧ page < end_ ∧ covered page ∧
        s.state page = .kOpen ∧ s'.state = Function.update s.state page .kProtected ∧
        s'.owner.todo + 1 = s.owner.todo) ∨ ∃ first end_ page, s.owner = .allArmed first end_ page ∧ page < end_ ∧
        ¬(covered page ∧ s.state page = .kProtected) ∧
        s.armedPages + (end_ - first) < kQueueSize / 2 ∧ s'.state = s.state ∧ s'.owner.todo = end_ - first := by
  rw [WriteTracker.ownerStep] at hs
  cases hc : s.owner <;> simp only [hc, Option.some.injEq, reduceCtorEq] at hs <;> try subst hs
  case allArmed first end_ page =>
    unfold WriteTracker.stepAllArmed
    split_ifs with hlt harmed hfull
    · exact .inl ⟨fun _ => id, Nat.le_refl _⟩
    · exact .inl ⟨fun _ => id, Nat.le_refl _⟩
    · exact .inr (.inr ⟨first, end_, page, rfl, hlt, harmed, Nat.lt_of_not_le hfull, rfl, rfl⟩)
    · exact .inl ⟨fun _ => id, Nat.le_refl _⟩
  case refuse =>
    unfold WriteTracker.stepRefuse
    split_ifs <;> exact .inl ⟨fun _ => id, by simp [Owner.todo]⟩
  case mark first end_ page run =>
    unfold WriteTracker.stepMark
    by_cases hlt : page < end_
    · have hless : end_ - (page + 1) + 1 = end_ - page := by omega
      rw [if_pos hlt]
      split_ifs with hcov hopen
      · exact .inl ⟨fun _ => id, Nat.le_of_succ_le (Nat.le_of_eq hless)⟩
      · exact .inl ⟨fun _ => id, Nat.le_refl _⟩
      · exact .inr (.inl ⟨first, end_, page, run, rfl, hlt, hcov, not_not.mp hopen, rfl, hless⟩)
      · exact .inr (.inl ⟨first, end_, page, run, rfl, hlt, hcov, not_not.mp hopen, rfl, hless⟩)
      · exact .inl ⟨fun _ => id, Nat.zero_le _⟩
    · rw [if_neg hlt]
      split_ifs
      · exact .inl ⟨fun _ => id, Nat.zero_le _⟩
      · exact .inl ⟨fun _ => id, Nat.le_of_eq (Nat.sub_self end_) |>.trans (Nat.zero_le _)⟩
  case protect =>
    unfold WriteTracker.stepProtect
    split_ifs <;> exact .inl ⟨fun _ => id, by simp only [Owner.todo]; omega⟩
  case rollback page at_ =>
    unfold WriteTracker.stepRollback
    split_ifs
    · exact .inl ⟨fun _ => protected_of_update, Nat.le_refl _⟩
    · exact .inl ⟨fun _ => id, Nat.le_refl _⟩
  case disarm =>
    unfold WriteTracker.stepDisarm
    split
    · exact .inl ⟨fun _ => protected_of_opened, Nat.le_refl _⟩
    · exact .inl ⟨fun _ => id, Nat.le_refl _⟩
  case disarmOpen | disarmErase | drain => exact .inl ⟨fun _ => id, Nat.le_refl _⟩
  case disarmNote first end_ rest =>
    obtain ⟨-, -, -, -, hstate, htodo, -, -⟩ :=
      demoteNext_frame { s with noted := s.noted ++ [(first, end_)] } rest
    refine .inl ⟨fun p hp => ?_, ?_⟩
    · exact congrFun hstate p ▸ hp
    · exact Nat.le_of_eq htodo
  case drainNext rest | reopenNext rest => cases rest <;> exact .inl ⟨fun _ => id, Nat.le_refl _⟩
  case eraseArmed =>
    unfold WriteTracker.stepEraseArmed
    split
    · exact .inl ⟨fun _ => protected_of_opened, Nat.le_refl _⟩
    · exact .inl ⟨fun _ => id, Nat.le_refl _⟩
  case takeFaulted =>
    unfold WriteTracker.stepTakeFaulted
    split_ifs <;> exact .inl ⟨fun _ => id, Nat.le_refl _⟩
  case takeSlot =>
    unfold WriteTracker.stepTakeSlot at hs
    split_ifs at hs <;> obtain rfl := Option.some.inj hs <;>
      exact .inl ⟨fun _ => id, Nat.le_refl _⟩
  case reopen =>
    unfold WriteTracker.stepReopen
    split
    · exact .inl ⟨fun _ => protected_of_opened, Nat.le_refl _⟩
    · exact .inl ⟨fun _ => id, Nat.le_refl _⟩
  case report =>
    unfold WriteTracker.report
    rw [countReport_rest]
    exact .inl ⟨fun _ => id, Nat.le_refl _⟩

end Owner

/-! ## What every step keeps -/

/-- What every step that meets the condition keeps: what waits, what is protected and what `Arm` may
still mark fits into the ring, and a slot of it is filled or its handler is about to fill it. -/
structure QueueInv (s : WriteTracker ι) : Prop where
  ring : RingInv s
  load : s.waiting + s.protectedPages + s.owner.todo ≤ kQueueSize
  zero : s.state 0 ≠ .kProtected
  claims : ∀ t p, (s.thread t).Claims p → p ≠ 0
  filled : ∀ i, s.owner.cursor s.queueTail ≤ i → i < s.queueHead →
    s.queue (i % kQueueSize) = 0 → ∃ t, (s.thread t).Slot = some i

namespace QueueInv

variable {s s' : WriteTracker ι}

theorem init : QueueInv (WriteTracker.init : WriteTracker ι) where
  ring := .init
  load := by
    have hwaiting : tally Thread.Taken (WriteTracker.init : WriteTracker ι).thread = 0 :=
      tally_eq_zero_iff.mpr fun _ => rfl
    have hprotected : (WriteTracker.init : WriteTracker ι).protectedPages = 0 :=
      tally_eq_zero_iff.mpr fun _ => rfl
    rw [hprotected, waiting, hwaiting]
    exact Nat.zero_le _
  zero := nofun
  claims _ _ h := h.elim
  filled _ _ h := absurd h (Nat.not_lt_zero _)

theorem frame (h : QueueInv s) (hthread : s'.thread = s.thread) (hqueue : s'.queue = s.queue)
    (hhead : s'.queueHead = s.queueHead) (hcursor : s'.owner.cursor s'.queueTail = s.owner.cursor s.queueTail)
    (hlimit : ∀ at_ stop pages, s'.owner = .takeSlot at_ stop pages → at_ ≤ stop ∧ stop ≤ s.queueHead)
    (hload : s'.protectedPages + s'.owner.todo ≤ s.protectedPages + s.owner.todo ∨
      s.waiting + s'.protectedPages + s'.owner.todo ≤ kQueueSize)
    (hzero : s'.state 0 ≠ .kProtected) : QueueInv s' := by
  have hwaiting : s'.waiting = s.waiting := by
    rw [waiting, waiting, enqueued, enqueued, hhead, hcursor, hthread]
  refine ⟨h.ring.frame hqueue hhead hcursor (fun t i hi => by rwa [hthread] at hi) hlimit, ?_, hzero,
    hthread ▸ h.claims, ?_⟩
  · rw [hwaiting]
    have := h.load
    omega
  · rw [hcursor, hhead, hqueue, hthread]
    exact h.filled

/-- **A step of the owner keeps the invariant.** -/
theorem ownerStep (h : QueueInv s) {ok : Bool} (hok : s.Counted (.owner ok))
    (hs : s.ownerStep ok = some s') : QueueInv s' := by
  have hload := h.load
  have hstate := ownerStep_state hs
  obtain ⟨hthread, hhead, hring⟩ := ownerStep_ring hs
  -- either `TakeFaulted` takes a slot, or the ring does not see the step
  rcases hring h.ring with ⟨hqueue, hcursor, hlimit⟩ | ⟨at_, stop, pages, hc, hlt, hne, rfl⟩
  · rcases hstate with ⟨hprot, htodo⟩ | ⟨first, end_, page, run, hc, hlt, hcov, hopen, hstate, htodo⟩ |
      ⟨first, end_, page, hc, hlt, harmed, hguard, hstate, htodo⟩
    · have hle := protectedPages_le hprot
      exact h.frame hthread hqueue hhead hcursor hlimit (.inl (by omega)) fun h0 => h.zero (hprot 0 h0)
    · -- the page marked was one of those counted as still to mark
      simp only [Counted, hc] at hok
      have hpage := hok hlt hcov hopen
      have htally := tally_state_update s.state hcov .kProtected
      rw [hopen, ← hstate] at htally
      have hcount : s'.protectedPages = s.protectedPages + 1 := by
        simp only [Armed.isProtected, decide_true, Bool.toNat_true, Bool.toNat_false, reduceCtorEq,
          decide_false] at htally
        rw [protectedPages, protectedPages, ← htally, Nat.add_zero]
      refine h.frame hthread hqueue hhead hcursor hlimit (.inl (by omega)) ?_
      rw [hstate, Function.update_of_ne hpage.symm]
      exact h.zero
    · -- the test of `armed_bytes_` leaves half the ring, and the condition the other half
      simp only [Counted, hc] at hok
      have hroom := hok hlt harmed hguard
      have hcount : s'.protectedPages = s.protectedPages := by
        rw [protectedPages, hstate, protectedPages]
      have hhalf : kQueueSize / 2 + kQueueSize / 2 = kQueueSize := by
        rw [kQueueSize]
        omega
      have hload' : s.waiting + s'.protectedPages + s'.owner.todo ≤ kQueueSize := by omega
      refine h.frame hthread hqueue hhead hcursor hlimit (.inr hload') ?_
      rw [hstate]
      exact h.zero
  · obtain ⟨-, hstop⟩ := h.ring.limit at_ stop pages hc
    have hfilled := h.filled
    simp only [hc, Owner.cursor] at hfilled
    refine ⟨h.ring.takeSlot hc hlt hne, ?_, h.zero, h.claims, fun i hlo hhi hi => ?_⟩
    · rw [waiting, enqueued, hc] at hload
      change s.queueHead - (at_ + 1) + tally Thread.Taken s.thread + s.protectedPages + 0 ≤ kQueueSize
      simp only [Owner.cursor, Owner.todo] at hload
      omega
    · dsimp only [Owner.cursor] at hlo hhi hi
      have hupper := h.ring.upper
      simp only [hc, Owner.cursor] at hupper
      rw [Function.update_of_ne (slot_ne (by omega) (by omega) (by omega))] at hi
      exact hfilled i (by omega) hhi hi

theorem claims_update {f : ι → Thread} (h : ∀ u p, (f u).Claims p → p ≠ 0) (t : ι) {c : Thread}
    (hc : ∀ p, c.Claims p → p ≠ 0) : ∀ u p, (Function.update f t c u).Claims p → p ≠ 0 := by
  intro u p hu
  by_cases hut : u = t
  · subst hut
    rw [Function.update_self] at hu
    exact hc p hu
  · rw [Function.update_of_ne hut] at hu
    exact h u p hu

theorem slot_update {f : ι → Thread} {t : ι} {i : ℕ} (c : Thread) (ht : (f t).Slot ≠ some i)
    (h : ∃ u, (f u).Slot = some i) : ∃ u, (Function.update f t c u).Slot = some i := by
  obtain ⟨u, hu⟩ := h
  have hut : u ≠ t := by
    rintro rfl
    exact ht hu
  exact ⟨u, by rw [Function.update_of_ne hut, hu]⟩

theorem goto (h : QueueInv s) (t : ι) (c : Thread) (hqueue : s'.queue = s.queue)
    (hhead : s'.queueHead = s.queueHead) (htail : s'.queueTail = s.queueTail)
    (howner : s'.owner = s.owner) (hthread : s'.thread = Function.update s.thread t c)
    (hstate : s'.state = s.state) (hslot : (s.thread t).Slot = none) (hc : c.Slot = none)
    (htaken : c.Taken = (s.thread t).Taken) (hclaims : ∀ p, c.Claims p → (s.thread t).Claims p) : QueueInv s' := by
  have hring := h.ring.goto t c hqueue hhead htail howner hthread (by rw [hc]; nofun)
  have htally := tally_update Thread.Taken s.thread t c
  rw [htaken] at htally
  refine ⟨hring, ?_, by rw [hstate]; exact h.zero, ?_, fun i hlo hhi hi => ?_⟩
  · have hload := h.load
    rw [protectedPages, hstate, howner, waiting, enqueued, hhead, htail, howner, hthread]
    rw [waiting, enqueued, protectedPages] at hload
    omega
  · rw [hthread]
    exact claims_update h.claims t fun p hp => h.claims t p (hclaims p hp)
  · rw [howner, htail] at hlo
    rw [hhead] at hhi
    rw [hqueue] at hi
    rw [hthread]
    exact slot_update c (fun heq => nomatch hslot.symm.trans heq) (h.filled i hlo hhi hi)

theorem take (h : QueueInv s) (t : ι) (c : Thread) {page : ℕ} (htakes : s.takes page)
    (hslot : (s.thread t).Slot = none) (hc : c.Slot = none) (hold : (s.thread t).Taken = false)
    (htaken : c.Taken = true) (hclaims : ∀ p, c.Claims p → p = page) : QueueInv ((s.take page).goto t c) := by
  obtain ⟨hcov, hprot⟩ := htakes
  have hring : RingInv ((s.take page).goto t c) :=
    h.ring.goto t c rfl rfl rfl rfl rfl (by rw [hc]; nofun)
  refine ⟨hring, ?_, ?_, claims_update h.claims t fun p hp => ?_, fun i hlo hhi hi =>
    slot_update c (fun heq => nomatch hslot.symm.trans heq) (h.filled i hlo hhi hi)⟩
  · have hload := h.load
    have htally := tally_update Thread.Taken s.thread t c
    have hpages := tally_state_update s.state hcov .kQueued
    rw [hold, htaken] at htally
    rw [hprot] at hpages
    change s.enqueued + tally Thread.Taken (Function.update s.thread t c) +
      tally Armed.isProtected (fun p : Fin tablePages => Function.update s.state page .kQueued p) +
        s.owner.todo ≤ kQueueSize
    simp only [waiting, protectedPages, Armed.isProtected, decide_true, Bool.toNat_true, Bool.toNat_false,
      reduceCtorEq, decide_false] at hload htally hpages ⊢
    omega
  · intro hzero
    by_cases hpage : page = 0
    · subst hpage
      exact h.zero hprot
    · change Function.update s.state page .kQueued 0 = .kProtected at hzero
      rw [Function.update_of_ne (Ne.symm hpage)] at hzero
      exact h.zero hzero
  · rw [hclaims p hp]
    rintro rfl
    exact h.zero hprot

theorem claimSlot (h : QueueInv s) (t : ι) (c : Thread) (hold : (s.thread t).Taken = true)
    (htaken : c.Taken = false) (hslot : c.Slot = some s.queueHead)
    (hnone : (s.thread t).Slot = none) (hclaims : ∀ p, c.Claims p → (s.thread t).Claims p) :
    QueueInv (s.claimSlot.goto t c) := by
  have hlower := h.ring.lower
  have hload := h.load
  have hpos := tally_pos hold
  have hfree : s.queueHead < s.owner.cursor s.queueTail + kQueueSize := by
    rw [waiting, enqueued] at hload
    omega
  refine ⟨h.ring.claimSlot t c hfree hslot, ?_, h.zero,
    claims_update h.claims t fun p hp => h.claims t p (hclaims p hp), fun i hlo hhi hi => ?_⟩
  · have htally := tally_update Thread.Taken s.thread t c
    rw [hold, htaken] at htally
    change s.queueHead + 1 - s.owner.cursor s.queueTail + tally Thread.Taken (Function.update s.thread t c) +
      s.protectedPages + s.owner.todo ≤ kQueueSize
    simp only [waiting, enqueued, Bool.toNat_true, Bool.toNat_false] at hload htally
    omega
  · by_cases hlast : i = s.queueHead
    · exact ⟨t, by rw [goto_thread_self, hslot, hlast]⟩
    · have hlt : i < s.queueHead := Nat.lt_of_le_of_ne (Nat.le_of_lt_succ hhi) hlast
      exact slot_update c (fun heq => nomatch hnone.symm.trans heq) (h.filled i hlo hlt hi)

theorem fillSlot (h : QueueInv s) (t : ι) (c : Thread) {at_ page : ℕ}
    (hat : (s.thread t).Slot = some at_) (hslot : c.Slot = none) (hold : (s.thread t).Taken = false)
    (htaken : c.Taken = false) (hpage : page ≠ 0) (hclaims : ∀ p, ¬c.Claims p) :
    QueueInv ((s.fillSlot at_ page).goto t c) := by
  refine ⟨h.ring.fillSlot t c hat hslot, ?_, h.zero,
    claims_update h.claims t fun p hp => absurd hp (hclaims p), fun i hlo hhi hi => ?_⟩
  · have hload := h.load
    have htally := tally_update Thread.Taken s.thread t c
    rw [hold, htaken] at htally
    change s.enqueued + tally Thread.Taken (Function.update s.thread t c) + s.protectedPages + s.owner.todo ≤ kQueueSize
    rw [waiting] at hload
    omega
  · change Function.update s.queue (at_ % kQueueSize) page (i % kQueueSize) = 0 at hi
    have hne : i % kQueueSize ≠ at_ % kQueueSize := by
      intro heq
      rw [heq, Function.update_self] at hi
      exact hpage hi
    rw [Function.update_of_ne hne] at hi
    refine slot_update c (fun heq => hne ?_) (h.filled i hlo hhi hi)
    rw [Option.some.inj (hat.symm.trans heq)]

/-- **A step of a handler keeps the invariant.** -/
theorem threadStep (h : QueueInv s) {t : ι} {ok : Bool} (hs : s.threadStep t ok = some s') : QueueInv s' := by
  rw [WriteTracker.threadStep] at hs
  cases hc : s.thread t <;> simp only [hc, Option.some.injEq, reduceCtorEq] at hs <;> subst hs
  case fault page =>
    unfold onWriteFault
    split_ifs with htakes
    · exact h.take t _ htakes.2 (by rw [hc]; rfl) rfl (by rw [hc]; rfl) rfl fun _ => id
    · exact h.goto t _ rfl rfl rfl rfl rfl rfl (by rw [hc]; rfl) rfl (by rw [hc]; rfl) fun _ => False.elim
  case faultOpen page =>
    exact h.goto t _ rfl rfl rfl rfl rfl rfl (by rw [hc]; rfl) rfl (by rw [hc]; rfl)
      (by rw [hc]; exact fun _ => id)
  case faultEnqueue page | hostEnqueue page end_ run =>
    exact h.claimSlot t _ (by rw [hc]; rfl) rfl rfl (by rw [hc]; rfl) (by rw [hc]; exact fun _ => id)
  case faultStore page at_ | hostStore page end_ run at_ =>
    exact h.fillSlot t _ (by rw [hc]; rfl) rfl (by rw [hc]; rfl) rfl (h.claims t page (by rw [hc]; rfl)) fun _ => id
  case hostWrite page end_ run =>
    unfold onHostWrite
    split_ifs with hlt htakes
    · exact h.take t _ htakes (by rw [hc]; rfl) rfl (by rw [hc]; rfl) rfl fun _ => id
    · exact h.take t _ htakes (by rw [hc]; rfl) rfl (by rw [hc]; rfl) rfl fun _ => id
    all_goals exact h.goto t _ rfl rfl rfl rfl rfl rfl (by rw [hc]; rfl) rfl (by rw [hc]; rfl) fun _ => False.elim
  case flush page end_ run =>
    split_ifs <;>
      exact h.goto t _ rfl rfl rfl rfl rfl rfl (by rw [hc]; rfl) rfl (by rw [hc]; rfl) fun _ => False.elim
  case noteRemap first end_ =>
    exact h.goto t _ rfl rfl rfl rfl rfl rfl (by rw [hc]; rfl) rfl (by rw [hc]; rfl) fun _ => False.elim

/-- **What every step that meets the condition keeps.** -/
theorem step {e : WriteEvent ι} (h : QueueInv s) (hok : s.Counted e) (hs : s.step e = some s') : QueueInv s' := by
  cases e with
  | arm base bytes | release base bytes =>
    simp only [WriteTracker.step, Option.ite_none_right_eq_some, Option.some.injEq] at hs
    obtain ⟨⟨hc, -⟩, rfl⟩ := hs
    exact h.frame rfl rfl rfl (by rw [hc]; rfl) (by simp) (.inl (by rw [hc]; exact Nat.le_refl _)) h.zero
  | collect =>
    simp only [WriteTracker.step, Option.ite_none_right_eq_some, Option.some.injEq] at hs
    obtain ⟨hc, rfl⟩ := hs
    exact h.frame rfl rfl rfl (by rw [hc]; rfl) (fun _ _ _ h => Owner.noConfusion h)
      (.inl (by rw [hc]; exact Nat.le_refl _)) h.zero
  | endFrame =>
    simp only [WriteTracker.step, Option.ite_none_right_eq_some, Option.some.injEq] at hs
    obtain ⟨hc, rfl⟩ := hs
    obtain ⟨hthread, hhead, hqueue, htail, hstate, htodo, hcursor, hne⟩ :=
      demoteNext_frame { s with reported := [], frame := s.frame + 1 }
        (groupDemoted (s.demoted.insertionSort (· ≤ ·)))
    have hprot : s.beginEndFrame.protectedPages ≤ s.protectedPages :=
      protectedPages_le fun p hp => congrFun hstate p ▸ hp
    refine h.frame hthread hqueue hhead ?_ (fun _ _ _ heq => absurd heq (hne _ _ _)) ?_ ?_
    · rw [hc]
      exact (hcursor _).trans htail
    · exact .inl (Nat.add_le_add hprot (htodo.le.trans (Nat.zero_le _)))
    · intro h0
      exact h.zero (congrFun hstate 0 ▸ h0)
  | owner ok => exact h.ownerStep hok hs
  | fault t addr =>
    simp only [WriteTracker.step, Option.ite_none_right_eq_some, Option.some.injEq] at hs
    obtain ⟨hc, rfl⟩ := hs
    exact h.goto t _ rfl rfl rfl rfl rfl rfl (by rw [hc]; rfl) rfl (by rw [hc]; rfl) fun _ => False.elim
  | hostWrite t addr len | remap t base bytes =>
    simp only [WriteTracker.step, Option.ite_none_right_eq_some, Option.some.injEq] at hs
    obtain ⟨⟨hc, -⟩, rfl⟩ := hs
    exact h.goto t _ rfl rfl rfl rfl rfl rfl (by rw [hc]; rfl) rfl (by rw [hc]; rfl) fun _ => False.elim
  | thread t ok => exact h.threadStep hs
  | write addr =>
    simp only [WriteTracker.step, Option.ite_none_left_eq_some, Option.some.injEq] at hs
    obtain ⟨-, rfl⟩ := hs
    exact h.frame rfl rfl rfl rfl h.ring.limit (.inl (Nat.le_refl _)) h.zero
  | noteWrite base bytes =>
    simp only [WriteTracker.step, Option.ite_none_right_eq_some, Option.some.injEq] at hs
    obtain ⟨-, rfl⟩ := hs
    exact h.frame rfl rfl rfl rfl h.ring.limit (.inl (Nat.le_refl _)) h.zero

end QueueInv

/-! ## A handler at its slot -/

section Served

variable {s s' : WriteTracker ι} {t : ι}

theorem step_thread {e : WriteEvent ι} (ht : s.thread t ≠ .idle) (he : ∀ ok, e ≠ .thread t ok)
    (hs : s.step e = some s') : s'.thread t = s.thread t := by
  cases e with
  | arm base bytes | collect | release base bytes | noteWrite base bytes =>
    simp only [WriteTracker.step, Option.ite_none_right_eq_some, Option.some.injEq] at hs
    obtain ⟨-, rfl⟩ := hs
    rfl
  | endFrame =>
    simp only [WriteTracker.step, Option.ite_none_right_eq_some, Option.some.injEq] at hs
    obtain ⟨-, rfl⟩ := hs
    exact congrFun (demoteNext_frame _ _).1 t
  | owner ok => rw [(ownerStep_ring hs).1]
  | fault u addr | hostWrite u addr len | remap u base bytes =>
    simp only [WriteTracker.step, Option.ite_none_right_eq_some, Option.some.injEq] at hs
    obtain ⟨hc, rfl⟩ := hs
    refine Function.update_of_ne ?_ _ _
    rintro rfl
    first | exact ht hc | exact ht hc.1
  | thread u ok =>
    have hut : t ≠ u := fun heq => he ok (by rw [heq])
    simp only [WriteTracker.step, WriteTracker.threadStep] at hs
    cases hc : s.thread u <;> simp only [hc, Option.some.injEq, reduceCtorEq] at hs <;> subst hs <;>
      first
      | exact Function.update_of_ne hut _ _
      | (unfold onWriteFault; split_ifs <;> exact Function.update_of_ne hut _ _)
      | (unfold onHostWrite; split_ifs <;> exact Function.update_of_ne hut _ _)
  | write addr =>
    simp only [WriteTracker.step, Option.ite_none_left_eq_some, Option.some.injEq] at hs
    obtain ⟨-, rfl⟩ := hs
    rfl

theorem exec_thread {ls : List (WriteEvent ι)} (ht : s.thread t ≠ .idle)
    (hls : ∀ ok, WriteEvent.thread t ok ∉ ls) (hs : (system ι).exec s ls = some s') : s'.thread t = s.thread t := by
  induction ls generalizing s with
  | nil => rw [Option.some.inj hs]
  | cons e ls ih =>
    obtain ⟨m, hm, hrest⟩ := Option.bind_eq_some_iff.mp hs
    have hfirst : m.thread t = s.thread t :=
      step_thread ht (fun ok heq => hls ok (heq ▸ List.mem_cons_self)) hm
    rw [← hfirst] at ht ⊢
    exact ih ht (fun ok hin => hls ok (List.mem_cons_of_mem e hin)) hrest

/-- **A handler fills the slot it has claimed** with its next step. -/
theorem fillsNext_of_slot {at_ : ℕ} (hslot : (s.thread t).Slot = some at_)
    (hclaims : ∀ p, (s.thread t).Claims p → p ≠ 0) : s.FillsNext t at_ := by
  intro ls s' hls hs ok
  have ht : s.thread t ≠ .idle := by
    intro hidle
    rw [hidle] at hslot
    cases hslot
  have hthread := exec_thread ht hls hs
  cases hc : s.thread t <;> rw [hc] at hslot <;> cases hslot
  case faultStore page =>
    have hpage : page ≠ 0 := hclaims page (by rw [hc]; rfl)
    refine ⟨(s'.fillSlot at_ page).goto t .idle, ?_, ?_⟩
    · simp only [system, WriteTracker.step, WriteTracker.threadStep, hthread, hc]
    · simpa only [WriteTracker.goto, WriteTracker.fillSlot, Function.update_self] using hpage
  case hostStore page end_ run =>
    have hpage : page ≠ 0 := hclaims page (by rw [hc]; rfl)
    refine ⟨(s'.fillSlot at_ page).goto t (.hostWrite (page + 1) end_ run), ?_, ?_⟩
    · simp only [system, WriteTracker.step, WriteTracker.threadStep, hthread, hc]
    · simpa only [WriteTracker.goto, WriteTracker.fillSlot, Function.update_self] using hpage

theorem QueueInv.hasRoom (h : QueueInv s) : HasRoom s where
  room := h.ring.upper
  unread t at_ hat := (h.ring.slot t at_ hat).2.2
  served at_ stop pages hc hlt hempty := by
    obtain ⟨-, hstop⟩ := h.ring.limit at_ stop pages hc
    have hfilled := h.filled at_
    rw [hc] at hfilled
    obtain ⟨t, ht⟩ := hfilled (Nat.le_refl _) (Nat.lt_of_lt_of_le hlt hstop) hempty
    exact ⟨t, fillsNext_of_slot ht (h.claims t)⟩

end Served

/-- **The ring has room** in every run of steps that meet the condition: it holds what is enqueued,
no unread entry is overwritten, and no wait of `TakeFaulted` lasts. -/
theorem hasRoom_of_counted (ls : List (WriteEvent ι))
    (hok : (system ι).Meets Counted init ls) : (system ι).Always HasRoom init ls :=
  (system ι).always_of_invariant (fun _ _ _ h hok hs => QueueInv.step h hok hs)
    (fun _ h => QueueInv.hasRoom h) QueueInv.init hok

instance (s : WriteTracker ι) (e : WriteEvent ι) : Decidable (s.Counted e) := by
  induction e using WriteEvent.casesOn with
  | owner ok =>
    dsimp only [Counted]
    generalize s.owner = c
    induction c using Owner.casesOn <;> infer_instance
  | _ => exact instDecidableTrue

theorem hasRoom_writeRun : (system (Fin 1)).Always HasRoom init writeRun := by
  refine hasRoom_of_counted writeRun ⟨trivial, fun s hs => ⟨?_, fun s' hs' => ?_⟩⟩
  all_goals
    have harm : s = { init with owner := .allArmed 1 2 1 } := Option.some.inj (hs.symm.trans rfl)
    subst harm
  · -- nothing is protected before the first `Arm`
    intro _ _ _
    have hwaiting : ({ init with owner := .allArmed 1 2 1 } : WriteTracker (Fin 1)).waiting = 0 := by
      rw [waiting, enqueued, tally_eq_zero_iff.mpr fun _ => rfl]
      rfl
    have hprotected : ({ init with owner := .allArmed 1 2 1 } : WriteTracker (Fin 1)).protectedPages = 0 :=
      tally_eq_zero_iff.mpr fun _ => rfl
    rw [hwaiting, hprotected]
    exact Nat.zero_le _
  · have hrefuse : s' = { init with owner := .refuse 1 2 1 } := Option.some.inj (hs'.symm.trans rfl)
    subst hrefuse
    change (system (Fin 1)).Meets Counted { init with owner := .refuse 1 2 1 } (writeRun.drop 2)
    decide +kernel

/-! ## Released pages

A page that is armed, written and released leaves `armed_`, and its write waits in the ring. -/

/-- `n` pages have been armed, written and released, and `Collect` has not run. -/
structure Released (n : ℕ) (s : WriteTracker (Fin 1)) : Prop where
  owner : s.owner = .idle
  thread : s.thread 0 = .idle
  armed : s.armed = []
  armedPages : s.armedPages = 0
  head : s.queueHead = n
  tail : s.queueTail = 0
  open_ : ∀ p, n < p → s.state p = .kOpen
  reports : ∀ p, (s.reports p).volatileUntil = 0

def armRun (page : ℕ) : List (WriteEvent (Fin 1)) :=
  .arm (page * kPage) kPage :: List.replicate 7 (.owner true)

/-- It is written, and its handler puts it into the ring. -/
def faultRun (page : ℕ) : List (WriteEvent (Fin 1)) :=
  .fault ⟨0, Nat.zero_lt_one⟩ (page * kPage) :: List.replicate 4 (.thread ⟨0, Nat.zero_lt_one⟩ true)

def releaseRun (page : ℕ) : List (WriteEvent (Fin 1)) :=
  .release (page * kPage) kPage :: List.replicate 5 (.owner true)

theorem pageDown_mul (page : ℕ) : pageDown (page * kPage) = page :=
  Nat.mul_div_cancel page (by decide)

theorem pageUp_mul (page : ℕ) : pageUp (page * kPage + kPage) = page + 1 := by
  simp only [pageUp, kPage]
  omega

theorem exec_armRun {n : ℕ} {s : WriteTracker (Fin 1)} (h : Released n s) (hn : n + 1 < tablePages)
    (hspace : inAddressSpace ((n + 1) * kPage) kPage) : ∃ s', (system (Fin 1)).exec s (armRun (n + 1)) = some s' ∧
      s' = { s with
        everArmed := Function.update s.everArmed (n + 1) true
        state := Function.update s.state (n + 1) .kProtected
        readOnly := setRange s.readOnly (n + 1) (n + 2) true
        armed := [(n + 1, n + 2)]
        armedPages := 1
        owner := .idle
        trusted := setRange s.trusted (n + 1) (n + 2) true } := by
  have hcov : covered (n + 1) := covered_iff.mpr hn
  have hopen := h.open_ (n + 1) (Nat.lt_succ_self n)
  have hkb : 0 < kPage := by decide
  have hhalf : ¬kQueueSize / 2 ≤ 1 := by decide
  have hrep := h.reports (n + 1)
  have hins : insertRun [] (n + 1) (n + 2) = ([(n + 1, n + 2)], 1) := by
    simp [insertRun, seek, absorb]
  simp [armRun, LabelledSystem.exec, system, WriteTracker.step, h.owner, hkb, hspace, pageDown_mul, pageUp_mul,
    ownerStep, stepAllArmed, stepRefuse, stepMark, stepProtect, hcov, hopen, h.armedPages, hhalf, hrep, h.armed, hins]

theorem exec_faultRun {n : ℕ} {s : WriteTracker (Fin 1)} (hthread : s.thread 0 = .idle)
    (hn : n + 1 < tablePages) (hever : s.everArmed (n + 1) = true) (hprot : s.state (n + 1) = .kProtected) :
    ∃ s', (system (Fin 1)).exec s (faultRun (n + 1)) = some s' ∧
      s' = { s with
        state := Function.update s.state (n + 1) .kQueued
        readOnly := setRange s.readOnly (n + 1) (n + 2) false
        queue := Function.update s.queue (s.queueHead % kQueueSize) (n + 1)
        queueHead := s.queueHead + 1
        thread := Function.update s.thread 0 .idle } := by
  have hcov : covered (n + 1) := covered_iff.mpr hn
  simp [faultRun, LabelledSystem.exec, system, WriteTracker.step, hthread, pageDown_mul, WriteTracker.threadStep,
    WriteTracker.goto, onWriteFault, hever, takes, hcov, hprot, WriteTracker.take, openPages,
    WriteTracker.claimSlot, WriteTracker.fillSlot]

theorem exec_releaseRun {n : ℕ} {s : WriteTracker (Fin 1)} (howner : s.owner = .idle)
    (hspace : inAddressSpace ((n + 1) * kPage) kPage) (hqueued : s.state (n + 1) = .kQueued)
    (harmed : s.armed = [(n + 1, n + 2)]) (hpages : s.armedPages = 1) :
    ∃ s', (system (Fin 1)).exec s (releaseRun (n + 1)) = some s' ∧
      s' = { s with
        readOnly := setRange s.readOnly (n + 1) (n + 2) false
        armed := []
        armedPages := 0
        noted := s.noted ++ [(n + 1, n + 2)]
        owner := .idle } := by
  have hkb : 0 < kPage := by decide
  have herase : eraseRun [(n + 1, n + 2)] (n + 1) (n + 2) = ([], 1) := by
    simp [eraseRun, seek, cut, leftPiece]
  simp [releaseRun, LabelledSystem.exec, system, WriteTracker.step, howner, hkb, hspace, pageDown_mul, pageUp_mul,
    WriteTracker.ownerStep, stepDisarm, hqueued, stepDisarmOpen, stepDisarmErase, stepDisarmNote, demoteNext,
    harmed, hpages, herase]

theorem exec_released {n : ℕ} {s : WriteTracker (Fin 1)} (h : Released n s) (hn : n + 1 < tablePages)
    (hspace : inAddressSpace ((n + 1) * kPage) kPage) :
    ∃ s', (system (Fin 1)).exec s (armRun (n + 1) ++ faultRun (n + 1) ++ releaseRun (n + 1)) = some s' ∧
      Released (n + 1) s' := by
  obtain ⟨s₁, harm, hs₁⟩ := exec_armRun h hn hspace
  have hever : s₁.everArmed (n + 1) = true := by rw [hs₁]; exact Function.update_self ..
  have hprot : s₁.state (n + 1) = .kProtected := by rw [hs₁]; exact Function.update_self ..
  obtain ⟨s₂, hfault, hs₂⟩ := exec_faultRun (by rw [hs₁]; exact h.thread) hn hever hprot
  have hqueued : s₂.state (n + 1) = .kQueued := by rw [hs₂]; exact Function.update_self ..
  obtain ⟨s₃, hrelease, hs₃⟩ := exec_releaseRun (by rw [hs₂, hs₁]) hspace hqueued (by rw [hs₂, hs₁])
    (by rw [hs₂, hs₁])
  refine ⟨s₃, ?_, ?_⟩
  · rw [LabelledSystem.exec_append, LabelledSystem.exec_append, harm, Option.bind_some, hfault,
      Option.bind_some, hrelease]
  · rw [hs₃, hs₂, hs₁]
    refine ⟨rfl, ?_, rfl, rfl, congrArg (· + 1) h.head, h.tail, fun p hp => ?_, h.reports⟩
    · change Function.update s.thread 0 .idle 0 = .idle
      exact Function.update_self ..
    · have hne : p ≠ n + 1 := by omega
      change Function.update (Function.update s.state (n + 1) .kProtected) (n + 1) .kQueued p = .kOpen
      rw [Function.update_of_ne hne, Function.update_of_ne hne]
      exact h.open_ p (by omega)

/-- Pages 1 to `n`, each armed, written and released. -/
def releaseRuns (n : ℕ) : List (WriteEvent (Fin 1)) :=
  (List.range n).flatMap fun i => armRun (i + 1) ++ faultRun (i + 1) ++ releaseRun (i + 1)

theorem exec_releaseRuns (n : ℕ) (hn : n < 2 ^ 21) :
    ∃ s, (system (Fin 1)).exec init (releaseRuns n) = some s ∧ Released n s := by
  induction n with
  | zero => exact ⟨init, rfl, ⟨rfl, rfl, rfl, rfl, rfl, rfl, fun _ _ => rfl, fun _ => rfl⟩⟩
  | succ n ih =>
    have hless : n < 2 ^ 21 := Nat.lt_of_le_of_lt (Nat.le_succ n) hn
    obtain ⟨s, hs, hreleased⟩ := ih hless
    have hpage : n + 1 < tablePages := by
      rw [← covered_iff]
      simp only [covered, kPagesPerChunk, kChunks]
      omega
    have hspace : inAddressSpace ((n + 1) * kPage) kPage := by
      simp only [inAddressSpace, kPage]
      omega
    obtain ⟨s', hs', hreleased'⟩ := exec_released hreleased hpage hspace
    refine ⟨s', ?_, hreleased'⟩
    rw [releaseRuns, List.range_succ, List.flatMap_append, LabelledSystem.exec_append]
    rw [releaseRuns] at hs
    rw [hs, Option.bind_some, List.flatMap_singleton, hs']

/-- **Released pages fill the ring**: their writes wait in it, and `armed_bytes_` counts none of
them. -/
theorem released_pages_fill_ring : ¬∀ ls, (system (Fin 1)).Always HasRoom init ls := by
  intro h
  have hfull : kQueueSize + 1 < 2 ^ 21 := by
    rw [kQueueSize]
    omega
  obtain ⟨s, hs, hreleased⟩ := exec_releaseRuns _ hfull
  have hroom := (LabelledSystem.Always.last (system (Fin 1)) (h _) hs).room
  rw [hreleased.owner, hreleased.head] at hroom
  simp only [Owner.cursor, hreleased.tail] at hroom
  omega

end WriteTracker

end Prosperity.Gpu
