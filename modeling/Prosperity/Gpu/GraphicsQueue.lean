import Mathlib.Logic.Function.Basic
import Prosperity.Foundations.Serial

/-!
# Submissions of the graphics queue

Threads hand command buffers to the command processor, which walks them under one mutex. The walk of a
graphics buffer that comes to a wait gives the mutex up while it polls; the walk of a ring buffer keeps it
and ends at a wait that does not pass. The registers belong to the queue that is walked, and there is one
graphics queue for all threads.

Packets are what they do to the registers of their queue, and waits by address. Whether memory satisfies a
wait, and whether time is over, is left open.
-/

namespace Prosperity.Gpu

inductive QueueId where
  | graphics
  | ring (queue : ℕ)
  deriving DecidableEq

inductive WalkPacket (ρ : Type) where
  | work (effect : ρ → ρ)
  | wait (address : ℕ)

/-- Where a thread is. A submission of the graphics queue has a number. -/
inductive SubmitPhase (ρ : Type) where
  | idle
  /-- In the walk of `SubmitDcb` or `SubmitCcb`, with the mutex. -/
  | walk (id : ℕ) (rest : List (WalkPacket ρ))
  /-- In `WaitBriefly`, with the mutex; `queue` is its copy of `g_queue`. -/
  | look (id : ℕ) (address : ℕ) (rest : List (WalkPacket ρ)) (queue : QueueId)
  /-- In `WaitLabelWritten`, without the mutex. -/
  | poll (id : ℕ) (address : ℕ) (rest : List (WalkPacket ρ)) (queue : QueueId)
  /-- In the walk of `SubmitDcbRing`. -/
  | ring (rest : List (WalkPacket ρ))

namespace SubmitPhase

variable {ρ : Type}

/-- The thread has the mutex. -/
def Holds : SubmitPhase ρ → Prop
  | idle | poll .. => False
  | _ => True

def Graphics : SubmitPhase ρ → Prop
  | walk .. | look .. => True
  | _ => False

def Ring : SubmitPhase ρ → Prop
  | ring _ => True
  | _ => False

def submission : SubmitPhase ρ → Option ℕ
  | walk id _ | look id _ _ _ | poll id _ _ _ => some id
  | _ => none

/-- The copy of `g_queue`. -/
def saved : SubmitPhase ρ → Option QueueId
  | look _ _ _ queue | poll _ _ _ queue => some queue
  | _ => none

end SubmitPhase

structure Cp (ι ρ : Type) where
  /-- `g_mutex`. -/
  holder : Option ι := none
  /-- `g_queue`. -/
  queue : QueueId := .graphics
  regs : QueueId → ρ
  timeouts : ℕ → ℕ := fun _ => 0
  phase : ι → SubmitPhase ρ := fun _ => .idle
  /-- The graphics submissions so far. -/
  started : ℕ := 0

namespace Cp

variable {ι ρ : Type} [DecidableEq ι]

def setPhase (s : Cp ι ρ) (t : ι) (p : SubmitPhase ρ) : Cp ι ρ :=
  { s with phase := Function.update s.phase t p }

/-- A packet changes the registers of the queue that is walked. -/
def apply (s : Cp ι ρ) (effect : ρ → ρ) : Cp ι ρ :=
  { s with regs := Function.update s.regs s.queue (effect (s.regs s.queue)) }

/-- A step of the thread `t`; the action is the one of a graphics packet. -/
inductive Step (t : ι) : Cp ι ρ → Option (SerialAction ρ) → Cp ι ρ → Prop where
  /-- `SubmitDcb` takes the mutex. -/
  | enter {s : Cp ι ρ} (packets : List (WalkPacket ρ)) : s.phase t = .idle → s.holder = none →
      Step t s none ({ s with holder := some t, started := s.started + 1 }.setPhase t
        (.walk (s.started + 1) packets))
  | work {s : Cp ι ρ} {id : ℕ} {effect : ρ → ρ} {rest : List (WalkPacket ρ)} :
      s.phase t = .walk id (.work effect :: rest) →
      Step t s (some ⟨id, effect, s.regs s.queue⟩) ((s.apply effect).setPhase t (.walk id rest))
  /-- The wait is satisfied. -/
  | pass {s : Cp ι ρ} {id address : ℕ} {rest : List (WalkPacket ρ)} :
      s.phase t = .walk id (.wait address :: rest) → Step t s none (s.setPhase t (.walk id rest))
  /-- `WaitBriefly` does not wait for an address that timed out three times. -/
  | skip {s : Cp ι ρ} {id address : ℕ} {rest : List (WalkPacket ρ)} :
      s.phase t = .walk id (.wait address :: rest) → 3 ≤ s.timeouts address →
      Step t s none (s.setPhase t (.walk id rest))
  | wait {s : Cp ι ρ} {id address : ℕ} {rest : List (WalkPacket ρ)} :
      s.phase t = .walk id (.wait address :: rest) → s.timeouts address < 3 →
      Step t s none (s.setPhase t (.look id address rest s.queue))
  | satisfied {s : Cp ι ρ} {id address : ℕ} {rest : List (WalkPacket ρ)} {queue : QueueId} :
      s.phase t = .look id address rest queue →
      Step t s none ({ s with timeouts := Function.update s.timeouts address 0 }.setPhase t (.walk id rest))
  | giveUp {s : Cp ι ρ} {id address : ℕ} {rest : List (WalkPacket ρ)} {queue : QueueId} :
      s.phase t = .look id address rest queue →
      Step t s none ({ s with
        timeouts := Function.update s.timeouts address (s.timeouts address + 1) }.setPhase t (.walk id rest))
  /-- The session stops. -/
  | stopping {s : Cp ι ρ} {id address : ℕ} {rest : List (WalkPacket ρ)} {queue : QueueId} :
      s.phase t = .look id address rest queue → Step t s none (s.setPhase t (.walk id rest))
  | unlock {s : Cp ι ρ} {id address : ℕ} {rest : List (WalkPacket ρ)} {queue : QueueId} :
      s.phase t = .look id address rest queue →
      Step t s none ({ s with holder := none }.setPhase t (.poll id address rest queue))
  /-- The mutex is taken again, and `g_queue` is put back. -/
  | lock {s : Cp ι ρ} {id address : ℕ} {rest : List (WalkPacket ρ)} {queue : QueueId} :
      s.phase t = .poll id address rest queue → s.holder = none →
      Step t s none ({ s with holder := some t, queue := queue }.setPhase t (.look id address rest queue))
  | leave {s : Cp ι ρ} {id : ℕ} : s.phase t = .walk id [] →
      Step t s none ({ s with holder := none }.setPhase t .idle)
  /-- `SubmitDcbRing` takes the mutex and walks its own queue. -/
  | enterRing {s : Cp ι ρ} (queue : ℕ) (packets : List (WalkPacket ρ)) : s.phase t = .idle → s.holder = none →
      Step t s none ({ s with holder := some t, queue := .ring queue }.setPhase t (.ring packets))
  | ringWork {s : Cp ι ρ} {effect : ρ → ρ} {rest : List (WalkPacket ρ)} : s.phase t = .ring (.work effect :: rest) →
      Step t s none ((s.apply effect).setPhase t (.ring rest))
  | ringPass {s : Cp ι ρ} {address : ℕ} {rest : List (WalkPacket ρ)} :
      s.phase t = .ring (.wait address :: rest) → Step t s none (s.setPhase t (.ring rest))
  /-- The walk of a ring ends, with its buffer or at a wait, and `g_queue` is the graphics queue. -/
  | ringLeave {s : Cp ι ρ} {rest : List (WalkPacket ρ)} : s.phase t = .ring rest →
      Step t s none ({ s with holder := none, queue := .graphics }.setPhase t .idle)

def Quiet (s : Cp ι ρ) : Prop := ∀ t, (s.phase t).submission = none

end Cp

/-- The states that are reached, with the actions of the graphics packets. With `exclusive`, a graphics
submission begins only where no other one is in the middle of its buffer. -/
inductive CpRun {ι ρ : Type} [DecidableEq ι] (exclusive : Bool) (regs : QueueId → ρ) :
    List (SerialAction ρ) → Cp ι ρ → Prop where
  | start : CpRun exclusive regs [] { regs := regs }
  | step {history : List (SerialAction ρ)} {s s' : Cp ι ρ} {t : ι} {action : Option (SerialAction ρ)} :
      CpRun exclusive regs history s → Cp.Step t s action s' →
      (exclusive = true → s.started < s'.started → s.Quiet) →
      CpRun exclusive regs (history ++ action.toList) s'

/-! ## Invariants -/

section Inv

variable {ι ρ : Type}

/-- The mutex, and the queue that is walked under it. -/
structure Cp.Locked (s : Cp ι ρ) : Prop where
  holder : ∀ t, (s.phase t).Holds → s.holder = some t
  free : s.holder = none → s.queue = .graphics
  graphics : ∀ t, (s.phase t).Graphics → s.queue = .graphics
  ring : ∀ t, (s.phase t).Ring → s.queue ≠ .graphics
  saved : ∀ t queue, (s.phase t).saved = some queue → queue = .graphics

structure Cp.Own (s : Cp ι ρ) (t : ι) : Prop where
  holder : (s.phase t).Holds → s.holder = some t
  other : s.holder = none ∨ s.holder = some t
  free : s.holder = none → s.queue = .graphics
  graphics : (s.phase t).Graphics → s.queue = .graphics
  ring : (s.phase t).Ring → s.queue ≠ .graphics
  saved : ∀ queue, (s.phase t).saved = some queue → queue = .graphics

theorem Cp.Own.of_eq {s : Cp ι ρ} {t : ι} {p : SubmitPhase ρ} (hp : s.phase t = p)
    (holder : p.Holds → s.holder = some t) (other : s.holder = none ∨ s.holder = some t)
    (free : s.holder = none → s.queue = .graphics) (graphics : p.Graphics → s.queue = .graphics)
    (ring : p.Ring → s.queue ≠ .graphics) (saved : ∀ queue, p.saved = some queue → queue = .graphics) : s.Own t := by
  subst hp
  exact ⟨holder, other, free, graphics, ring, saved⟩

theorem SubmitPhase.Graphics.holds {p : SubmitPhase ρ} (h : p.Graphics) : p.Holds := by
  cases p <;> trivial

theorem SubmitPhase.Ring.holds {p : SubmitPhase ρ} (h : p.Ring) : p.Holds := by
  cases p <;> trivial

variable [DecidableEq ι]

theorem Cp.Locked.move {s s' : Cp ι ρ} {t : ι} (h : s.Locked)
    (hphase : ∀ u, u ≠ t → s'.phase u = s.phase u) (hmutex : s.holder = some t ∨ s.holder = none)
    (hown : s'.Own t) : s'.Locked := by
  have hnot : ∀ u, u ≠ t → ¬(s'.phase u).Holds := by
    intro u hne hholds
    rw [hphase u hne] at hholds
    have hholder := h.holder u hholds
    obtain heq | heq := hmutex
    · exact hne (Option.some.inj (hholder.symm.trans heq))
    · rw [heq] at hholder
      cases hholder
  refine ⟨fun u hholds => ?_, hown.free, fun u hgraphics => ?_, fun u hring => ?_,
    fun u queue hsaved => ?_⟩
  · by_cases heq : u = t
    · subst heq
      exact hown.holder hholds
    · exact absurd hholds (hnot u heq)
  · by_cases heq : u = t
    · subst heq
      exact hown.graphics hgraphics
    · exact absurd hgraphics.holds (hnot u heq)
  · by_cases heq : u = t
    · subst heq
      exact hown.ring hring
    · exact absurd hring.holds (hnot u heq)
  · by_cases heq : u = t
    · subst heq
      exact hown.saved queue hsaved
    · rw [hphase u heq] at hsaved
      exact h.saved u queue hsaved

theorem Cp.setPhase_self (s : Cp ι ρ) (t : ι) (p : SubmitPhase ρ) : (s.setPhase t p).phase t = p :=
  Function.update_self _ _ _

theorem Cp.Step.phase_of_ne {s s' : Cp ι ρ} {t u : ι} {action : Option (SerialAction ρ)}
    (h : Cp.Step t s action s') (hne : u ≠ t) : s'.phase u = s.phase u := by
  cases h <;> exact Function.update_of_ne hne _ _

theorem Cp.Locked.step {s s' : Cp ι ρ} {t : ι} {action : Option (SerialAction ρ)} (h : s.Locked)
    (hstep : Cp.Step t s action s') : s'.Locked := by
  have hheld : (s.phase t).Holds → s.holder = some t := h.holder t
  have hwalk : (s.phase t).Graphics → s.queue = .graphics := h.graphics t
  have hring : (s.phase t).Ring → s.queue ≠ .graphics := h.ring t
  have hsaved := h.saved t
  refine h.move (fun u hne => hstep.phase_of_ne hne) ?_ ?_
  · cases hstep <;> simp_all [SubmitPhase.Holds]
  · cases hstep <;> refine .of_eq (Function.update_self _ _ _) ?_ ?_ ?_ ?_ ?_ ?_ <;>
      simp_all [SubmitPhase.Holds, SubmitPhase.Graphics, SubmitPhase.Ring, SubmitPhase.saved, Cp.setPhase, Cp.apply, h.free]

structure Cp.Recorded (regs : QueueId → ρ) (history : List (SerialAction ρ)) (s : Cp ι ρ) : Prop where
  saw : Saw (regs .graphics) history
  leaves : leaves (regs .graphics) history = s.regs .graphics
  owner_le : ∀ a ∈ history, a.owner ≤ s.started

omit [DecidableEq ι] in
theorem Cp.apply_regs (s : Cp ι ρ) (effect : ρ → ρ) : (s.apply effect).regs .graphics =
      if s.queue = .graphics then effect (s.regs .graphics) else s.regs .graphics := by
  by_cases h : s.queue = .graphics
  · rw [if_pos h, ← h]
    exact Function.update_self s.queue _ s.regs
  · rw [if_neg h]
    exact Function.update_of_ne (Ne.symm h) _ s.regs

theorem Cp.Step.action_cases {s s' : Cp ι ρ} {t : ι} {action : Option (SerialAction ρ)} (h : Cp.Step t s action s') :
    (action = none ∧ s.started ≤ s'.started ∧
      (s'.regs = s.regs ∨ ∃ rest effect, s.phase t = .ring (.work effect :: rest) ∧ s'.regs = (s.apply effect).regs)) ∨
    (∃ id effect rest, s.phase t = .walk id (.work effect :: rest) ∧
      action = some ⟨id, effect, s.regs s.queue⟩ ∧ s'.regs = (s.apply effect).regs ∧ s'.started = s.started) := by
  cases h with
  | enter packets _ _ => exact .inl ⟨rfl, Nat.le_succ _, .inl rfl⟩
  | work hphase => exact .inr ⟨_, _, _, hphase, rfl, rfl, rfl⟩
  | ringWork hphase => exact .inl ⟨rfl, Nat.le_refl _, .inr ⟨_, _, hphase, rfl⟩⟩
  | _ => exact .inl ⟨rfl, Nat.le_refl _, .inl rfl⟩

def Cp.Numbered (s : Cp ι ρ) : Prop := ∀ t id, (s.phase t).submission = some id → id ≤ s.started

theorem Cp.Step.submission_cases {s s' : Cp ι ρ} {t : ι} {action : Option (SerialAction ρ)}
    (h : Cp.Step t s action s') :
    ((s'.phase t).submission = some (s.started + 1) ∧ s'.started = s.started + 1) ∨ (s'.started = s.started ∧
        ((s'.phase t).submission = none ∨ (s'.phase t).submission = (s.phase t).submission)) := by
  have hself : ∀ (s : Cp ι ρ) (p : SubmitPhase ρ), (s.setPhase t p).phase t = p :=
    fun s p => s.setPhase_self t p
  cases h with
  | enter packets _ _ => exact .inl ⟨by rw [hself]; rfl, rfl⟩
  | leave _ | enterRing queue packets _ _ | ringWork _ | ringPass _
  | ringLeave _ => exact .inr ⟨rfl, .inl (by rw [hself]; rfl)⟩
  | work hphase | pass hphase | skip hphase _ | wait hphase _ | satisfied hphase | giveUp hphase | stopping hphase
  | unlock hphase | lock hphase _ => exact .inr ⟨rfl, .inr (by rw [hself, hphase]; rfl)⟩

variable {exclusive : Bool} {regs : QueueId → ρ} {history : List (SerialAction ρ)} {s : Cp ι ρ}

theorem CpRun.locked (h : CpRun exclusive regs history s) : s.Locked := by
  induction h with
  | start => exact ⟨fun _ h => h.elim, fun _ => rfl, fun _ h => h.elim, fun _ h => h.elim, fun _ _ h => nomatch h⟩
  | step _ hstep _ ih => exact ih.step hstep

theorem CpRun.numbered (h : CpRun exclusive regs history s) : s.Numbered := by
  induction h with
  | start => exact fun _ _ h => nomatch h
  | @step history s s' t action _ hstep _ ih =>
    intro u id hu
    by_cases heq : u = t
    · subst heq
      obtain ⟨hid, hstarted⟩ | ⟨hstarted, hid | hid⟩ := hstep.submission_cases
      · rw [hid] at hu
        exact Nat.le_of_eq ((Option.some.inj hu).symm.trans hstarted.symm)
      · rw [hid] at hu
        cases hu
      · rw [hid] at hu
        rw [hstarted]
        exact ih u id hu
    · rw [hstep.phase_of_ne heq] at hu
      have hle := ih u id hu
      obtain ⟨-, hstarted⟩ | ⟨hstarted, -⟩ := hstep.submission_cases <;> omega

/-- **Each graphics packet sees what the ones before it leave**, in every run. -/
theorem CpRun.recorded (h : CpRun exclusive regs history s) : s.Recorded regs history := by
  induction h with
  | start => exact ⟨trivial, rfl, fun _ h => absurd h List.not_mem_nil⟩
  | @step history s s' t action hrun hstep _ ih =>
    obtain ⟨rfl, hstarted, hregs⟩ | ⟨id, effect, rest, hphase, rfl, hregs, hstarted⟩ := hstep.action_cases
    · rw [Option.toList_none, List.append_nil]
      refine ⟨ih.saw, ih.leaves.trans ?_, fun a ha => Nat.le_trans (ih.owner_le a ha) hstarted⟩
      obtain hregs | ⟨rest, effect, hphase, hregs⟩ := hregs
      · rw [hregs]
      · -- a ring has the mutex, and another queue is walked
        rw [hregs, Cp.apply_regs]
        have hring : s.queue ≠ .graphics := hrun.locked.ring t (by rw [hphase]; trivial)
        rw [if_neg hring]
    · have hqueue : s.queue = .graphics := hrun.locked.graphics t (by rw [hphase]; trivial)
      rw [Option.toList_some]
      refine ⟨saw_snoc ih.saw ?_, ?_, fun a ha => ?_⟩
      · rw [ih.leaves, hqueue]
      · rw [leaves_snoc, ih.leaves, hregs, Cp.apply_regs, if_pos hqueue]
      · rw [hstarted]
        obtain ha | ha := List.mem_append.mp ha
        · exact ih.owner_le a ha
        · rw [List.mem_singleton.mp ha]
          exact hrun.numbered t id (by rw [hphase]; rfl)

theorem CpRun.current (h : CpRun true regs history s) {t : ι} {id : ℕ}
    (hid : (s.phase t).submission = some id) : id = s.started := by
  induction h generalizing t id with
  | start => cases hid
  | @step history s s' u action _ hstep hquiet ih =>
    by_cases heq : t = u
    · subst heq
      obtain ⟨hnew, hstarted⟩ | ⟨hstarted, hnone | hsame⟩ := hstep.submission_cases
      · rw [hnew] at hid
        exact (Option.some.inj hid).symm.trans hstarted.symm
      · rw [hnone] at hid
        cases hid
      · rw [hsame] at hid
        exact (ih hid).trans hstarted.symm
    · rw [hstep.phase_of_ne heq] at hid
      obtain ⟨-, hstarted⟩ | ⟨hstarted, -⟩ := hstep.submission_cases
      · -- the other one would be in the middle of its buffer
        rw [hquiet rfl (by omega) t] at hid
        cases hid
      · exact (ih hid).trans hstarted.symm

theorem CpRun.sorted (h : CpRun true regs history s) : history.Pairwise fun a b => a.owner ≤ b.owner := by
  induction h with
  | start => exact .nil
  | @step history s s' t action hrun hstep _ ih =>
    obtain ⟨rfl, -, -⟩ | ⟨id, effect, rest, hphase, rfl, -, -⟩ := hstep.action_cases
    · rw [Option.toList_none, List.append_nil]
      exact ih
    · refine List.pairwise_append.mpr ⟨ih, List.pairwise_singleton _ _, fun a ha b hb => ?_⟩
      have hid : id = s.started := hrun.current (t := t) (by rw [hphase]; rfl)
      rw [List.mem_singleton.mp hb, hid]
      exact hrun.recorded.owner_le a ha

end Inv

/-! ## Runs of two threads -/

section TwoThreads

def waitingBuffer : List (WalkPacket ℕ) := [.work fun _ => 1, .wait 0, .work id]

def otherBuffer : List (WalkPacket ℕ) := [.work fun _ => 2]

end TwoThreads

end Prosperity.Gpu
