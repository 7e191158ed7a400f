import Mathlib.Data.List.Sort
import Prosperity.Foundations.LinkedQueue
import Prosperity.Foundations.Threads
import Prosperity.Kern.SysError

/-!
# Waiting on a word

`UMTX_OP_WAIT` and its kin queue the caller on the address until the word changes, a `WAKE` selects the caller or
the deadline passes. The queue of an address is a linked list of nodes on the waiters' own stacks. It is only touched
under the bucket's mutex, so each turn of a call under that mutex is one step.
-/

namespace Prosperity.Kern

structure SimpleWaiters (ι : Type*) extends Links ι where
  queued : ι → Bool
  selected : ι → Bool

/-- The nodes and the channels. `arrival` and `wakes` belong to the account that this development keeps: when a thread
has last begun to wait, and how many wakes have selected it since. -/
structure WaitChans (ι : Type*) where
  waiters : SimpleWaiters ι
  chan : ℕ → Ends ι
  clock : ℕ
  arrival : ι → ℕ
  wakes : ι → ℕ

inductive WaitOp
  | long
  | uint
deriving DecidableEq

/-- A thread: outside with what its last call has returned, asleep in `WAIT`, or between two addresses of `NWAKE`. -/
inductive WaitThread
  | idle (ret : ℤ)
  | asleep (addr : ℕ) (op : WaitOp) (val : UInt64) (deadline : Option ℕ)
  | waking (addrs : List ℕ)
deriving DecidableEq

inductive WaitAction
  | wait (addr : ℕ) (op : WaitOp) (val : UInt64) (deadline : Option ℕ) (word : UInt64) (now : ℕ) (stopping : Bool)
  | turn (word : UInt64) (now : ℕ) (stopping : Bool)
  | wake (addr : ℕ) (val : UInt64)
  | nwake (addrs : List ℕ)
  | wakeNext
deriving DecidableEq

/-- The value to wake as the number of waiters. The kernel narrows it to `int` and wakes one even for nothing. -/
def wakeCount (requested : UInt64) : ℕ :=
  let count := requested.toInt64.toInt32.toInt
  if count > 1 then count.toNat else 1

namespace WaitChans

variable {ι : Type*} [DecidableEq ι]

/-- A new node. -/
def fresh (s : WaitChans ι) (t : ι) : WaitChans ι :=
  { s with
    waiters :=
      { (s.waiters.toLinks.setPrev t none).setNext t none with
        queued := Function.update s.waiters.queued t false
        selected := Function.update s.waiters.selected t false }
    clock := s.clock + 1
    arrival := Function.update s.arrival t s.clock
    wakes := Function.update s.wakes t 0 }

def queueSimple (s : WaitChans ι) (addr : ℕ) (t : ι) : WaitChans ι :=
  let r := s.waiters.toLinks.pushBack (s.chan addr) t
  { s with
    waiters := { r.1 with queued := Function.update s.waiters.queued t true, selected := s.waiters.selected }
    chan := Function.update s.chan addr r.2 }

def removeSimple (s : WaitChans ι) (addr : ℕ) (t : ι) : WaitChans ι :=
  if s.waiters.queued t = false then s
  else
    let r := s.waiters.toLinks.unlink (s.chan addr) t
    { s with
      waiters := { r.1 with queued := Function.update s.waiters.queued t false, selected := s.waiters.selected }
      chan := Function.update s.chan addr r.2 }

def select (s : WaitChans ι) (t : ι) : WaitChans ι :=
  { s with
    waiters := { s.waiters with selected := Function.update s.waiters.selected t true }
    wakes := Function.update s.wakes t (s.wakes t + 1) }

/-- The loop of `WakeSimple`. -/
def wakeLoop (addr : ℕ) : ℕ → WaitChans ι → WaitChans ι
  | 0, s => s
  | remaining + 1, s =>
    match (s.chan addr).head with
    | none => s
    | some t => wakeLoop addr remaining ((s.removeSimple addr t).select t)

def wakeSimple (s : WaitChans ι) (addr : ℕ) (requested : UInt64) : WaitChans ι :=
  wakeLoop addr (wakeCount requested) s

end WaitChans

namespace SimpleWait

variable {ι : Type*} [DecidableEq ι]

def changed (op : WaitOp) (val word : UInt64) : Bool :=
  match op with
  | .long => word != val
  | .uint => word.toUInt32 != val.toUInt32

/-- A turn of the loop of `WAIT`: it is left, or the deadline has passed, or the caller sleeps. -/
def turn (s : WaitChans ι) (t : ι) (addr : ℕ) (op : WaitOp) (val : UInt64) (deadline : Option ℕ) (word : UInt64)
    (now : ℕ) (stopping : Bool) : WaitChans ι × WaitThread :=
  if !stopping && !changed op val word && !s.waiters.selected t then
    if deadline.any fun dl => now ≥ dl then (s.removeSimple addr t, .idle (-SysError.eTIMEDOUT.code))
    else (s, .asleep addr op val deadline)
  else (s.removeSimple addr t, .idle 0)

def act (t : ι) : WaitAction → WaitChans ι → WaitThread → Option (WaitChans ι × WaitThread)
  | .wait addr op val deadline word now stopping, s, .idle _ =>
    some (turn ((s.fresh t).queueSimple addr t) t addr op val deadline word now stopping)
  | .turn word now stopping, s, .asleep addr op val deadline => some (turn s t addr op val deadline word now stopping)
  | .wake addr val, s, .idle _ => some (s.wakeSimple addr val, .idle 0)
  | .nwake addrs, s, .idle _ => some (s, .waking addrs)
  | .wakeNext, s, .waking [] => some (s, .idle 0)
  | .wakeNext, s, .waking (addr :: addrs) => some (s.wakeSimple addr 0x7fffffff, .waking addrs)
  | _, _, _ => none

def system (ι : Type*) [DecidableEq ι] : LabelledSystem (Threads ι (WaitChans ι) WaitThread) (ι × WaitAction) :=
  (⟨act⟩ : ThreadSystem ..).system

def init : Threads ι (WaitChans ι) WaitThread where
  shared :=
    { waiters := ⟨⟨fun _ => none, fun _ => none⟩, fun _ => false, fun _ => false⟩
      chan _ := ⟨none, none⟩
      clock := 0
      arrival _ := 0
      wakes _ := 0 }
  thread _ := .idle 0

def Waits (s : Threads ι (WaitChans ι) WaitThread) (addr : ℕ) (t : ι) : Prop :=
  (∃ op val deadline, s.thread t = .asleep addr op val deadline) ∧ s.shared.waiters.selected t = false

structure IsQueue (s : Threads ι (WaitChans ι) WaitThread) (addr : ℕ) (q : List ι) : Prop where
  linked : Linked s.shared.waiters.toLinks (s.shared.chan addr) q
  waits : ∀ t, t ∈ q ↔ Waits s addr t
  arrival : q.Pairwise fun t u => s.shared.arrival t < s.shared.arrival u

/-- What every reachable state promises. -/
structure Sound (s : Threads ι (WaitChans ι) WaitThread) : Prop where
  queues : ∀ addr, ∃ q, IsQueue s addr q
  wakes : ∀ t, s.shared.wakes t ≤ 1
  selected : ∀ t, s.shared.waiters.selected t = true ↔ s.shared.wakes t = 1
  timedOut : ∀ t, s.thread t = .idle (-SysError.eTIMEDOUT.code) → s.shared.waiters.selected t = false

def Wakes (s : Threads ι (WaitChans ι) WaitThread) (e : ι × WaitAction) (addr : ℕ) (n : UInt64) : Prop :=
  e.2 = .wake addr n ∨ e.2 = .wakeNext ∧ n = 0x7fffffff ∧ ∃ addrs, s.thread e.1 = .waking (addr :: addrs)

/-- **A wake selects the oldest**: as many as it is for, but one at least and no more than there are. -/
def WakesOldest (s : Threads ι (WaitChans ι) WaitThread) (e : ι × WaitAction)
    (s' : Threads ι (WaitChans ι) WaitThread) : Prop :=
  ∀ addr n, Wakes s e addr n → ∀ q, IsQueue s addr q →
    ∃ k : ℕ, (k : ℤ) = min (max n.toInt64.toInt32.toInt 1) q.length ∧ IsQueue s' addr (q.drop k) ∧
      ∀ t, s'.shared.waiters.selected t = true ↔ s.shared.waiters.selected t = true ∨ t ∈ q.take k

end SimpleWait

end Prosperity.Kern
