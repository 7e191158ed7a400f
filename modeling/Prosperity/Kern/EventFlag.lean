import Mathlib.Data.BitVec
import Mathlib.Data.List.Perm.Basic
import Mathlib.Data.List.Pairwise
import Prosperity.Foundations.Execution
import Prosperity.Kern.SysError

/-!
# The kernel event flag

`EventFlag`: 64 bits that threads wait on, each with a pattern, an AND or OR test and a clear
mode. Every method runs under the flag's mutex and so is one step, except that `Wait` gives the
mutex up while it sleeps on its queued `Waiter`. `Set` commits the waits it satisfies while it
holds the mutex, so a wait may be complete long before its thread runs again.
-/

namespace Prosperity.Kern

abbrev EvfBits := BitVec 64

abbrev EvfMode := BitVec 32

namespace EventFlag

def kEvfOr : EvfMode := 0x02
def kEvfClearAll : EvfMode := 0x10
def kEvfClearPat : EvfMode := 0x20

def satisfied (bits pattern : EvfBits) (mode : EvfMode) : Bool :=
  if mode &&& kEvfOr ≠ 0 then bits &&& pattern ≠ 0 else bits &&& pattern = pattern

def cleared (bits pattern : EvfBits) (mode : EvfMode) : EvfBits :=
  if mode &&& kEvfClearAll ≠ 0 then 0
  else if mode &&& kEvfClearPat ≠ 0 then bits &&& ~~~pattern
  else bits

/-- `Take`: the bits after a successful wait, whose result is the bits before it. -/
def take (sticky bits pattern : EvfBits) (mode : EvfMode) : EvfBits :=
  cleared bits pattern mode ||| sticky

end EventFlag

/-- The record a sleeping `Wait` queues. `serial` is the ghost number of its call. -/
structure Waiter where
  pattern : EvfBits
  mode : EvfMode
  result : EvfBits
  done : Bool
  cancelled : Bool
  serial : ℕ
  deriving DecidableEq

/-- A completed wait: by its match, with the bits it matched as its result, or by a `Cancel`. -/
structure Completion where
  serial : ℕ
  pattern : EvfBits
  mode : EvfMode
  result : EvfBits
  cancelled : Bool
  deriving DecidableEq

def Waiter.completion (w : Waiter) : Completion :=
  ⟨w.serial, w.pattern, w.mode, w.result, w.cancelled⟩

def Waiter.matched (w : Waiter) (b : EvfBits) : Waiter := { w with result := b, done := true }

/-- The waiter, cancelled with the pattern `p`. -/
def Waiter.cancel (w : Waiter) (p : EvfBits) : Waiter :=
  { w with result := p, cancelled := true, done := true }

inductive EvfReply where
  | ok (result : EvfBits)
  | cancelledWaiters (n : ℕ)
  | error (e : SysError)
  deriving DecidableEq

structure EvfState (ι : Type*) where
  bits : EvfBits
  sticky : EvfBits
  /-- `waiters_`: the queued waits, each with the thread that sleeps on it and whether it sleeps
  for a limited time only. -/
  waiters : List (ι × Bool × Waiter)
  /-- What the calls have answered, the latest first. -/
  replies : List (ι × EvfReply)
  nextSerial : ℕ
  completions : List Completion

/-- The methods, as thread `t` calls them. `resume` and `timeout` are the two ends of a sleep. -/
inductive EvfEvent (ι : Type*) where
  | set (t : ι) (b : EvfBits)
  | clear (t : ι) (b : EvfBits)
  | trywait (t : ι) (pattern : EvfBits) (mode : EvfMode)
  | wait (t : ι) (pattern : EvfBits) (mode : EvfMode) (timed : Bool)
  | cancel (t : ι) (pattern : EvfBits)
  | resume (t : ι)
  | timeout (t : ι)

namespace EventFlag

variable {ι : Type*}

/-- The loop of `Set` over the queue: the bits, the queue and the waits completed. -/
def serve (sticky : EvfBits) : EvfBits → List (ι × Bool × Waiter) → EvfBits × List (ι × Bool × Waiter) × List Completion
  | b, [] => (b, [], [])
  | b, (t, timed, w) :: q =>
    if w.done || !satisfied b w.pattern w.mode then
      let (b', q', cs) := serve sticky b q
      (b', (t, timed, w) :: q', cs)
    else
      let (b', q', cs) := serve sticky (take sticky b w.pattern w.mode) q
      (b', (t, timed, w.matched b) :: q', (w.matched b).completion :: cs)

/-- The loop of `Cancel` over the queue: the queue and the waits completed. -/
def cancelAll (p : EvfBits) : List (ι × Bool × Waiter) → List (ι × Bool × Waiter) × List Completion
  | [] => ([], [])
  | (t, timed, w) :: q =>
    if w.done then
      let (q', cs) := cancelAll p q
      ((t, timed, w) :: q', cs)
    else
      let (q', cs) := cancelAll p q
      ((t, timed, w.cancel p) :: q', (w.cancel p).completion :: cs)

end EventFlag

namespace EvfState

open EventFlag

variable {ι : Type*}

/-- The constructor. -/
def make (init sticky : EvfBits) : EvfState ι := ⟨init, sticky, [], [], 0, []⟩

/-- `sys_evf_create`: no bit is sticky. -/
def create (initPattern : EvfBits) : EvfState ι := make initPattern 0

/-- `sys_evf_open` of a name nobody has made, `seed` the bits that the absent system service
would publish under it: they stay asserted, the application status apart. -/
def openAbsent (name : String) (seed : EvfBits) : EvfState ι :=
  make seed (if "SceLncUtilAppStatus".toList.isPrefixOf name.toList then 0 else seed)

def answer (s : EvfState ι) (t : ι) (r : EvfReply) : EvfState ι :=
  { s with replies := (t, r) :: s.replies }

/-- A wait that is satisfied when it is made. -/
def takeNow (s : EvfState ι) (t : ι) (pattern : EvfBits) (mode : EvfMode) : EvfState ι :=
  { s.answer t (.ok s.bits) with
    bits := take s.sticky s.bits pattern mode
    nextSerial := s.nextSerial + 1
    completions := s.completions ++ [⟨s.nextSerial, pattern, mode, s.bits, false⟩] }

def set (s : EvfState ι) (b : EvfBits) : EvfState ι :=
  let (b', q', cs) := serve s.sticky (s.bits ||| b) s.waiters
  { s with bits := b', waiters := q', completions := s.completions ++ cs }

def clear (s : EvfState ι) (b : EvfBits) : EvfState ι := { s with bits := s.bits &&& b }

def trywait (s : EvfState ι) (t : ι) (pattern : EvfBits) (mode : EvfMode) : EvfState ι :=
  if satisfied s.bits pattern mode then s.takeNow t pattern mode else s.answer t (.error .eBUSY)

/-- `Wait` up to its return or its sleep. -/
def wait (s : EvfState ι) (t : ι) (pattern : EvfBits) (mode : EvfMode) (timed : Bool) : EvfState ι :=
  if satisfied s.bits pattern mode then s.takeNow t pattern mode
  else
    { s with
      waiters := s.waiters ++ [(t, timed, ⟨pattern, mode, 0, false, false, s.nextSerial⟩)]
      nextSerial := s.nextSerial + 1 }

def cancel (s : EvfState ι) (t : ι) (pattern : EvfBits) : EvfState ι :=
  let (q', cs) := cancelAll pattern s.waiters
  { s with
    waiters := q'
    completions := s.completions ++ cs
    replies := (t, .cancelledWaiters cs.length) :: s.replies }

variable [DecidableEq ι]

/-- The waiter thread `t` sleeps on. -/
def waiterOf (s : EvfState ι) (t : ι) : Option (ι × Bool × Waiter) :=
  s.waiters.find? fun x => x.1 = t

def removeWaiter (s : EvfState ι) (t : ι) : EvfState ι :=
  { s with waiters := s.waiters.eraseP fun x => x.1 = t }

/-- `Wait` after its sleep, its waiter done. -/
def resume (s : EvfState ι) (t : ι) : Option (EvfState ι) :=
  match s.waiterOf t with
  | some (_, _, w) =>
    if w.done then
      some ((s.removeWaiter t).answer t (if w.cancelled then .error .eCANCELED else .ok w.result))
    else none
  | none => none

/-- `Wait` after a sleep that ended with its time. -/
def timeout (s : EvfState ι) (t : ι) : Option (EvfState ι) :=
  match s.waiterOf t with
  | some (_, timed, w) =>
    if timed && !w.done then some ((s.removeWaiter t).answer t (.error .eTIMEDOUT)) else none
  | none => none

/-- A thread that sleeps makes no call. -/
def step (s : EvfState ι) : EvfEvent ι → Option (EvfState ι)
  | .set t b => if s.waiterOf t = none then some (s.set b) else none
  | .clear t b => if s.waiterOf t = none then some (s.clear b) else none
  | .trywait t pattern mode =>
    if s.waiterOf t = none then some (s.trywait t pattern mode) else none
  | .wait t pattern mode timed =>
    if s.waiterOf t = none then some (s.wait t pattern mode timed) else none
  | .cancel t pattern => if s.waiterOf t = none then some (s.cancel t pattern) else none
  | .resume t => s.resume t
  | .timeout t => s.timeout t

/-- The event flag under the calls of the threads `ι`. -/
def system (ι : Type*) [DecidableEq ι] : LabelledSystem (EvfState ι) (EvfEvent ι) := ⟨step⟩

end EvfState

end Prosperity.Kern
