import Prosperity.Foundations.CInt
import Prosperity.Foundations.Execution
import Prosperity.Foundations.Tally
import Prosperity.Kern.SysError

/-!
# The kernel semaphore

`Semaphore` and the `sys_osem_*` calls over it. Every method runs its body under the
semaphore's mutex, so a method is one step except where `Wait` sleeps: a sleeping call has given
the mutex up, and later either takes its units or gives up. A call holds its own reference to the
object from `FromId` on, so deleting the handle does not end the calls in flight.
-/

namespace Prosperity.Kern

/-- What a call answers: 0, a handle, 0 with the number of waiters stored through
`num_waiters`, or a negated error. -/
inductive OsemReply where
  | ok
  | handle (h : ℕ)
  | cancelled (numWaiters : CInt)
  | error (e : SysError)
  deriving DecidableEq, Repr

structure Semaphore where
  name : String
  handle : ℕ
  count : CInt
  maxCount : CInt
  initCount : CInt
  waiters : CInt
  deriving DecidableEq

/-- Where one critical section of a method leaves its call. `overflow` is a signed addition or
subtraction whose result does not fit an `int`. -/
inductive Pass where
  | returned (r : OsemReply) (s : Semaphore)
  | parked (s : Semaphore)
  | overflow
  deriving DecidableEq

namespace Semaphore

def make (name : String) (handle : ℕ) (init max : CInt) : Semaphore :=
  ⟨name, handle, init, max, init, 0⟩

/-- `count_ -= need; return 0`. -/
def take (s : Semaphore) (need : CInt) : Pass :=
  match s.count.sub? need with
  | none => .overflow
  | some c => .returned .ok { s with count := c }

/-- `Wait` up to its return or its sleep. -/
def wait (s : Semaphore) (need : CInt) : Pass :=
  if need ≤ 0 then .returned (.error .eINVAL) s
  else if 0 < s.maxCount ∧ s.maxCount < need then .returned (.error .eINVAL) s
  else if need ≤ s.count then s.take need
  else
    match s.waiters.add? 1 with
    | none => .overflow
    | some w => .parked { s with waiters := w }

/-- `Wait` after its sleep; `ok` is whether the predicate held when it ended. -/
def wake (s : Semaphore) (need : CInt) (ok : Bool) : Pass :=
  match s.waiters.sub? 1 with
  | none => .overflow
  | some w =>
    if ok then { s with waiters := w }.take need
    else .returned (.error .eTIMEDOUT) { s with waiters := w }

def trywait (s : Semaphore) (need : CInt) : Pass :=
  if need ≤ 0 then .returned (.error .eINVAL) s
  else if s.count < need then
    if 0 < s.maxCount ∧ s.maxCount < need then .returned (.error .eINVAL) s
    else .returned (.error .eBUSY) s
  else s.take need

/-- `Post`. The ceiling test adds before it compares, and only under a positive ceiling. -/
def post (s : Semaphore) (n : CInt) : Pass :=
  if n ≤ 0 then .returned (.error .eINVAL) s
  else
    match s.count.add? n with
    | none => .overflow
    | some c =>
      if 0 < s.maxCount ∧ s.maxCount < c then .returned (.error .eINVAL) s
      else .returned .ok { s with count := c }

/-- `Cancel`: it sets the count and wakes every sleeper to look at its predicate again. -/
def cancel (s : Semaphore) (setCount : CInt) : Pass :=
  if 0 < s.maxCount ∧ s.maxCount < setCount then .returned (.error .eINVAL) s
  else
    .returned (.cancelled s.waiters)
      { s with count := if setCount < 0 then s.initCount else setCount }

end Semaphore

def isAbsentServiceChannel (name : String) : Bool :=
  let cs := match name.toList with
    | '/' :: rest => rest
    | cs => cs
  decide (cs.takeWhile (· ≠ ' ') = "SceNpTpip".toList)

def suspendName : String := "SceLncSuspendBlock60000001"

/-- The methods a system call runs on the semaphore it looked up. -/
inductive OsemOp where
  | wait (need : CInt) (timed : Bool)
  | trywait (need : CInt)
  | post (n : CInt)
  | cancel (setCount : CInt)
  deriving DecidableEq

/-- One thread's call: none, past `FromId` with a reference to object `o`, or asleep in `Wait`.
`owed` is the ghost that a `Cancel` of `o` has succeeded since the call went to sleep. -/
inductive OsemCall where
  | idle
  | entered (o : ℕ) (op : OsemOp)
  | parked (o : ℕ) (need : CInt) (timed owed : Bool)
  deriving DecidableEq

/-- The call sleeps on object `o`. -/
def OsemCall.parkedOn (o : ℕ) : OsemCall → Bool
  | .parked o' _ _ _ => o' = o
  | _ => false

/-- The call has been owed its release since a `Cancel` of object `o`. -/
def OsemCall.owe (o : ℕ) : OsemCall → OsemCall
  | .parked o' need timed owed => .parked o' need timed (owed || decide (o' = o))
  | c => c

/-- The units of one object since it was made or last cancelled. -/
structure Ledger where
  start : ℤ
  signalled : ℤ
  taken : ℤ
  deriving DecidableEq

def Ledger.balance (l : Ledger) : ℤ := l.start + l.signalled - l.taken

structure OsemState (ι : Type*) where
  /-- The objects made so far. -/
  sems : ℕ → Option Semaphore
  nextSem : ℕ
  handles : ℕ → Option ℕ
  /-- `g_sem_by_name`. -/
  byName : String → Option ℕ
  calls : ι → OsemCall
  /-- What the calls have answered, the latest first. -/
  replies : List (ι × OsemReply)
  ledgers : ℕ → Ledger
  overflowed : Bool
  /-- `guest::Stopping()`. -/
  stopping : Bool

/-- The calls of the threads. `create` and `openNamed` carry the handle the object table issues;
`enter` is a system call's `FromId`, `run` the critical section of the method it then calls. -/
inductive OsemEvent (ι : Type*) where
  | create (t : ι) (name : Option String) (init max : CInt) (h : ℕ)
  | openNamed (t : ι) (name : Option String) (h : ℕ)
  | delete (t : ι) (h : ℕ)
  | enter (t : ι) (h : ℕ) (op : OsemOp)
  | run (t : ι)
  | wake (t : ι)
  | giveUp (t : ι)
  | stop

namespace OsemState

variable {ι : Type*} [DecidableEq ι]

def init : OsemState ι where
  sems _ := none
  nextSem := 0
  handles _ := none
  byName _ := none
  calls _ := .idle
  replies := []
  ledgers _ := ⟨0, 0, 0⟩
  overflowed := false
  stopping := false

def setSem (s : OsemState ι) (o : ℕ) (sem : Semaphore) : OsemState ι :=
  { s with sems := Function.update s.sems o (some sem) }

def setCall (s : OsemState ι) (t : ι) (c : OsemCall) : OsemState ι :=
  { s with calls := Function.update s.calls t c }

def answer (s : OsemState ι) (t : ι) (r : OsemReply) : OsemState ι :=
  { s.setCall t .idle with replies := (t, r) :: s.replies }

def setLedger (s : OsemState ι) (o : ℕ) (l : Ledger) : OsemState ι :=
  { s with ledgers := Function.update s.ledgers o l }

def construct (s : OsemState ι) (t : ι) (name : Option String) (init max : CInt) (h : ℕ) : OsemState ι :=
  let nm := name.getD ""
  { (s.setSem s.nextSem (Semaphore.make nm h init max)).setLedger s.nextSem ⟨init, 0, 0⟩ with
    nextSem := s.nextSem + 1
    handles := Function.update s.handles h (some s.nextSem)
    byName := if nm = "" then s.byName else Function.update s.byName nm (some s.nextSem)
    replies := (t, .handle h) :: s.replies }

/-- `sys_osem_open`. -/
def openNamed (s : OsemState ι) (t : ι) (name : Option String) (h : ℕ) : Option (OsemState ι) :=
  match (name.bind s.byName).bind s.sems with
  | some sem => some (s.answer t (.handle sem.handle))
  | none =>
    if name.elim false fun n => "SceSaveData".toList.isPrefixOf n.toList then
      some (s.answer t (.error .eNOENT))
    else if s.handles h ≠ none then none
    else if name = some suspendName then some (s.construct t name 1 1 h)
    else some (s.construct t name 0 CInt.max h)

/-- `sys_osem_delete`, and `sys_osem_close`. -/
def delete (s : OsemState ι) (t : ι) (h : ℕ) : OsemState ι :=
  match s.handles h with
  | none => s.answer t (.error .eSRCH)
  | some o =>
    let nm := (s.sems o).elim "" Semaphore.name
    { s.answer t .ok with
      byName := if s.byName nm = some o then Function.update s.byName nm none else s.byName
      handles := Function.update s.handles h none }

/-- `sys_osem_wait` answers a time-out whatever `Wait` failed with on a channel whose service is
not hosted. -/
def channelReply (sem : Semaphore) (r : OsemReply) : OsemReply :=
  match r with
  | .error _ => if isAbsentServiceChannel sem.name then .error .eTIMEDOUT else r
  | r => r

/-- Store what a critical section of thread `t` left of object `o`: its return value as the
answer `f` gives for it, or the sleeping call `c`. -/
def settle (s : OsemState ι) (t : ι) (o : ℕ) (p : Pass) (f : OsemReply → OsemReply)
    (c : OsemCall) : OsemState ι :=
  match p with
  | .returned r sem => (s.setSem o sem).answer t (f r)
  | .parked sem => (s.setSem o sem).setCall t c
  | .overflow => { s with overflowed := true }

/-- The ledger after a method that answered `r`. -/
def chargeOp (l : Ledger) (op : OsemOp) (p : Pass) : Ledger :=
  match op, p with
  | .wait need _, .returned .ok _ => { l with taken := l.taken + need }
  | .trywait need, .returned .ok _ => { l with taken := l.taken + need }
  | .post n, .returned .ok _ => { l with signalled := l.signalled + n }
  | .cancel _, .returned (.cancelled _) sem => ⟨sem.count, 0, 0⟩
  | _, _ => l

/-- The method an entered call runs. -/
def passOf (sem : Semaphore) : OsemOp → Pass
  | .wait need _ => sem.wait need
  | .trywait need => sem.trywait need
  | .post n => sem.post n
  | .cancel setCount => sem.cancel setCount

/-- The sleeping call `op` leaves behind where it sleeps. An absent channel's wait is timed
whatever the caller asked for. -/
def sleepOf (sem : Semaphore) (o : ℕ) : OsemOp → OsemCall
  | .wait need timed => .parked o need (timed || isAbsentServiceChannel sem.name) false
  | _ => .idle

/-- A successful `Cancel` of object `o` owes every call asleep on it a release. -/
def oweAll (s : OsemState ι) (o : ℕ) (op : OsemOp) (p : Pass) : OsemState ι :=
  match op, p with
  | .cancel _, .returned (.cancelled _) _ => { s with calls := fun u => (s.calls u).owe o }
  | _, _ => s

/-- The critical section of an entered call. -/
def run (s : OsemState ι) (t : ι) : Option (OsemState ι) :=
  match s.calls t with
  | .entered o op =>
    (s.sems o).map fun sem =>
      let p := passOf sem op
      let f := match op with
        | .wait _ _ => channelReply sem
        | _ => id
      ((s.oweAll o op p).setLedger o (chargeOp (s.ledgers o) op p)).settle t o p f
        (sleepOf sem o op)
  | _ => none

/-- A sleeping call takes its units: its predicate holds. -/
def wake (s : OsemState ι) (t : ι) : Option (OsemState ι) :=
  match s.calls t with
  | .parked o need _ _ =>
    (s.sems o).bind fun sem =>
      if need ≤ sem.count then
        some ((s.setLedger o { s.ledgers o with taken := (s.ledgers o).taken + need }).settle t o
          (sem.wake need true) (channelReply sem) .idle)
      else none
  | _ => none

def giveUp (s : OsemState ι) (t : ι) : Option (OsemState ι) :=
  match s.calls t with
  | .parked o need timed _ =>
    (s.sems o).bind fun sem =>
      if sem.count < need ∧ (timed || s.stopping) then
        some (s.settle t o (sem.wake need false) (channelReply sem) .idle)
      else none
  | _ => none

def step (s : OsemState ι) (e : OsemEvent ι) : Option (OsemState ι) :=
  if s.overflowed then none
  else
    match e with
    | .create t name init max h =>
      if s.calls t = .idle ∧ s.handles h = none then some (s.construct t name init max h) else none
    | .openNamed t name h => if s.calls t = .idle then s.openNamed t name h else none
    | .delete t h => if s.calls t = .idle then some (s.delete t h) else none
    | .enter t h op =>
      if s.calls t = .idle then
        match s.handles h with
        | none => some (s.answer t (.error .eSRCH))
        | some o => some (s.setCall t (.entered o op))
      else none
    | .run t => s.run t
    | .wake t => s.wake t
    | .giveUp t => s.giveUp t
    | .stop => some { s with stopping := true }

/-- The semaphore calls of the threads `ι`. -/
def system (ι : Type*) [DecidableEq ι] : LabelledSystem (OsemState ι) (OsemEvent ι) := ⟨step⟩

/-- The answers with which the sleeping call of `t` can return from this state. -/
def exits (s : OsemState ι) (t : ι) : List OsemReply :=
  match s.calls t with
  | .parked o need timed _ =>
    match s.sems o with
    | none => []
    | some sem =>
      if need ≤ sem.count then [.ok]
      else if timed || s.stopping then [channelReply sem (.error .eTIMEDOUT)]
      else []
  | _ => []

end OsemState

end Prosperity.Kern
