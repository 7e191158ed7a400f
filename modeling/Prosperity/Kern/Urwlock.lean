import Prosperity.Foundations.Threads
import Prosperity.Kern.SysError

/-!
# Reader/writer locks of the thread calls

`UMTX_OP_RW_RDLOCK`, `UMTX_OP_RW_WRLOCK` and `UMTX_OP_RW_UNLOCK` on one `urwlock`, beside the
userland library that acquires and releases the same word by compare-and-swap without entering
the kernel. The kernel calls hold the mutex of the lock's bucket except while they sleep; the
userland swaps know nothing of it, so every load and every swap of a kernel call is a step.
-/

namespace Prosperity.Kern

abbrev RwWord := BitVec 32

/-- Where a thread is. `wr` tells `RW_WRLOCK` from `RW_RDLOCK`, and `st` is the word as loaded. -/
inductive RwPc where
  | idle
  /-- About to take the bucket's mutex. -/
  | call (wr : Bool)
  /-- At the top of the loop, with the mutex. -/
  | top (wr : Bool)
  | loaded (wr : Bool) (st : RwWord)
  /-- The waiter bit is set, the counter not yet. -/
  | published (wr : Bool)
  /-- In the condition variable's wait, without the mutex. -/
  | asleep (wr : Bool)
  | unlockCall
  | unlockTop
  | unlocking (st : RwWord)
  deriving DecidableEq

structure RwThread where
  pc : RwPc
  /-- What the last kernel call returned. -/
  ret : ℤ
  reads : ℕ
  writes : Bool
  deriving DecidableEq

structure RwShared (ι : Type*) where
  /-- `rw_state`. -/
  word : RwWord
  /-- `rw_flags`. -/
  flags : BitVec 32
  /-- `rw_blocked_readers`. -/
  blockedReaders : ℕ
  /-- `rw_blocked_writers`. -/
  blockedWriters : ℕ
  mutex : Option ι

inductive RwAction where
  | userRdlock
  | userWrlock
  | userRdunlock
  | userWrunlock
  | rdlock
  | wrlock
  | unlock
  | kernel
  deriving DecidableEq

namespace Urwlock

def kWriteOwner : RwWord := 0x80000000
def kWriteWaiters : RwWord := 0x40000000
def kReadWaiters : RwWord := 0x20000000
def kMaxReaders : RwWord := 0x1fffffff
def kPreferReader : BitVec 32 := 0x0002

def waiterBit (wr : Bool) : RwWord := if wr then kWriteWaiters else kReadWaiters

variable {ι : Type*}

/-- The counter of a kind of call. -/
def blocked (s : RwShared ι) (wr : Bool) : ℕ := if wr then s.blockedWriters else s.blockedReaders

def setBlocked (s : RwShared ι) (wr : Bool) (n : ℕ) : RwShared ι :=
  if wr then { s with blockedWriters := n } else { s with blockedReaders := n }

/-- The call returns, giving the bucket's mutex up. -/
def leave (s : RwShared ι) (c : RwThread) (ret : ℤ) : RwShared ι × RwThread :=
  ({ s with mutex := none }, { c with pc := .idle, ret := ret })

def publish (s : RwShared ι) (c : RwThread) (wr : Bool) (st : RwWord) : RwShared ι × RwThread :=
  let want := st ||| waiterBit wr
  if st ≠ want then
    if s.word = st then ({ s with word := want }, { c with pc := .published wr })
    else (s, { c with pc := .top wr })
  else (s, { c with pc := .published wr })

/-- What `RW_WRLOCK` does with the word it has loaded: a writer needs the lock idle. -/
def tryWrite (s : RwShared ι) (c : RwThread) (st : RwWord) : RwShared ι × RwThread :=
  if st &&& kWriteOwner = 0 ∧ st &&& kMaxReaders = 0 then
    if s.word = st then
      leave { s with word := st ||| kWriteOwner } { c with writes := true } 0
    else (s, { c with pc := .top true })
  else publish s c true st

/-- What `RW_RDLOCK` does with the word it has loaded: a reader yields to a queued writer unless
the lock prefers readers or a reader is already in. -/
def tryRead (s : RwShared ι) (c : RwThread) (st : RwWord) : RwShared ι × RwThread :=
  if st &&& kWriteOwner = 0 ∧
      ¬(st &&& kWriteWaiters ≠ 0 ∧ s.flags &&& kPreferReader = 0 ∧ st &&& kMaxReaders = 0) then
    if st &&& kMaxReaders = kMaxReaders then leave s c (-SysError.eAGAIN.code)
    else if s.word = st then leave { s with word := st + 1 } { c with reads := c.reads + 1 } 0
    else (s, { c with pc := .top false })
  else publish s c false st

/-- The word `RW_UNLOCK` swaps in: without the caller's hold, and without the waiter bits nobody
is behind any more. -/
def retire (s : RwShared ι) (next : RwWord) : RwWord :=
  let next := if s.blockedWriters = 0 then next &&& ~~~kWriteWaiters else next
  if s.blockedReaders = 0 then next &&& ~~~kReadWaiters else next

/-- What `RW_UNLOCK` does with the word it has loaded. -/
def tryUnlock (s : RwShared ι) (c : RwThread) (st : RwWord) : RwShared ι × RwThread :=
  if st &&& kWriteOwner ≠ 0 then
    if s.word = st then
      leave { s with word := retire s (st &&& ~~~kWriteOwner) } { c with writes := false } 0
    else (s, { c with pc := .unlocking s.word })
  else if st &&& kMaxReaders ≠ 0 then
    if s.word = st then
      leave { s with word := retire s (st - 1) } { c with reads := c.reads - 1 } 0
    else (s, { c with pc := .unlocking s.word })
  else leave s c (-SysError.ePERM.code)

/-- The next step of a kernel call of thread `t`. -/
def kernel (t : ι) (s : RwShared ι) (c : RwThread) : Option (RwShared ι × RwThread) :=
  match c.pc with
  | .idle => none
  | .call wr =>
    if s.mutex.isNone then some ({ s with mutex := some t }, { c with pc := .top wr }) else none
  | .top wr => some (s, { c with pc := .loaded wr s.word })
  | .loaded true st => some (tryWrite s c st)
  | .loaded false st => some (tryRead s c st)
  | .published wr =>
    some ({ setBlocked s wr (blocked s wr + 1) with mutex := none }, { c with pc := .asleep wr })
  | .asleep wr =>
    if s.mutex.isNone then
      some ({ setBlocked s wr (blocked s wr - 1) with mutex := some t }, { c with pc := .top wr })
    else none
  | .unlockCall =>
    if s.mutex.isNone then some ({ s with mutex := some t }, { c with pc := .unlockTop }) else none
  | .unlockTop => some (s, { c with pc := .unlocking s.word })
  | .unlocking st => some (tryUnlock s c st)

/-- The actions of thread `t`. The userland swaps follow the lock's protocol, the readers' limit
included, and only a thread with a hold unlocks. -/
def act (t : ι) : RwAction → RwShared ι → RwThread → Option (RwShared ι × RwThread)
  | .userRdlock, s, c =>
    if c.pc = .idle ∧ s.word &&& kWriteOwner = 0 ∧
        (s.flags &&& kPreferReader ≠ 0 ∨ s.word &&& kWriteWaiters = 0) ∧
        s.word &&& kMaxReaders ≠ kMaxReaders then
      some ({ s with word := s.word + 1 }, { c with reads := c.reads + 1 })
    else none
  | .userWrlock, s, c =>
    if c.pc = .idle ∧ s.word &&& kWriteOwner = 0 ∧ s.word &&& kMaxReaders = 0 then
      some ({ s with word := s.word ||| kWriteOwner }, { c with writes := true })
    else none
  | .userRdunlock, s, c =>
    if c.pc = .idle ∧ 0 < c.reads then
      some ({ s with word := s.word - 1 }, { c with reads := c.reads - 1 })
    else none
  | .userWrunlock, s, c =>
    if c.pc = .idle ∧ c.writes then
      some ({ s with word := s.word &&& ~~~kWriteOwner }, { c with writes := false })
    else none
  | .rdlock, s, c => if c.pc = .idle then some (s, { c with pc := .call false }) else none
  | .wrlock, s, c => if c.pc = .idle then some (s, { c with pc := .call true }) else none
  | .unlock, s, c =>
    if c.pc = .idle ∧ (0 < c.reads ∨ c.writes) then some (s, { c with pc := .unlockCall }) else none
  | .kernel, s, c => kernel t s c

def threads (ι : Type*) : ThreadSystem ι (RwShared ι) RwThread RwAction := ⟨act⟩

def system (ι : Type*) [DecidableEq ι] :
    LabelledSystem (Threads ι (RwShared ι) RwThread) (ι × RwAction) := (threads ι).system

/-- A lock nobody holds. -/
def init (flags : BitVec 32) : Threads ι (RwShared ι) RwThread :=
  ⟨⟨0, flags, 0, 0, none⟩, fun _ => ⟨.idle, 0, 0, false⟩⟩

end Urwlock

end Prosperity.Kern
