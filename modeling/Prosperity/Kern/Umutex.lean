import Prosperity.Foundations.Threads
import Prosperity.Kern.SysError

/-!
# Mutexes of the thread calls

`UMTX_OP_MUTEX_TRYLOCK`, `_LOCK`, `_UNLOCK`, `_WAIT`, `_WAKE` and the release inside
`UMTX_OP_CV_WAIT` on one `umutex` word, beside the userland library that locks and unlocks the
same word by compare-and-swap. The word holds the owner's thread id under the contested bit. A
kernel call holds the mutex of the word's bucket except while it sleeps; every load and every
swap is a step of its own, since the userland swaps come between them.
-/

namespace Prosperity.Kern

abbrev UmWord := BitVec 32

/-- Where a thread is. `st` is the word as loaded, `g` the generation as read. -/
inductive UmPc where
  | idle
  /-- `MUTEX_WAIT` before its look at the word without the bucket's mutex. -/
  | waitCheck
  | waitCall
  | waitTop
  | waitLoaded (st : UmWord)
  | waitPublished (g : ℕ)
  | waitLoop (g : ℕ)
  | waitAsleep (g : ℕ)
  /-- `MUTEX_WAKE` before its look at the word without the bucket's mutex. -/
  | wakeCheck
  | wakeCall
  | wakeTop
  | wakeLoaded (st : UmWord)
  /-- `MUTEX_TRYLOCK` (`try`) and `MUTEX_LOCK`, and whether the call is counted. -/
  | lockCall (tryOnly : Bool)
  | lockTop (tryOnly queued : Bool)
  | lockLoaded (tryOnly queued : Bool) (st : UmWord)
  | lockPublished (queued : Bool)
  | lockAsleep
  | unlockCall
  | unlockTop
  | unlockLoaded (st : UmWord)
  /-- The release inside `CV_WAIT`. -/
  | cvCall
  | cvTop
  | cvLoaded (st : UmWord)
  deriving DecidableEq

structure UmThread where
  pc : UmPc
  /-- What the last kernel call returned. -/
  ret : ℤ
  owns : Bool
  deriving DecidableEq

structure UmShared (ι : Type*) where
  word : UmWord
  /-- The channel's `mutex_waiters`. -/
  mutexWaiters : ℕ
  /-- The channel's `gen`. -/
  gen : ℕ
  mutex : Option ι

inductive UmAction where
  | userLock
  | userUnlock
  | mutexWait
  | mutexWake
  | mutexTrylock
  | mutexLock
  | mutexUnlock
  | cvWait
  | kernel
  deriving DecidableEq

namespace Umutex

/-- `UMUTEX_CONTESTED`. -/
def contestedBit : UmWord := 0x80000000

/-- The owner's thread id, 0 where there is none. -/
def held (w : UmWord) : UmWord := w &&& ~~~contestedBit

/-- Thread ids: different, not 0, and clear of the contested bit. -/
structure Tids (ι : Type*) where
  tid : ι → UmWord
  injective : Function.Injective tid
  ne_zero : ∀ t, tid t ≠ 0
  small : ∀ t, tid t &&& contestedBit = 0

variable {ι : Type*} (T : Tids ι)

/-- The call returns, giving the bucket's mutex up. -/
def leave (s : UmShared ι) (c : UmThread) (ret : ℤ) : UmShared ι × UmThread :=
  ({ s with mutex := none }, { c with pc := .idle, ret := ret })

def released (s : UmShared ι) : UmWord := if s.mutexWaiters ≤ 1 then 0 else contestedBit

/-- `MUTEX_WAIT` with the word it has loaded under the mutex. -/
def waitStep (s : UmShared ι) (c : UmThread) (st : UmWord) : UmShared ι × UmThread :=
  if held st = 0 then leave s c 0
  else if s.word = st then
    ({ s with word := st ||| contestedBit }, { c with pc := .waitPublished s.gen })
  else leave s c 0

/-- One turn of the loop of `MUTEX_WAIT`: it ends where the word is free or the generation has
moved. -/
def waitTurn (s : UmShared ι) (c : UmThread) (g : ℕ) : UmShared ι × UmThread :=
  if held s.word ≠ 0 ∧ s.gen = g then ({ s with mutex := none }, { c with pc := .waitAsleep g })
  else leave { s with mutexWaiters := s.mutexWaiters - 1 } c 0

/-- `MUTEX_WAKE` with the word it has loaded under the mutex. -/
def wakeStep (s : UmShared ι) (c : UmThread) (st : UmWord) : UmShared ι × UmThread :=
  if held st ≠ 0 then leave s c 0
  else
    let w := if s.mutexWaiters ≤ 1 ∧ s.word = contestedBit then 0 else s.word
    let g := if s.mutexWaiters ≠ 0 then s.gen + 1 else s.gen
    leave { s with word := w, gen := g } c 0

/-- A return out of the loop of `MUTEX_LOCK`, which takes the call off the count. -/
def leaveLock (s : UmShared ι) (c : UmThread) (queued : Bool) (ret : ℤ) : UmShared ι × UmThread :=
  leave { s with mutexWaiters := if queued then s.mutexWaiters - 1 else s.mutexWaiters } c ret

/-- One turn of the loop of `MUTEX_TRYLOCK` and `MUTEX_LOCK`, with the word it has loaded. -/
def lockStep (t : ι) (s : UmShared ι) (c : UmThread) (tryOnly queued : Bool) (st : UmWord) : UmShared ι × UmThread :=
  if held st = 0 then
    if s.word = st then
      leaveLock { s with word := T.tid t ||| (st &&& contestedBit) } { c with owns := true }
        queued 0
    else (s, { c with pc := .lockTop tryOnly queued })
  else if held st = T.tid t then leaveLock s { c with owns := true } queued 0
  else if tryOnly then leaveLock s c queued (-SysError.eBUSY.code)
  else if s.word = st then
    ({ s with word := st ||| contestedBit }, { c with pc := .lockPublished queued })
  else (s, { c with pc := .lockTop tryOnly queued })

/-- `MUTEX_UNLOCK` with the word it has loaded. -/
def unlockStep (t : ι) (s : UmShared ι) (c : UmThread) (st : UmWord) : UmShared ι × UmThread :=
  if held st ≠ T.tid t then leave s c (-SysError.ePERM.code)
  else
    leave { s with word := if s.word = st then released s else s.word, gen := s.gen + 1 }
      { c with owns := false } 0

/-- The release inside `CV_WAIT` with the word it has loaded: it does not ask who the owner is. -/
def cvStep (s : UmShared ι) (c : UmThread) (st : UmWord) : UmShared ι × UmThread :=
  leave { s with word := if s.word = st then released s else s.word, gen := s.gen + 1 }
    { c with owns := false } 0

/-- Take the bucket's mutex. -/
def enter (t : ι) (s : UmShared ι) (c : UmThread) (pc : UmPc) : Option (UmShared ι × UmThread) :=
  if s.mutex.isNone then some ({ s with mutex := some t }, { c with pc := pc }) else none

/-- The next step of a kernel call of thread `t`. -/
def kernel (t : ι) (s : UmShared ι) (c : UmThread) : Option (UmShared ι × UmThread) :=
  match c.pc with
  | .idle => none
  | .waitCheck =>
    some (s, if held s.word = 0 then { c with pc := .idle, ret := 0 } else { c with pc := .waitCall })
  | .waitCall => enter t s c .waitTop
  | .waitTop => some (s, { c with pc := .waitLoaded s.word })
  | .waitLoaded st => some (waitStep s c st)
  | .waitPublished g =>
    some ({ s with mutexWaiters := s.mutexWaiters + 1 }, { c with pc := .waitLoop g })
  | .waitLoop g => some (waitTurn s c g)
  | .waitAsleep g => enter t s c (.waitLoop g)
  | .wakeCheck =>
    some (s, if held s.word ≠ 0 then { c with pc := .idle, ret := 0 } else { c with pc := .wakeCall })
  | .wakeCall => enter t s c .wakeTop
  | .wakeTop => some (s, { c with pc := .wakeLoaded s.word })
  | .wakeLoaded st => some (wakeStep s c st)
  | .lockCall tryOnly => enter t s c (.lockTop tryOnly false)
  | .lockTop tryOnly queued => some (s, { c with pc := .lockLoaded tryOnly queued s.word })
  | .lockLoaded tryOnly queued st => some (lockStep T t s c tryOnly queued st)
  | .lockPublished queued =>
    some ({ s with
      mutexWaiters := if queued then s.mutexWaiters else s.mutexWaiters + 1
      mutex := none }, { c with pc := .lockAsleep })
  | .lockAsleep => enter t s c (.lockTop false true)
  | .unlockCall => enter t s c .unlockTop
  | .unlockTop => some (s, { c with pc := .unlockLoaded s.word })
  | .unlockLoaded st => some (unlockStep T t s c st)
  | .cvCall => enter t s c .cvTop
  | .cvTop => some (s, { c with pc := .cvLoaded s.word })
  | .cvLoaded st => some (cvStep s c st)

def call (s : UmShared ι) (c : UmThread) (pc : UmPc) : Option (UmShared ι × UmThread) :=
  if c.pc = .idle then some (s, { c with pc := pc }) else none

/-- The actions of thread `t`. A userland unlock of a contested word leaves it contested and goes
on to `MUTEX_WAKE`. -/
def act (t : ι) : UmAction → UmShared ι → UmThread → Option (UmShared ι × UmThread)
  | .userLock, s, c =>
    if c.pc ≠ .idle then none
    else if s.word = 0 then some ({ s with word := T.tid t }, { c with owns := true })
    else if s.word = contestedBit then
      some ({ s with word := T.tid t ||| contestedBit }, { c with owns := true })
    else none
  | .userUnlock, s, c =>
    if c.pc ≠ .idle then none
    else if s.word = T.tid t then some ({ s with word := 0 }, { c with owns := false })
    else if s.word = T.tid t ||| contestedBit then
      some ({ s with word := contestedBit }, { c with pc := .wakeCheck, owns := false })
    else none
  | .mutexWait, s, c => call s c .waitCheck
  | .mutexWake, s, c => call s c .wakeCheck
  | .mutexTrylock, s, c => call s c (.lockCall true)
  | .mutexLock, s, c => call s c (.lockCall false)
  | .mutexUnlock, s, c => call s c .unlockCall
  | .cvWait, s, c => call s c .cvCall
  | .kernel, s, c => kernel T t s c

def threads : ThreadSystem ι (UmShared ι) UmThread UmAction := ⟨act T⟩

def system [DecidableEq ι] : LabelledSystem (Threads ι (UmShared ι) UmThread) (ι × UmAction) :=
  (threads T).system

/-- A mutex nobody has. -/
def init : Threads ι (UmShared ι) UmThread := ⟨⟨0, 0, 0, none⟩, fun _ => ⟨.idle, 0, false⟩⟩

end Umutex

end Prosperity.Kern
