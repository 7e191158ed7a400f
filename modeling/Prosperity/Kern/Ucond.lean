import Prosperity.Foundations.Tally
import Prosperity.Foundations.Threads
import Prosperity.Kern.SysError

/-!
# Condition variables of the thread calls

`UMTX_OP_CV_WAIT`, `CV_SIGNAL`, `CV_SIGNALTO` and `CV_BROADCAST` on one `ucond`. The channel of
the address keeps no queue: a broadcast moves its generation on, and a signal leaves a release
that any sleeper with a ticket below the cutoff may take. All of it is read and written under the
bucket's mutex, so each turn of a call under that mutex is one step.
-/

namespace Prosperity.Kern

/-- The counters of `WaitChan` that the condition variable calls use, and the `c_has_waiters`
word of the object. -/
structure CvChan where
  gen : ℕ
  signals : ℕ
  waiters : ℕ
  nextTicket : ℕ
  signalCutoff : ℕ
  hasWaiters : Bool
  deriving DecidableEq

/-- A thread: outside, or in the loop of `CV_WAIT` with its ticket, the generation it has read and
whether it has a deadline. -/
inductive CvThread where
  | idle (ret : ℤ)
  | queued (ticket g0 : ℕ) (timed : Bool)
  deriving DecidableEq

structure QueueModel where
  unreleased : ℕ
  released : ℕ
  signalAt : ℕ
  broadcastAt : ℕ
  deriving DecidableEq

namespace QueueModel

def signal (q : QueueModel) (ticket : ℕ) : QueueModel :=
  if 0 < q.unreleased then
    { q with unreleased := q.unreleased - 1, released := q.released + 1, signalAt := ticket }
  else { q with signalAt := ticket }

def broadcast (q : QueueModel) (ticket : ℕ) : QueueModel :=
  { q with unreleased := 0, released := q.released + q.unreleased, broadcastAt := ticket }

end QueueModel

inductive CvAction where
  | wait (timed : Bool)
  | resume
  | timeout
  | signal
  | signalTo
  | broadcast
  deriving DecidableEq

/-- The channel beside the queue it stands for. -/
structure CvShared where
  chan : CvChan
  queue : QueueModel
  deriving DecidableEq

namespace Ucond

/-- `CV_WAIT` up to its loop. -/
def wait (c : CvChan) (timed : Bool) : CvChan × CvThread :=
  ({ c with waiters := c.waiters + 1, nextTicket := c.nextTicket + 1, hasWaiters := true },
    .queued c.nextTicket c.gen timed)

def leave (c : CvChan) : CvChan :=
  if c.waiters - 1 = 0 then { c with waiters := 0, signals := 0, hasWaiters := false }
  else { c with waiters := c.waiters - 1 }

/-- A turn of the loop that ends with a release: by a broadcast, which comes first, or by a
signal, which the sleeper then takes. -/
def resume (c : CvChan) (ticket g0 : ℕ) : Option (CvChan × CvThread) :=
  if c.gen ≠ g0 then some (leave c, .idle 0)
  else if 0 < c.signals ∧ ticket < c.signalCutoff then
    some (leave { c with signals := c.signals - 1 }, .idle 0)
  else none

/-- A turn of the loop that ends with the deadline, which comes last. -/
def timeout (c : CvChan) (ticket g0 : ℕ) (timed : Bool) : Option (CvChan × CvThread) :=
  if c.gen ≠ g0 ∨ (0 < c.signals ∧ ticket < c.signalCutoff) then none
  else if timed then some (leave c, .idle (-SysError.eTIMEDOUT.code))
  else none

/-- `CV_SIGNAL`, and `CV_SIGNALTO`, which does the same. -/
def signal (c : CvChan) : CvChan :=
  if c.signals < c.waiters then { c with signals := c.signals + 1, signalCutoff := c.nextTicket }
  else c

def broadcast (c : CvChan) : CvChan := { c with gen := c.gen + 1 }

def act {ι : Type*} (_ : ι) : CvAction → CvShared → CvThread → Option (CvShared × CvThread)
  | .wait timed, s, .idle _ =>
    let (c, w) := wait s.chan timed
    some (⟨c, { s.queue with unreleased := s.queue.unreleased + 1 }⟩, w)
  | .resume, s, .queued ticket g0 _ =>
    (resume s.chan ticket g0).map fun r =>
      (⟨r.1, { s.queue with released := s.queue.released - 1 }⟩, r.2)
  | .timeout, s, .queued ticket g0 timed =>
    (timeout s.chan ticket g0 timed).map fun r =>
      (⟨r.1, { s.queue with unreleased := s.queue.unreleased - 1 }⟩, r.2)
  | .signal, s, .idle ret =>
    some (⟨signal s.chan, s.queue.signal s.chan.nextTicket⟩, .idle ret)
  | .signalTo, s, .idle ret =>
    some (⟨signal s.chan, s.queue.signal s.chan.nextTicket⟩, .idle ret)
  | .broadcast, s, .idle ret =>
    some (⟨broadcast s.chan, s.queue.broadcast s.chan.nextTicket⟩, .idle ret)
  | _, _, _ => none

def system (ι : Type*) [DecidableEq ι] :
    LabelledSystem (Threads ι CvShared CvThread) (ι × CvAction) := (⟨act⟩ : ThreadSystem ..).system

/-- A channel nobody has used. -/
def init {ι : Type*} : Threads ι CvShared CvThread :=
  ⟨⟨⟨0, 0, 0, 0, 0, false⟩, ⟨0, 0, 0, 0⟩⟩, fun _ => .idle 0⟩

inductive Standing where
  | outside
  | passed
  | early
  | late
  deriving DecidableEq

def standing (gen cutoff : ℕ) : CvThread → Standing
  | .idle _ => .outside
  | .queued ticket g0 _ =>
    if gen ≠ g0 then .passed else if ticket < cutoff then .early else .late

def count {ι : Type*} [Fintype ι] (k : Standing) (s : Threads ι CvShared CvThread) : ℕ :=
  tally (fun c => standing s.shared.chan.gen s.shared.chan.signalCutoff c = k) s.thread

def entitled {ι : Type*} [Fintype ι] (s : Threads ι CvShared CvThread) : ℕ :=
  count .passed s + min s.shared.chan.signals (count .early s)

end Ucond

end Prosperity.Kern
