import Mathlib.Algebra.Group.Nat.Defs
import Mathlib.Data.Fintype.Defs
import Mathlib.Logic.Function.Basic
import Prosperity.Foundations.Execution

/-!
# Streaming sessions of a RAR archive

A large entry of a RAR archive is decoded by a worker thread from its first byte on. The bytes go
through a ring from which the readers of the entry take theirs, and the session stays in a cache, so
that a later read further on resumes it.

A step of a thread is one turn of the loop of `Push` or of `Consume`, one section under the cache's
lock, or taking a session's `read_lock`. The sections of `Push` and `Consume` exclude each other by
the session's mutex and wait inside their loops; a turn of one may follow any turn of the other
here, which covers every interleaving the mutex leaves. What the decoder makes of an entry is a
parameter.
-/

namespace Prosperity.Formats

def kRingSize : ℕ := 8 <<< 20

def kMaxSessions : ℕ := 4

def kWholeEntryMax : ℕ := 16 <<< 20

/-- `memcpy(dst + at, src + from, n)`. -/
def copyBytes (dst : ℕ → UInt8) (at_ : ℕ) (src : ℕ → UInt8) (from_ n : ℕ) : ℕ → UInt8 :=
  fun i => if at_ ≤ i ∧ i < at_ + n then src (from_ + (i - at_)) else dst i

theorem copyBytes_inside (dst src : ℕ → UInt8) {at_ from_ n i : ℕ} (h : i < n) :
    copyBytes dst at_ src from_ n (at_ + i) = src (from_ + i) := by
  unfold copyBytes
  rw [if_pos (by omega), Nat.add_sub_cancel_left]

theorem copyBytes_outside (dst src : ℕ → UInt8) {at_ from_ n j : ℕ}
    (h : j < at_ ∨ at_ + n ≤ j) : copyBytes dst at_ src from_ n j = dst j :=
  if_neg (by omega)

inductive RarWorker where
  | decoding
  /-- In `Push`, with the bytes it has still to put into the ring. -/
  | push (rest : List UInt8)
  /-- `Push` has returned false. -/
  | aborted
  | finished
  deriving DecidableEq

/-- `RarSession`. The bytes of the entry that the decoder has handed to its callback and the bytes
drained from the ring, delivered or not, are kept beside it. -/
structure RarSession where
  headerOff : ℕ
  ring : ℕ → UInt8
  produced : ℕ
  consumed : ℕ
  done : Bool
  ok : Bool
  stop : Bool
  worker : RarWorker
  given : ℕ
  drained : List UInt8

/-- What `StartSession` makes. -/
def RarSession.start (headerOff : ℕ) : RarSession where
  headerOff := headerOff
  ring := fun _ => 0
  produced := 0
  consumed := 0
  done := false
  ok := false
  stop := false
  worker := .decoding
  given := 0
  drained := []

/-- What a turn of `Consume` comes to. -/
inductive ConsumeTurn where
  | again (s : RarSession) (out : ℕ → UInt8)
  | fail
  | success

namespace RarSession

variable (s : RarSession)

/-- The decoder hands the next `n` bytes of `stream` to its callback. -/
def processData (stream : List UInt8) (n : ℕ) : Option RarSession :=
  if s.worker = .decoding then
    let data := (stream.drop s.given).take n
    some { s with worker := .push data, given := s.given + data.length }
  else none

/-- A turn of the loop of `Push`; none while the ring is full. -/
def pushStep : Option RarSession :=
  match s.worker with
  | .push [] => some { s with worker := .decoding }
  | .push rest =>
    if s.stop then some { s with worker := .aborted }
    else if s.produced - s.consumed < kRingSize then
      let space := kRingSize - (s.produced - s.consumed)
      let wpos := s.produced % kRingSize
      let n := min rest.length (min space (kRingSize - wpos))
      some { s with
        ring := copyBytes s.ring wpos (fun i => rest.getD i 0) 0 n
        produced := s.produced + n
        worker := .push (rest.drop n) }
    else none
  | _ => none

/-- `Finish`; a decode that was aborted has failed. -/
def finish (success : Bool) : Option RarSession :=
  match s.worker with
  | .decoding => some { s with done := true, ok := success, worker := .finished }
  | .aborted =>
    if success then none
    else some { s with done := true, ok := false, worker := .finished }
  | _ => none

/-- A turn of the loop of `Consume`; none while there is nothing to take. -/
def consumeStep (off len : ℕ) (out : ℕ → UInt8) : Option ConsumeTurn :=
  if s.consumed < off + len then
    let avail := s.produced - s.consumed
    if avail = 0 then
      if s.done then some .fail else none
    else if s.done && !s.ok then some .fail
    else if s.consumed < off then
      let skip := min avail (off - s.consumed)
      some (.again { s with
        consumed := s.consumed + skip
        drained := s.drained ++ (List.range skip).map fun i => s.ring ((s.consumed + i) % kRingSize) } out)
    else
      let rpos := s.consumed % kRingSize
      let n := min avail (min (off + len - s.consumed) (kRingSize - rpos))
      some (.again { s with
        consumed := s.consumed + n
        drained := s.drained ++ (List.range n).map fun i => s.ring (rpos + i) }
        (copyBytes out (s.consumed - off) s.ring rpos n))
  else some .success

end RarSession

/-- The entry of an archive, as far as `ExtractRange` reads it. -/
structure RarEntry where
  /-- Where its header is. -/
  extra : ℕ
  size : ℕ
  method : ℕ

inductive RarReader where
  | idle
  /-- Before the turn `attempt` of the loop of `ExtractRange`. -/
  | attempt (e : RarEntry) (off len attempt : ℕ)
  /-- Before the `read_lock` of a session. -/
  | lock (e : RarEntry) (off len attempt sid : ℕ)
  /-- With the `read_lock`, before the second look at `consumed`. -/
  | check (e : RarEntry) (off len attempt sid : ℕ)
  | consume (e : RarEntry) (off len sid : ℕ) (out : ℕ → UInt8)
  /-- `ExtractRange` has returned; `none` is -1. -/
  | returned (e : RarEntry) (off len : ℕ) (result : Option (List UInt8))

def RarReader.session : RarReader → Option ℕ
  | .lock _ _ _ _ sid | .check _ _ _ _ sid | .consume _ _ _ sid _ => some sid
  | _ => none

/-- A backend: the sessions started so far, the cache, and who holds each `read_lock`. -/
structure RarState (ι : Type*) where
  session : ℕ → RarSession
  count : ℕ
  sessions : List ℕ
  readLock : ℕ → Option ι
  thread : ι → RarReader

/-- A step of a reader, a worker or the destructor of a session. -/
inductive RarEvent (ι : Type*) where
  | extract (t : ι) (e : RarEntry) (off len : ℕ)
  /-- `AcquireSession`, with what it read of the `consumed` of the sessions in the cache. -/
  | acquire (t : ι) (pos : ℕ → ℕ)
  | lock (t : ι)
  | check (t : ι)
  | consume (t : ι)
  | processData (sid n : ℕ)
  | push (sid : ℕ)
  | finish (sid : ℕ) (success : Bool)
  | destroy (sid : ℕ)

/-- The loop of `AcquireSession`: the most advanced session of the entry that has not passed `off`,
with its position. -/
def bestSession (headerOff pos : ℕ → ℕ) (extra off : ℕ) (sessions : List ℕ) : Option (ℕ × ℕ) :=
  sessions.foldl (fun best sid =>
    if headerOff sid ≠ extra then best
    else if pos sid ≤ off ∧ (best.all fun b => b.2 ≤ pos sid) then some (sid, pos sid)
    else best) none

namespace RarState

variable {ι : Type*} [DecidableEq ι] (s : RarState ι)

def init : RarState ι where
  session := RarSession.start
  count := 0
  sessions := []
  readLock := fun _ => none
  thread := fun _ => .idle

/-- Reader `t` has moved on. -/
def goto (t : ι) (c : RarReader) : RarState ι :=
  { s with thread := Function.update s.thread t c }

/-- The session `sid` has changed. -/
def setSession (sid : ℕ) (r : RarSession) : RarState ι :=
  { s with session := Function.update s.session sid r }

def cache (sid : ℕ) (sessions : List ℕ) : List ℕ :=
  if (sid :: sessions).length > kMaxSessions then (sid :: sessions).dropLast else sid :: sessions

def startSession (extra : ℕ) : RarState ι :=
  { s with session := Function.update s.session s.count (.start extra), count := s.count + 1 }

/-- `ExtractRange` up to its loop, for an entry that is decoded by sessions. -/
def extract (t : ι) (e : RarEntry) (off len : ℕ) : Option (RarState ι) :=
  match s.thread t with
  | .idle | .returned _ _ _ _ =>
    if e.size ≤ off ∨ min len (e.size - off) = 0 then
      some (s.goto t (.returned e off 0 (some [])))
    else if e.method = 0 ∨ e.size ≤ kWholeEntryMax then none
    else some (s.goto t (.attempt e off (min len (e.size - off)) 0))
  | _ => none

/-- `AcquireSession`, or after four attempts a session of the reader's own, locked before it is in
the cache. A position that was read is not past the session's `consumed`, which only grows. -/
def acquire (t : ι) (pos : ℕ → ℕ) : Option (RarState ι) :=
  match s.thread t with
  | .attempt e off len n =>
    if n < 4 then
      if ∀ sid ∈ s.sessions, pos sid ≤ (s.session sid).consumed then
        match bestSession (fun sid => (s.session sid).headerOff) pos e.extra off s.sessions with
        | some (sid, _) =>
          some ({ s with sessions := cache sid (s.sessions.erase sid) }.goto t
            (.lock e off len n sid))
        | none =>
          some ({ s.startSession e.extra with sessions := cache s.count s.sessions }.goto t
            (.lock e off len n s.count))
      else none
    else
      some ({ s.startSession e.extra with
        sessions := cache s.count s.sessions
        readLock := Function.update s.readLock s.count (some t) }.goto t
          (.consume e off len s.count fun _ => 0))
  | _ => none

def lockStep (t : ι) : Option (RarState ι) :=
  match s.thread t with
  | .lock e off len n sid =>
    if s.readLock sid = none then
      some ({ s with readLock := Function.update s.readLock sid (some t) }.goto t
        (.check e off len n sid))
    else none
  | _ => none

def checkStep (t : ι) : Option (RarState ι) :=
  match s.thread t with
  | .check e off len n sid =>
    if off < (s.session sid).consumed then
      some ({ s with readLock := Function.update s.readLock sid none }.goto t
        (.attempt e off len (n + 1)))
    else some (s.goto t (.consume e off len sid fun _ => 0))
  | _ => none

/-- A turn of `Consume`, and the return from `ExtractRange` behind the last. -/
def consumeStep (t : ι) : Option (RarState ι) :=
  match s.thread t with
  | .consume e off len sid out =>
    ((s.session sid).consumeStep off len out).map fun
      | .again r out' => (s.setSession sid r).goto t (.consume e off len sid out')
      | .fail =>
        { s with readLock := Function.update s.readLock sid none }.goto t
          (.returned e off len none)
      | .success =>
        { s with readLock := Function.update s.readLock sid none }.goto t
          (.returned e off len (some ((List.range len).map out)))
  | _ => none

def workerStep (sid : ℕ) (r : Option RarSession) : Option (RarState ι) :=
  if sid < s.count then r.map (s.setSession sid) else none

/-- `~RarSession` up to its `Join`, once nobody holds a reference. -/
def destroy [Fintype ι] (sid : ℕ) : Option (RarState ι) :=
  if sid < s.count ∧ sid ∉ s.sessions ∧ ∀ t, (s.thread t).session ≠ some sid then
    some (s.setSession sid { s.session sid with stop := true })
  else none

def step [Fintype ι] (stream : ℕ → List UInt8) : RarEvent ι → Option (RarState ι)
  | .extract t e off len => s.extract t e off len
  | .acquire t pos => s.acquire t pos
  | .lock t => s.lockStep t
  | .check t => s.checkStep t
  | .consume t => s.consumeStep t
  | .processData sid n =>
    s.workerStep sid ((s.session sid).processData (stream (s.session sid).headerOff) n)
  | .push sid => s.workerStep sid (s.session sid).pushStep
  | .finish sid success => s.workerStep sid ((s.session sid).finish success)
  | .destroy sid => s.destroy sid

/-- Every interleaving of the readers `ι` with the workers; `stream` is what the decoder makes of
the entry whose header is at an offset. -/
def system (ι : Type*) [DecidableEq ι] [Fintype ι] (stream : ℕ → List UInt8) :
    LabelledSystem (RarState ι) (RarEvent ι) :=
  ⟨fun s e => s.step stream e⟩

end RarState

end Prosperity.Formats
