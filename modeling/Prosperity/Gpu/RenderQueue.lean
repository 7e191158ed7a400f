import Mathlib.Algebra.Group.Nat.Defs
import Mathlib.Logic.Function.Basic
import Prosperity.Foundations.Execution

/-!
# The render queue

`RenderQueue`: the thread that walks the command buffers pushes commands, and the render thread
runs them. The two meet in three counters, two rings and a mutex with two condition variables. A
step is one access to what they share; `Wake`, which holds the mutex for no access, takes and
gives it up in one step.
-/

namespace Prosperity.Gpu

universe u v

def kCommands : ℕ := 8192

def kDrawSlots : ℕ := 512

inductive Push (γ : Type v) where
  | draw
  | beginFrame
  | endFrame (scanoutBase : ℕ)
  | call (fn : γ)

/-- What a slot of `commands_` holds; a draw has the slot of its `DrawInfo`. -/
inductive Command (γ : Type v) where
  | draw (slot : ℕ)
  | beginFrame
  | endFrame (scanoutBase : ℕ)
  | call (fn : γ)

/-- What a command does when it runs. -/
inductive Effect (δ : Type u) (γ : Type v) where
  | draw (info : δ)
  | beginFrame
  | endFrame (scanoutBase : ℕ)
  | call (fn : γ)
  deriving DecidableEq

inductive Counter where
  | done
  | drawsDone
  deriving DecidableEq

inductive WaitPhase where
  | glance
  | lock
  | test
  | doze
  | sleep
  deriving DecidableEq

inductive AfterWait (γ : Type v) where
  /-- `NextDraw` hands its slot out. -/
  | nextDraw
  /-- `Claim` hands its slot out. -/
  | claim (p : Push γ)
  /-- `PushEndFrame` returns. -/
  | endFrame
  /-- `Drain` returns. -/
  | drain

inductive Walk (γ : Type v) where
  | outside
  | wait (phase : WaitPhase) (counter : Counter) (target : ℕ) (next : AfterWait γ)
  /-- The slot is claimed. -/
  | write (p : Push γ)
  /-- The slot is written. -/
  | publish (p : Push γ)
  /-- In `Wake`, before the mutex. -/
  | wake (p : Push γ)
  | notify (p : Push γ)

/-- Where the render thread stands in `Run`. -/
inductive Render where
  /-- Before the first look at the head. -/
  | look
  | lock
  | test
  | doze
  | sleep
  | run
  /-- The command has run. -/
  | store
  | wake
  | notify
  deriving DecidableEq

structure PendingWrite where
  command : ℕ
  first : ℕ
  last : ℕ
  deriving DecidableEq

structure QueueState (δ : Type u) (γ : Type v) where
  commands : ℕ → Command γ
  draws : ℕ → δ
  head : ℕ
  done : ℕ
  drawsDone : ℕ
  drawHead : ℕ
  lastEndFrame : ℕ
  pendingWrites : List PendingWrite
  walk : Walk γ
  /-- The walk has the slot that `NextDraw` handed out. -/
  hasSlot : Bool
  render : Render
  tail : ℕ
  /-- The last answer of `PendingWriteOverlaps`. -/
  overlaps : Bool
  pushed : List (Effect δ γ)
  executed : List (Effect δ γ)
  noted : List PendingWrite

/-- The calls of the walk, wakes without a notification (`guest::Wait` sleeps for 20 ms), and a
step of either thread. -/
inductive QueueEvent (δ : Type u) (γ : Type v) where
  | nextDraw
  | fill (info : δ)
  | push (p : Push γ)
  | drain
  | notePendingWrite (base bytes : ℕ)
  | pendingWriteOverlaps (base bytes : ℕ)
  | walkTimeout
  | renderTimeout
  | walk
  | render

namespace QueueState

variable {δ : Type u} {γ : Type v} [Inhabited δ]

/-- The queue after `Start`. -/
def init (commands : ℕ → Command γ) (draws : ℕ → δ) : QueueState δ γ where
  commands
  draws
  head := 0
  done := 0
  drawsDone := 0
  drawHead := 0
  lastEndFrame := 0
  pendingWrites := []
  walk := .outside
  hasSlot := false
  render := .look
  tail := 0
  overlaps := false
  pushed := []
  executed := []
  noted := []

/-- The walk holds `wake_mutex_`. -/
def walkLocks (s : QueueState δ γ) : Bool :=
  match s.walk with
  | .wait .test _ _ _ | .wait .doze _ _ _ => true
  | _ => false

/-- The render thread holds `wake_mutex_`. -/
def renderLocks (s : QueueState δ γ) : Bool := s.render = .test || s.render = .doze

def counter (s : QueueState δ γ) : Counter → ℕ
  | .done => s.done
  | .drawsDone => s.drawsDone

/-! ## The walk -/

/-- `NextDraw`, up to its wait. -/
def nextDraw (s : QueueState δ γ) : QueueState δ γ :=
  if s.drawHead ≥ kDrawSlots then
    { s with walk := .wait .glance .drawsDone (s.drawHead - kDrawSlots + 1) .nextDraw }
  else
    { s with
      draws := Function.update s.draws (s.drawHead % kDrawSlots) default
      hasSlot := true }

/-- A push, up to the wait of `Claim`. -/
def push (s : QueueState δ γ) (p : Push γ) : QueueState δ γ :=
  if s.head ≥ kCommands then
    { s with walk := .wait .glance .done (s.head - kCommands + 1) (.claim p) }
  else { s with walk := .write p }

def afterWait (s : QueueState δ γ) : AfterWait γ → QueueState δ γ
  | .nextDraw =>
    { s with
      draws := Function.update s.draws (s.drawHead % kDrawSlots) default
      hasSlot := true
      walk := .outside }
  | .claim p => { s with walk := .write p }
  | .endFrame | .drain => { s with walk := .outside }

def writeSlot (s : QueueState δ γ) (p : Push γ) : QueueState δ γ :=
  let s := { s with walk := .publish p }
  let write (c : Command γ) : ℕ → Command γ := Function.update s.commands (s.head % kCommands) c
  match p with
  | .draw =>
    { s with
      commands := write (.draw (s.drawHead % kDrawSlots))
      drawHead := s.drawHead + 1
      hasSlot := false }
  | .beginFrame => { s with commands := write .beginFrame }
  | .endFrame scanoutBase => { s with commands := write (.endFrame scanoutBase) }
  | .call fn => { s with commands := write (.call fn) }

/-- What a push asks for, with the `DrawInfo` handed over last. -/
def effectOf (s : QueueState δ γ) : Push γ → Effect δ γ
  | .draw => .draw (s.draws ((s.drawHead - 1) % kDrawSlots))
  | .beginFrame => .beginFrame
  | .endFrame scanoutBase => .endFrame scanoutBase
  | .call fn => .call fn

/-- The end of a push, after `Publish`. -/
def endPush (s : QueueState δ γ) : Push γ → QueueState δ γ
  | .endFrame _ =>
    { s with
      lastEndFrame := s.head
      walk := .wait .glance .done s.lastEndFrame .endFrame }
  | _ => { s with walk := .outside }

def walkStep (s : QueueState δ γ) : Option (QueueState δ γ) :=
  match s.walk with
  | .outside => none
  | .wait .glance c target next =>
    some (if s.counter c ≥ target then s.afterWait next
      else { s with walk := .wait .lock c target next })
  | .wait .lock c target next =>
    if s.renderLocks then none else some { s with walk := .wait .test c target next }
  | .wait .test c target next =>
    some (if s.counter c ≥ target then s.afterWait next
      else { s with walk := .wait .doze c target next })
  | .wait .doze c target next => some { s with walk := .wait .sleep c target next }
  | .wait .sleep _ _ _ => none
  | .write p => some (s.writeSlot p)
  | .publish p =>
    some { s with head := s.head + 1, pushed := s.pushed ++ [s.effectOf p], walk := .wake p }
  | .wake p => if s.renderLocks then none else some { s with walk := .notify p }
  | .notify p =>
    let s := if s.render = .sleep then { s with render := .lock } else s
    some (s.endPush p)

/-! ## The render thread -/

/-- What the command in the slot of `tail` does. -/
def running (s : QueueState δ γ) : Effect δ γ :=
  match s.commands (s.tail % kCommands) with
  | .draw slot => .draw (s.draws slot)
  | .beginFrame => .beginFrame
  | .endFrame scanoutBase => .endFrame scanoutBase
  | .call fn => .call fn

/-- A step of `Run`. -/
def renderStep (s : QueueState δ γ) : Option (QueueState δ γ) :=
  match s.render with
  | .look => some { s with render := if s.head = s.tail then .lock else .run }
  | .lock => if s.walkLocks then none else some { s with render := .test }
  | .test => some { s with render := if s.head = s.tail then .doze else .run }
  | .doze => some { s with render := .sleep }
  | .sleep => none
  | .run =>
    some
      { s with
        executed := s.executed ++ [s.running]
        drawsDone := match s.commands (s.tail % kCommands) with
          | .draw _ => s.drawsDone + 1
          | _ => s.drawsDone
        render := .store }
  | .store => some { s with done := s.tail + 1, render := .wake }
  | .wake => if s.walkLocks then none else some { s with render := .notify }
  | .notify =>
    some
      { s with
        walk := match s.walk with
          | .wait .sleep c target next => .wait .lock c target next
          | walk => walk
        tail := s.tail + 1
        render := .look }

/-! ## Calls -/

def notePendingWrite (s : QueueState δ γ) (base bytes : ℕ) : QueueState δ γ :=
  if bytes ≠ 0 then
    let w := ⟨s.head, base, (base + bytes) % 2 ^ 64⟩
    { s with pendingWrites := s.pendingWrites ++ [w], noted := w :: s.noted }
  else s

def pendingWriteOverlaps (s : QueueState δ γ) (base bytes : ℕ) : QueueState δ γ :=
  if s.pendingWrites = [] then { s with overlaps := false }
  else
    let kept := s.pendingWrites.filter fun w => ¬w.command < s.done
    { s with
      pendingWrites := kept
      overlaps := kept.any fun w => w.first < (base + bytes) % 2 ^ 64 && base < w.last }

/-- A step, `none` where it cannot happen. The walk makes a call when it is in none, and pushes a
draw when it has a slot for it. -/
def step (s : QueueState δ γ) : QueueEvent δ γ → Option (QueueState δ γ)
  | .walk => s.walkStep
  | .render => s.renderStep
  | .walkTimeout =>
    match s.walk with
    | .wait .sleep c target next => some { s with walk := .wait .lock c target next }
    | _ => none
  | .renderTimeout => if s.render = .sleep then some { s with render := .lock } else none
  | e =>
    match s.walk with
    | .outside =>
      match e with
      | .nextDraw => some s.nextDraw
      | .fill info =>
        if s.hasSlot then
          some { s with draws := Function.update s.draws (s.drawHead % kDrawSlots) info }
        else none
      | .push .draw => if s.hasSlot then some (s.push .draw) else none
      | .push p => some (s.push p)
      | .drain => some { s with walk := .wait .glance .done s.head .drain }
      | .notePendingWrite base bytes => some (s.notePendingWrite base bytes)
      | .pendingWriteOverlaps base bytes => some (s.pendingWriteOverlaps base bytes)
      | _ => none
    | _ => none

def system (δ : Type u) (γ : Type v) [Inhabited δ] : LabelledSystem (QueueState δ γ) (QueueEvent δ γ) := ⟨step⟩

end QueueState

end Prosperity.Gpu
