import Mathlib.Algebra.Group.Nat.Defs
import Mathlib.Data.Fintype.Basic
import Mathlib.Data.List.Sort
import Prosperity.Foundations.Execution
import Prosperity.Gpu.RunMap

/-!
# The write tracker in fault mode

The owner protects pages of guest memory with `Arm` and learns with `Collect` which of them were
written. A write to a protected page faults; the handler opens the page and puts it into a ring,
and so does the announcement of a host write. `NoteRemap` tells that a mapping was replaced.
The owner runs one call at a time; any number of threads run handlers beside it. Each atomic
operation on a page record, the ring or a locked list and each `mprotect` is one step, so an
execution of `WriteTracker.system` is an interleaving of the owner with those threads.
-/

namespace Prosperity.Gpu

def kPage : ℕ := 4096

def kHotReports : UInt16 := 3

def kVolatileFrames : UInt32 := 600

def kQueueSize : ℕ := 2 ^ 20

/-- The chunks of `GuestPageTable`. -/
def kChunks : ℕ := 2 ^ 17

def kPagesPerChunk : ℕ := 2 ^ 18

/-- `GuestPageTable::At` and `Find` have a record for the page. -/
def covered (page : ℕ) : Prop := page / kPagesPerChunk < kChunks

instance (page : ℕ) : Decidable (covered page) :=
  inferInstanceAs (Decidable (page / kPagesPerChunk < kChunks))

/-- The `armed` state of a page. -/
inductive Armed where
  | kOpen
  | kProtected
  | kQueued
  deriving DecidableEq

structure PageReports where
  reports : UInt16
  reportFrame : UInt32
  previousReport : UInt32
  volatileUntil : UInt32
  deriving DecidableEq

/-- Where the owner's call stands. Ranges are given by `first` and `end_`, and `page` is the page
the loop is at. -/
inductive Owner where
  | idle
  /-- `Arm`, in `AllArmed`. -/
  | allArmed (first end_ page : ℕ)
  /-- `ArmFault`, in the loop that refuses hot and queued pages. -/
  | refuse (first end_ page : ℕ)
  /-- `ArmFault`, in the loop that marks; `run` is where the run of marked pages began, or 0. -/
  | mark (first end_ page run : ℕ)
  /-- `ArmFault`, at the `mprotect` of `[run, at_)`. -/
  | protect (first end_ at_ run : ℕ)
  /-- `ArmFault`, opening the pages of `[page, at_)` after that `mprotect` failed. -/
  | rollback (page at_ : ℕ)
  /-- `DisarmFault`, with the groups `EndFrame` has still to disarm. -/
  | disarm (first end_ page : ℕ) (rest : List Range)
  | disarmOpen (first end_ : ℕ) (rest : List Range)
  | disarmErase (first end_ : ℕ) (rest : List Range)
  /-- `NoteWrite` after `DisarmFault`. -/
  | disarmNote (first end_ : ℕ) (rest : List Range)
  /-- `Drain`, before its lock. -/
  | drain
  | drainNext (rest : List Range)
  /-- `Drain`, in `EraseArmed`, with the ranges still to drain. -/
  | eraseArmed (first end_ page : ℕ) (rest : List Range)
  /-- `TakeFaulted`, before it reads the head. -/
  | takeFaulted
  | takeSlot (at_ head : ℕ) (pages : List ℕ)
  | reopenNext (rest : List Range)
  /-- `TakeFaulted`, opening the records of a range, with the ranges still to do. -/
  | reopen (first end_ page : ℕ) (rest : List Range)
  /-- `Collect`, at the count of reports. -/
  | report
  deriving DecidableEq

/-- Where a thread stands. `run` is where the pages `OnHostWrite` has to open begin, or 0. -/
inductive Thread where
  | idle
  /-- `OnWriteFault`, before it takes the page. -/
  | fault (page : ℕ)
  /-- `OnWriteFault`, before its `mprotect`. -/
  | faultOpen (page : ℕ)
  /-- `Enqueue`, before it claims a slot. -/
  | faultEnqueue (page : ℕ)
  | faultStore (page at_ : ℕ)
  /-- `OnHostWrite`, at the top of its loop. -/
  | hostWrite (page end_ run : ℕ)
  | hostEnqueue (page end_ run : ℕ)
  | hostStore (page end_ run at_ : ℕ)
  /-- `OnHostWrite`, in `flush(page)`. -/
  | flush (page end_ run : ℕ)
  /-- The mapping of the range is replaced, `NoteRemap` is not done. -/
  | noteRemap (first end_ : ℕ)
  deriving DecidableEq

structure WriteTracker (ι : Type*) where
  /-- The `armed` states of the page table. -/
  state : ℕ → Armed
  everArmed : ℕ → Bool
  reports : ℕ → PageReports
  readOnly : ℕ → Bool
  /-- `g_queue`; 0 is a slot not filled. -/
  queue : ℕ → ℕ
  queueHead : ℕ
  queueTail : ℕ
  armed : List Range
  armedPages : ℕ
  noted : List Range
  remapped : List Range
  reported : List ℕ
  frame : UInt32
  /-- What the last `Collect` has reported, and how much of it `Drain` did. -/
  out : List Range
  firstNew : ℕ
  owner : Owner
  thread : ι → Thread
  /-- An `Arm` over the page returned true, and no `Collect` has reported it since. -/
  trusted : ℕ → Bool
  /-- The page was trusted when it was written, announced or remapped. -/
  dirty : ℕ → Bool
  /-- The page was dirty when the running `Collect` began, and no handler was at it. -/
  due : ℕ → Bool

inductive WriteEvent (ι : Type*) where
  /-- The owner calls `Arm`, `Collect`, `Release` or `EndFrame`. -/
  | arm (base bytes : ℕ)
  | collect
  | release (base bytes : ℕ)
  | endFrame
  /-- The owner's call goes on; `ok` is whether its `mprotect` succeeds. -/
  | owner (ok : Bool)
  /-- A thread faults at an address, announces a host write, or remaps a range. -/
  | fault (t : ι) (addr : ℕ)
  | hostWrite (t : ι) (addr len : ℕ)
  | remap (t : ι) (base bytes : ℕ)
  | thread (t : ι) (ok : Bool)
  | write (addr : ℕ)
  /-- `NoteWrite` of a write the tracker cannot see. -/
  | noteWrite (base bytes : ℕ)
  deriving DecidableEq

/-- The page of `PageDown(base)`. -/
def pageDown (base : ℕ) : ℕ := base / kPage

/-- The page of `PageUp(base)`. -/
def pageUp (base : ℕ) : ℕ := (base + (kPage - 1)) / kPage

def inAddressSpace (base bytes : ℕ) : Prop := base + bytes + (kPage - 1) < 2 ^ 64

instance (base bytes : ℕ) : Decidable (inAddressSpace base bytes) :=
  inferInstanceAs (Decidable (base + bytes + (kPage - 1) < 2 ^ 64))

/-- Stores `v` for the pages of `[first, end_)`. -/
def setRange {α : Type*} (f : ℕ → α) (first end_ : ℕ) (v : α) : ℕ → α :=
  fun page => if first ≤ page ∧ page < end_ then v else f page

section SetRange

variable {α : Type*} (f : ℕ → α) {first end_ p : ℕ} (v : α)

theorem setRange_of_mem (h : first ≤ p ∧ p < end_) : setRange f first end_ v p = v := if_pos h

theorem setRange_of_not_mem (h : ¬(first ≤ p ∧ p < end_)) : setRange f first end_ v p = f p :=
  if_neg h

end SetRange

namespace Thread

/-- The page the handler has taken and not put into the ring yet. -/
def Claims : Thread → ℕ → Prop
  | faultOpen page, p | faultEnqueue page, p | faultStore page _, p => p = page
  | hostEnqueue page _ _, p | hostStore page _ _ _, p => p = page
  | _, _ => False

/-- The pages an announcement has not come to yet. -/
def Announces : Thread → ℕ → Prop
  | hostWrite page end_ _, p => page ≤ p ∧ p < end_
  | hostEnqueue page end_ _, p | hostStore page end_ _ _, p | flush page end_ _, p =>
    page < p ∧ p < end_
  | _, _ => False

def Remaps : Thread → ℕ → Prop
  | noteRemap first end_, p => first ≤ p ∧ p < end_
  | _, _ => False

/-- The handler is at the page. -/
def At (c : Thread) (p : ℕ) : Prop := c.Claims p ∨ c.Announces p ∨ c.Remaps p

instance (c : Thread) (p : ℕ) : Decidable (c.Claims p) := by
  cases c <;> dsimp only [Claims] <;> infer_instance

instance (c : Thread) (p : ℕ) : Decidable (c.Announces p) := by
  cases c <;> dsimp only [Announces] <;> infer_instance

instance (c : Thread) (p : ℕ) : Decidable (c.Remaps p) := by
  cases c <;> dsimp only [Remaps] <;> infer_instance

instance (c : Thread) (p : ℕ) : Decidable (c.At p) :=
  inferInstanceAs (Decidable (c.Claims p ∨ c.Announces p ∨ c.Remaps p))

end Thread

/-- The ranges of `TakeFaulted`: sorted pages, merged where they meet. -/
def mergeFaulted : List ℕ → List Range
  | [] => []
  | page :: pages => go page (page + 1) pages
where
  go (first end_ : ℕ) : List ℕ → List Range
    | [] => [(first, end_)]
    | page :: pages =>
      if page ≤ end_ then go first (max end_ (page + 1)) pages
      else (first, end_) :: go page (page + 1) pages

/-- The groups of `EndFrame`: sorted pages, each group ended by the first gap. -/
def groupDemoted : List ℕ → List Range
  | [] => []
  | page :: pages => go page (page + 1) pages
where
  go (first end_ : ℕ) : List ℕ → List Range
    | [] => [(first, end_)]
    | page :: pages =>
      if page = end_ then go first (end_ + 1) pages
      else (first, end_) :: go page (page + 1) pages

namespace WriteTracker

variable {ι : Type*}

/-! ### The owner: `Arm` -/

/-- `Arm` returns true. -/
@[simp] def returnTrue (s : WriteTracker ι) (first end_ : ℕ) : WriteTracker ι :=
  { s with owner := .idle, trusted := setRange s.trusted first end_ true }

/-- `Arm` returns false. -/
@[simp] def returnFalse (s : WriteTracker ι) : WriteTracker ι := { s with owner := .idle }

/-- `AllArmed`, and the test of `armed_bytes_` where it finds a page not armed. -/
def stepAllArmed (s : WriteTracker ι) (first end_ page : ℕ) : WriteTracker ι :=
  if page < end_ then
    if covered page ∧ s.state page = .kProtected then
      { s with owner := .allArmed first end_ (page + 1) }
    else if s.armedPages + (end_ - first) ≥ kQueueSize / 2 then s.returnFalse
    else { s with owner := .refuse first end_ first }
  else s.returnTrue first end_

def stepRefuse (s : WriteTracker ι) (first end_ page : ℕ) : WriteTracker ι :=
  if page < end_ then
    if covered page ∧ ((s.reports page).volatileUntil > s.frame ∨ s.state page = .kQueued) then
      s.returnFalse
    else { s with owner := .refuse first end_ (page + 1) }
  else { s with owner := .mark first end_ first 0 }

def stepMark (s : WriteTracker ι) (first end_ page run : ℕ) : WriteTracker ι :=
  if page < end_ then
    if ¬covered page then s.returnFalse
    else if s.state page ≠ .kOpen then
      if run = 0 then { s with owner := .mark first end_ (page + 1) 0 }
      else { s with owner := .protect first end_ page run }
    else
      { s with
        everArmed := Function.update s.everArmed page true
        state := Function.update s.state page .kProtected
        owner := .mark first end_ (page + 1) (if run = 0 then page else run) }
  else if run = 0 then
    { s.returnTrue first end_ with
      armed := (insertRun s.armed first end_).1
      armedPages := s.armedPages + (insertRun s.armed first end_).2 }
  else { s with owner := .protect first end_ end_ run }

/-- The `mprotect` of a run. Afterwards the loop goes on behind the page that ended the run. -/
def stepProtect (s : WriteTracker ι) (ok : Bool) (first end_ at_ run : ℕ) : WriteTracker ι :=
  if ok then
    { s with
      readOnly := setRange s.readOnly run at_ true
      owner := .mark first end_ (if at_ < end_ then at_ + 1 else end_) 0 }
  else { s with owner := .rollback run at_ }

def stepRollback (s : WriteTracker ι) (page at_ : ℕ) : WriteTracker ι :=
  if page < at_ then
    { s with state := Function.update s.state page .kOpen, owner := .rollback (page + 1) at_ }
  else s.returnFalse

/-! ### The owner: `Release` and `EndFrame` -/

def stepDisarm (s : WriteTracker ι) (first end_ page : ℕ) (rest : List Range) : WriteTracker ι :=
  if page < end_ then
    { s with
      state :=
        if covered page ∧ s.state page = .kProtected then Function.update s.state page .kOpen
        else s.state
      owner := .disarm first end_ (page + 1) rest }
  else { s with owner := .disarmOpen first end_ rest }

def stepDisarmOpen (s : WriteTracker ι) (ok : Bool) (first end_ : ℕ) (rest : List Range) : WriteTracker ι :=
  { s with
    readOnly := if ok then setRange s.readOnly first end_ false else s.readOnly
    owner := .disarmErase first end_ rest }

def stepDisarmErase (s : WriteTracker ι) (first end_ : ℕ) (rest : List Range) : WriteTracker ι :=
  { s with
    armed := (eraseRun s.armed first end_).1
    armedPages := s.armedPages - (eraseRun s.armed first end_).2
    owner := .disarmNote first end_ rest }

/-- The next group of `EndFrame`, its pages made volatile. -/
def demoteNext (s : WriteTracker ι) : List Range → WriteTracker ι
  | [] => { s with owner := .idle }
  | (first, end_) :: rest =>
    { s with
      reports := fun page =>
        if first ≤ page ∧ page < end_ ∧ covered page then
          { s.reports page with volatileUntil := s.frame + kVolatileFrames }
        else s.reports page
      owner := .disarm first end_ first rest }

def stepDisarmNote (s : WriteTracker ι) (first end_ : ℕ) (rest : List Range) : WriteTracker ι :=
  { s with noted := s.noted ++ [(first, end_)] }.demoteNext rest

/-- The pages `EndFrame` demotes. -/
def demoted (s : WriteTracker ι) : List ℕ :=
  s.reported.filter fun page =>
    covered page ∧ ((s.reports page).reports ≥ kHotReports ∨ (s.reports page).previousReport + 1 = s.frame)

def beginEndFrame (s : WriteTracker ι) : WriteTracker ι :=
  { s with reported := [], frame := s.frame + 1 }.demoteNext
    (groupDemoted (s.demoted.insertionSort (· ≤ ·)))

/-! ### The owner: `Collect` -/

def beginCollect [Fintype ι] (s : WriteTracker ι) : WriteTracker ι :=
  { s with
    out := []
    due := fun page => s.dirty page && !decide (∃ t, (s.thread t).At page)
    owner := .drain }

/-- The part of `Drain` under the lock. -/
def stepDrain (s : WriteTracker ι) : WriteTracker ι :=
  { s with
    out := s.out ++ s.noted
    noted := []
    remapped := []
    owner := .drainNext s.remapped }

def stepDrainNext (s : WriteTracker ι) : List Range → WriteTracker ι
  | [] => { s with owner := .takeFaulted }
  | (first, end_) :: rest => { s with owner := .eraseArmed first end_ first rest }

/-- `EraseArmed`: `MarkArmed(page, page + 1, false)` on the pages of the range that `armed_` has,
then `EraseRun`. -/
def stepEraseArmed (s : WriteTracker ι) (first end_ page : ℕ) (rest : List Range) : WriteTracker ι :=
  if page < end_ then
    { s with
      state :=
        if Covers s.armed page ∧ covered page then Function.update s.state page .kOpen
        else s.state
      owner := .eraseArmed first end_ (page + 1) rest }
  else
    { s with
      armed := (eraseRun s.armed first end_).1
      armedPages := s.armedPages - (eraseRun s.armed first end_).2
      out := s.out ++ [(first, end_)]
      owner := .drainNext rest }

def stepTakeFaulted (s : WriteTracker ι) : WriteTracker ι :=
  { s with
    firstNew := s.out.length
    owner := if s.queueHead = s.queueTail then .report else .takeSlot s.queueTail s.queueHead [] }

def stepTakeSlot (s : WriteTracker ι) (at_ head : ℕ) (pages : List ℕ) : Option (WriteTracker ι) :=
  if at_ < head then
    if s.queue (at_ % kQueueSize) = 0 then none
    else
      some { s with
        queue := Function.update s.queue (at_ % kQueueSize) 0
        owner := .takeSlot (at_ + 1) head (pages ++ [s.queue (at_ % kQueueSize)]) }
  else
    some { s with
      queueTail := head
      owner := .reopenNext (mergeFaulted (pages.insertionSort (· ≤ ·))) }

def stepReopenNext (s : WriteTracker ι) : List Range → WriteTracker ι
  | [] => { s with owner := .report }
  | (first, end_) :: rest => { s with owner := .reopen first end_ first rest }

def stepReopen (s : WriteTracker ι) (first end_ page : ℕ) (rest : List Range) : WriteTracker ι :=
  if page < end_ then
    { s with
      state :=
        if covered page ∧ s.state page = .kQueued then Function.update s.state page .kOpen
        else s.state
      owner := .reopen first end_ (page + 1) rest }
  else
    { s with
      armed := (eraseRun s.armed first end_).1
      armedPages := s.armedPages - (eraseRun s.armed first end_).2
      out := s.out ++ [(first, end_)]
      owner := .reopenNext rest }

def countReport (s : WriteTracker ι) (page : ℕ) : WriteTracker ι :=
  if covered page then
    let r := s.reports page
    if r.reportFrame ≠ s.frame then
      { s with
        reports := Function.update s.reports page
          { r with previousReport := r.reportFrame, reportFrame := s.frame, reports := 1 }
        reported := s.reported ++ [page] }
    else { s with reports := Function.update s.reports page { r with reports := r.reports + 1 } }
  else s

/-- The pages whose reports `Collect` counts. -/
def reportedPages (s : WriteTracker ι) : List ℕ :=
  (s.out.drop s.firstNew).flatMap fun r => List.range' r.1 (r.2 - r.1)

/-- The end of `Collect`. The caller drops what is reported, and trusts it no longer. -/
def report (s : WriteTracker ι) : WriteTracker ι :=
  { s.reportedPages.foldl countReport s with
    owner := .idle
    trusted := fun page => s.trusted page && !decide (Covers s.out page)
    dirty := fun page => s.dirty page && !decide (Covers s.out page)
    due := fun _ => false }

def ownerStep (s : WriteTracker ι) (ok : Bool) : Option (WriteTracker ι) :=
  match s.owner with
  | .idle => none
  | .allArmed first end_ page => some (s.stepAllArmed first end_ page)
  | .refuse first end_ page => some (s.stepRefuse first end_ page)
  | .mark first end_ page run => some (s.stepMark first end_ page run)
  | .protect first end_ at_ run => some (s.stepProtect ok first end_ at_ run)
  | .rollback page at_ => some (s.stepRollback page at_)
  | .disarm first end_ page rest => some (s.stepDisarm first end_ page rest)
  | .disarmOpen first end_ rest => some (s.stepDisarmOpen ok first end_ rest)
  | .disarmErase first end_ rest => some (s.stepDisarmErase first end_ rest)
  | .disarmNote first end_ rest => some (s.stepDisarmNote first end_ rest)
  | .drain => some s.stepDrain
  | .drainNext rest => some (s.stepDrainNext rest)
  | .eraseArmed first end_ page rest => some (s.stepEraseArmed first end_ page rest)
  | .takeFaulted => some s.stepTakeFaulted
  | .takeSlot at_ head pages => s.stepTakeSlot at_ head pages
  | .reopenNext rest => some (s.stepReopenNext rest)
  | .reopen first end_ page rest => some (s.stepReopen first end_ page rest)
  | .report => some s.report

/-! ### The other threads -/

section Threads

variable [DecidableEq ι]

/-- Thread `t` goes on to `c`. -/
def goto (s : WriteTracker ι) (t : ι) (c : Thread) : WriteTracker ι :=
  { s with thread := Function.update s.thread t c }

def takes (s : WriteTracker ι) (page : ℕ) : Prop := covered page ∧ s.state page = .kProtected

instance (s : WriteTracker ι) (page : ℕ) : Decidable (s.takes page) :=
  inferInstanceAs (Decidable (covered page ∧ s.state page = .kProtected))

def take (s : WriteTracker ι) (page : ℕ) : WriteTracker ι :=
  { s with state := Function.update s.state page .kQueued }

def onWriteFault (s : WriteTracker ι) (t : ι) (page : ℕ) : WriteTracker ι :=
  if s.everArmed page ∧ s.takes page then (s.take page).goto t (.faultOpen page)
  else s.goto t .idle

/-- The `mprotect` that opens `[first, end_)`. -/
def openPages (s : WriteTracker ι) (ok : Bool) (first end_ : ℕ) : WriteTracker ι :=
  { s with readOnly := if ok then setRange s.readOnly first end_ false else s.readOnly }

/-- `Enqueue`: claims the slot at the head. -/
def claimSlot (s : WriteTracker ι) : WriteTracker ι := { s with queueHead := s.queueHead + 1 }

/-- `Enqueue`: fills it. -/
def fillSlot (s : WriteTracker ι) (at_ page : ℕ) : WriteTracker ι :=
  { s with queue := Function.update s.queue (at_ % kQueueSize) page }

def onHostWrite (s : WriteTracker ι) (t : ι) (page end_ run : ℕ) : WriteTracker ι :=
  if page < end_ then
    if s.takes page then
      (s.take page).goto t (.hostEnqueue page end_ (if run = 0 then page else run))
    else if run = 0 then s.goto t (.hostWrite (page + 1) end_ 0)
    else s.goto t (.flush page end_ run)
  else if run = 0 then s.goto t .idle
  else s.goto t (.flush end_ end_ run)

/-- The next step of thread `t`'s handler. -/
def threadStep (s : WriteTracker ι) (t : ι) (ok : Bool) : Option (WriteTracker ι) :=
  match s.thread t with
  | .idle => none
  | .fault page => some (s.onWriteFault t page)
  | .faultOpen page => some ((s.openPages ok page (page + 1)).goto t (.faultEnqueue page))
  | .faultEnqueue page => some (s.claimSlot.goto t (.faultStore page s.queueHead))
  | .faultStore page at_ => some ((s.fillSlot at_ page).goto t .idle)
  | .hostWrite page end_ run => some (s.onHostWrite t page end_ run)
  | .hostEnqueue page end_ run => some (s.claimSlot.goto t (.hostStore page end_ run s.queueHead))
  | .hostStore page end_ run at_ =>
    some ((s.fillSlot at_ page).goto t (.hostWrite (page + 1) end_ run))
  | .flush page end_ run =>
    some ((s.openPages ok run page).goto t
      (if page < end_ then .hostWrite (page + 1) end_ 0 else .idle))
  | .noteRemap first end_ =>
    some ({ s with remapped := s.remapped ++ [(first, end_)] }.goto t .idle)

/-- The pages of the range are written or replaced. -/
def touch (s : WriteTracker ι) (first end_ : ℕ) : WriteTracker ι :=
  { s with
    dirty := fun page =>
      if first ≤ page ∧ page < end_ then s.dirty page || s.trusted page else s.dirty page }

/-- The host replaces the mapping of the range by a writable one. -/
def remap (s : WriteTracker ι) (first end_ : ℕ) : WriteTracker ι :=
  { s with readOnly := setRange s.readOnly first end_ false }.touch first end_

def step [Fintype ι] (s : WriteTracker ι) : WriteEvent ι → Option (WriteTracker ι)
  | .arm base bytes =>
    if s.owner = .idle ∧ 0 < bytes ∧ inAddressSpace base bytes then
      some { s with
        owner := .allArmed (pageDown base) (pageUp (base + bytes)) (pageDown base) }
    else none
  | .collect => if s.owner = .idle then some s.beginCollect else none
  | .release base bytes =>
    if s.owner = .idle ∧ 0 < bytes ∧ inAddressSpace base bytes then
      some { s with
        owner := .disarm (pageDown base) (pageUp (base + bytes)) (pageDown base) [] }
    else none
  | .endFrame => if s.owner = .idle then some s.beginEndFrame else none
  | .owner ok => s.ownerStep ok
  | .fault t addr =>
    if s.thread t = .idle then some (s.goto t (.fault (pageDown addr))) else none
  | .hostWrite t addr len =>
    if s.thread t = .idle ∧ 0 < len ∧ inAddressSpace addr len then
      some ((s.touch (pageDown addr) (pageUp (addr + len))).goto t
        (.hostWrite (pageDown addr) (pageUp (addr + len)) 0))
    else none
  | .remap t base bytes =>
    if s.thread t = .idle ∧ 0 < bytes ∧ inAddressSpace base bytes then
      some ((s.remap (pageDown base) (pageUp (base + bytes))).goto t
        (.noteRemap (pageDown base) (pageUp (base + bytes))))
    else none
  | .thread t ok => s.threadStep t ok
  | .write addr =>
    if s.readOnly (pageDown addr) then none
    else some (s.touch (pageDown addr) (pageDown addr + 1))
  | .noteWrite base bytes =>
    if 0 < bytes ∧ inAddressSpace base bytes then
      some { s with noted := s.noted ++ [(pageDown base, pageUp (base + bytes))] }
    else none

/-- All interleavings of the owner, the handlers and the guest. -/
def system (ι : Type*) [DecidableEq ι] [Fintype ι] : LabelledSystem (WriteTracker ι) (WriteEvent ι) := ⟨step⟩

end Threads

/-- The tracker as `EnableFault` leaves it. -/
def init : WriteTracker ι where
  state _ := .kOpen
  everArmed _ := false
  reports _ := ⟨0, 0, 0, 0⟩
  readOnly _ := false
  queue _ := 0
  queueHead := 0
  queueTail := 0
  armed := []
  armedPages := 0
  noted := []
  remapped := []
  reported := []
  frame := 1
  out := []
  firstNew := 0
  owner := .idle
  thread _ := .idle
  trusted _ := false
  dirty _ := false
  due _ := false

end WriteTracker

end Prosperity.Gpu
