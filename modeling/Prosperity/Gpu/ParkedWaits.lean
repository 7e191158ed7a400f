import Mathlib.Logic.Function.Basic
import Prosperity.Gpu.LabelPublisher

/-!
# Waits of the ring queues

A ring queue that finds the label of a WAIT_REG_MEM unsatisfied parks: `StallOnWait` leaves the wait
in `g_parked` and the walk goes on with other queues. `RecordLabelWrite` remembers for a parked wait
that its comparison was true, and the next poll then passes whatever memory holds by that time.

A packet's write is a list of loads, stores and calls of `RecordLabelWrite`. The walk carries one out,
or the publishing thread does; the processor's own stores come in between. `StallOnWait` is two
steps, its section under `g_parked_lock` and the check that follows it. The check reads memory and
then the held writes, which are an argument of its step.
-/

namespace Prosperity.Gpu

def valueBytes (bytes value : ℕ) : List UInt8 :=
  (List.range bytes).map fun i => UInt8.ofNat (value >>> (8 * i))

def bytesValue (bytes : List UInt8) : ℕ := bytes.foldr (fun b v => b.toNat + 256 * v) 0

def loadBytes (m : GuestMemory) (at_ bytes : ℕ) : List UInt8 :=
  (List.range bytes).map fun i => m (at_ + i)

def compares (function value ref : ℕ) : Bool :=
  match function with
  | 1 => decide (value < ref)
  | 2 => decide (value ≤ ref)
  | 3 => decide (value = ref)
  | 4 => decide (value ≠ ref)
  | 5 => decide (value ≥ ref)
  | 6 => decide (value > ref)
  | _ => true

structure WaitRegMem where
  function : ℕ
  address : ℕ
  ref : ℕ
  mask : ℕ
  wide : Bool

namespace WaitRegMem

variable (w : WaitRegMem)

def bytes : ℕ := if w.wide then 8 else 4

def Holds (m : GuestMemory) : Prop :=
  compares w.function (bytesValue (loadBytes m w.address w.bytes) &&& w.mask) w.ref

instance (m : GuestMemory) : Decidable (w.Holds m) := inferInstanceAs (Decidable (_ = _))

end WaitRegMem

structure ParkedWait extends WaitRegMem where
  hit : Bool

/-- `AtomicMemOp` with the two operations its caller takes before it, on `w` bits. -/
def atomicMemOp {w : ℕ} (op : ℕ) (dst src cmp : BitVec w) : BitVec w :=
  match op with
  | 18 => if src < dst then src else dst
  | 20 => if src > dst then src else dst
  | 1 | 9 | 8 => if dst = cmp then src else dst
  | 2 | 10 | 17 => if src.slt dst then src else dst
  | 3 | 11 | 19 => if dst.slt src then src else dst
  | 7 => src
  | 15 => dst + src
  | 16 => dst - src
  | 21 => dst &&& src
  | 22 => dst ||| src
  | 23 => dst ^^^ src
  | 24 => if dst ≥ src then 0 else dst + 1
  | 25 => if dst = 0 ∨ dst > src then src else dst - 1
  | _ => dst

inductive WriteAct where
  | load (at_ bytes : ℕ)
  | store (at_ : ℕ) (bytes : List UInt8 → List UInt8)
  | record (address : ℕ)

inductive CopySource where
  /-- An immediate or a clock. -/
  | value (v : ℕ)
  | memory (src : ℕ)

/-- The writes into guest memory of the packets that pass their handlers' guards. The chunks of a
`memcpy` are the pieces it stores its bytes in. -/
inductive CpWrite where
  | writeData (address : ℕ) (chunks : List (List UInt8))
  /-- `WriteLabel`, for EVENT_WRITE_EOP, EVENT_WRITE_EOS and RELEASE_MEM. -/
  | label (address value : ℕ) (is64bit : Bool)
  | dmaCopy (dst : ℕ) (chunks : List (List UInt8))
  | dmaFill (dst bytes fill : ℕ)
  | atomicMem (address op src cmp : ℕ)
  | copyData (dst : ℕ) (src : CopySource) (is64bit : Bool)
  | zpassDone (address value : ℕ)

def kLabelBytes : ℕ := 64

/-- A `memcpy`. -/
def copyActs : ℕ → List (List UInt8) → List WriteAct
  | _, [] => []
  | at_, c :: cs => .store at_ (fun _ => c) :: copyActs (at_ + c.length) cs

/-- `RecordLabelWrite` for each whole dword. -/
def recordActs (dst bytes : ℕ) : List WriteAct :=
  (List.range (bytes / 4)).map fun k => .record (dst + 4 * k)

/-- What the handler of a packet does to memory, in its order. -/
def CpWrite.acts : CpWrite → List WriteAct
  | .writeData address chunks =>
    copyActs address chunks ++ recordActs address chunks.flatten.length
  | .label address value is64bit =>
    [.store address fun _ => valueBytes (if is64bit then 8 else 4) value, .record address]
  | .dmaCopy dst chunks =>
    if chunks.flatten.length ≤ kLabelBytes then
      copyActs dst chunks ++ recordActs dst chunks.flatten.length
    else copyActs dst chunks
  | .dmaFill dst bytes fill =>
    (List.range (bytes / 4)).flatMap fun k =>
      if bytes ≤ kLabelBytes then
        [.store (dst + 4 * k) fun _ => valueBytes 4 fill, .record (dst + 4 * k)]
      else [.store (dst + 4 * k) fun _ => valueBytes 4 fill]
  | .atomicMem address op src cmp =>
    -- Bit 5 asks for 64 bits and bit 6 for no return.
    let base_op := op &&& 0x1F
    if op &&& 0x20 ≠ 0 then
      [.load address 8, .store address fun loaded => valueBytes 8
        (atomicMemOp base_op (.ofNat 64 (bytesValue loaded)) (.ofNat 64 src) (.ofNat 64 cmp)).toNat]
    else
      [.load address 4, .store address fun loaded => valueBytes 4
        (atomicMemOp base_op (.ofNat 32 (bytesValue loaded)) (.ofNat 32 src) (.ofNat 32 cmp)).toNat]
  | .copyData dst (.value v) is64bit =>
    [.store dst fun _ => valueBytes (if is64bit then 8 else 4) v]
  | .copyData dst (.memory src) is64bit =>
    [.load src (if is64bit then 8 else 4), .store dst id]
  | .zpassDone address value =>
    (List.range 16).map fun db => .store (address + 16 * db) fun _ => valueBytes 8 value

/-! ### The steps of the threads -/

/-- The two threads that write for the command processor. -/
inductive LabelWriter where
  | walk
  | publisher
  deriving DecidableEq

/-- What is left of a write, and what its last load gave. -/
structure WriterAt where
  rest : List WriteAct
  loaded : List UInt8

/-- Guest memory, `g_parked` and where the threads stand. -/
structure ParkState (κ : Type) where
  memory : GuestMemory
  parked : κ → Option ParkedWait
  writer : LabelWriter → WriterAt
  checking : Option (κ × WaitRegMem)
  /-- Whether the last poll of a queue passed, `none` before its end. -/
  answer : κ → Option Bool

structure CheckEnv where
  /-- `IsReadableRangeCached` -/
  readable : Bool
  /-- `FlushCsWritesRange` -/
  flushed : Bool
  /-- The held writes when `OverlayHeld` looks at them. -/
  held : List Held

def waitSatisfied (w : WaitRegMem) (env : CheckEnv) (m : GuestMemory) : Bool :=
  if w.function = 0 ∨ ¬isLabelAddress w.address ∨ env.readable = false then true
  else if env.flushed then
    match overlayHeld w.address w.bytes env.held (loadBytes m w.address w.bytes) with
    | some out => compares w.function (bytesValue out &&& w.mask) w.ref
    | none => false
  else false

/-- The body of the loop of `RecordLabelWrite`. -/
def ParkedWait.record (m : GuestMemory) (address : ℕ) (w : ParkedWait) : ParkedWait :=
  if w.hit ∨ w.address ≠ address then w else { w with hit := decide (w.Holds m) }

inductive ParkEvent (κ : Type) where
  | start (t : LabelWriter) (p : CpWrite)
  | act (t : LabelWriter)
  /-- A store of the processor. -/
  | cpu (at_ : ℕ) (bytes : List UInt8)
  /-- A queue's walk is at a WAIT_REG_MEM: the section of `StallOnWait`. -/
  | park (q : κ) (w : WaitRegMem)
  | check (env : CheckEnv)

namespace ParkState

variable {κ : Type} [DecidableEq κ] (s : ParkState κ)

def setWriter (t : LabelWriter) (a : WriterAt) : ParkState κ :=
  { s with writer := Function.update s.writer t a }

def actStep (t : LabelWriter) : Option (ParkState κ) :=
  match (s.writer t).rest with
  | .load at_ bytes :: rest => some (s.setWriter t ⟨rest, loadBytes s.memory at_ bytes⟩)
  | .store at_ bytes :: rest =>
    some { s.setWriter t ⟨rest, (s.writer t).loaded⟩ with
      memory := storeBytes at_ (bytes (s.writer t).loaded) s.memory }
  | .record address :: rest =>
    some { s.setWriter t ⟨rest, (s.writer t).loaded⟩ with
      parked := fun q => (s.parked q).map (ParkedWait.record s.memory address) }
  | [] => none

/-- `StallOnWait` up to its check. -/
def parkStep (q : κ) (w : WaitRegMem) : ParkState κ :=
  if ∃ p ∈ s.parked q, p.address = w.address ∧ p.ref = w.ref ∧ p.hit = true then
    { s with
      parked := Function.update s.parked q none
      answer := Function.update s.answer q (some true) }
  else
    { s with
      parked := Function.update s.parked q (some ⟨w, false⟩)
      checking := some (q, w)
      answer := Function.update s.answer q none }

/-- The rest of `StallOnWait`. -/
def checkStep (env : CheckEnv) : Option (ParkState κ) :=
  match s.checking with
  | some (q, w) =>
    if waitSatisfied w env s.memory then
      some { s with
        parked := Function.update s.parked q none
        checking := none
        answer := Function.update s.answer q (some true) }
    else some { s with checking := none, answer := Function.update s.answer q (some false) }
  | none => none

def walkFree : Bool := (s.writer .walk).rest.isEmpty && s.checking.isNone

def step : ParkEvent κ → Option (ParkState κ)
  | .start .walk p => if s.walkFree then some (s.setWriter .walk ⟨p.acts, []⟩) else none
  | .start .publisher p =>
    if (s.writer .publisher).rest.isEmpty then some (s.setWriter .publisher ⟨p.acts, []⟩) else none
  | .act t => s.actStep t
  | .cpu at_ bytes => some { s with memory := storeBytes at_ bytes s.memory }
  | .park q w => if s.walkFree then some (s.parkStep q w) else none
  | .check env => s.checkStep env

/-- Every interleaving of the walk, the publishing thread and the processor. -/
def system (κ : Type) [DecidableEq κ] : LabelledSystem (ParkState κ) (ParkEvent κ) := ⟨step⟩

def MakesTrue (w : WaitRegMem) (s : ParkState κ) (e : ParkEvent κ) (s' : ParkState κ) : Prop :=
  ∃ t at_ bytes rest, e = .act t ∧ (s.writer t).rest = .store at_ bytes :: rest ∧
    at_ < w.address + w.bytes ∧ w.address < at_ + (bytes (s.writer t).loaded).length ∧
    w.Holds s'.memory

def RecordsTrue (w : WaitRegMem) (s : ParkState κ) (e : ParkEvent κ) (_ : ParkState κ) : Prop :=
  ∃ t rest, e = .act t ∧ (s.writer t).rest = .record w.address :: rest ∧ w.Holds s.memory

def ChecksTrue (q : κ) (w : WaitRegMem) (s : ParkState κ) (e : ParkEvent κ) (_ : ParkState κ) : Prop :=
  ∃ env, e = .check env ∧ s.checking = some (q, w) ∧ waitSatisfied w env s.memory = true

def NoPoll (q : κ) : ParkEvent κ → Prop
  | .park q' _ => q' ≠ q
  | _ => True

end ParkState

/-! ### A parked wait until its next poll -/

namespace ParkState

variable {κ : Type} [DecidableEq κ] {s s' s'' : ParkState κ} {q : κ} {w : WaitRegMem}

theorem parked_act {t : LabelWriter} (h : s.step (.act t) = some s') :
    s'.parked = s.parked ∧ (∀ x rest, (s.writer t).rest ≠ .record x :: rest) ∨
      ∃ x rest, (s.writer t).rest = .record x :: rest ∧
        s'.parked = fun q => (s.parked q).map (ParkedWait.record s.memory x) := by
  simp only [step, actStep] at h
  split at h
  · next hr => exact .inl ⟨Option.some.inj h ▸ rfl, fun x rest hx => by simp [hr] at hx⟩
  · next hr => exact .inl ⟨Option.some.inj h ▸ rfl, fun x rest hx => by simp [hr] at hx⟩
  · next x rest hr => exact .inr ⟨x, rest, hr, Option.some.inj h ▸ rfl⟩
  · cases h

theorem answer_act {t : LabelWriter} (h : s.step (.act t) = some s') :
    s'.answer = s.answer ∧ s'.checking = s.checking := by
  simp only [step, actStep] at h
  split at h
  · exact ⟨Option.some.inj h ▸ rfl, Option.some.inj h ▸ rfl⟩
  · exact ⟨Option.some.inj h ▸ rfl, Option.some.inj h ▸ rfl⟩
  · exact ⟨Option.some.inj h ▸ rfl, Option.some.inj h ▸ rfl⟩
  · cases h

theorem step_start {t : LabelWriter} {p : CpWrite} (h : s.step (.start t p) = some s') :
    s' = s.setWriter t ⟨p.acts, []⟩ := by
  cases t with
  | walk | publisher =>
    simp only [step] at h
    exact (Option.some.inj (Option.ite_none_right_eq_some.mp h).2).symm

theorem step_park {q' : κ} {w' : WaitRegMem} (h : s.step (.park q' w') = some s') :
    s.checking = none ∧ s' = s.parkStep q' w' := by
  simp only [step] at h
  obtain ⟨hfree, h⟩ := Option.ite_none_right_eq_some.mp h
  simp only [walkFree, Bool.and_eq_true, Option.isNone_iff_eq_none] at hfree
  exact ⟨hfree.2, (Option.some.inj h).symm⟩

theorem parkStep_parked_of_ne {q' : κ} {w' : WaitRegMem} (hq : q' ≠ q) : (s.parkStep q' w').parked q = s.parked q := by
  unfold parkStep
  split <;> exact Function.update_of_ne hq.symm _ _

theorem parkStep_answer_of_ne {q' : κ} {w' : WaitRegMem} (hq : q' ≠ q) : (s.parkStep q' w').answer q = s.answer q := by
  unfold parkStep
  split <;> exact Function.update_of_ne hq.symm _ _

theorem step_check {env : CheckEnv} (h : s.step (.check env) = some s') :
    ∃ q w, s.checking = some (q, w) ∧ s'.checking = none ∧
      s'.answer = Function.update s.answer q (some (waitSatisfied w env s.memory)) ∧
      s'.parked = if waitSatisfied w env s.memory then Function.update s.parked q none else s.parked := by
  simp only [step, checkStep] at h
  split at h
  · next q w hc =>
    refine ⟨q, w, hc, ?_⟩
    split at h
    · next hw =>
      obtain rfl := Option.some.inj h
      simp [hw]
    · next hw =>
      obtain rfl := Option.some.inj h
      simp [hw]
  · cases h

theorem parked_step {b : Bool} {e : ParkEvent κ} (hs : s.parked q = some ⟨w, b⟩) (he : NoPoll q e)
    (h : s.step e = some s') : s'.parked q = none ∨ ∃ b', s'.parked q = some ⟨w, b'⟩ ∧
      (b' = true ↔ b = true ∨ RecordsTrue w s e s') := by
  -- Only a record of the waited address is `RecordsTrue`.
  have hkeep (hp : s'.parked q = s.parked q) (hr : ¬RecordsTrue w s e s') :
      ∃ b', s'.parked q = some ⟨w, b'⟩ ∧ (b' = true ↔ b = true ∨ RecordsTrue w s e s') :=
    ⟨b, hp.trans hs, by simp [hr]⟩
  cases e with
  | start t p =>
    refine .inr (hkeep ?_ ?_)
    · rw [step_start h]
      rfl
    · rintro ⟨t, rest, he, -⟩
      cases he
  | cpu at_ bytes =>
    refine .inr (hkeep ?_ ?_)
    · rw [← Option.some.inj h]
    · rintro ⟨t, rest, he, -⟩
      cases he
  | park q' w' =>
    refine .inr (hkeep ?_ ?_)
    · rw [(step_park h).2, parkStep_parked_of_ne he]
    · rintro ⟨t, rest, he, -⟩
      cases he
  | check env =>
    obtain ⟨q', w', -, -, -, hp⟩ := step_check h
    have hr : ¬RecordsTrue w s (.check env) s' := by
      rintro ⟨t, rest, he, -⟩
      cases he
    rw [hp] at hkeep ⊢
    split
    · by_cases hq : q = q'
      · subst hq
        exact .inl (Function.update_self q none s.parked)
      · refine .inr ⟨b, ?_, by simp [hr]⟩
        rw [Function.update_of_ne hq, hs]
    · exact .inr ⟨b, hs, by simp [hr]⟩
  | act t =>
    refine .inr ?_
    rcases parked_act h with ⟨hp, hno⟩ | ⟨x, rest, hrest, hp⟩
    · refine hkeep (congrFun hp q) ?_
      rintro ⟨t', rest, he, hr, -⟩
      cases he
      exact hno _ _ hr
    · have hrec : RecordsTrue w s (.act t) s' ↔ x = w.address ∧ w.Holds s.memory := by
        constructor
        · rintro ⟨t', rest', he, hr, hw⟩
          cases he
          rw [hrest] at hr
          injection hr with hx
          injection hx with hx
          exact ⟨hx, hw⟩
        · rintro ⟨rfl, hw⟩
          exact ⟨t, rest, rfl, hrest, hw⟩
      refine ⟨(ParkedWait.record s.memory x ⟨w, b⟩).hit, ?_, ?_⟩
      · rw [hp]
        simp only [hs, Option.map_some, ParkedWait.record]
        split <;> rfl
      · rw [hrec]
        by_cases hx : x = w.address
        · cases b <;> simp [ParkedWait.record, hx]
        · simp [ParkedWait.record, hx, Ne.symm hx]

theorem parked_none_step {e : ParkEvent κ} (hs : s.parked q = none) (he : NoPoll q e)
    (h : s.step e = some s') : s'.parked q = none := by
  cases e with
  | start t p =>
    rw [step_start h]
    exact hs
  | cpu at_ bytes =>
    rw [← Option.some.inj h]
    exact hs
  | park q' w' => rw [(step_park h).2, parkStep_parked_of_ne he, hs]
  | check env =>
    obtain ⟨q', w', -, -, -, hp⟩ := step_check h
    rw [hp]
    split
    · by_cases hq : q = q'
      · subst hq
        exact Function.update_self q none s.parked
      · rw [Function.update_of_ne hq, hs]
    · exact hs
  | act t =>
    rcases parked_act h with ⟨hp, -⟩ | ⟨x, rest, -, hp⟩
    · rw [hp, hs]
    · simp [hp, hs]

theorem parked_none_exec {es : List (ParkEvent κ)} (hs : s.parked q = none)
    (hes : ∀ e ∈ es, NoPoll q e) (h : (system κ).exec s es = some s') : s'.parked q = none := by
  induction es generalizing s with
  | nil => exact Option.some.inj h ▸ hs
  | cons e es ih =>
    obtain ⟨m, hm, hrest⟩ := Option.bind_eq_some_iff.mp h
    exact ih (parked_none_step hs (hes e List.mem_cons_self) hm)
      (fun e he => hes e (List.mem_cons_of_mem _ he)) hrest

theorem parked_exec {b : Bool} {es : List (ParkEvent κ)} (hs : s.parked q = some ⟨w, b⟩)
    (hes : ∀ e ∈ es, NoPoll q e) (h : (system κ).exec s es = some s') (hp : s'.parked q ≠ none) :
    ∃ b', s'.parked q = some ⟨w, b'⟩ ∧ (b' = true ↔ b = true ∨ (system κ).SomeStep (RecordsTrue w) s es) := by
  induction es generalizing s b with
  | nil => exact ⟨b, Option.some.inj h ▸ hs, by simp [LabelledSystem.SomeStep]⟩
  | cons e es ih =>
    obtain ⟨m, hm, hrest⟩ := Option.bind_eq_some_iff.mp h
    have hes' : ∀ e ∈ es, NoPoll q e := fun e he => hes e (List.mem_cons_of_mem _ he)
    rcases parked_step hs (hes e List.mem_cons_self) hm with hn | ⟨b₁, hb₁, hiff⟩
    · exact absurd (parked_none_exec hn hes' hrest) hp
    · obtain ⟨b', hb', hiff'⟩ := ih hb₁ hes' hrest
      refine ⟨b', hb', ?_⟩
      rw [hiff', hiff, LabelledSystem.someStep_cons _ hm, or_assoc]

/-! ### The poll -/

def Answered (q : κ) (b : Bool) (s : ParkState κ) : Prop :=
  s.answer q = some b ∧ ∀ w, s.checking ≠ some (q, w)

def Checking (q : κ) (w : WaitRegMem) (s : ParkState κ) : Prop :=
  s.answer q = none ∧ s.checking = some (q, w)

theorem answered_step {b : Bool} {e : ParkEvent κ} (hs : s.Answered q b) (he : NoPoll q e)
    (h : s.step e = some s') : s'.Answered q b ∧ ¬ChecksTrue q w s e s' := by
  have hno : ¬ChecksTrue q w s e s' := fun ⟨_, _, hc, _⟩ => hs.2 w hc
  refine ⟨?_, hno⟩
  cases e with
  | start t p =>
    rw [step_start h]
    exact hs
  | cpu at_ bytes =>
    rw [← Option.some.inj h]
    exact hs
  | act t =>
    obtain ⟨ha, hc⟩ := answer_act h
    exact ⟨ha ▸ hs.1, fun w' => hc ▸ hs.2 w'⟩
  | park q' w' =>
    obtain ⟨hc, rfl⟩ := step_park h
    refine ⟨(parkStep_answer_of_ne he).trans hs.1, fun w'' => ?_⟩
    unfold parkStep
    split
    · simp [hc]
    · simpa using fun hq => absurd hq he
  | check env =>
    obtain ⟨q', w', hc, hc', ha, -⟩ := step_check h
    have hq : q ≠ q' := fun hq => hs.2 w' (hq ▸ hc)
    refine ⟨?_, fun w'' => by simp [hc']⟩
    rw [ha, Function.update_of_ne hq, hs.1]

theorem checking_step {e : ParkEvent κ} (hs : s.Checking q w) (h : s.step e = some s') :
    s'.Checking q w ∧ ¬ChecksTrue q w s e s' ∨ ∃ b, s'.Answered q b ∧ (b = true ↔ ChecksTrue q w s e s') := by
  cases e with
  | start t p =>
    refine .inl ⟨?_, fun ⟨_, he, _⟩ => by cases he⟩
    rw [step_start h]
    exact hs
  | cpu at_ bytes =>
    refine .inl ⟨?_, fun ⟨_, he, _⟩ => by cases he⟩
    rw [← Option.some.inj h]
    exact hs
  | act t =>
    obtain ⟨ha, hc⟩ := answer_act h
    exact .inl ⟨⟨ha ▸ hs.1, hc ▸ hs.2⟩, fun ⟨_, he, _⟩ => by cases he⟩
  | park q' w' => exact absurd ((step_park h).1.symm.trans hs.2) (Option.some_ne_none _).symm
  | check env =>
    obtain ⟨q', w', hc, hc', ha, -⟩ := step_check h
    obtain ⟨rfl, rfl⟩ := Prod.mk.inj (Option.some.inj (hs.2.symm.trans hc))
    refine .inr ⟨_, ⟨ha ▸ Function.update_self q _ s.answer, fun w' => by simp [hc']⟩, ?_⟩
    constructor
    · exact fun hw => ⟨env, rfl, hc, hw⟩
    · rintro ⟨env', he, -, hw⟩
      cases he
      exact hw

theorem answered_exec {b : Bool} {es : List (ParkEvent κ)} (hs : s.Answered q b)
    (hes : ∀ e ∈ es, NoPoll q e) (h : (system κ).exec s es = some s') :
    s'.answer q = some b ∧ ¬(system κ).SomeStep (ChecksTrue q w) s es := by
  have hstep (s : ParkState κ) (e : ParkEvent κ) (s' : ParkState κ) (hi : s.Answered q b)
      (he : NoPoll q e) (h : (system κ).step s e = some s') :
      s'.Answered q b ∧ ¬ChecksTrue q w s e s' := answered_step hi he h
  refine ⟨?_, LabelledSystem.not_someStep_of_invariant (system κ) hstep hs hes⟩
  induction es generalizing s with
  | nil => exact Option.some.inj h ▸ hs.1
  | cons e es ih =>
    obtain ⟨m, hm, hrest⟩ := Option.bind_eq_some_iff.mp h
    exact ih (hstep s e m hs (hes e List.mem_cons_self) hm).1
      (fun e he => hes e (List.mem_cons_of_mem _ he)) hrest

theorem checking_exec {b : Bool} {es : List (ParkEvent κ)} (hs : s.Checking q w)
    (hes : ∀ e ∈ es, NoPoll q e) (h : (system κ).exec s es = some s') (hb : s'.answer q = some b) :
    b = true ↔ (system κ).SomeStep (ChecksTrue q w) s es := by
  induction es generalizing s with
  | nil =>
    obtain rfl := Option.some.inj h
    rw [hs.1] at hb
    cases hb
  | cons e es ih =>
    obtain ⟨m, hm, hrest⟩ := Option.bind_eq_some_iff.mp h
    have hes' : ∀ e ∈ es, NoPoll q e := fun e he => hes e (List.mem_cons_of_mem _ he)
    rw [LabelledSystem.someStep_cons _ hm]
    rcases checking_step hs hm with ⟨hc, hno⟩ | ⟨b', ha, hiff⟩
    · rw [ih hc hes' hrest]
      simp [hno]
    · obtain ⟨hb', hno⟩ := answered_exec (w := w) ha hes' hrest
      obtain rfl : b' = b := Option.some.inj (hb'.symm.trans hb)
      rw [hiff]
      simp [hno]

/-- Waits for the dword at `0x10000` to be 1. -/
def waitForOne : WaitRegMem := ⟨3, 0x10000, 1, 0xFFFFFFFF, false⟩

def parkedOnOne : ParkState Unit where
  memory := fun _ => 0
  parked := fun _ => some ⟨waitForOne, false⟩
  writer := fun _ => ⟨[], []⟩
  checking := none
  answer := fun _ => some false

def labelRun : List (ParkEvent Unit) :=
  [.start .publisher (.label 0x10000 1 false), .act .publisher, .act .publisher, .cpu 0x10000 [0, 0, 0, 0]]

def atomicRun : List (ParkEvent Unit) :=
  [.start .publisher (.atomicMem 0x10000 7 1 0), .act .publisher, .act .publisher, .cpu 0x10000 [0, 0, 0, 0]]

end ParkState

end Prosperity.Gpu
