import Prosperity.Foundations.Ring
import Prosperity.Gpu.RenderQueue

/-!
# Runs of the render queue

In every interleaving the commands run in the order they were pushed, each once and with the
`DrawInfo` it was pushed with. A slot is not handed out before the last command in it has
completed, and a sleeping thread is woken: while a command is left to run, some thread can step,
and each step brings the run closer to its end.
-/

set_option linter.unusedSectionVars false

namespace Prosperity.Gpu

universe u v

section Effects

variable {δ : Type u} {γ : Type v}

def infos (l : List (Effect δ γ)) : List δ :=
  l.filterMap fun
    | .draw info => some info
    | _ => none

def drawsIn (l : List (Effect δ γ)) : ℕ := (infos l).length

def commandFor (draws : ℕ) : Effect δ γ → Command γ
  | .draw _ => .draw (draws % kDrawSlots)
  | .beginFrame => .beginFrame
  | .endFrame scanoutBase => .endFrame scanoutBase
  | .call fn => .call fn

def encodeFrom : ℕ → List (Effect δ γ) → List (Command γ)
  | _, [] => []
  | draws, e :: l => commandFor draws e :: encodeFrom (draws + drawsIn [e]) l

theorem infos_append (l l' : List (Effect δ γ)) : infos (l ++ l') = infos l ++ infos l' :=
  List.filterMap_append

theorem drawsIn_append (l l' : List (Effect δ γ)) : drawsIn (l ++ l') = drawsIn l + drawsIn l' := by
  rw [drawsIn, infos_append, List.length_append, drawsIn, drawsIn]

theorem drawsIn_cons (e : Effect δ γ) (l : List (Effect δ γ)) :
    drawsIn (e :: l) = drawsIn [e] + drawsIn l := drawsIn_append [e] l

theorem drawsIn_singleton (e : Effect δ γ) :
    drawsIn [e] = match e with
      | .draw _ => 1
      | _ => 0 := by
  cases e <;> rfl

theorem length_encodeFrom (draws : ℕ) (l : List (Effect δ γ)) : (encodeFrom draws l).length = l.length := by
  induction l generalizing draws with
  | nil => rfl
  | cons e l ih => rw [encodeFrom, List.length_cons, ih, List.length_cons]

theorem encodeFrom_append (draws : ℕ) (l : List (Effect δ γ)) (e : Effect δ γ) :
    encodeFrom draws (l ++ [e]) = encodeFrom draws l ++ [commandFor (draws + drawsIn l) e] := by
  induction l generalizing draws with
  | nil => rfl
  | cons e' l ih =>
    rw [List.cons_append, encodeFrom, ih, encodeFrom, List.cons_append, drawsIn_cons e' l, Nat.add_assoc]

theorem encodeFrom_getElem? {draws i : ℕ} {l : List (Effect δ γ)} {e : Effect δ γ} (h : l[i]? = some e) :
    (encodeFrom draws l)[i]? = some (commandFor (draws + drawsIn (l.take i)) e) := by
  induction l generalizing draws i with
  | nil => cases h
  | cons e' l ih =>
    cases i with
    | zero =>
      obtain rfl : e' = e := by simpa using h
      rfl
    | succ i =>
      rw [encodeFrom, List.getElem?_cons_succ, ih h, List.take_succ_cons, drawsIn_cons e' (l.take i), Nat.add_assoc]

theorem infos_getElem? {i : ℕ} {l : List (Effect δ γ)} {info : δ}
    (h : l[i]? = some (.draw info)) : (infos l)[drawsIn (l.take i)]? = some info := by
  obtain ⟨hlt, hget⟩ := List.getElem?_eq_some_iff.mp h
  have hsplit : infos l = infos (l.take i) ++ info :: infos (l.drop (i + 1)) := by
    conv_lhs => rw [← List.take_append_drop i l, List.drop_eq_getElem_cons hlt, hget]
    rw [infos_append]
    rfl
  rw [hsplit, drawsIn, List.getElem?_append_right (Nat.le_refl _), Nat.sub_self]
  rfl

end Effects

namespace QueueState

variable {δ : Type u} {γ : Type v} [Inhabited δ]

/-! ## The invariant -/

/-- The draws handed over but not yet pushed. -/
def inFlight : Walk γ → ℕ
  | .publish .draw => 1
  | _ => 0

def writtenCommand (s : QueueState δ γ) : Push γ → Command γ
  | .draw => .draw ((s.drawHead - 1) % kDrawSlots)
  | .beginFrame => .beginFrame
  | .endFrame scanoutBase => .endFrame scanoutBase
  | .call fn => .call fn

def WalkOk (s : QueueState δ γ) : Walk γ → Prop
  | .outside | .wake _ | .notify _ => True
  | .wait _ c target (.claim p) =>
    c = .done ∧ target + kCommands = s.head + 1 ∧ (p = .draw → s.hasSlot = true)
  | .wait _ c target .nextDraw => c = .drawsDone ∧ target + kDrawSlots = s.drawHead + 1
  | .wait _ c target .endFrame | .wait _ c target .drain => c = .done ∧ target ≤ s.head
  | .write p => s.head < s.done + kCommands ∧ (p = .draw → s.hasSlot = true)
  | .publish p =>
    s.head < s.done + kCommands ∧ s.commands (s.head % kCommands) = s.writtenCommand p

def RenderOk (s : QueueState δ γ) : Render → Prop
  | .run => s.done = s.tail ∧ s.executed.length = s.tail ∧ s.tail < s.head
  | .store => s.done = s.tail ∧ s.executed.length = s.tail + 1
  | .wake | .notify => s.done = s.tail + 1 ∧ s.executed.length = s.tail + 1
  | _ => s.done = s.tail ∧ s.executed.length = s.tail

/-- Where an `EndFrame` that has not run can be. -/
def FrameOk (s : QueueState δ γ) (i : ℕ) : Walk γ → Prop
  | .wake (.endFrame _) | .notify (.endFrame _) => i + 1 = s.lastEndFrame ∨ i + 1 = s.head
  | .wait _ _ target .endFrame => i + 1 = target ∨ i + 1 = s.lastEndFrame
  | _ => i + 1 = s.lastEndFrame

structure WakesOk (s : QueueState δ γ) : Prop where
  mutex : ¬(s.walkLocks = true ∧ s.renderLocks = true)
  renderDoze : s.render = .doze → s.head ≠ s.tail → ∃ p, s.walk = .wake p
  renderSleep : s.render = .sleep → s.head ≠ s.tail → ∃ p, s.walk = .wake p ∨ s.walk = .notify p
  walkDoze : ∀ c target next, s.walk = .wait .doze c target next → target ≤ s.counter c →
    s.render = .store ∨ s.render = .wake
  walkSleep : ∀ c target next, s.walk = .wait .sleep c target next → target ≤ s.counter c →
    s.render = .store ∨ s.render = .wake ∨ s.render = .notify

/-- What every step keeps. -/
structure Inv (s : QueueState δ γ) : Prop where
  head_eq : s.head = s.pushed.length
  executed_eq : s.executed = s.pushed.take s.executed.length
  executed_le : s.executed.length ≤ s.head
  drawsDone_eq : s.drawsDone = drawsIn s.executed
  room : s.head ≤ s.done + kCommands
  drawRoom : s.drawHead ≤ s.drawsDone + kDrawSlots
  slotRoom : s.hasSlot = true → s.drawHead < s.drawsDone + kDrawSlots
  commands : RingHolds kCommands s.commands (encodeFrom 0 s.pushed) s.executed.length
  draws : RingHolds kDrawSlots s.draws (infos s.pushed) s.drawsDone
  last_le : s.lastEndFrame ≤ s.head
  noted : ∀ w ∈ s.noted, s.done ≤ w.command → w ∈ s.pendingWrites
  drawHead_eq : s.drawHead = drawsIn s.pushed + inFlight s.walk
  walkOk : s.WalkOk s.walk
  renderOk : s.RenderOk s.render
  frames : ∀ (i b : ℕ), s.pushed[i]? = some (.endFrame b) → s.done ≤ i → s.FrameOk i s.walk
  wakes : WakesOk s

theorem Inv.init (commands : ℕ → Command γ) (draws : ℕ → δ) : Inv (init commands draws : QueueState δ γ) where
  head_eq := rfl
  executed_eq := rfl
  executed_le := Nat.le_refl _
  drawsDone_eq := rfl
  room := Nat.zero_le _
  drawRoom := Nat.zero_le _
  slotRoom h := by cases h
  commands := RingHolds.nil _ _ _
  draws := RingHolds.nil _ _ _
  last_le := Nat.le_refl _
  noted _ h := absurd h List.not_mem_nil
  drawHead_eq := rfl
  walkOk := trivial
  renderOk := ⟨rfl, rfl⟩
  frames i b h := by cases h
  wakes := by
    constructor
    · rintro ⟨h, -⟩
      cases h
    · intro h
      cases h
    · intro h
      cases h
    · intro c target next h
      cases h
    · intro c target next h
      cases h

variable {s : QueueState δ γ}

theorem Inv.done_le (h : Inv s) : s.done ≤ s.executed.length ∧ s.executed.length ≤ s.done + 1 ∧ s.tail ≤ s.done := by
  have := h.renderOk
  cases hr : s.render <;> rw [hr] at this <;> simp only [RenderOk] at this <;> omega

theorem Inv.walk (h : Inv s) (w : Walk γ) (hflight : inFlight w = inFlight s.walk)
    (hok : s.WalkOk w) (hframes : ∀ i, s.done ≤ i → s.FrameOk i s.walk → s.FrameOk i w)
    (hwakes : WakesOk { s with walk := w }) : Inv { s with walk := w } where
  head_eq := h.head_eq
  executed_eq := h.executed_eq
  executed_le := h.executed_le
  drawsDone_eq := h.drawsDone_eq
  room := h.room
  drawRoom := h.drawRoom
  slotRoom := h.slotRoom
  commands := h.commands
  draws := h.draws
  last_le := h.last_le
  noted := h.noted
  drawHead_eq := hflight ▸ h.drawHead_eq
  walkOk := by
    have hsame : ∀ w', WalkOk { s with walk := w } w' = s.WalkOk w' := by
      intro w'
      cases w' <;> rfl
    exact (hsame w).symm ▸ hok
  renderOk := by
    have hsame : ∀ r, RenderOk { s with walk := w } r = s.RenderOk r := by
      intro r
      cases r <;> rfl
    exact (hsame s.render).symm ▸ h.renderOk
  frames := by
    have hsame : ∀ i w', FrameOk { s with walk := w } i w' = s.FrameOk i w' := by
      intro i w'
      rfl
    exact fun i b hi hdone => hsame i w ▸ hframes i hdone (h.frames i b hi hdone)
  wakes := hwakes

theorem Inv.render (h : Inv s) (r : Render) (hok : s.RenderOk r)
    (hwakes : WakesOk { s with render := r }) : Inv { s with render := r } where
  head_eq := h.head_eq
  executed_eq := h.executed_eq
  executed_le := h.executed_le
  drawsDone_eq := h.drawsDone_eq
  room := h.room
  drawRoom := h.drawRoom
  slotRoom := h.slotRoom
  commands := h.commands
  draws := h.draws
  last_le := h.last_le
  noted := h.noted
  drawHead_eq := h.drawHead_eq
  walkOk := h.walkOk
  renderOk := hok
  frames := h.frames
  wakes := hwakes

variable {s' : QueueState δ γ} {phase : WaitPhase} {p : Push γ}

theorem WakesOk.of_walk (h : WakesOk s) (hrender : s'.render = s.render)
    (hhead : s'.head = s.head) (htail : s'.tail = s.tail)
    (hold : ∀ p, s.walk ≠ .wake p ∧ s.walk ≠ .notify p) (hfree : s'.walkLocks = false)
    (hawake : ∀ c target next, s'.walk ≠ .wait .sleep c target next) : WakesOk s' where
  mutex hboth := by simp [hfree] at hboth
  renderDoze hdoze hne := by
    rw [hhead, htail] at hne
    obtain ⟨p, hp⟩ := h.renderDoze (hrender ▸ hdoze) hne
    exact absurd hp (hold p).1
  renderSleep hsleep hne := by
    rw [hhead, htail] at hne
    obtain ⟨p, hp⟩ := h.renderSleep (hrender ▸ hsleep) hne
    exact hp.elim (fun hp => absurd hp (hold p).1) fun hp => absurd hp (hold p).2
  walkDoze c target next hw _ := by simp [walkLocks, hw] at hfree
  walkSleep c target next hw _ := absurd hw (hawake c target next)

theorem WakesOk.of_render (h : WakesOk s) (hwalk : s'.walk = s.walk) (hcounter : s'.counter = s.counter)
    (hold : s.render ≠ .store ∧ s.render ≠ .wake ∧ s.render ≠ .notify)
    (hmutex : ¬(s'.walkLocks = true ∧ s'.renderLocks = true))
    (hdoze : s'.render = .doze → s'.head ≠ s'.tail → ∃ p, s'.walk = .wake p)
    (hsleep : s'.render = .sleep → s'.head ≠ s'.tail → ∃ p, s'.walk = .wake p ∨ s'.walk = .notify p) : WakesOk s' where
  mutex := hmutex
  renderDoze := hdoze
  renderSleep := hsleep
  walkDoze c target next hw hge := by
    have := h.walkDoze c target next (hwalk ▸ hw) (hcounter ▸ hge)
    simp [hold] at this
  walkSleep c target next hw hge := by
    have := h.walkSleep c target next (hwalk ▸ hw) (hcounter ▸ hge)
    simp [hold] at this

theorem length_infos (l : List (Effect δ γ)) : (infos l).length = drawsIn l := rfl

theorem Inv.setDraw (h : Inv s) (hflight : inFlight s.walk = 0)
    (hroom : s.drawHead < s.drawsDone + kDrawSlots) (info : δ) :
    Inv { s with
      draws := Function.update s.draws (s.drawHead % kDrawSlots) info
      hasSlot := true } where
  head_eq := h.head_eq
  executed_eq := h.executed_eq
  executed_le := h.executed_le
  drawsDone_eq := h.drawsDone_eq
  room := h.room
  drawRoom := h.drawRoom
  slotRoom _ := hroom
  commands := h.commands
  draws := by
    have hlen : (infos s.pushed).length = s.drawHead := by
      rw [length_infos, h.drawHead_eq, hflight, Nat.add_zero]
    rw [← hlen] at hroom ⊢
    exact h.draws.write hroom
  last_le := h.last_le
  noted := h.noted
  drawHead_eq := h.drawHead_eq
  walkOk := by
    have hok := h.walkOk
    show WalkOk _ s.walk
    cases hw : s.walk with
    | wait phase c target next =>
      rw [hw] at hok
      cases next with
      | claim p => exact ⟨hok.1, hok.2.1, fun _ => rfl⟩
      | nextDraw => exact hok
      | endFrame => exact hok
      | drain => exact hok
    | write p =>
      rw [hw] at hok
      exact ⟨hok.1, fun _ => rfl⟩
    | publish p =>
      rw [hw] at hok
      exact hok
    | _ => trivial
  renderOk := h.renderOk
  frames := h.frames
  wakes := ⟨h.wakes.mutex, h.wakes.renderDoze, h.wakes.renderSleep, h.wakes.walkDoze, h.wakes.walkSleep⟩

/-! ## The walk -/

theorem Inv.outside (h : Inv s) {c : Counter} {target : ℕ}
    {next : AfterWait γ} (hw : s.walk = .wait phase c target next)
    (hlast : ∀ i, s.done ≤ i → s.FrameOk i s.walk → i + 1 = s.lastEndFrame) :
    Inv { s with walk := .outside } := by
  refine h.walk .outside ?_ trivial hlast ?_
  · rw [hw]
    rfl
  · refine h.wakes.of_walk rfl rfl rfl (fun p => ?_) rfl fun _ _ _ hsleep => ?_
    · rw [hw]
      exact ⟨nofun, nofun⟩
    · cases hsleep

theorem Inv.afterWait (h : Inv s) {c : Counter} {target : ℕ}
    {next : AfterWait γ} (hw : s.walk = .wait phase c target next)
    (hge : target ≤ s.counter c) : Inv (s.afterWait next) := by
  have hok := h.walkOk
  rw [hw] at hok
  cases next with
  | nextDraw =>
    obtain ⟨rfl, htarget⟩ := hok
    have hout := h.outside hw (by rw [hw]; exact fun _ _ h => h)
    refine hout.setDraw rfl ?_ default
    show s.drawHead < s.drawsDone + kDrawSlots
    have : target ≤ s.drawsDone := hge
    omega
  | claim p =>
    obtain ⟨rfl, htarget, hslot⟩ := hok
    have : target ≤ s.done := hge
    refine h.walk (.write p) ?_ ⟨by omega, hslot⟩ ?_ ?_
    · rw [hw]
      rfl
    · rw [hw]
      exact fun _ _ h => h
    · refine h.wakes.of_walk rfl rfl rfl (fun p => ?_) rfl fun _ _ _ hsleep => ?_
      · rw [hw]
        exact ⟨nofun, nofun⟩
      · cases hsleep
  | endFrame =>
    obtain ⟨rfl, -⟩ := hok
    refine h.outside hw fun i hi hframe => ?_
    rw [hw] at hframe
    -- the frame waited for has run
    have : target ≤ s.done := hge
    exact hframe.resolve_left (by omega)
  | drain => exact h.outside hw (by rw [hw]; exact fun _ _ h => h)

theorem Inv.wait (h : Inv s) {c : Counter} {target : ℕ} {next : AfterWait γ}
    (hw : s.walk = .wait phase c target next) (phase' : WaitPhase)
    (hwakes : WakesOk { s with walk := .wait phase' c target next }) :
    Inv { s with walk := .wait phase' c target next } := by
  refine h.walk _ ?_ ?_ ?_ hwakes
  · rw [hw]
    rfl
  · have hok := h.walkOk
    rw [hw] at hok
    cases next with
    | _ => exact hok
  · rw [hw]
    intro i _ hframe
    cases next with
    | _ => exact hframe

theorem Inv.writeSlot (h : Inv s) (hw : s.walk = .write p) : Inv (s.writeSlot p) := by
  have hok := h.walkOk
  rw [hw] at hok
  obtain ⟨hroom, hslot⟩ := hok
  have hdone := h.done_le
  have hlen : (encodeFrom 0 s.pushed).length = s.head := by rw [length_encodeFrom, h.head_eq]
  have hwrite : ∀ c, RingHolds kCommands (Function.update s.commands (s.head % kCommands) c)
      (encodeFrom 0 s.pushed) s.executed.length := by
    intro c
    rw [← hlen]
    exact h.commands.write (by omega)
  have hwakes : ∀ s' : QueueState δ γ, s'.render = s.render → s'.head = s.head →
      s'.tail = s.tail → s'.walk = .publish p → WakesOk s' := by
    intro s' hrender hhead htail hw'
    refine h.wakes.of_walk hrender hhead htail (fun p => ?_) ?_ fun _ _ _ hsleep => ?_
    · rw [hw]
      exact ⟨nofun, nofun⟩
    · rw [walkLocks, hw']
    · rw [hw'] at hsleep
      cases hsleep
  have hdraws := h.drawHead_eq
  have hframes := h.frames
  rw [hw] at hdraws hframes
  cases p with
  | draw =>
    have hslotRoom := h.slotRoom (hslot rfl)
    exact {
      head_eq := h.head_eq
      executed_eq := h.executed_eq
      executed_le := h.executed_le
      drawsDone_eq := h.drawsDone_eq
      room := h.room
      drawRoom := hslotRoom
      slotRoom := fun h => by cases h
      commands := hwrite _
      draws := h.draws
      last_le := h.last_le
      noted := h.noted
      drawHead_eq := congrArg (· + 1) hdraws
      walkOk := ⟨hroom, Function.update_self _ _ _⟩
      renderOk := h.renderOk
      frames := hframes
      wakes := hwakes _ rfl rfl rfl rfl }
  | _ =>
    exact {
      head_eq := h.head_eq
      executed_eq := h.executed_eq
      executed_le := h.executed_le
      drawsDone_eq := h.drawsDone_eq
      room := h.room
      drawRoom := h.drawRoom
      slotRoom := h.slotRoom
      commands := hwrite _
      draws := h.draws
      last_le := h.last_le
      noted := h.noted
      drawHead_eq := hdraws
      walkOk := ⟨hroom, Function.update_self _ _ _⟩
      renderOk := h.renderOk
      frames := hframes
      wakes := hwakes _ rfl rfl rfl rfl }

theorem Inv.publish (h : Inv s) (hw : s.walk = .publish p) :
    Inv { s with head := s.head + 1, pushed := s.pushed ++ [s.effectOf p], walk := .wake p } := by
  have hok := h.walkOk
  have hdraws := h.drawHead_eq
  rw [hw] at hok hdraws
  obtain ⟨hroom, hwritten⟩ := hok
  have hdone := h.done_le
  have hlen : (encodeFrom 0 s.pushed).length = s.head := by rw [length_encodeFrom, h.head_eq]
  have hle : s.executed.length ≤ s.pushed.length := h.head_eq ▸ h.executed_le
  constructor
  · show s.head + 1 = _
    rw [List.length_append, h.head_eq]
    rfl
  · show s.executed = _
    rw [List.take_append_of_le_length hle]
    exact h.executed_eq
  · exact Nat.le_succ_of_le h.executed_le
  · exact h.drawsDone_eq
  · exact hroom
  · exact h.drawRoom
  · exact h.slotRoom
  · show RingHolds _ _ (encodeFrom 0 (s.pushed ++ [s.effectOf p])) _
    rw [encodeFrom_append]
    refine h.commands.push ?_
    rw [hlen, hwritten]
    -- the draw handed over last is the next one
    cases p with
    | draw =>
      simp only [inFlight] at hdraws
      simp only [writtenCommand, effectOf, commandFor, hdraws, Nat.zero_add, Nat.add_sub_cancel]
    | _ => rfl
  · show RingHolds _ _ (infos (s.pushed ++ [s.effectOf p])) _
    rw [infos_append]
    cases p with
    | draw =>
      refine h.draws.push ?_
      simp only [inFlight] at hdraws
      rw [length_infos, hdraws, Nat.add_sub_cancel]
    | _ => simpa [infos, effectOf] using h.draws
  · exact Nat.le_succ_of_le h.last_le
  · exact h.noted
  · show s.drawHead = drawsIn (s.pushed ++ [s.effectOf p]) + 0
    rw [drawsIn_append, drawsIn_singleton, hdraws]
    cases p <;> rfl
  · trivial
  · have hrender := h.renderOk
    show RenderOk _ s.render
    cases hr : s.render with
    | run =>
      rw [hr] at hrender
      exact ⟨hrender.1, hrender.2.1, Nat.lt_succ_of_lt hrender.2.2⟩
    | _ =>
      rw [hr] at hrender
      exact hrender
  · intro i b hi hge
    have hframes := h.frames i b
    rw [hw] at hframes
    rw [List.getElem?_append] at hi
    split at hi
    · have hlast := hframes hi hge
      cases p with
      | endFrame _ => exact .inl hlast
      | _ => exact hlast
    · -- the frame that is pushed now
      rename_i hnew
      have hzero : i - s.pushed.length = 0 := by
        by_contra hne
        rw [List.getElem?_eq_none (by simp; omega)] at hi
        cases hi
      rw [hzero] at hi
      cases p with
      | endFrame _ =>
        right
        show i + 1 = s.head + 1
        rw [h.head_eq]
        omega
      | _ => cases hi
  · constructor
    · intro hboth
      cases hboth.1
    · exact fun _ _ => ⟨p, rfl⟩
    · exact fun _ _ => ⟨p, .inl rfl⟩
    · intro c target next hw'
      cases hw'
    · intro c target next hw'
      cases hw'

theorem Inv.wake (h : Inv s) (hw : s.walk = .wake p) (hfree : s.renderLocks = false) :
    Inv { s with walk := .notify p } := by
  refine h.walk _ ?_ trivial ?_ ?_
  · rw [hw]
    rfl
  · rw [hw]
    intro i _ hframe
    cases p with
    | _ => exact hframe
  · constructor
    · intro hboth
      cases hboth.1
    · intro hdoze
      rw [renderLocks, hdoze] at hfree
      cases hfree
    · exact fun _ _ => ⟨p, .inr rfl⟩
    · intro c target next hw'
      cases hw'
    · intro c target next hw'
      cases hw'

def notified (r : Render) : Render := if r = .sleep then .lock else r

theorem Inv.notify (h : Inv s) (hw : s.walk = .notify p) :
    Inv (({ s with render := notified s.render } : QueueState δ γ).endPush p) := by
  have hdoze : s.render = .doze → s.head = s.tail := by
    intro hdoze
    by_contra hne
    obtain ⟨p', hp'⟩ := h.wakes.renderDoze hdoze hne
    rw [hw] at hp'
    cases hp'
  have hnotified : notified s.render = .doze → s.render = .doze := by
    unfold notified
    split
    · intro h
      cases h
    · exact id
  have hwakes : ∀ s' : QueueState δ γ, s'.render = notified s.render → s'.head = s.head →
      s'.tail = s.tail → s'.walkLocks = false →
      (∀ c target next, s'.walk ≠ .wait .sleep c target next) → WakesOk s' := by
    intro s' hrender hhead htail hfree hawake
    constructor
    · intro hboth
      rw [hfree] at hboth
      cases hboth.1
    · intro hd hne
      rw [hhead, htail] at hne
      exact absurd (hdoze (hnotified (hrender ▸ hd))) hne
    · intro hs
      rw [hrender] at hs
      unfold notified at hs
      split at hs
      · cases hs
      · rename_i hne
        exact absurd hs hne
    · intro c target next hw' _
      rw [walkLocks, hw'] at hfree
      cases hfree
    · intro c target next hw' _
      exact absurd hw' (hawake c target next)
  have hrenderOk : s.RenderOk (notified s.render) := by
    have hok := h.renderOk
    unfold notified
    split
    · rename_i hsleep
      rw [hsleep] at hok
      exact hok
    · exact hok
  have hdraws := h.drawHead_eq
  have hframes := h.frames
  rw [hw] at hdraws hframes
  cases p with
  | endFrame b =>
    exact {
      head_eq := h.head_eq
      executed_eq := h.executed_eq
      executed_le := h.executed_le
      drawsDone_eq := h.drawsDone_eq
      room := h.room
      drawRoom := h.drawRoom
      slotRoom := h.slotRoom
      commands := h.commands
      draws := h.draws
      last_le := Nat.le_refl _
      noted := h.noted
      drawHead_eq := hdraws
      walkOk := ⟨rfl, h.last_le⟩
      renderOk := hrenderOk
      frames := hframes
      wakes := hwakes _ rfl rfl rfl rfl nofun }
  | _ =>
    exact {
      head_eq := h.head_eq
      executed_eq := h.executed_eq
      executed_le := h.executed_le
      drawsDone_eq := h.drawsDone_eq
      room := h.room
      drawRoom := h.drawRoom
      slotRoom := h.slotRoom
      commands := h.commands
      draws := h.draws
      last_le := h.last_le
      noted := h.noted
      drawHead_eq := hdraws
      walkOk := trivial
      renderOk := hrenderOk
      frames := hframes
      wakes := hwakes _ rfl rfl rfl rfl nofun }

theorem Inv.walkStep (h : Inv s) (hs : s.walkStep = some s') : Inv s' := by
  unfold QueueState.walkStep at hs
  have hquiet : ∀ {phase c target next}, s.walk = .wait phase c target next →
      ∀ p, s.walk ≠ .wake p ∧ s.walk ≠ .notify p := by
    intro phase c target next hw p
    rw [hw]
    exact ⟨nofun, nofun⟩
  -- a render thread that dozes or sleeps on a nonempty ring is owed a call, and a waiting walk owes none
  have hdozing : ∀ {phase c target next} {a : Prop}, s.walk = .wait phase c target next →
      s.render = .doze → s.head ≠ s.tail → a := by
    intro phase c target next a hw hdoze hne
    obtain ⟨p, hp⟩ := h.wakes.renderDoze hdoze hne
    exact absurd hp (hquiet hw p).1
  have hsleeping : ∀ {phase c target next} {a : Prop}, s.walk = .wait phase c target next →
      s.render = .sleep → s.head ≠ s.tail → a := by
    intro phase c target next a hw hsleep hne
    obtain ⟨p, hp⟩ := h.wakes.renderSleep hsleep hne
    exact hp.elim (fun hp => absurd hp (hquiet hw p).1) fun hp => absurd hp (hquiet hw p).2
  split at hs
  · cases hs
  · rename_i c target next hw
    obtain rfl := Option.some.inj hs
    split
    · exact h.afterWait hw ‹_›
    · exact h.wait hw .lock (h.wakes.of_walk rfl rfl rfl (hquiet hw) rfl nofun)
  · rename_i c target next hw
    split at hs
    · cases hs
    · -- the walk takes the mutex
      rename_i hfree
      obtain rfl := Option.some.inj hs
      refine h.wait hw .test ⟨fun hboth => hfree hboth.2, hdozing hw, hsleeping hw, nofun, nofun⟩
  · rename_i c target next hw
    obtain rfl := Option.some.inj hs
    split
    · exact h.afterWait hw ‹_›
    · rename_i hlt
      refine h.wait hw .doze ⟨fun hboth => h.wakes.mutex ⟨by rw [walkLocks, hw], hboth.2⟩,
        hdozing hw, hsleeping hw, ?_, nofun⟩
      intro c' target' next' hw' hge
      cases hw'
      exact absurd hge hlt
  · rename_i c target next hw
    obtain rfl := Option.some.inj hs
    refine h.wait hw .sleep ⟨fun hboth => Bool.false_ne_true hboth.1, hdozing hw, hsleeping hw, nofun, ?_⟩
    intro c' target' next' hw' hge
    cases hw'
    rcases h.wakes.walkDoze c target next hw hge with hr | hr
    · exact .inl hr
    · exact .inr (.inl hr)
  · cases hs
  · rename_i p hw
    obtain rfl := Option.some.inj hs
    exact h.writeSlot hw
  · rename_i p hw
    obtain rfl := Option.some.inj hs
    exact h.publish hw
  · rename_i p hw
    split at hs
    · cases hs
    · rename_i hfree
      obtain rfl := Option.some.inj hs
      exact h.wake hw (Bool.not_eq_true _ ▸ hfree)
  · rename_i p hw
    obtain rfl := Option.some.inj hs
    have hsame : (if s.render = .sleep then { s with render := .lock } else s) =
        { s with render := notified s.render } := by
      unfold notified
      split <;> rfl
    rw [hsame]
    exact h.notify hw

/-! ## The render thread -/

/-- **The command that runs is the next one pushed.** -/
theorem Inv.running_eq (h : Inv s) (hr : s.render = .run) : s.pushed[s.executed.length]? = some s.running ∧
      s.commands (s.tail % kCommands) = commandFor s.drawsDone s.running := by
  have hok := h.renderOk
  rw [hr] at hok
  obtain ⟨-, htail, hlt⟩ := hok
  obtain ⟨e, he⟩ : ∃ e, s.pushed[s.executed.length]? = some e :=
    ⟨_, List.getElem?_eq_getElem (by rw [← h.head_eq]; omega)⟩
  have hcommand := h.commands _ _ (Nat.le_refl _) (encodeFrom_getElem? he)
  rw [← h.executed_eq, ← h.drawsDone_eq, Nat.zero_add, htail] at hcommand
  have hrunning : s.running = e := by
    rw [running, hcommand]
    cases e with
    | draw info =>
      have hinfo := infos_getElem? he
      rw [← h.executed_eq, ← h.drawsDone_eq] at hinfo
      exact congrArg _ (h.draws _ _ (Nat.le_refl _) hinfo)
    | _ => rfl
  rw [hrunning]
  exact ⟨he, hcommand⟩

theorem Inv.run (h : Inv s) (hr : s.render = .run) :
    Inv { s with
      executed := s.executed ++ [s.running]
      drawsDone := match s.commands (s.tail % kCommands) with
        | .draw _ => s.drawsDone + 1
        | _ => s.drawsDone
      render := .store } := by
  obtain ⟨hnext, hcommand⟩ := h.running_eq hr
  have hok := h.renderOk
  rw [hr] at hok
  obtain ⟨hdone, htail, hlt⟩ := hok
  have hdraws : (match s.commands (s.tail % kCommands) with
      | .draw _ => s.drawsDone + 1
      | _ => s.drawsDone) = s.drawsDone + drawsIn [s.running] := by
    rw [hcommand, drawsIn_singleton]
    cases s.running <;> rfl
  rw [hdraws]
  constructor
  · exact h.head_eq
  · show s.executed ++ [s.running] = s.pushed.take (s.executed ++ [s.running]).length
    rw [List.length_append, List.length_singleton, List.take_add_one, hnext, ← h.executed_eq]
    rfl
  · show (s.executed ++ [s.running]).length ≤ s.head
    rw [List.length_append, List.length_singleton]
    omega
  · show s.drawsDone + drawsIn [s.running] = drawsIn (s.executed ++ [s.running])
    rw [drawsIn_append, h.drawsDone_eq]
  · exact h.room
  · exact Nat.le_trans h.drawRoom (by show _ ≤ s.drawsDone + _ + _; omega)
  · intro hslot
    exact Nat.lt_of_lt_of_le (h.slotRoom hslot) (by show _ ≤ s.drawsDone + _ + _; omega)
  · exact h.commands.mono (by show _ ≤ (s.executed ++ [s.running]).length; simp)
  · exact h.draws.mono (Nat.le_add_right _ _)
  · exact h.last_le
  · exact h.noted
  · exact h.drawHead_eq
  · exact h.walkOk
  · exact ⟨hdone, by show (s.executed ++ [s.running]).length = _; simp [htail]⟩
  · exact h.frames
  · constructor
    · intro hboth
      cases hboth.2
    · intro hdoze
      cases hdoze
    · intro hsleep
      cases hsleep
    · exact fun _ _ _ _ _ => .inl rfl
    · exact fun _ _ _ _ _ => .inl rfl

theorem Inv.store (h : Inv s) (hr : s.render = .store) :
    Inv { s with done := s.tail + 1, render := .wake } := by
  have hok := h.renderOk
  rw [hr] at hok
  obtain ⟨hdone, hlen⟩ := hok
  have hle : s.done ≤ s.tail + 1 := by omega
  constructor
  · exact h.head_eq
  · exact h.executed_eq
  · exact h.executed_le
  · exact h.drawsDone_eq
  · exact Nat.le_trans h.room (Nat.add_le_add_right hle _)
  · exact h.drawRoom
  · exact h.slotRoom
  · exact h.commands
  · exact h.draws
  · exact h.last_le
  · exact fun w hw hge => h.noted w hw (Nat.le_trans hle hge)
  · exact h.drawHead_eq
  · have hwalk := h.walkOk
    show WalkOk _ s.walk
    cases hw : s.walk with
    | wait phase c target next =>
      rw [hw] at hwalk
      cases next with
      | _ => exact hwalk
    | write p | publish p =>
      rw [hw] at hwalk
      exact ⟨Nat.lt_of_lt_of_le hwalk.1 (Nat.add_le_add_right hle _), hwalk.2⟩
    | _ => trivial
  · exact ⟨rfl, hlen⟩
  · exact fun i b hi hge => h.frames i b hi (Nat.le_trans hle hge)
  · constructor
    · intro hboth
      cases hboth.2
    · intro hdoze
      cases hdoze
    · intro hsleep
      cases hsleep
    · exact fun _ _ _ _ _ => .inr rfl
    · exact fun _ _ _ _ _ => .inr (.inl rfl)

def notifiedWalk : Walk γ → Walk γ
  | .wait .sleep c target next => .wait .lock c target next
  | walk => walk

theorem Inv.renderNotify (h : Inv s) (hr : s.render = .notify) :
    Inv { s with walk := notifiedWalk s.walk, tail := s.tail + 1, render := .look } := by
  have hok := h.renderOk
  rw [hr] at hok
  obtain ⟨hdone, hlen⟩ := hok
  have hwakes : WakesOk
      { s with walk := notifiedWalk s.walk, tail := s.tail + 1, render := .look } := by
    refine ⟨fun hboth => Bool.false_ne_true hboth.2, nofun, nofun, ?_, ?_⟩
    · intro c target next hw hge
      have hw' : s.walk = .wait .doze c target next := by
        unfold notifiedWalk at hw
        dsimp only at hw
        split at hw
        · cases hw
        · exact hw
      rcases h.wakes.walkDoze c target next hw' hge with hr' | hr' <;> rw [hr] at hr' <;> cases hr'
    · intro c target next hw
      unfold notifiedWalk at hw
      dsimp only at hw
      split at hw
      · cases hw
      · rename_i hne
        exact absurd hw (hne c target next)
  have hflight : inFlight (notifiedWalk s.walk) = inFlight s.walk := by
    unfold notifiedWalk
    split
    · rename_i hw
      rw [hw]
      rfl
    · rfl
  have hwalk : ∀ t : ℕ, WalkOk { s with walk := notifiedWalk s.walk, tail := t, render := .look }
      (notifiedWalk s.walk) := by
    intro t
    have hwalk := h.walkOk
    cases hw : s.walk with
    | wait phase c target next =>
      rw [hw] at hwalk
      cases phase <;> cases next <;> exact hwalk
    | _ =>
      rw [hw] at hwalk
      exact hwalk
  have hframes : ∀ t i : ℕ, s.FrameOk i s.walk → 
      FrameOk { s with walk := notifiedWalk s.walk, tail := t, render := .look } i
        (notifiedWalk s.walk) := by
    intro t i hframe
    cases hw : s.walk with
    | wait phase c target next =>
      rw [hw] at hframe
      cases phase <;> cases next <;> exact hframe
    | _ =>
      rw [hw] at hframe
      exact hframe
  exact {
    head_eq := h.head_eq
    executed_eq := h.executed_eq
    executed_le := h.executed_le
    drawsDone_eq := h.drawsDone_eq
    room := h.room
    drawRoom := h.drawRoom
    slotRoom := h.slotRoom
    commands := h.commands
    draws := h.draws
    last_le := h.last_le
    noted := h.noted
    drawHead_eq := hflight ▸ h.drawHead_eq
    walkOk := hwalk _
    renderOk := ⟨hdone, hlen⟩
    frames := fun i b hi hge => hframes _ i (h.frames i b hi hge)
    wakes := hwakes }

theorem Inv.renderStep (h : Inv s) (hs : s.renderStep = some s') : Inv s' := by
  unfold QueueState.renderStep at hs
  have hok := h.renderOk
  have hle := h.executed_le
  split at hs
  · rename_i hr
    obtain rfl := Option.some.inj hs
    rw [hr] at hok
    have hquiet : s.render ≠ .store ∧ s.render ≠ .wake ∧ s.render ≠ .notify := by simp [hr]
    split
    · exact h.render .lock hok (h.wakes.of_render rfl rfl hquiet (by simp [renderLocks]) nofun nofun)
    · rename_i hne
      refine h.render .run ⟨hok.1, hok.2, ?_⟩
        (h.wakes.of_render rfl rfl hquiet (by simp [renderLocks]) nofun nofun)
      have := hok.2
      omega
  · rename_i hr
    rw [hr] at hok
    have hquiet : s.render ≠ .store ∧ s.render ≠ .wake ∧ s.render ≠ .notify := by simp [hr]
    split at hs
    · cases hs
    · rename_i hfree
      obtain rfl := Option.some.inj hs
      exact h.render .test hok
        (h.wakes.of_render rfl rfl hquiet (fun hboth => hfree hboth.1) nofun nofun)
  · rename_i hr
    obtain rfl := Option.some.inj hs
    rw [hr] at hok
    have hquiet : s.render ≠ .store ∧ s.render ≠ .wake ∧ s.render ≠ .notify := by simp [hr]
    split
    · rename_i heq
      refine h.render .doze hok (h.wakes.of_render rfl rfl hquiet ?_ ?_ nofun)
      · exact fun hboth => h.wakes.mutex ⟨hboth.1, by simp [renderLocks, hr]⟩
      · exact fun _ hne => absurd heq hne
    · refine h.render .run ⟨hok.1, hok.2, ?_⟩
        (h.wakes.of_render rfl rfl hquiet (by simp [renderLocks]) nofun nofun)
      have := hok.2
      omega
  · rename_i hr
    obtain rfl := Option.some.inj hs
    rw [hr] at hok
    have hquiet : s.render ≠ .store ∧ s.render ≠ .wake ∧ s.render ≠ .notify := by simp [hr]
    refine h.render .sleep hok (h.wakes.of_render rfl rfl hquiet (by simp [renderLocks]) nofun ?_)
    intro _ hne
    obtain ⟨p, hp⟩ := h.wakes.renderDoze hr hne
    exact ⟨p, .inl hp⟩
  · cases hs
  · rename_i hr
    obtain rfl := Option.some.inj hs
    exact h.run hr
  · rename_i hr
    obtain rfl := Option.some.inj hs
    exact h.store hr
  · rename_i hr
    rw [hr] at hok
    split at hs
    · cases hs
    · rename_i hfree
      obtain rfl := Option.some.inj hs
      refine h.render .notify hok ⟨fun hboth => Bool.false_ne_true hboth.2, nofun, nofun, ?_, ?_⟩
      · intro c target next hw _
        exact absurd (show s.walkLocks = true by rw [walkLocks]; rw [show s.walk = _ from hw])
          hfree
      · exact fun _ _ _ _ _ => .inr (.inr rfl)
  · rename_i hr
    obtain rfl := Option.some.inj hs
    exact h.renderNotify hr

/-! ## Calls -/

theorem Inv.call (h : Inv s) (hw : s.walk = .outside) (w : Walk γ) (hflight : inFlight w = 0) (hok : s.WalkOk w)
    (hframes : ∀ i, i + 1 = s.lastEndFrame → s.FrameOk i w) (hfree : walkLocks { s with walk := w } = false)
    (hawake : ∀ c target next, w ≠ .wait .sleep c target next) : Inv { s with walk := w } := by
  refine h.walk w ?_ hok ?_ (h.wakes.of_walk rfl rfl rfl (fun p => ?_) hfree hawake)
  · rw [hw, hflight]
    rfl
  · rw [hw]
    exact fun i _ hframe => hframes i hframe
  · rw [hw]
    exact ⟨nofun, nofun⟩

theorem Inv.push (h : Inv s) (hw : s.walk = .outside) (hslot : p = .draw → s.hasSlot = true) : Inv (s.push p) := by
  unfold QueueState.push
  split
  · rename_i hge
    exact h.call hw _ rfl ⟨rfl, by omega, hslot⟩ (fun _ h => h) rfl nofun
  · rename_i hlt
    exact h.call hw _ rfl ⟨by omega, hslot⟩ (fun _ h => h) rfl nofun

theorem Inv.nextDraw (h : Inv s) (hw : s.walk = .outside) : Inv s.nextDraw := by
  unfold QueueState.nextDraw
  split
  · rename_i hge
    exact h.call hw _ rfl ⟨rfl, by omega⟩ (fun _ h => h) rfl nofun
  · rename_i hlt
    refine h.setDraw ?_ (by omega) default
    rw [hw]
    rfl

theorem Inv.notePendingWrite (h : Inv s) (base bytes : ℕ) : Inv (s.notePendingWrite base bytes) := by
  unfold QueueState.notePendingWrite
  split
  · refine { h with noted := ?_, wakes := ⟨h.wakes.mutex, h.wakes.renderDoze, h.wakes.renderSleep,
      h.wakes.walkDoze, h.wakes.walkSleep⟩ }
    intro w hw hge
    rcases List.mem_cons.mp hw with rfl | hw
    · exact List.mem_append_right _ List.mem_cons_self
    · exact List.mem_append_left _ (h.noted w hw hge)
  · exact h

theorem Inv.pendingWriteOverlaps (h : Inv s) (base bytes : ℕ) : Inv (s.pendingWriteOverlaps base bytes) := by
  unfold QueueState.pendingWriteOverlaps
  split
  · exact { h with wakes := ⟨h.wakes.mutex, h.wakes.renderDoze, h.wakes.renderSleep,
      h.wakes.walkDoze, h.wakes.walkSleep⟩ }
  · refine { h with noted := ?_, wakes := ⟨h.wakes.mutex, h.wakes.renderDoze, h.wakes.renderSleep,
      h.wakes.walkDoze, h.wakes.walkSleep⟩ }
    intro w hw hge
    refine List.mem_filter.mpr ⟨h.noted w hw hge, ?_⟩
    exact decide_eq_true (Nat.not_lt.mpr hge)

theorem outside_of_call {s : QueueState δ γ} {f : Option (QueueState δ γ)} (hf : (match s.walk with
      | .outside => f
      | _ => none) = some s') : s.walk = .outside ∧ f = some s' := by
  cases hw : s.walk <;> rw [hw] at hf
  case outside => exact ⟨rfl, hf⟩
  all_goals cases hf

theorem Inv.step (h : Inv s) {e : QueueEvent δ γ} (hs : s.step e = some s') : Inv s' := by
  cases e with
  | walk => exact h.walkStep hs
  | render => exact h.renderStep hs
  | walkTimeout =>
    simp only [QueueState.step] at hs
    split at hs
    · rename_i c target next hw
      obtain rfl := Option.some.inj hs
      refine h.wait hw .lock (h.wakes.of_walk rfl rfl rfl (fun p => ?_) rfl
        (by intro _ _ _ hc; cases hc))
      rw [hw]
      constructor
      · rintro ⟨⟩
      · rintro ⟨⟩
    · cases hs
  | renderTimeout =>
    simp only [QueueState.step] at hs
    split at hs
    · rename_i hr
      obtain rfl := Option.some.inj hs
      have hok := h.renderOk
      rw [hr] at hok
      refine h.render .lock hok
        (h.wakes.of_render rfl rfl ?_ ?_ (by rintro ⟨⟩) (by rintro ⟨⟩))
      · simp [hr]
      · simp [renderLocks]
    · cases hs
  | nextDraw =>
    obtain ⟨hw, hs⟩ := outside_of_call hs
    obtain rfl := Option.some.inj hs
    exact h.nextDraw hw
  | fill info =>
    obtain ⟨hw, hs⟩ := outside_of_call hs
    dsimp only at hs
    split at hs
    · rename_i hslot
      obtain rfl := Option.some.inj hs
      have hset := h.setDraw (by rw [hw]; rfl) (h.slotRoom hslot) info
      rwa [← hslot] at hset
    · cases hs
  | push p =>
    cases p with
    | draw =>
      obtain ⟨hw, hs⟩ := outside_of_call hs
      dsimp only at hs
      split at hs
      · rename_i hslot
        obtain rfl := Option.some.inj hs
        exact h.push hw fun _ => hslot
      · cases hs
    | _ =>
      obtain ⟨hw, hs⟩ := outside_of_call hs
      obtain rfl := Option.some.inj hs
      exact h.push hw (by rintro ⟨⟩)
  | drain =>
    obtain ⟨hw, hs⟩ := outside_of_call hs
    obtain rfl := Option.some.inj hs
    exact h.call hw _ rfl ⟨rfl, Nat.le_refl _⟩ (fun _ h => h) rfl
      (by intro _ _ _ hc; cases hc)
  | notePendingWrite base bytes =>
    obtain ⟨-, hs⟩ := outside_of_call hs
    obtain rfl := Option.some.inj hs
    exact h.notePendingWrite base bytes
  | pendingWriteOverlaps base bytes =>
    obtain ⟨-, hs⟩ := outside_of_call hs
    obtain rfl := Option.some.inj hs
    exact h.pendingWriteOverlaps base bytes

/-! ## Progress -/

def Inside : QueueEvent δ γ → Prop
  | .walk | .render => True
  | _ => False

/-- **Nobody waits for ever.** Where neither thread can step, the walk is in no call and every
command has run. -/
theorem Inv.progress (h : Inv s) (hwalk : s.walkStep = none) (hrender : s.renderStep = none) :
    s.walk = .outside ∧ s.executed = s.pushed := by
  have hlocks : s.walkLocks = false := by
    unfold QueueState.walkStep at hwalk
    unfold walkLocks
    split at hwalk <;> simp_all
  have hsleep : s.render = .sleep := by
    unfold QueueState.renderStep at hrender
    rw [hlocks] at hrender
    split at hrender <;> simp_all
  have hfree : s.renderLocks = false := by simp [renderLocks, hsleep]
  have hok := h.renderOk
  rw [hsleep] at hok
  have hidle : s.walk = .outside ∨ ∃ c target next, s.walk = .wait .sleep c target next := by
    unfold QueueState.walkStep at hwalk
    rw [hfree] at hwalk
    cases hw : s.walk with
    | outside => exact .inl rfl
    | wait phase c target next =>
      rw [hw] at hwalk
      cases phase with
      | sleep => exact .inr ⟨c, target, next, rfl⟩
      | _ => cases hwalk
    | _ =>
      rw [hw] at hwalk
      cases hwalk
  have hhead : s.head = s.tail := by
    by_contra hne
    obtain ⟨p, hp⟩ := h.wakes.renderSleep hsleep hne
    rcases hidle with hw | ⟨c, target, next, hw⟩ <;> rw [hw] at hp <;> simp at hp
  have hall : s.executed = s.pushed := by
    rw [h.executed_eq]
    exact List.take_of_length_le (Nat.le_of_eq (by rw [← h.head_eq, hhead, hok.2]))
  refine ⟨hidle.resolve_right ?_, hall⟩
  rintro ⟨c, target, next, hw⟩
  -- what the walk waits for has happened
  have hreached : target ≤ s.counter c := by
    have hwok := h.walkOk
    rw [hw] at hwok
    have hdraws := h.drawHead_eq
    rw [hw, ← hall, ← h.drawsDone_eq] at hdraws
    have hdone := hok.1
    cases next with
    | nextDraw =>
      obtain ⟨rfl, htarget⟩ := hwok
      simp only [inFlight, Nat.add_zero] at hdraws
      show target ≤ s.drawsDone
      have : 0 < kDrawSlots := by decide
      omega
    | claim p =>
      obtain ⟨rfl, htarget, -⟩ := hwok
      show target ≤ s.done
      have : 0 < kCommands := by decide
      omega
    | _ =>
      obtain ⟨rfl, htarget⟩ := hwok
      show target ≤ s.done
      omega
  have := h.wakes.walkSleep c target next hw hreached
  simp [hsleep] at this

def waitRank : WaitPhase → ℕ
  | .glance => 4
  | .lock => 3
  | .test => 2
  | .doze => 1
  | .sleep => 0

def afterRank : AfterWait γ → ℕ
  | .claim _ => 23
  | _ => 1

def walkRank : Walk γ → ℕ
  | .outside => 0
  | .wait phase _ _ next => afterRank next + waitRank phase
  | .write _ => 22
  | .publish _ => 21
  | .wake _ => 10
  | .notify _ => 9

def renderRank : Render → ℕ
  | .look => 4
  | .lock => 3
  | .test => 2
  | .doze => 1
  | .sleep => 0
  | .run => 1
  | .store => 0
  | .wake => 9
  | .notify => 8

def rank (s : QueueState δ γ) : ℕ := 10 * (s.head - s.done) + walkRank s.walk + renderRank s.render

theorem rank_afterWait (next : AfterWait γ) {c : Counter} {target : ℕ}
    (hw : s.walk = .wait phase c target next) : (s.afterWait next).rank < s.rank := by
  unfold rank
  rw [hw]
  cases next <;> simp only [QueueState.afterWait, walkRank, afterRank] <;> omega

theorem rank_walkStep (h : Inv s) (hs : s.walkStep = some s') : s'.rank < s.rank := by
  unfold QueueState.walkStep at hs
  have hdone := h.done_le
  have hle := h.executed_le
  split at hs
  · cases hs
  · rename_i c target next hw
    obtain rfl := Option.some.inj hs
    split
    · exact rank_afterWait next hw
    · simp only [rank, hw, walkRank, waitRank]
      omega
  · rename_i c target next hw
    split at hs
    · cases hs
    · obtain rfl := Option.some.inj hs
      simp only [rank, hw, walkRank, waitRank]
      omega
  · rename_i c target next hw
    obtain rfl := Option.some.inj hs
    split
    · exact rank_afterWait next hw
    · simp only [rank, hw, walkRank, waitRank]
      omega
  · rename_i c target next hw
    obtain rfl := Option.some.inj hs
    simp only [rank, hw, walkRank, waitRank]
    omega
  · cases hs
  · rename_i p hw
    obtain rfl := Option.some.inj hs
    cases p <;> simp only [rank, QueueState.writeSlot, hw, walkRank] <;> omega
  · rename_i p hw
    obtain rfl := Option.some.inj hs
    simp only [rank, hw, walkRank]
    omega
  · rename_i p hw
    split at hs
    · cases hs
    · obtain rfl := Option.some.inj hs
      simp only [rank, hw, walkRank]
      omega
  · rename_i p hw
    obtain rfl := Option.some.inj hs
    split
    · rename_i hr
      cases p <;> simp only [rank, QueueState.endPush, hw, hr, walkRank, renderRank, afterRank, waitRank] <;> omega
    · cases p <;> simp only [rank, QueueState.endPush, hw, walkRank, afterRank, waitRank] <;> omega

theorem rank_renderStep (h : Inv s) (hs : s.renderStep = some s') : s'.rank < s.rank := by
  unfold QueueState.renderStep at hs
  have hok := h.renderOk
  have hle := h.executed_le
  split at hs
  · rename_i hr
    obtain rfl := Option.some.inj hs
    split <;> simp only [rank, hr, renderRank] <;> omega
  · rename_i hr
    split at hs
    · cases hs
    · obtain rfl := Option.some.inj hs
      simp only [rank, hr, renderRank]
      omega
  · rename_i hr
    obtain rfl := Option.some.inj hs
    split <;> simp only [rank, hr, renderRank] <;> omega
  · rename_i hr
    obtain rfl := Option.some.inj hs
    simp only [rank, hr, renderRank]
    omega
  · cases hs
  · rename_i hr
    obtain rfl := Option.some.inj hs
    simp only [rank, hr, renderRank]
    omega
  · rename_i hr
    rw [hr] at hok
    obtain ⟨hdone, hlen⟩ := hok
    obtain rfl := Option.some.inj hs
    simp only [rank, hr, renderRank]
    omega
  · rename_i hr
    split at hs
    · cases hs
    · obtain rfl := Option.some.inj hs
      simp only [rank, hr, renderRank]
      omega
  · rename_i hr
    obtain rfl := Option.some.inj hs
    simp only [rank, hr, renderRank]
    split
    · rename_i hw
      simp only [hw, walkRank, waitRank]
      omega
    · omega

/-! ## The promise -/

/-- `PushEndFrame` has pushed and not returned. -/
def endingFrame (s : QueueState δ γ) : Bool :=
  match s.walk with
  | .wake (.endFrame _) | .notify (.endFrame _) | .wait _ _ _ .endFrame => true
  | _ => false

/-- An `EndFrame` that has been pushed and has not run. -/
def FrameAhead (s : QueueState δ γ) (i : ℕ) : Prop :=
  ∃ b, s.pushed[i]? = some (.endFrame b) ∧ s.executed.length ≤ i

structure Sound (s : QueueState δ γ) : Prop where
  order : s.executed <+: s.pushed
  /-- The command in a slot that `Claim` has handed out has completed. -/
  commandSlot : ∀ p, s.walk = .write p ∨ s.walk = .publish p → ∀ i < s.pushed.length,
    i % kCommands = s.pushed.length % kCommands → i < s.done
  /-- The draw in a slot that `NextDraw` has handed out has run. -/
  drawSlot : s.hasSlot = true → ∀ j < drawsIn s.pushed,
    j % kDrawSlots = s.drawHead % kDrawSlots → j < drawsIn s.executed
  frames : ∀ i j, s.FrameAhead i → s.FrameAhead j → s.endingFrame = false → i = j
  framesEnding : ∀ i j k, s.FrameAhead i → s.FrameAhead j → s.FrameAhead k → i = j ∨ j = k ∨ i = k
  progress : (∃ e s', Inside e ∧ s.step e = some s') ∨ s.walk = .outside ∧ s.executed = s.pushed
  ends : ∀ e s', Inside e → s.step e = some s' → s'.rank < s.rank

/-- What the answer of `PendingWriteOverlaps` promises. -/
def OverlapsSound (s : QueueState δ γ) : QueueEvent δ γ → QueueState δ γ → Prop
  | .pendingWriteOverlaps base bytes, s' =>
    s'.overlaps = false → ∀ w ∈ s.noted, w.command < s.pushed.length →
      s.executed.length ≤ w.command → ∀ addr, w.first ≤ addr → addr < w.last →
        ¬(base ≤ addr ∧ addr < (base + bytes) % 2 ^ 64)
  | _, _ => True

theorem Inv.sound (h : Inv s) : Sound s where
  order := h.executed_eq ▸ List.take_prefix _ _
  commandSlot p hp i hi hslot := by
    have hok := h.walkOk
    have hroom : s.head < s.done + kCommands := by
      rcases hp with hp | hp <;> rw [hp] at hok <;> exact hok.1
    exact slot_free (h.head_eq ▸ hroom) hi hslot
  drawSlot hslot j hj hmod := by
    have := h.drawHead_eq
    rw [← h.drawsDone_eq]
    exact slot_free (h.slotRoom hslot) (by omega) hmod
  frames i j hi hj hout := by
    have hlast : ∀ i, s.FrameAhead i → i + 1 = s.lastEndFrame := by
      rintro i ⟨b, hb, hle⟩
      have hframe := h.frames i b hb (Nat.le_trans h.done_le.1 hle)
      unfold endingFrame at hout
      unfold FrameOk at hframe
      split at hframe <;> simp_all
    have := hlast i hi
    have := hlast j hj
    omega
  framesEnding i j k hi hj hk := by
    -- there are two places for such a frame
    obtain ⟨x, hx⟩ : ∃ x, ∀ i, s.FrameAhead i → i + 1 = x ∨ i + 1 = s.lastEndFrame := by
      have hall : ∀ i, s.FrameAhead i → s.FrameOk i s.walk := by
        rintro i ⟨b, hb, hle⟩
        exact h.frames i b hb (Nat.le_trans h.done_le.1 hle)
      cases hw : s.walk with
      | wait phase c target next =>
        rw [hw] at hall
        refine ⟨target, fun i hi => ?_⟩
        have := hall i hi
        cases next with
        | endFrame => exact this
        | _ => exact .inr this
      | wake p | notify p =>
        rw [hw] at hall
        refine ⟨s.head, fun i hi => ?_⟩
        have := hall i hi
        cases p with
        | endFrame _ => exact this.symm
        | _ => exact .inr this
      | _ =>
        rw [hw] at hall
        exact ⟨0, fun i hi => .inr (hall i hi)⟩
    have := hx i hi
    have := hx j hj
    have := hx k hk
    omega
  progress := by
    cases hwalk : s.walkStep with
    | some s' => exact .inl ⟨.walk, s', trivial, hwalk⟩
    | none =>
      cases hrender : s.renderStep with
      | some s' => exact .inl ⟨.render, s', trivial, hrender⟩
      | none => exact .inr (h.progress hwalk hrender)
  ends e s' he hs := by
    cases e with
    | walk => exact rank_walkStep h hs
    | render => exact rank_renderStep h hs
    | _ => cases he

theorem Inv.overlapsSound (h : Inv s) (base bytes : ℕ) :
    s.OverlapsSound (.pendingWriteOverlaps base bytes) (s.pendingWriteOverlaps base bytes) := by
  intro hfalse w hw _ hpending addr hfirst hlast ⟨hbase, hend⟩
  have hdone := h.done_le
  have hmem := h.noted w hw (by omega)
  unfold QueueState.pendingWriteOverlaps at hfalse
  split at hfalse
  · rename_i hnil
    rw [hnil] at hmem
    cases hmem
  · have hkept : w ∈ s.pendingWrites.filter fun w => ¬w.command < s.done :=
      List.mem_filter.mpr ⟨hmem, decide_eq_true (by omega)⟩
    have := List.any_eq_false.mp hfalse w hkept
    simp only [Bool.and_eq_true, decide_eq_true_eq, not_and] at this
    exact this (by omega) (by omega)

/-- **Every run is sound**: of the walk's calls and the steps of both threads in any order. -/
theorem sound_interleaving (commands : ℕ → Command γ) (draws : ℕ → δ) (ls : List (QueueEvent δ γ)) :
    (system δ γ).Always Sound (init commands draws) ls ∧
      (system δ γ).EveryStep OverlapsSound (init commands draws) ls := by
  have hok := (system δ γ).meets_true (init commands draws) ls
  constructor
  · refine (system δ γ).always_of_invariant ?_ (fun s h => h.sound) (Inv.init commands draws) hok
    exact fun s e s' h _ hs => h.step hs
  · refine (system δ γ).everyStep_of_invariant (fun s e s' h _ hs => h.step hs) ?_
      (Inv.init commands draws) hok
    intro s e s' h _ hs
    cases e with
    | pendingWriteOverlaps base bytes =>
      have hs' : s' = s.pendingWriteOverlaps base bytes := by
        simp only [system, QueueState.step] at hs
        split at hs
        · exact (Option.some.inj hs).symm
        · cases hs
      rw [hs']
      exact h.overlapsSound base bytes
    | _ => trivial

end QueueState

end Prosperity.Gpu
