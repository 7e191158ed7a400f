import Mathlib.Tactic.Linarith
import Prosperity.Kern.Semaphore

/-!
# Runs of the kernel semaphore

What a semaphore promises over every run of its calls, and the runs that keep the promise. The
code takes its start value and its cancel value from the guest unchecked, adds before it compares
against the ceiling, and leaves a cancelled sleeper to its own predicate. `Careful` names the
calls that stay clear of all three.
-/

set_option linter.unusedSectionVars false

namespace Prosperity.Kern

/-! ## One method -/

namespace Semaphore

/-- The values of the object are in range. -/
structure Healthy (sem : Semaphore) : Prop where
  nonneg : 0 ≤ (sem.count : ℤ)
  le_max : (sem.count : ℤ) ≤ sem.maxCount
  init_nonneg : 0 ≤ (sem.initCount : ℤ)
  init_le_max : (sem.initCount : ℤ) ≤ sem.maxCount

/-- What a critical section may leave of an object: it is healthy, the ledger `l` accounts for
its count, and its waiter count has moved by `d` where the call returned, by one more where the
call sleeps. -/
def Leaves (sem : Semaphore) (l : Ledger) (d : ℤ) : Pass → Prop
  | .returned _ sem' =>
    Healthy sem' ∧ (sem'.count : ℤ) = l.balance ∧ (sem'.waiters : ℤ) = sem.waiters + d
  | .parked sem' =>
    Healthy sem' ∧ (sem'.count : ℤ) = l.balance ∧ (sem'.waiters : ℤ) = sem.waiters + d + 1
  | .overflow => False

variable {sem : Semaphore} {l : Ledger}

theorem Healthy.with_waiters (h : sem.Healthy) (w : CInt) :
    ({ sem with waiters := w } : Semaphore).Healthy :=
  ⟨h.nonneg, h.le_max, h.init_nonneg, h.init_le_max⟩

theorem Healthy.take_leaves (h : sem.Healthy) (hl : (sem.count : ℤ) = l.balance) {need : CInt}
    (hpos : 0 < (need : ℤ)) (hle : (need : ℤ) ≤ sem.count) : ∃ sem', sem.take need = .returned .ok sem' ∧
      Leaves sem { l with taken := l.taken + need } 0 (.returned .ok sem') := by
  have hfit : FitsInt ((sem.count : ℤ) - need) := by
    have := sem.count.2
    have := h.nonneg
    unfold FitsInt at *
    omega
  refine ⟨{ sem with count := ⟨_, hfit⟩ }, by rw [take, CInt.sub?_of_fits hfit], ?_, ?_, ?_⟩
  · have := h.le_max
    exact ⟨show (0 : ℤ) ≤ sem.count - need by omega,
      show (sem.count : ℤ) - need ≤ sem.maxCount by omega, h.init_nonneg, h.init_le_max⟩
  · simp only [Ledger.balance] at hl ⊢
    omega
  · simp

theorem Healthy.wait_leaves (h : sem.Healthy) (hl : (sem.count : ℤ) = l.balance) {need : CInt}
    {timed : Bool} (hw : 0 ≤ (sem.waiters : ℤ)) (hroom : (sem.waiters : ℤ) < CInt.max) :
    Leaves sem (OsemState.chargeOp l (.wait need timed) (sem.wait need)) 0 (sem.wait need) := by
  unfold wait
  split
  · exact ⟨h, hl, (add_zero _).symm⟩
  next hpos =>
  split
  · exact ⟨h, hl, (add_zero _).symm⟩
  next hmax =>
  split
  · next hle =>
    obtain ⟨sem', he, hleaves⟩ := h.take_leaves hl (not_le.mp hpos) hle
    rw [he]
    exact hleaves
  · have hfit : FitsInt ((sem.waiters : ℤ) + (1 : CInt)) := by
      have hmaxv : ((CInt.max : CInt) : ℤ) = 2147483647 := rfl
      unfold FitsInt
      rw [CInt.coe_one]
      omega
    rw [CInt.add?_of_fits hfit]
    exact ⟨h.with_waiters _, hl, by simp⟩

theorem Healthy.trywait_leaves (h : sem.Healthy) (hl : (sem.count : ℤ) = l.balance) {need : CInt} :
    Leaves sem (OsemState.chargeOp l (.trywait need) (sem.trywait need)) 0 (sem.trywait need) := by
  unfold trywait
  split
  · exact ⟨h, hl, (add_zero _).symm⟩
  next hpos =>
  split
  · split <;> exact ⟨h, hl, (add_zero _).symm⟩
  · next hle =>
    obtain ⟨sem', he, hleaves⟩ := h.take_leaves hl (not_le.mp hpos) (not_lt.mp hle)
    rw [he]
    exact hleaves

theorem Healthy.post_leaves (h : sem.Healthy) (hl : (sem.count : ℤ) = l.balance) {n : CInt}
    (hok : 0 < (n : ℤ) → 0 < (sem.maxCount : ℤ) ∧ FitsInt ((sem.count : ℤ) + n)) :
    Leaves sem (OsemState.chargeOp l (.post n) (sem.post n)) 0 (sem.post n) := by
  unfold post
  split
  · exact ⟨h, hl, (add_zero _).symm⟩
  next hpos =>
  have hn : 0 < (n : ℤ) := not_le.mp hpos
  obtain ⟨hceil, hfit⟩ := hok hn
  rw [CInt.add?_of_fits hfit]
  dsimp only
  split
  · exact ⟨h, hl, (add_zero _).symm⟩
  · next hle =>
    have hroom : (sem.count : ℤ) + n ≤ sem.maxCount := by
      by_contra hgt
      exact hle ⟨hceil, not_le.mp hgt⟩
    refine ⟨⟨?_, hroom, h.init_nonneg, h.init_le_max⟩, ?_, (add_zero _).symm⟩
    · exact add_nonneg h.nonneg hn.le
    · simp only [Ledger.balance, OsemState.chargeOp] at hl ⊢
      omega

theorem Healthy.cancel_leaves (h : sem.Healthy) (hl : (sem.count : ℤ) = l.balance)
    {setCount : CInt} (hok : (0 < (sem.maxCount : ℤ) ∧ (sem.maxCount : ℤ) < setCount) ∨ (setCount : ℤ) ≤ sem.maxCount) :
    Leaves sem (OsemState.chargeOp l (.cancel setCount) (sem.cancel setCount)) 0 (sem.cancel setCount) := by
  unfold cancel
  split
  · exact ⟨h, hl, (add_zero _).symm⟩
  · next hacc =>
    have hle := hok.resolve_left hacc
    refine ⟨?_, by simp [Ledger.balance, OsemState.chargeOp], (add_zero _).symm⟩
    by_cases hneg : setCount < 0
    · rw [if_pos hneg]
      exact ⟨h.init_nonneg, h.init_le_max, h.init_nonneg, h.init_le_max⟩
    · rw [if_neg hneg]
      exact ⟨not_lt.mp hneg, hle, h.init_nonneg, h.init_le_max⟩

theorem Healthy.wake_leaves (h : sem.Healthy) (hl : (sem.count : ℤ) = l.balance) {need : CInt}
    (hw : 0 < (sem.waiters : ℤ)) (hpos : 0 < (need : ℤ)) (hle : (need : ℤ) ≤ sem.count) :
    Leaves sem { l with taken := l.taken + need } (-1) (sem.wake need true) := by
  have hfit : FitsInt ((sem.waiters : ℤ) - (1 : CInt)) := by
    have := sem.waiters.2
    unfold FitsInt at *
    rw [CInt.coe_one]
    omega
  obtain ⟨sem', he, hhealthy, hbal, hwait⟩ :=
    (h.with_waiters ⟨_, hfit⟩).take_leaves (l := l) hl hpos hle
  simp only [wake, CInt.sub?_of_fits hfit, if_true, he]
  refine ⟨hhealthy, hbal, ?_⟩
  rw [hwait]
  simp only [CInt.coe_one]
  omega

theorem Healthy.giveUp_leaves (h : sem.Healthy) (hl : (sem.count : ℤ) = l.balance)
    {need : CInt} (hw : 0 < (sem.waiters : ℤ)) : Leaves sem l (-1) (sem.wake need false) := by
  have hfit : FitsInt ((sem.waiters : ℤ) - (1 : CInt)) := by
    have := sem.waiters.2
    unfold FitsInt at *
    rw [CInt.coe_one]
    omega
  simp only [wake, CInt.sub?_of_fits hfit]
  exact ⟨h.with_waiters _, hl, by simp only [CInt.coe_one]; rfl⟩

end Semaphore

/-! ## The promise, and the calls that keep it -/

namespace OsemState

variable {ι : Type*} [DecidableEq ι]

structure Sound (s : OsemState ι) : Prop where
  defined : s.overflowed = false
  bounds : ∀ o sem, s.sems o = some sem → 0 ≤ sem.count ∧ sem.count ≤ sem.maxCount
  accounted : ∀ o sem, s.sems o = some sem → (sem.count : ℤ) = (s.ledgers o).balance
  /-- A call that slept when a `Cancel` succeeded can return, and only cancelled. -/
  released : ∀ t o need timed, s.calls t = .parked o need timed true → s.exits t = [.error .eCANCELED]

structure StepSound [Fintype ι] (s : OsemState ι) (_ : OsemEvent ι) (s' : OsemState ι) : Prop where
  errorKeeps : ∀ t e, s'.replies = (t, .error e) :: s.replies →
    ∀ o, (s'.sems o).map Semaphore.count = (s.sems o).map Semaphore.count
  /-- A `Cancel` reports the calls asleep on its object, and each of them is owed its release. -/
  cancelReports : ∀ t n, s'.replies = (t, .cancelled n) :: s.replies →
    ∃ o setCount, s.calls t = .entered o (.cancel setCount) ∧ (n : ℤ) = tally (OsemCall.parkedOn o) s.calls ∧
      ∀ u need timed owed, s.calls u = .parked o need timed owed → s'.calls u = .parked o need timed true

/-- A method that stays clear of overflow, of the unchecked values and of sleepers to cancel. -/
def CarefulOp (sem : Semaphore) : OsemOp → Prop
  | .wait _ _ => sem.waiters < CInt.max
  | .trywait _ => True
  | .post n => 0 < n → 0 < sem.maxCount ∧ FitsInt ((sem.count : ℤ) + n)
  | .cancel setCount =>
    (0 < sem.maxCount ∧ sem.maxCount < setCount) ∨ (setCount ≤ sem.maxCount ∧ sem.waiters = 0)

instance (sem : Semaphore) (op : OsemOp) : Decidable (CarefulOp sem op) := by
  cases op <;> unfold CarefulOp <;> infer_instance

def CarefulCall (s : OsemState ι) : OsemCall → Prop
  | .entered o op => ∀ sem, s.sems o = some sem → CarefulOp sem op
  | _ => True

instance (s : OsemState ι) (c : OsemCall) : Decidable (s.CarefulCall c) :=
  match c with
  | .entered o op =>
    match h : s.sems o with
    | none => .isTrue fun sem hsem => by rw [h] at hsem; cases hsem
    | some sem => decidable_of_iff (CarefulOp sem op) (by simp [CarefulCall, h])
  | .idle => .isTrue trivial
  | .parked _ _ _ _ => .isTrue trivial

/-- The condition on one event: a semaphore is created with `0 ≤ init ≤ max`; a `Post` adds to a
count whose sum fits an `int`, under a positive ceiling; a `Cancel` that is not refused finds
nobody asleep and sets at most the ceiling; a call goes to sleep only while the number of
sleepers can still be counted. -/
def Careful (s : OsemState ι) : OsemEvent ι → Prop
  | .create _ _ init max _ => 0 ≤ init ∧ init ≤ max
  | .run t => s.CarefulCall (s.calls t)
  | _ => True

instance (s : OsemState ι) (e : OsemEvent ι) : Decidable (s.Careful e) := by
  cases e <;> unfold Careful <;> infer_instance

/-! ## The invariant -/

variable [Fintype ι]

/-- What careful calls keep. -/
structure Inv (s : OsemState ι) : Prop where
  defined : s.overflowed = false
  healthy : ∀ o sem, s.sems o = some sem → sem.Healthy
  accounted : ∀ o sem, s.sems o = some sem → (sem.count : ℤ) = (s.ledgers o).balance
  waiting : ∀ o sem, s.sems o = some sem → (sem.waiters : ℤ) = tally (OsemCall.parkedOn o) s.calls
  fresh : ∀ o, s.nextSem ≤ o → s.sems o = none
  asleep : ∀ t o need timed owed, s.calls t = .parked o need timed owed → o < s.nextSem ∧ 0 < need ∧ owed = false

theorem Inv.init : (OsemState.init : OsemState ι).Inv where
  defined := rfl
  healthy _ _ h := by cases h
  accounted _ _ h := by cases h
  waiting _ _ h := by cases h
  fresh _ _ := rfl
  asleep _ _ _ _ _ h := by cases h

variable {s s' : OsemState ι} {t u : ι} {c : OsemCall} {o : ℕ} {n need : CInt}
  {sem sem' : Semaphore} {f : OsemReply → OsemReply} {op : OsemOp} {e : OsemEvent ι}

theorem Inv.sound (h : s.Inv) : s.Sound where
  defined := h.defined
  bounds o sem hsem := ⟨(h.healthy o sem hsem).nonneg, (h.healthy o sem hsem).le_max⟩
  accounted := h.accounted
  released t o need timed hc := absurd (h.asleep t o need timed true hc).2.2 (by decide)

theorem tally_setCall_of_awake (ht : (s.calls t).parkedOn o = false) (hc : c.parkedOn o = false) :
    tally (OsemCall.parkedOn o) (s.setCall t c).calls = tally (OsemCall.parkedOn o) s.calls := by
  have := tally_update (OsemCall.parkedOn o) s.calls t c
  rw [ht, hc] at this
  exact this

theorem Inv.setCall (h : s.Inv) (ht : ∀ o, (s.calls t).parkedOn o = false) (hc : ∀ o, c.parkedOn o = false) :
    (s.setCall t c).Inv where
  defined := h.defined
  healthy := h.healthy
  accounted := h.accounted
  waiting o sem hsem := by
    rw [tally_setCall_of_awake (ht o) (hc o)]
    exact h.waiting o sem hsem
  fresh := h.fresh
  asleep u o need timed owed hu := by
    by_cases hut : u = t
    · subst hut
      rw [show (s.setCall u c).calls u = c from Function.update_self ..] at hu
      have := hc o
      simp [hu, OsemCall.parkedOn] at this
    · rw [show (s.setCall t c).calls u = s.calls u from Function.update_of_ne hut ..] at hu
      exact h.asleep u o need timed owed hu

theorem Inv.of_same (h : s.Inv) (h₁ : s'.sems = s.sems)
    (h₂ : s'.nextSem = s.nextSem) (h₃ : s'.calls = s.calls) (h₄ : s'.ledgers = s.ledgers)
    (h₅ : s'.overflowed = s.overflowed) : s'.Inv where
  defined := h₅ ▸ h.defined
  healthy := h₁ ▸ h.healthy
  accounted := by rw [h₁, h₄]; exact h.accounted
  waiting := by rw [h₁, h₃]; exact h.waiting
  fresh := by rw [h₁, h₂]; exact h.fresh
  asleep := by rw [h₂, h₃]; exact h.asleep

theorem Inv.answer (h : s.Inv) (ht : ∀ o, (s.calls t).parkedOn o = false) (r : OsemReply) : (s.answer t r).Inv :=
  (h.setCall (c := .idle) ht fun _ => rfl).of_same rfl rfl rfl rfl rfl

theorem Inv.construct (h : s.Inv) (t : ι) (name : Option String)
    {init max : CInt} (h₀ : 0 ≤ init) (h₁ : init ≤ max) (hd : ℕ) : (s.construct t name init max hd).Inv where
  defined := h.defined
  healthy o sem hsem := by
    by_cases ho : o = s.nextSem
    · subst ho
      rw [show (s.construct t name init max hd).sems s.nextSem = some _ from
        Function.update_self ..] at hsem
      obtain rfl := Option.some.inj hsem
      exact ⟨h₀, h₁, h₀, h₁⟩
    · exact h.healthy o sem ((Function.update_of_ne ho ..).symm.trans hsem)
  accounted o sem hsem := by
    by_cases ho : o = s.nextSem
    · subst ho
      rw [show (s.construct t name init max hd).sems s.nextSem = some _ from
        Function.update_self ..] at hsem
      obtain rfl := Option.some.inj hsem
      rw [show (s.construct t name init max hd).ledgers s.nextSem = ⟨init, 0, 0⟩ from
        Function.update_self ..]
      simp [Semaphore.make, Ledger.balance]
    · rw [show (s.construct t name init max hd).ledgers o = s.ledgers o from
        Function.update_of_ne ho ..]
      exact h.accounted o sem ((Function.update_of_ne ho ..).symm.trans hsem)
  waiting o sem hsem := by
    by_cases ho : o = s.nextSem
    · subst ho
      rw [show (s.construct t name init max hd).sems s.nextSem = some _ from
        Function.update_self ..] at hsem
      obtain rfl := Option.some.inj hsem
      -- nobody sleeps on an object that does not exist yet
      have hnone : tally (OsemCall.parkedOn s.nextSem) s.calls = 0 := by
        refine tally_eq_zero_iff.mpr fun u => ?_
        cases hu : s.calls u with
        | parked o need timed owed =>
          have := (h.asleep u o need timed owed hu).1
          simp only [OsemCall.parkedOn, decide_eq_false_iff_not]
          omega
        | _ => rfl
      exact congrArg Nat.cast hnone.symm
    · exact h.waiting o sem ((Function.update_of_ne ho ..).symm.trans hsem)
  fresh o ho := by
    have hlt : s.nextSem < o := ho
    rw [show (s.construct t name init max hd).sems o = s.sems o from
      Function.update_of_ne (by omega) ..]
    exact h.fresh o hlt.le
  asleep u o need timed owed hu := by
    obtain ⟨hlt, hrest⟩ := h.asleep u o need timed owed hu
    exact ⟨Nat.lt_succ_of_lt hlt, hrest⟩

/-- **What a critical section leaves keeps the invariant**, where the waiter count has moved with
thread `t`'s own sleep. -/
theorem Inv.settle (h : s.Inv) {l : Ledger} {d : ℤ} {p : Pass} (hsem : s.sems o = some sem)
    (hp : sem.Leaves l d p) (hd : d = -(((s.calls t).parkedOn o).toNat : ℤ))
    (hother : ∀ o', o' ≠ o → (s.calls t).parkedOn o' = false)
    (hc : ∀ sem', p = .parked sem' → ∃ need timed, 0 < need ∧ c = .parked o need timed false) :
    ((s.setLedger o l).settle t o p f c).Inv := by
  have ho : o < s.nextSem := by
    by_contra hlt
    rw [h.fresh o (not_lt.mp hlt)] at hsem
    cases hsem
  -- both outcomes store an object and a call; they differ in whether the call sleeps
  have key : ∀ (sem' : Semaphore) (c' : OsemCall) (b : Bool), sem'.Healthy →
      (sem'.count : ℤ) = l.balance → (sem'.waiters : ℤ) = sem.waiters + d + b.toNat →
      (c'.parkedOn o = b) → (∀ o', o' ≠ o → c'.parkedOn o' = false) →
      (∀ o' need timed owed, c' = .parked o' need timed owed → 0 < need ∧ owed = false) →
      (((s.setLedger o l).setSem o sem').setCall t c').Inv := by
    intro sem' c' b hh hbal hw hb hb' hsleep
    have hself : ∀ x, (Function.update s.sems o (some sem')) o = some x → x = sem' := by
      intro x hx
      rw [Function.update_self] at hx
      exact (Option.some.inj hx).symm
    refine ⟨h.defined, fun o' x hx => ?_, fun o' x hx => ?_, fun o' x hx => ?_, fun o' ho' => ?_,
      fun u o' need timed owed hu => ?_⟩
    · by_cases heq : o' = o
      · subst heq
        exact hself x hx ▸ hh
      · exact h.healthy o' x ((Function.update_of_ne heq ..).symm.trans hx)
    · by_cases heq : o' = o
      · subst heq
        rw [hself x hx, hbal]
        show l.balance = (Function.update s.ledgers o' l o').balance
        rw [Function.update_self]
      · have := h.accounted o' x ((Function.update_of_ne heq ..).symm.trans hx)
        show (x.count : ℤ) = (Function.update s.ledgers o l o').balance
        rw [Function.update_of_ne heq]
        exact this
    · -- the number of sleepers changes by what `t` was and what it becomes
      have hup := tally_update (OsemCall.parkedOn o') s.calls t c'
      by_cases heq : o' = o
      · subst heq
        rw [hself x hx, hw, h.waiting o' sem hsem, hd]
        rw [hb] at hup
        show _ = ((tally (OsemCall.parkedOn o') (Function.update s.calls t c') : ℕ) : ℤ)
        omega
      · rw [h.waiting o' x ((Function.update_of_ne heq ..).symm.trans hx)]
        rw [hother o' heq, hb' o' heq] at hup
        exact congrArg Nat.cast hup.symm
    · have hne : o' ≠ o := fun e => by
        subst e
        exact absurd ho (not_lt.mpr ho')
      exact (Function.update_of_ne hne ..).trans (h.fresh o' ho')
    · by_cases hut : u = t
      · subst hut
        have hu' : c' = .parked o' need timed owed := (Function.update_self ..).symm.trans hu
        have hon : o' = o := by
          by_contra hne
          have := hb' o' hne
          simp [hu', OsemCall.parkedOn] at this
        exact ⟨hon ▸ ho, hsleep o' need timed owed hu'⟩
      · exact h.asleep u o' need timed owed ((Function.update_of_ne hut ..).symm.trans hu)
  cases p with
  | returned r sem' =>
    obtain ⟨hh, hbal, hw⟩ := hp
    exact (key sem' .idle false hh hbal (by simpa using hw) rfl (fun _ _ => rfl)
      (fun _ _ _ _ e => by cases e)).of_same rfl rfl rfl rfl rfl
  | parked sem' =>
    obtain ⟨hh, hbal, hw⟩ := hp
    obtain ⟨need, timed, hneed, rfl⟩ := hc sem' rfl
    refine key sem' _ true hh hbal (by simpa using hw) (by simp [OsemCall.parkedOn])
      (fun o' ho' => by simp [OsemCall.parkedOn, Ne.symm ho']) ?_
    rintro o' n tm ow e
    cases e
    exact ⟨hneed, rfl⟩
  | overflow => exact hp.elim

theorem passOf_leaves (h : sem.Healthy) {l : Ledger} (hl : (sem.count : ℤ) = l.balance) (hw : 0 ≤ (sem.waiters : ℤ))
    (hok : CarefulOp sem op) : sem.Leaves (chargeOp l op (passOf sem op)) 0 (passOf sem op) := by
  cases op with
  | wait need timed => exact h.wait_leaves hl hw hok
  | trywait need => exact h.trywait_leaves hl
  | post n => exact h.post_leaves hl hok
  | cancel setCount => exact h.cancel_leaves hl (hok.imp id And.left)

theorem passOf_eq_parked (h : passOf sem op = .parked sem') : ∃ need timed, 0 < need ∧ op = .wait need timed := by
  cases op with
  | wait need timed =>
    refine ⟨need, timed, ?_, rfl⟩
    by_contra hneg
    rw [passOf, Semaphore.wait, if_pos (not_lt.mp hneg)] at h
    cases h
  | trywait need =>
    simp only [passOf, Semaphore.trywait, Semaphore.take] at h
    repeat' split at h
    all_goals cases h
  | post n =>
    simp only [passOf, Semaphore.post] at h
    repeat' split at h
    all_goals cases h
  | cancel setCount =>
    simp only [passOf, Semaphore.cancel] at h
    split at h <;> cases h

theorem passOf_error_count {e : SysError}
    (h : passOf sem op = .returned (.error e) sem') : sem'.count = sem.count := by
  cases op with
  | wait need timed =>
    simp only [passOf, Semaphore.wait, Semaphore.take] at h
    repeat' split at h
    all_goals cases h <;> rfl
  | trywait need =>
    simp only [passOf, Semaphore.trywait, Semaphore.take] at h
    repeat' split at h
    all_goals cases h <;> rfl
  | post n =>
    simp only [passOf, Semaphore.post] at h
    repeat' split at h
    all_goals cases h <;> rfl
  | cancel setCount =>
    simp only [passOf, Semaphore.cancel] at h
    split at h <;> cases h
    rfl

theorem passOf_eq_cancelled (h : passOf sem op = .returned (.cancelled n) sem') :
    n = sem.waiters ∧ ∃ setCount, op = .cancel setCount ∧ ¬(0 < sem.maxCount ∧ sem.maxCount < setCount) := by
  cases op with
  | wait need timed =>
    simp only [passOf, Semaphore.wait, Semaphore.take] at h
    repeat' split at h
    all_goals cases h
  | trywait need =>
    simp only [passOf, Semaphore.trywait, Semaphore.take] at h
    repeat' split at h
    all_goals cases h
  | post n =>
    simp only [passOf, Semaphore.post] at h
    repeat' split at h
    all_goals cases h
  | cancel setCount =>
    simp only [passOf, Semaphore.cancel] at h
    split at h
    · cases h
    · next hacc =>
      cases h
      exact ⟨rfl, setCount, rfl, hacc⟩

theorem Inv.oweAll_eq (h : s.Inv) (hsem : s.sems o = some sem) (hok : CarefulOp sem op) :
    s.oweAll o op (passOf sem op) = s := by
  unfold oweAll
  split
  · next n sem' setCount hp =>
    obtain ⟨-, sc, hsc, hacc⟩ := passOf_eq_cancelled hp
    cases hsc
    have hzero : tally (OsemCall.parkedOn o) s.calls = 0 := by
      have := h.waiting o sem hsem
      rw [(hok.resolve_left hacc).2, CInt.coe_zero] at this
      exact Int.natCast_eq_zero.mp this.symm
    -- nobody sleeps on this object, so no call changes
    have hsame : (fun u => (s.calls u).owe o) = s.calls := by
      funext u
      have hu := tally_eq_zero_iff.mp hzero u
      cases hc : s.calls u with
      | parked o' need timed owed =>
        rw [hc] at hu
        have hne : o' ≠ o := by simpa [OsemCall.parkedOn] using hu
        simp [OsemCall.owe, hne]
      | _ => rfl
    rw [hsame]
  · rfl

theorem Inv.run (h : s.Inv) (hok : s.CarefulCall (s.calls t)) (hs : s.run t = some s') : s'.Inv := by
  unfold OsemState.run at hs
  cases hc : s.calls t with
  | entered o op =>
    rw [hc] at hs hok
    obtain ⟨sem, hsem, rfl⟩ := Option.map_eq_some_iff.mp hs
    have hcare : CarefulOp sem op := hok sem hsem
    have hleaves := passOf_leaves (h.healthy o sem hsem) (h.accounted o sem hsem)
      (by rw [h.waiting o sem hsem]; exact Int.natCast_nonneg _) hcare
    have hawake : ∀ o', (s.calls t).parkedOn o' = false := fun o' => by rw [hc]; rfl
    dsimp only
    rw [h.oweAll_eq hsem hcare]
    refine h.settle hsem hleaves (by rw [hawake o]; rfl) (fun o' _ => hawake o') ?_
    intro sem' hp
    obtain ⟨need, timed, hpos, rfl⟩ := passOf_eq_parked hp
    exact ⟨need, _, hpos, rfl⟩
  | idle => rw [hc] at hs; cases hs
  | parked o need timed owed => rw [hc] at hs; cases hs

theorem Inv.waiters_pos (h : s.Inv) {timed owed : Bool} (hc : s.calls t = .parked o need timed owed)
    (hsem : s.sems o = some sem) : 0 < (sem.waiters : ℤ) := by
  rw [h.waiting o sem hsem]
  exact Int.natCast_pos.mpr (tally_pos (t := t) (by simp [hc, OsemCall.parkedOn]))

theorem Inv.settle_awake (h : s.Inv) {timed owed : Bool} (hc : s.calls t = .parked o need timed owed)
    (hsem : s.sems o = some sem) {l : Ledger} {p : Pass} (f : OsemReply → OsemReply)
    (hp : sem.Leaves l (-1) p) (hret : ∀ sem', p ≠ .parked sem') : ((s.setLedger o l).settle t o p f .idle).Inv := by
  refine h.settle hsem hp ?_ (fun o' ho' => ?_) fun sem' e => absurd e (hret sem')
  · simp [hc, OsemCall.parkedOn]
  · simp [hc, OsemCall.parkedOn, Ne.symm ho']

theorem wake_ne_parked (sem : Semaphore) (need : CInt) (ok : Bool) (sem' : Semaphore) :
    sem.wake need ok ≠ .parked sem' := by
  simp only [Semaphore.wake, Semaphore.take]
  repeat' split
  all_goals nofun

theorem Inv.wake (h : s.Inv) (hs : s.wake t = some s') : s'.Inv := by
  unfold OsemState.wake at hs
  cases hc : s.calls t with
  | parked o need timed owed =>
    rw [hc] at hs
    obtain ⟨sem, hsem, hs⟩ := Option.bind_eq_some_iff.mp hs
    by_cases hle : need ≤ sem.count
    · rw [if_pos hle] at hs
      obtain rfl := Option.some.inj hs
      refine h.settle_awake hc hsem _ ?_ (wake_ne_parked sem need true)
      exact (h.healthy o sem hsem).wake_leaves (h.accounted o sem hsem) (h.waiters_pos hc hsem)
        (h.asleep t o need timed owed hc).2.1 hle
    · rw [if_neg hle] at hs
      cases hs
  | idle => rw [hc] at hs; cases hs
  | entered o op => rw [hc] at hs; cases hs

theorem setLedger_self (s : OsemState ι) (o : ℕ) : s.setLedger o (s.ledgers o) = s := by
  rw [setLedger, Function.update_eq_self]

theorem Inv.giveUp (h : s.Inv) (hs : s.giveUp t = some s') : s'.Inv := by
  unfold OsemState.giveUp at hs
  cases hc : s.calls t with
  | parked o need timed owed =>
    rw [hc] at hs
    obtain ⟨sem, hsem, hs⟩ := Option.bind_eq_some_iff.mp hs
    by_cases hle : sem.count < need ∧ (timed || s.stopping)
    · rw [if_pos hle] at hs
      obtain rfl := Option.some.inj hs
      rw [← setLedger_self s o]
      refine h.settle_awake hc hsem _ ?_ (wake_ne_parked sem need false)
      exact (h.healthy o sem hsem).giveUp_leaves (h.accounted o sem hsem) (h.waiters_pos hc hsem)
    · rw [if_neg hle] at hs
      cases hs
  | idle => rw [hc] at hs; cases hs
  | entered o op => rw [hc] at hs; cases hs

theorem Inv.openNamed (h : s.Inv) {name : Option String} {hd : ℕ}
    (hidle : s.calls t = .idle) (hs : s.openNamed t name hd = some s') : s'.Inv := by
  have hawake : ∀ o, (s.calls t).parkedOn o = false := fun o => by rw [hidle]; rfl
  unfold OsemState.openNamed at hs
  split at hs
  · obtain rfl := Option.some.inj hs
    exact h.answer hawake _
  split at hs
  · obtain rfl := Option.some.inj hs
    exact h.answer hawake _
  split at hs
  · cases hs
  split at hs
  · obtain rfl := Option.some.inj hs
    exact h.construct t name (by decide) (by decide) hd
  · obtain rfl := Option.some.inj hs
    exact h.construct t name (by decide) (by decide) hd

theorem Inv.delete (h : s.Inv) (hidle : s.calls t = .idle) (hd : ℕ) : (s.delete t hd).Inv := by
  have hawake : ∀ o, (s.calls t).parkedOn o = false := fun o => by rw [hidle]; rfl
  unfold OsemState.delete
  split
  · exact h.answer hawake _
  · exact (h.answer hawake .ok).of_same rfl rfl rfl rfl rfl

/-- **Careful steps keep the invariant.** -/
theorem Inv.step (h : s.Inv) (hok : s.Careful e) (hs : s.step e = some s') : s'.Inv := by
  unfold OsemState.step at hs
  rw [if_neg (by rw [h.defined]; decide)] at hs
  cases e with
  | create t name init max hd =>
    dsimp only at hs
    split at hs
    · obtain rfl := Option.some.inj hs
      exact h.construct t name hok.1 hok.2 hd
    · cases hs
  | openNamed t name hd =>
    dsimp only at hs
    split at hs
    · next hidle => exact h.openNamed hidle hs
    · cases hs
  | delete t hd =>
    dsimp only at hs
    split at hs
    · next hidle =>
      obtain rfl := Option.some.inj hs
      exact h.delete hidle hd
    · cases hs
  | enter t hd op =>
    dsimp only at hs
    split at hs
    · next hidle =>
      have hawake : ∀ o, (s.calls t).parkedOn o = false := fun o => by rw [hidle]; rfl
      split at hs
      · obtain rfl := Option.some.inj hs
        exact h.answer hawake _
      · obtain rfl := Option.some.inj hs
        exact h.setCall hawake fun _ => rfl
    · cases hs
  | run t => exact h.run hok hs
  | wake t => exact h.wake hs
  | giveUp t => exact h.giveUp hs
  | stop =>
    obtain rfl := Option.some.inj hs
    exact h.of_same rfl rfl rfl rfl rfl

/-! ## What each step answers -/

theorem settle_reply {p : Pass} {r : OsemReply} (h : (s.settle t o p f c).replies = (u, r) :: s.replies) :
    u = t ∧ ∃ r' sem', p = .returned r' sem' ∧ f r' = r := by
  cases p with
  | returned r' sem' =>
    have heq := (List.cons.inj h).1
    exact ⟨(congrArg Prod.fst heq).symm, r', sem', rfl, congrArg Prod.snd heq⟩
  | parked sem' | overflow => exact absurd h.symm (List.cons_ne_self _ _)

theorem settle_error_count {p : Pass} {e : SysError} (hsem : s.sems o = some sem)
    (hp : ∀ e' sem', p = .returned (.error e') sem' → sem'.count = sem.count)
    (hf : ∀ r e', f r = .error e' → ∃ e'', r = .error e'')
    (h : (s.settle t o p f c).replies = (u, .error e) :: s.replies) (o' : ℕ) :
    ((s.settle t o p f c).sems o').map Semaphore.count = (s.sems o').map Semaphore.count := by
  obtain ⟨-, r, sem', rfl, hr⟩ := settle_reply h
  obtain ⟨e', rfl⟩ := hf r e hr
  show ((Function.update s.sems o (some sem')) o').map Semaphore.count = _
  by_cases ho : o' = o
  · subst ho
    rw [Function.update_self, hsem, Option.map_some, Option.map_some, hp e' sem' rfl]
  · rw [Function.update_of_ne ho]

theorem channelReply_error {r : OsemReply} {e : SysError}
    (h : channelReply sem r = .error e) : ∃ e', r = .error e' := by
  cases r with
  | error e' => exact ⟨e', rfl⟩
  | ok => cases h
  | handle hd => cases h
  | cancelled n => cases h

theorem channelReply_cancelled {r : OsemReply} (h : channelReply sem r = .cancelled n) : r = .cancelled n := by
  cases r with
  | error e =>
    simp only [channelReply] at h
    split at h <;> cases h
  | ok => cases h
  | handle hd => cases h
  | cancelled m => exact h

theorem wake_error_count {ok : Bool} {e : SysError}
    (h : sem.wake need ok = .returned (.error e) sem') : sem'.count = sem.count := by
  simp only [Semaphore.wake, Semaphore.take] at h
  repeat' split at h
  all_goals cases h <;> rfl

theorem wake_ne_cancelled {ok : Bool} : sem.wake need ok ≠ .returned (.cancelled n) sem' := by
  simp only [Semaphore.wake, Semaphore.take]
  repeat' split
  all_goals nofun

theorem StepSound.of_reply (herr : ∀ t x, s'.replies ≠ (t, .error x) :: s.replies)
    (hcan : ∀ t n, s'.replies ≠ (t, .cancelled n) :: s.replies) : s.StepSound e s' :=
  ⟨fun t x h => absurd h (herr t x), fun t n h => absurd h (hcan t n)⟩

theorem StepSound.of_sems (hsems : s'.sems = s.sems)
    (hcan : ∀ t n, s'.replies ≠ (t, .cancelled n) :: s.replies) : s.StepSound e s' :=
  ⟨fun _ _ _ o => by rw [hsems], fun t n h => absurd h (hcan t n)⟩

theorem cons_ne_of_reply {l : List (ι × OsemReply)} {r r' : OsemReply} (h : r ≠ r') : (t, r) :: l ≠ (u, r') :: l :=
  fun e => h (congrArg Prod.snd (List.cons.inj e).1)

theorem Inv.run_sound (h : s.Inv) (hok : s.CarefulCall (s.calls t))
    (hs : s.run t = some s') : s.StepSound (.run t) s' := by
  unfold OsemState.run at hs
  cases hc : s.calls t with
  | entered o op =>
    rw [hc] at hs hok
    obtain ⟨sem, hsem, rfl⟩ := Option.map_eq_some_iff.mp hs
    have hcare : CarefulOp sem op := hok sem hsem
    dsimp only
    rw [h.oweAll_eq hsem hcare]
    refine ⟨fun u e hr => ?_, fun u n hr => ?_⟩
    · refine settle_error_count (s := s.setLedger o _) hsem (fun e' sem' => passOf_error_count)
        (fun r e' hf => ?_) hr
      cases op with
      | wait need timed => exact channelReply_error hf
      | _ => exact ⟨e', hf⟩
    · obtain ⟨rfl, r, sem', hp, hf⟩ := settle_reply (s := s.setLedger o _) hr
      have hr' : r = .cancelled n := by
        cases op with
        | wait need timed => exact channelReply_cancelled hf
        | _ => exact hf
      subst hr'
      obtain ⟨rfl, setCount, rfl, hacc⟩ := passOf_eq_cancelled hp
      refine ⟨o, setCount, hc, h.waiting o sem hsem, fun v need timed owed hv => ?_⟩
      -- a careful `Cancel` finds nobody asleep
      have := h.waiters_pos hv hsem
      rw [(hcare.resolve_left hacc).2] at this
      exact absurd this (lt_irrefl _)
  | idle => rw [hc] at hs; cases hs
  | parked o need timed owed => rw [hc] at hs; cases hs

theorem wakeUp_sound {s₀ : OsemState ι} {ok : Bool} (hsem : s.sems o = some sem) (h₁ : s₀.sems = s.sems)
    (h₂ : s₀.replies = s.replies) : s.StepSound e (s₀.settle t o (sem.wake need ok) (channelReply sem) .idle) := by
  refine ⟨fun u x hr o' => ?_, fun u n hr => ?_⟩
  · rw [← h₁]
    rw [← h₂] at hr
    exact settle_error_count (h₁ ▸ hsem) (fun _ _ => wake_error_count)
      (fun _ _ => channelReply_error) hr o'
  · rw [← h₂] at hr
    obtain ⟨-, r, sem', hp, hf⟩ := settle_reply hr
    rw [channelReply_cancelled hf] at hp
    exact absurd hp wake_ne_cancelled

theorem Inv.step_sound (h : s.Inv) (hok : s.Careful e) (hs : s.step e = some s') : s.StepSound e s' := by
  unfold OsemState.step at hs
  rw [if_neg (by rw [h.defined]; decide)] at hs
  cases e with
  | create t name init max hd =>
    dsimp only at hs
    split at hs
    · obtain rfl := Option.some.inj hs
      exact .of_reply (fun _ _ => cons_ne_of_reply (by simp)) fun _ _ => cons_ne_of_reply (by simp)
    · cases hs
  | openNamed t name hd =>
    dsimp only at hs
    split at hs
    · unfold OsemState.openNamed at hs
      repeat' split at hs
      all_goals
        cases hs <;>
        first
        | exact .of_sems rfl fun _ _ => cons_ne_of_reply (by simp)
        | exact .of_reply (fun _ _ => cons_ne_of_reply (by simp)) fun _ _ => cons_ne_of_reply (by simp)
    · cases hs
  | delete t hd =>
    dsimp only at hs
    split at hs
    · obtain rfl := Option.some.inj hs
      unfold OsemState.delete
      split <;> exact .of_sems rfl fun _ _ => cons_ne_of_reply (by simp)
    · cases hs
  | enter t hd op =>
    dsimp only at hs
    split at hs
    · split at hs
      · obtain rfl := Option.some.inj hs
        exact .of_sems rfl fun _ _ => cons_ne_of_reply (by simp)
      · obtain rfl := Option.some.inj hs
        exact .of_sems rfl fun _ _ => (List.cons_ne_self _ _).symm
    · cases hs
  | run t => exact h.run_sound hok hs
  | wake t =>
    change s.wake t = some s' at hs
    unfold OsemState.wake at hs
    split at hs
    · obtain ⟨sem, hsem, hs⟩ := Option.bind_eq_some_iff.mp hs
      split at hs
      · obtain rfl := Option.some.inj hs
        exact wakeUp_sound hsem rfl rfl
      · cases hs
    · cases hs
  | giveUp t =>
    change s.giveUp t = some s' at hs
    unfold OsemState.giveUp at hs
    split at hs
    · obtain ⟨sem, hsem, hs⟩ := Option.bind_eq_some_iff.mp hs
      split at hs
      · obtain rfl := Option.some.inj hs
        exact wakeUp_sound hsem rfl rfl
      · cases hs
    · cases hs
  | stop =>
    obtain rfl := Option.some.inj hs
    exact .of_sems rfl fun _ _ => (List.cons_ne_self _ _).symm

/-- **Careful runs are sound.** From the empty system, a run whose calls are all careful never
overflows, keeps every count between 0 and its maximum and equal to its ledger, changes no count
in a call that fails, and releases every sleeper a `Cancel` reports. -/
theorem sound_of_careful {ls : List (OsemEvent ι)} (h : (system ι).Meets Careful init ls) :
    (system ι).Always Sound init ls ∧ (system ι).EveryStep StepSound init ls := by
  have hstep : ∀ (s : OsemState ι) e s', s.Inv → s.Careful e → (system ι).step s e = some s' →
      s'.Inv := fun s e s' hinv hok hs => hinv.step hok hs
  refine ⟨(system ι).always_of_invariant hstep (fun s => Inv.sound) Inv.init h, ?_⟩
  exact (system ι).everyStep_of_invariant hstep (fun s e s' hinv hok hs => hinv.step_sound hok hs)
    Inv.init h

/-- One thread sleeps, another signals and the first takes. -/
def signalledRun : List (OsemEvent (Fin 2)) :=
  [.create 0 none 0 1 7, .enter 1 7 (.wait 1 false), .run 1, .enter 0 7 (.post 1), .run 0, .wake 1]

theorem sound_signalledRun : ((system (Fin 2)).exec init signalledRun).isSome = true ∧
      (system (Fin 2)).Always Sound init signalledRun ∧ (system (Fin 2)).EveryStep StepSound init signalledRun :=
  ⟨by decide, sound_of_careful (by decide)⟩

/-- **Three careless runs break the promise.** A `Cancel` to 0 leaves its sleeper with no way to
return; a `Post` of 1 to an auto-created semaphore at its ceiling overflows; a semaphore created
with -1 is below zero. -/
theorem careless_runs_unsound : ¬ (system (Fin 2)).Always Sound init
        [.create 0 none 0 1 7, .enter 1 7 (.wait 1 false), .run 1, .enter 0 7 (.cancel 0), .run 0] ∧
      ¬ (system (Fin 2)).Always Sound init
        [.openNamed 0 (some "a") 7, .enter 0 7 (.post CInt.max), .run 0, .enter 0 7 (.post 1), .run 0] ∧
      ¬ (system (Fin 2)).Always Sound init [.create 0 none ⟨-1, by decide⟩ 1 7] := by
  refine ⟨fun h => ?_, fun h => ?_, fun h => ?_⟩
  · have hlast := h.last (system (Fin 2)) rfl
    -- the sleeper is owed its release, and its own predicate still does not hold
    exact absurd (hlast.released 1 0 1 false rfl) (by decide)
  · exact absurd (h.last (system (Fin 2)) rfl).defined (by decide)
  · have hlast := h.last (system (Fin 2)) rfl
    exact absurd (hlast.bounds 0 _ rfl).1 (by decide)

end OsemState

end Prosperity.Kern
