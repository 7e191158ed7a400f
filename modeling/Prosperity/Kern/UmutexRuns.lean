import Prosperity.Foundations.Tally
import Prosperity.Kern.Umutex

/-!
# Runs of the mutex

What the mutex word promises over every interleaving of kernel calls and userland swaps, and the
runs that keep it: those in which the release inside `CV_WAIT` never swaps a word that another
thread owns. `MUTEX_UNLOCK` asks who the owner is and `CV_WAIT`, whose comment promises the same
rule, does not.

The owner's id in the word says who believes to own the mutex. A swap of a kernel call may come
late, after userland has moved the word, but then it fails; and the word cannot move under a call
of its owner, which holds the bucket's mutex.
-/

set_option linter.unusedSectionVars false

namespace Prosperity.Kern.Umutex

/-! ## The word -/

section Words

theorem held_or_contested (w : UmWord) : held (w ||| contestedBit) = held w := by
  unfold held
  ext i hi
  simp only [BitVec.getElem_and, BitVec.getElem_or, BitVec.getElem_not]
  cases w[i] <;> cases contestedBit[i] <;> rfl

theorem held_contestedBit : held contestedBit = 0 := by decide

theorem held_zero : held 0 = 0 := by decide

theorem held_tid_or {x : UmWord} (hx : x &&& contestedBit = 0) (w : UmWord) :
    held (x ||| (w &&& contestedBit)) = x := by
  unfold held
  ext i hi
  have hbit : (x &&& contestedBit)[i] = false := by rw [hx]; simp
  simp only [BitVec.getElem_and, BitVec.getElem_or, BitVec.getElem_not] at hbit ⊢
  revert hbit
  cases x[i] <;> cases w[i] <;> cases contestedBit[i] <;> decide

theorem held_tid {x : UmWord} (hx : x &&& contestedBit = 0) : held x = x := by
  simpa using held_tid_or hx 0

theorem or_contested_ne_zero (w : UmWord) : (w ||| contestedBit) &&& contestedBit ≠ 0 := by
  have hsame : (w ||| contestedBit) &&& contestedBit = contestedBit := by
    ext i hi
    simp only [BitVec.getElem_and, BitVec.getElem_or]
    cases w[i] <;> cases contestedBit[i] <;> rfl
  rw [hsame]
  decide

end Words

/-! ## The invariant -/

variable {ι : Type*}

def inside (c : UmThread) : Bool :=
  match c.pc with
  | .waitTop | .waitLoaded _ | .waitPublished _ | .waitLoop _ | .wakeTop | .wakeLoaded _
  | .lockTop _ _ | .lockLoaded _ _ _ | .lockPublished _ | .unlockTop | .unlockLoaded _ | .cvTop
  | .cvLoaded _ => true
  | _ => false

def queued (c : UmThread) : Bool :=
  match c.pc with
  | .waitLoop _ | .waitAsleep _ | .lockAsleep => true
  | .lockTop _ q | .lockLoaded _ q _ | .lockPublished q => q
  | _ => false

def asleep (c : UmThread) : Bool :=
  match c.pc with
  | .waitAsleep _ | .lockAsleep => true
  | _ => false

def loadedWord (c : UmThread) : Option UmWord :=
  match c.pc with
  | .lockLoaded _ _ st | .unlockLoaded st | .cvLoaded st => some st
  | _ => none

abbrev UmState (ι : Type*) := Threads ι (UmShared ι) UmThread

/-- A release inside `CV_WAIT` does not swap a word that another thread owns. -/
def Careful (T : Tids ι) (s : UmState ι) (e : ι × UmAction) : Prop :=
  e.2 = .kernel → (s.thread e.1).pc = .cvLoaded s.shared.word → held s.shared.word = 0 ∨ held s.shared.word = T.tid e.1

instance (T : Tids ι) (s : UmState ι) (e : ι × UmAction) : Decidable (Careful T s e) :=
  inferInstanceAs (Decidable (_ → _))

section Invariant

variable [Fintype ι] (T : Tids ι)

/-- What careful steps keep. -/
structure Inv (s : UmState ι) : Prop where
  owner : ∀ t, (s.thread t).owns = true ↔ held s.shared.word = T.tid t
  waiters : s.shared.mutexWaiters = tally queued s.thread
  guarded : Guarded inside s.shared.mutex s.thread
  loaded : ∀ t st, loadedWord (s.thread t) = some st → (held st = T.tid t → (s.thread t).owns = true) ∧
      ((s.thread t).owns = true → s.shared.word = st)

/-- What an action of thread `t` does to the word. -/
inductive WordMove (s : UmState ι) (t : ι) (a : UmAction) (r : UmShared ι × UmThread) : Prop where
  | still (hword : r.1.word = s.shared.word) (howns : r.2.owns = (s.thread t).owns)
  | contested (hin : inside (s.thread t) = true)
      (hword : r.1.word = s.shared.word ||| contestedBit) (howns : r.2.owns = (s.thread t).owns)
  | acquired (hfree : held s.shared.word = 0) (hword : held r.1.word = T.tid t)
      (howns : r.2.owns = true)
  | released (hmine : held s.shared.word = 0 ∨ held s.shared.word = T.tid t)
      (hword : held r.1.word = 0) (howns : r.2.owns = false)
      (hcont : a = .kernel → 2 ≤ s.shared.mutexWaiters → r.1.word &&& contestedBit ≠ 0)

/-- What an action of thread `t` does. -/
structure Effect (s : UmState ι) (t : ι) (a : UmAction) (r : UmShared ι × UmThread) : Prop where
  word : WordMove T s t a r
  count : r.1.mutexWaiters + (queued (s.thread t)).toNat = s.shared.mutexWaiters + (queued r.2).toNat
  bucket : r.1.mutex = s.shared.mutex ∨ s.shared.mutex = none ∨ s.shared.mutex = some t
  insideOwns : inside r.2 = true → r.1.mutex = some t
  fresh : ∀ st, loadedWord r.2 = some st → (held st = T.tid t → r.2.owns = true) ∧ (r.2.owns = true → r.1.word = st)

theorem Inv.init : Inv T (Umutex.init : UmState ι) where
  owner t := by
    constructor
    · intro h
      cases h
    · intro h
      have hzero : held (Umutex.init : UmState ι).shared.word = 0 := held_zero
      exact absurd (h.symm.trans hzero) (T.ne_zero t)
  waiters := by
    have hnone : tally queued (Umutex.init : UmState ι).thread = 0 :=
      tally_eq_zero_iff.mpr fun _ => rfl
    rw [hnone]
    rfl
  guarded t h := by cases h
  loaded t st h := by cases h

variable [DecidableEq ι] {T} {s : UmState ι} {t : ι} {a : UmAction} {r : UmShared ι × UmThread}

theorem WordMove.of_owned (m : WordMove T s t a r) (h : Inv T s) {u : ι} (hu : u ≠ t)
    (howns : (s.thread u).owns = true) : r.1.word = s.shared.word ∨
      (inside (s.thread t) = true ∧ r.1.word = s.shared.word ||| contestedBit) := by
  have hheld := (h.owner u).mp howns
  cases m with
  | still hword _ => exact .inl hword
  | contested hin hword _ => exact .inr ⟨hin, hword⟩
  | acquired hfree _ _ => exact absurd (hheld.symm.trans hfree) (T.ne_zero u)
  | released hmine _ _ _ =>
    rcases hmine with hfree | hmine
    · exact absurd (hheld.symm.trans hfree) (T.ne_zero u)
    · exact absurd (T.injective (hheld.symm.trans hmine)) hu

/-- **An action that moves the word in one of the four ways keeps the invariant.** -/
theorem Effect.inv (e : Effect T s t a r) (h : Inv T s) : Inv T (ThreadSystem.move s t r) where
  owner u := by
    rw [ThreadSystem.move_shared]
    by_cases hut : u = t
    · subst hut
      rw [ThreadSystem.move_thread_self]
      cases e.word with
      | still hword howns => rw [hword, howns, h.owner u]
      | contested _ hword howns => rw [hword, howns, held_or_contested, h.owner u]
      | acquired _ hword howns => exact iff_of_true howns hword
      | released _ hword howns _ =>
        refine iff_of_false (by rw [howns]; decide) fun hheld => ?_
        exact T.ne_zero u (hheld.symm.trans hword)
    · rw [ThreadSystem.move_thread_of_ne s r hut]
      cases e.word with
      | still hword _ => rw [hword, h.owner u]
      | contested _ hword _ => rw [hword, held_or_contested, h.owner u]
      | acquired hfree hword _ =>
        refine iff_of_false (fun howns => ?_) fun hheld => ?_
        · exact T.ne_zero u (((h.owner u).mp howns).symm.trans hfree)
        · exact hut (T.injective (hheld.symm.trans hword))
      | released hmine hword _ _ =>
        refine iff_of_false (fun howns => ?_) fun hheld => ?_
        · rcases hmine with hfree | hmine
          · exact T.ne_zero u (((h.owner u).mp howns).symm.trans hfree)
          · exact hut (T.injective (((h.owner u).mp howns).symm.trans hmine))
        · exact T.ne_zero u (hheld.symm.trans hword)
  waiters := by
    have hup := tally_update queued s.thread t r.2
    have hcount := e.count
    rw [h.waiters] at hcount
    show _ = tally queued (Function.update s.thread t r.2)
    rw [ThreadSystem.move_shared]
    omega
  guarded := h.guarded.step e.bucket e.insideOwns
  loaded u st hu := by
    rw [ThreadSystem.move_shared]
    by_cases hut : u = t
    · subst hut
      rw [ThreadSystem.move_thread_self] at hu ⊢
      exact e.fresh st hu
    · rw [ThreadSystem.move_thread_of_ne s r hut] at hu ⊢
      obtain ⟨hmine, hkept⟩ := h.loaded u st hu
      refine ⟨hmine, fun howns => ?_⟩
      rcases e.word.of_owned h hut howns with hword | ⟨hin, -⟩
      · rw [hword, hkept howns]
      · -- both calls would have the bucket's mutex
        have hin' : inside (s.thread u) = true := by
          unfold loadedWord at hu
          unfold inside
          split at hu <;> simp_all
        exact absurd (h.guarded.unique hin' hin) hut

theorem Effect.of_same (hword : r.1.word = s.shared.word)
    (howns : r.2.owns = (s.thread t).owns) (hcount : r.1.mutexWaiters = s.shared.mutexWaiters)
    (hqueued : queued r.2 = queued (s.thread t))
    (hbucket : r.1.mutex = s.shared.mutex ∨ s.shared.mutex = none ∨ s.shared.mutex = some t)
    (hin : inside r.2 = true → r.1.mutex = some t) (hloaded : loadedWord r.2 = none) : Effect T s t a r where
  word := .still hword howns
  count := by rw [hcount, hqueued]
  bucket := hbucket
  insideOwns := hin
  fresh st hst := by rw [hloaded] at hst; cases hst

theorem Effect.of_load (h : Inv T s) {pc : UmPc} (hin : inside (s.thread t) = true)
    (hqueued : queued { s.thread t with pc := pc } = queued (s.thread t))
    (hloaded : ∀ st, loadedWord { s.thread t with pc := pc } = some st → st = s.shared.word) :
    Effect T s t a (s.shared, { s.thread t with pc := pc }) where
  word := .still rfl rfl
  count := by rw [hqueued]
  bucket := .inl rfl
  insideOwns _ := h.guarded t hin
  fresh st hst := by
    obtain rfl := hloaded st hst
    exact ⟨(h.owner t).mpr, fun _ => rfl⟩

theorem enter_effect {pc : UmPc} (hr : enter t s.shared (s.thread t) pc = some r)
    (hqueued : queued { s.thread t with pc := pc } = queued (s.thread t))
    (hloaded : loadedWord { s.thread t with pc := pc } = none) : Effect T s t a r := by
  unfold enter at hr
  split at hr <;> cases hr
  next hfree =>
  exact .of_same rfl rfl rfl hqueued (.inr (.inl (Option.isNone_iff_eq_none.mp hfree)))
    (fun _ => rfl) hloaded

theorem leave_effect (h : Inv T s) (hin : inside (s.thread t) = true)
    (hqueued : queued (s.thread t) = false) (ret : ℤ) : Effect T s t a (leave s.shared (s.thread t) ret) :=
  .of_same rfl rfl rfl hqueued.symm (.inr (.inr (h.guarded t hin))) nofun rfl

/-! ## The kernel calls -/

theorem waitStep_effect (h : Inv T s) {st : UmWord} (hpc : (s.thread t).pc = .waitLoaded st) :
    Effect T s t .kernel (waitStep s.shared (s.thread t) st) := by
  have hin : inside (s.thread t) = true := by simp [inside, hpc]
  have hq : queued (s.thread t) = false := by simp [queued, hpc]
  unfold waitStep
  by_cases hfree : held st = 0
  · rw [if_pos hfree]
    exact leave_effect h hin hq 0
  rw [if_neg hfree]
  by_cases hcas : s.shared.word = st
  · rw [if_pos hcas]
    subst hcas
    refine ⟨.contested hin rfl rfl, ?_, .inl rfl, fun _ => h.guarded t hin, nofun⟩
    rw [hq]
    rfl
  · rw [if_neg hcas]
    exact leave_effect h hin hq 0

theorem waitTurn_effect (h : Inv T s) {g : ℕ} (hpc : (s.thread t).pc = .waitLoop g) :
    Effect T s t .kernel (waitTurn s.shared (s.thread t) g) := by
  have hin : inside (s.thread t) = true := by simp [inside, hpc]
  have hq : queued (s.thread t) = true := by simp [queued, hpc]
  have hmine := h.guarded t hin
  unfold waitTurn
  by_cases hstay : held s.shared.word ≠ 0 ∧ s.shared.gen = g
  · rw [if_pos hstay]
    exact .of_same rfl rfl rfl hq.symm (.inr (.inr hmine)) nofun rfl
  · rw [if_neg hstay]
    have hpos : 0 < s.shared.mutexWaiters := by
      rw [h.waiters]
      exact tally_pos hq
    refine ⟨.still rfl rfl, ?_, .inr (.inr hmine), nofun, nofun⟩
    rw [hq]
    show s.shared.mutexWaiters - 1 + 1 = s.shared.mutexWaiters + 0
    omega

theorem wakeStep_effect (h : Inv T s) {st : UmWord} (hpc : (s.thread t).pc = .wakeLoaded st) :
    Effect T s t .kernel (wakeStep s.shared (s.thread t) st) := by
  have hin : inside (s.thread t) = true := by simp [inside, hpc]
  have hq : queued (s.thread t) = false := by simp [queued, hpc]
  unfold wakeStep
  by_cases howned : held st ≠ 0
  · rw [if_pos howned]
    exact leave_effect h hin hq 0
  rw [if_neg howned]
  refine ⟨?_, by rw [hq]; rfl, .inr (.inr (h.guarded t hin)), nofun, nofun⟩
  by_cases hclear : s.shared.mutexWaiters ≤ 1 ∧ s.shared.word = contestedBit
  · -- the contested bit goes with the last waiter; nobody owns the word
    have hzero : held s.shared.word = 0 := by rw [hclear.2, held_contestedBit]
    refine .released (.inl hzero) ?_ ?_ fun _ htwo => absurd htwo (by omega)
    · simp only [leave, if_pos hclear]
      exact held_zero
    · show (s.thread t).owns = false
      rw [Bool.eq_false_iff, Ne, h.owner t, hzero]
      exact (T.ne_zero t).symm
  · exact .still (by simp only [leave, if_neg hclear]) rfl

theorem leaveLock_effect (h : Inv T s) {tryOnly q : Bool} {st w : UmWord} {b : Bool}
    (hpc : (s.thread t).pc = .lockLoaded tryOnly q st) (ret : ℤ) (hmove : WordMove T s t .kernel
      (leaveLock { s.shared with word := w } { s.thread t with owns := b } q ret)) :
    Effect T s t .kernel
      (leaveLock { s.shared with word := w } { s.thread t with owns := b } q ret) := by
  have hin : inside (s.thread t) = true := by simp [inside, hpc]
  have hq : queued (s.thread t) = q := by simp [queued, hpc]
  refine ⟨hmove, ?_, .inr (.inr (h.guarded t hin)), nofun, nofun⟩
  cases q with
  | false =>
    rw [hq]
    rfl
  | true =>
    have hpos : 0 < s.shared.mutexWaiters := by
      rw [h.waiters]
      exact tally_pos hq
    rw [hq]
    show s.shared.mutexWaiters - 1 + 1 = s.shared.mutexWaiters + 0
    omega

theorem lockStep_effect (h : Inv T s) {tryOnly q : Bool} {st : UmWord}
    (hpc : (s.thread t).pc = .lockLoaded tryOnly q st) :
    Effect T s t .kernel (lockStep T t s.shared (s.thread t) tryOnly q st) := by
  have hin : inside (s.thread t) = true := by simp [inside, hpc]
  have hq : queued (s.thread t) = q := by simp [queued, hpc]
  obtain ⟨hmine, hkept⟩ := h.loaded t st (by simp [loadedWord, hpc])
  -- the swap failed: the word has moved under the call, which looks at it again
  have hretry : Effect T s t .kernel
      (s.shared, { s.thread t with pc := UmPc.lockTop tryOnly q }) :=
    .of_same rfl rfl rfl hq.symm (.inl rfl) (fun _ => h.guarded t hin) rfl
  unfold lockStep
  by_cases hfree : held st = 0
  · rw [if_pos hfree]
    by_cases hcas : s.shared.word = st
    · rw [if_pos hcas]
      subst hcas
      exact leaveLock_effect h hpc 0 (.acquired hfree (held_tid_or (T.small t) _) rfl)
    · rw [if_neg hcas]
      exact hretry
  rw [if_neg hfree]
  by_cases hself : held st = T.tid t
  · rw [if_pos hself]
    exact leaveLock_effect h hpc 0 (.still rfl (hmine hself).symm)
  rw [if_neg hself]
  cases htry : tryOnly with
  | true =>
    rw [if_pos rfl]
    subst htry
    exact leaveLock_effect h hpc _ (.still rfl rfl)
  | false =>
    rw [if_neg (by decide)]
    by_cases hcas : s.shared.word = st
    · rw [if_pos hcas]
      subst hcas
      refine ⟨.contested hin rfl rfl, ?_, .inl rfl, fun _ => h.guarded t hin, nofun⟩
      rw [hq]
      rfl
    · rw [if_neg hcas, ← htry]
      exact hretry

theorem released_spec (sh : UmShared ι) :
    held (released sh) = 0 ∧ (2 ≤ sh.mutexWaiters → released sh &&& contestedBit ≠ 0) := by
  unfold released
  by_cases hone : sh.mutexWaiters ≤ 1
  · rw [if_pos hone]
    exact ⟨held_zero, fun htwo => absurd htwo (by omega)⟩
  · rw [if_neg hone]
    exact ⟨held_contestedBit, fun _ => by decide⟩

/-- **A kernel release** by a call that finds the word its own or unowned, or does not find it as
it has loaded it. -/
theorem release_effect (h : Inv T s) {st : UmWord} (hin : inside (s.thread t) = true)
    (hq : queued (s.thread t) = false) (hkept : (s.thread t).owns = true → s.shared.word = st)
    (hmine : s.shared.word = st → held st = 0 ∨ held st = T.tid t) : Effect T s t .kernel
      (leave { s.shared with
          word := if s.shared.word = st then released s.shared else s.shared.word
          gen := s.shared.gen + 1 } { s.thread t with owns := false } 0) := by
  refine ⟨?_, by rw [hq]; rfl, .inr (.inr (h.guarded t hin)), nofun, nofun⟩
  obtain ⟨hunowned, hcont⟩ := released_spec s.shared
  by_cases hcas : s.shared.word = st
  · refine .released (by rw [hcas]; exact hmine hcas) ?_ rfl fun _ htwo => ?_
    · simp only [leave, if_pos hcas]
      exact hunowned
    · simp only [leave, if_pos hcas]
      exact hcont htwo
  · -- the word has moved, so the caller has not owned it
    refine .still (by simp only [leave, if_neg hcas]) ?_
    exact (Bool.eq_false_iff.mpr fun howns => hcas (hkept howns)).symm

theorem unlockStep_effect (h : Inv T s) {st : UmWord} (hpc : (s.thread t).pc = .unlockLoaded st) :
    Effect T s t .kernel (unlockStep T t s.shared (s.thread t) st) := by
  have hin : inside (s.thread t) = true := by simp [inside, hpc]
  have hq : queued (s.thread t) = false := by simp [queued, hpc]
  obtain ⟨-, hkept⟩ := h.loaded t st (by simp [loadedWord, hpc])
  unfold unlockStep
  by_cases hother : held st ≠ T.tid t
  · rw [if_pos hother]
    exact leave_effect h hin hq _
  · rw [if_neg hother]
    exact release_effect h hin hq hkept fun _ => .inr (not_not.mp hother)

theorem cvStep_effect (h : Inv T s) {st : UmWord} (hpc : (s.thread t).pc = .cvLoaded st)
    (hok : Careful T s (t, .kernel)) : Effect T s t .kernel (cvStep s.shared (s.thread t) st) := by
  have hin : inside (s.thread t) = true := by simp [inside, hpc]
  have hq : queued (s.thread t) = false := by simp [queued, hpc]
  obtain ⟨-, hkept⟩ := h.loaded t st (by simp [loadedWord, hpc])
  refine release_effect h hin hq hkept fun hcas => ?_
  subst hcas
  exact hok rfl hpc

theorem kernel_effect (h : Inv T s) (hok : Careful T s (t, .kernel))
    (hr : kernel T t s.shared (s.thread t) = some r) : Effect T s t .kernel r := by
  have hguard := h.guarded t
  have hwait := h.waiters
  unfold kernel at hr
  cases hpc : (s.thread t).pc with
  | idle =>
    rw [hpc] at hr
    cases hr
  | waitCheck | wakeCheck =>
    rw [hpc] at hr
    obtain rfl := Option.some.inj hr
    have hq : queued (s.thread t) = false := by simp [queued, hpc]
    split <;> exact .of_same rfl rfl rfl hq.symm (.inl rfl) nofun rfl
  | waitCall | wakeCall | lockCall | unlockCall | cvCall | waitAsleep | lockAsleep =>
    rw [hpc] at hr
    exact enter_effect hr (by simp [queued, hpc]) rfl
  | waitTop | wakeTop | lockTop | unlockTop | cvTop =>
    rw [hpc] at hr
    obtain rfl := Option.some.inj hr
    exact .of_load h (by simp [inside, hpc]) (by simp [queued, hpc]) (by simp [loadedWord])
  | waitLoaded st =>
    rw [hpc] at hr
    obtain rfl := Option.some.inj hr
    exact waitStep_effect h hpc
  | waitPublished g =>
    rw [hpc] at hr
    obtain rfl := Option.some.inj hr
    refine ⟨.still rfl rfl, ?_, .inl rfl, fun _ => hguard (by simp [inside, hpc]), nofun⟩
    simp [queued, hpc]
  | waitLoop g =>
    rw [hpc] at hr
    obtain rfl := Option.some.inj hr
    exact waitTurn_effect h hpc
  | wakeLoaded st =>
    rw [hpc] at hr
    obtain rfl := Option.some.inj hr
    exact wakeStep_effect h hpc
  | lockLoaded tryOnly q st =>
    rw [hpc] at hr
    obtain rfl := Option.some.inj hr
    exact lockStep_effect h hpc
  | lockPublished q =>
    rw [hpc] at hr
    obtain rfl := Option.some.inj hr
    refine ⟨.still rfl rfl, ?_, .inr (.inr (hguard (by simp [inside, hpc]))), nofun, nofun⟩
    cases q <;> simp [queued, hpc]
  | unlockLoaded st =>
    rw [hpc] at hr
    obtain rfl := Option.some.inj hr
    exact unlockStep_effect h hpc
  | cvLoaded st =>
    rw [hpc] at hr
    obtain rfl := Option.some.inj hr
    exact cvStep_effect h hpc hok

theorem call_effect {pc : UmPc} (hr : call s.shared (s.thread t) pc = some r)
    (hin : inside { s.thread t with pc := pc } = false)
    (hqueued : queued { s.thread t with pc := pc } = false)
    (hloaded : loadedWord { s.thread t with pc := pc } = none) : Effect T s t a r := by
  unfold call at hr
  split at hr <;> cases hr
  next hidle =>
  have hq : queued (s.thread t) = false := by simp [queued, hidle]
  exact .of_same rfl rfl rfl (hqueued.trans hq.symm) (.inl rfl)
    (fun hyes => absurd hyes (by rw [hin]; decide)) hloaded

/-- **Every careful action moves the word in one of the four ways.** -/
theorem act_effect (h : Inv T s) (hok : Careful T s (t, a))
    (hr : act T t a s.shared (s.thread t) = some r) : Effect T s t a r := by
  cases a with
  | kernel => exact kernel_effect h hok hr
  | mutexWait | mutexWake | mutexTrylock | mutexLock | mutexUnlock | cvWait =>
    exact call_effect hr rfl rfl rfl
  | userLock =>
    simp only [act] at hr
    split at hr
    · cases hr
    next hpc =>
    have hidle : (s.thread t).pc = .idle := not_not.mp hpc
    have hq : queued (s.thread t) = false := by simp [queued, hidle]
    split at hr
    · next hzero =>
      cases hr
      refine ⟨.acquired (by rw [hzero, held_zero]) (held_tid (T.small t)) rfl, ?_, .inl rfl,
        fun hin => ?_, fun st hst => ?_⟩
      · rw [hq]
        simp [queued, hidle]
      · simp [inside, hidle] at hin
      · simp [loadedWord, hidle] at hst
    split at hr <;> cases hr
    next hcont =>
    have hword : held (T.tid t ||| contestedBit) = T.tid t := by
      rw [held_or_contested, held_tid (T.small t)]
    refine ⟨.acquired (by rw [hcont, held_contestedBit]) hword rfl, ?_, .inl rfl,
      fun hin => ?_, fun st hst => ?_⟩
    · rw [hq]
      simp [queued, hidle]
    · simp [inside, hidle] at hin
    · simp [loadedWord, hidle] at hst
  | userUnlock =>
    simp only [act] at hr
    split at hr
    · cases hr
    next hpc =>
    have hidle : (s.thread t).pc = .idle := not_not.mp hpc
    have hq : queued (s.thread t) = false := by simp [queued, hidle]
    split at hr
    · next hmine =>
      cases hr
      refine ⟨.released (.inr (by rw [hmine, held_tid (T.small t)])) held_zero rfl nofun, ?_,
        .inl rfl, fun hin => ?_, fun st hst => ?_⟩
      · rw [hq]
        simp [queued, hidle]
      · simp [inside, hidle] at hin
      · simp [loadedWord, hidle] at hst
    split at hr <;> cases hr
    next hmine =>
    have hword : held s.shared.word = T.tid t := by
      rw [hmine, held_or_contested, held_tid (T.small t)]
    refine ⟨.released (.inr hword) held_contestedBit rfl nofun, ?_, .inl rfl, nofun, nofun⟩
    rw [hq]
    rfl

theorem Inv.step {s' : UmState ι} {e : ι × UmAction} (h : Inv T s) (hok : Careful T s e)
    (hs : (system T).step s e = some s') : Inv T s' := by
  obtain ⟨r, hr, rfl⟩ := (ThreadSystem.step_eq_some _).mp hs
  exact (act_effect h hok hr).inv h

/-! ## The promise -/

variable (T) in
structure Sound (s : UmState ι) : Prop where
  one : ∀ t u, (s.thread t).owns = true → (s.thread u).owns = true → t = u
  named : ∀ t, (s.thread t).owns = true ↔ held s.shared.word = T.tid t
  counted : s.shared.mutex = none → s.shared.mutexWaiters = tally asleep s.thread

structure StepSound (s : UmState ι) (e : ι × UmAction) (s' : UmState ι) : Prop where
  keepsOwner : ∀ u, u ≠ e.1 → (s.thread u).owns = true →
    s'.shared.word = s.shared.word ∨ s'.shared.word = s.shared.word ||| contestedBit
  leavesContested : e.2 = .kernel → 2 ≤ s.shared.mutexWaiters →
    s'.shared.word ≠ s.shared.word → held s'.shared.word = 0 → s'.shared.word &&& contestedBit ≠ 0

theorem Inv.sound (h : Inv T s) : Sound T s where
  one t u ht hu := T.injective (((h.owner t).mp ht).symm.trans ((h.owner u).mp hu))
  named := h.owner
  counted hfree := by
    rw [h.waiters]
    refine total_congr fun t => ?_
    have hout : inside (s.thread t) = false := by
      rw [Bool.eq_false_iff]
      intro hin
      have hown := h.guarded t hin
      rw [hfree] at hown
      cases hown
    -- a queued call that is not inside sleeps
    cases hpc : (s.thread t).pc <;> simp_all [inside, queued, asleep]

theorem Inv.step_sound {s' : UmState ι} {e : ι × UmAction} (h : Inv T s) (hok : Careful T s e)
    (hs : (system T).step s e = some s') : StepSound s e s' := by
  obtain ⟨r, hr, rfl⟩ := (ThreadSystem.step_eq_some _).mp hs
  have heff := act_effect h hok hr
  refine ⟨fun u hu howns => ?_, fun hkernel htwo hne hzero => ?_⟩
  · exact (heff.word.of_owned h hu howns).imp_right And.right
  · rw [ThreadSystem.move_shared] at hne hzero ⊢
    cases heff.word with
    | still hword _ => exact absurd hword hne
    | contested _ hword _ =>
      rw [hword]
      exact or_contested_ne_zero _
    | acquired _ hword _ => exact absurd (hword.symm.trans hzero) (T.ne_zero e.1)
    | released _ _ _ hcont => exact hcont hkernel htwo

variable (T) in
/-- **A run of careful releases is sound.** -/
theorem sound_of_owned_release {ls : List (ι × UmAction)} (h : (system T).Meets (Careful T) Umutex.init ls) :
    (system T).Always (Sound T) Umutex.init ls ∧ (system T).EveryStep StepSound Umutex.init ls := by
  refine ⟨?_, ?_⟩
  · exact (system T).always_of_invariant (fun s e s' hinv hok hs => hinv.step hok hs)
      (fun s hinv => hinv.sound) (Inv.init T) h
  · exact (system T).everyStep_of_invariant (fun s e s' hinv hok hs => hinv.step hok hs)
      (fun s e s' hinv hok hs => hinv.step_sound hok hs) (Inv.init T) h

end Invariant

local instance neZero_two : @NeZero ℕ Zero.ofOfNat0 2 := ⟨Nat.succ_ne_zero 1⟩

def twoTids : Tids (Fin 2) where
  tid t := if t = 0 then 1 else 2
  injective := by decide
  ne_zero := by decide
  small := by decide

/-- Thread 0 owns the mutex, thread 1 waits for it, and a `CV_WAIT` of thread 0 hands it on. -/
def handoff : List (Fin 2 × UmAction) :=
  [(0, .userLock), (1, .mutexLock), (1, .kernel), (1, .kernel), (1, .kernel), (1, .kernel),
    (0, .cvWait), (0, .kernel), (0, .kernel), (0, .kernel),
    (1, .kernel), (1, .kernel), (1, .kernel)]

theorem sound_handoff : ((system twoTids).exec Umutex.init handoff).isSome = true ∧
      (system twoTids).Always (Sound twoTids) Umutex.init handoff ∧
      (system twoTids).EveryStep StepSound Umutex.init handoff :=
  ⟨by decide, sound_of_owned_release twoTids (by decide)⟩

/-- **A `CV_WAIT` takes the mutex from its owner.** Thread 0 owns it; thread 1 calls `CV_WAIT` on
it, which swaps the word to unowned, and then locks it: both believe that they own it. -/
theorem cvWait_steals : ¬((system twoTids).Always (Sound twoTids) Umutex.init
        [(0, .userLock), (1, .cvWait), (1, .kernel), (1, .kernel), (1, .kernel), (1, .userLock)] ∧
      (system twoTids).EveryStep StepSound Umutex.init
        [(0, .userLock), (1, .cvWait), (1, .kernel), (1, .kernel), (1, .kernel), (1, .userLock)]) := by
  rintro ⟨h, -⟩
  exact absurd ((h.last (system twoTids) rfl).one 0 1 rfl rfl) (by decide)

end Prosperity.Kern.Umutex
