import Prosperity.Kern.Ucond

/-!
# Runs of the condition variable

The counters of a channel stand for a queue: the sleepers that may return are as many as the queue
has released, and each was queued before the call that releases it. This holds over every run in
which no sleeper queues while more signals are pending than there are sleepers to take them. A
broadcast that overtakes pending signals leaves such signals behind: it releases their takers
without taking the signals back.
-/

set_option linter.unusedSectionVars false

namespace Prosperity.Kern.Ucond

variable {ι : Type*}

abbrev CvState (ι : Type*) := Threads ι CvShared CvThread

section Invariant

variable [Fintype ι]

def NoStaleSignal (s : CvState ι) (e : ι × CvAction) : Prop :=
  ∀ timed, e.2 = .wait timed → s.shared.chan.signals ≤ count .early s + count .late s

/-- What such steps keep. -/
structure Inv (s : CvState ι) : Prop where
  /-- Every sleeper is counted. -/
  waiters : s.shared.chan.waiters = count .passed s + count .early s + count .late s
  hasWaiters : s.shared.chan.hasWaiters = true ↔ 0 < s.shared.chan.waiters
  released : s.shared.queue.released = entitled s
  unreleased : s.shared.queue.unreleased + s.shared.queue.released = s.shared.chan.waiters
  debt : s.shared.chan.signals ≤ count .early s ∨ (count .late s = 0 ∧ count .early s ≤ s.shared.chan.signals)
  cutoff : s.shared.chan.signalCutoff ≤ s.shared.queue.signalAt
  signalAt : s.shared.queue.signalAt ≤ s.shared.chan.nextTicket
  broadcastAt : s.shared.queue.broadcastAt ≤ s.shared.chan.nextTicket
  tickets : ∀ t ticket g0 timed, s.thread t = .queued ticket g0 timed →
    ticket < s.shared.chan.nextTicket ∧ g0 ≤ s.shared.chan.gen ∧
      (s.shared.chan.gen ≠ g0 ↔ ticket < s.shared.queue.broadcastAt)

theorem count_of_idle {k : Standing} (hk : k ≠ .outside) : count k (init : CvState ι) = 0 := by
  apply tally_eq_zero_iff.mpr
  intro t
  exact decide_eq_false fun h => hk h.symm

theorem Inv.init : Inv (Ucond.init : CvState ι) where
  waiters := by
    rw [count_of_idle (by decide), count_of_idle (by decide), count_of_idle (by decide)]
    rfl
  hasWaiters := by
    constructor
    · intro h
      cases h
    · intro h
      cases h
  released := by
    rw [entitled, count_of_idle (by decide), count_of_idle (by decide)]
    rfl
  unreleased := rfl
  debt := .inl (Nat.zero_le _)
  cutoff := Nat.le_refl _
  signalAt := Nat.le_refl _
  broadcastAt := Nat.le_refl _
  tickets t ticket g0 timed h := by cases h

variable [DecidableEq ι] {s : CvState ι} {t : ι} {c : CvChan} {q : QueueModel} {w : CvThread}

/-! ## How a step moves the standings -/

def share (s : CvState ι) (k : Standing) (w : CvThread) : ℕ :=
  (decide (standing s.shared.chan.gen s.shared.chan.signalCutoff w = k)).toNat

theorem count_move (hgen : c.gen = s.shared.chan.gen)
    (hcut : c.signalCutoff = s.shared.chan.signalCutoff) (k : Standing) :
    count k (ThreadSystem.move s t (⟨c, q⟩, w)) + share s k (s.thread t) = count k s + share s k w := by
  have hup := tally_update
    (fun x => decide (standing s.shared.chan.gen s.shared.chan.signalCutoff x = k)) s.thread t w
  unfold count
  rw [ThreadSystem.move_shared, hgen, hcut]
  exact hup

theorem share_of_standing {k : Standing}
    (h : standing s.shared.chan.gen s.shared.chan.signalCutoff w = k) (j : Standing) :
    share s j w = (decide (k = j)).toNat := by
  rw [share, h]

theorem leave_spec (c : CvChan) : (leave c).gen = c.gen ∧ (leave c).signalCutoff = c.signalCutoff ∧
      (leave c).nextTicket = c.nextTicket ∧ (leave c).waiters = c.waiters - 1 ∧
      ((leave c).hasWaiters = true ↔ c.waiters - 1 ≠ 0 ∧ c.hasWaiters = true) ∧
      (leave c).signals = if c.waiters - 1 = 0 then 0 else c.signals := by
  unfold leave
  by_cases hlast : c.waiters - 1 = 0
  · rw [if_pos hlast, if_pos hlast]
    exact ⟨rfl, rfl, rfl, hlast.symm, ⟨nofun, fun h => absurd hlast h.1⟩, rfl⟩
  · rw [if_neg hlast, if_neg hlast]
    exact ⟨rfl, rfl, rfl, rfl, ⟨fun h => ⟨hlast, h⟩, And.right⟩, rfl⟩

theorem Inv.leave (h : Inv s) {k : Standing} {σ : ℕ} {q : QueueModel} {ret : ℤ}
    (hk : standing s.shared.chan.gen s.shared.chan.signalCutoff (s.thread t) = k) (hout : k ≠ .outside)
    (hq : q.signalAt = s.shared.queue.signalAt ∧ q.broadcastAt = s.shared.queue.broadcastAt)
    (hnum : ∀ p e l, p + (decide (k = .passed)).toNat = count .passed s →
      e + (decide (k = .early)).toNat = count .early s → l + (decide (k = .late)).toNat = count .late s →
      q.released = p + min σ e ∧ q.unreleased + q.released = p + e + l ∧ (σ ≤ e ∨ (l = 0 ∧ e ≤ σ))) :
    Inv (ThreadSystem.move s t
      (⟨Ucond.leave { s.shared.chan with signals := σ }, q⟩, .idle ret)) := by
  obtain ⟨hgen, hcut, hticket, hwaiters, hhas, hsignals⟩ :=
    leave_spec { s.shared.chan with signals := σ }
  have hmove := fun j => count_move (s := s) (t := t) (q := q) (w := .idle ret) hgen hcut j
  have hshare := share_of_standing (s := s) hk
  have hidle : ∀ j, j ≠ .outside → share s j (.idle ret) = 0 := fun j hj => by
    rw [share, standing, decide_eq_false hj.symm]
    rfl
  have hp := hmove .passed
  have he := hmove .early
  have hl := hmove .late
  rw [hshare, hidle _ (by decide)] at hp he hl
  obtain ⟨hr, hu, hd⟩ := hnum _ _ _ hp he hl
  have hone : (decide (k = .passed)).toNat + (decide (k = .early)).toNat +
      (decide (k = .late)).toNat = 1 := by
    revert hout
    cases k <;> decide
  have hcount := h.waiters
  dsimp only at hwaiters hhas hsignals
  have hleft : s.shared.chan.waiters - 1 = count .passed (ThreadSystem.move s t
      (⟨Ucond.leave { s.shared.chan with signals := σ }, q⟩, .idle ret)) + count .early (ThreadSystem.move s t
      (⟨Ucond.leave { s.shared.chan with signals := σ }, q⟩, .idle ret)) + count .late (ThreadSystem.move s t
      (⟨Ucond.leave { s.shared.chan with signals := σ }, q⟩, .idle ret)) := by
    clear hr hu hd
    omega
  refine ⟨?_, ?_, ?_, ?_, ?_, ?_, ?_, ?_, fun u ticket g0 timed hu => ?_⟩
  · rw [ThreadSystem.move_shared, hwaiters]
    exact hleft
  · rw [ThreadSystem.move_shared, hhas, hwaiters, h.hasWaiters]
    clear hr hu hd hp he hl hcount hone hleft
    omega
  · unfold entitled
    rw [ThreadSystem.move_shared, hr, hsignals]
    split
    next hlast =>
      -- nobody is left, and so nobody is early
      have hnone := hleft.symm.trans hlast
      rw [Nat.add_eq_zero_iff, Nat.add_eq_zero_iff] at hnone
      rw [hnone.1.2, Nat.min_zero, Nat.min_zero]
    next => rfl
  · change q.unreleased + q.released = (Ucond.leave { s.shared.chan with signals := σ }).waiters
    rw [hwaiters, hu, hleft]
  · rw [ThreadSystem.move_shared, hsignals]
    split
    · exact .inl (Nat.zero_le _)
    · exact hd
  · rw [ThreadSystem.move_shared, hcut, hq.1]
    exact h.cutoff
  · rw [ThreadSystem.move_shared, hticket, hq.1]
    exact h.signalAt
  · rw [ThreadSystem.move_shared, hticket, hq.2]
    exact h.broadcastAt
  · by_cases hut : u = t
    · subst hut
      rw [ThreadSystem.move_thread_self] at hu
      cases hu
    · rw [ThreadSystem.move_thread_of_ne s _ hut] at hu
      rw [ThreadSystem.move_shared, hticket, hgen, hq.2]
      exact h.tickets u ticket g0 timed hu

/-! ## The calls -/

theorem Inv.wait (h : Inv s) {timed : Bool} {ret : ℤ} (ht : s.thread t = .idle ret)
    (hok : s.shared.chan.signals ≤ count .early s + count .late s) :
    Inv (ThreadSystem.move s t (⟨(Ucond.wait s.shared.chan timed).1,
      { s.shared.queue with unreleased := s.shared.queue.unreleased + 1 }⟩,
      (Ucond.wait s.shared.chan timed).2)) := by
  have hcut : s.shared.chan.signalCutoff ≤ s.shared.chan.nextTicket :=
    h.cutoff.trans h.signalAt
  -- the newcomer's ticket is past the cutoff and its generation is the current one
  have hlate : standing s.shared.chan.gen s.shared.chan.signalCutoff
      (Ucond.wait s.shared.chan timed).2 = .late := by
    rw [Ucond.wait, standing, if_neg (not_not.mpr rfl), if_neg (by omega)]
  have hnew := share_of_standing (s := s) hlate
  have hold : standing s.shared.chan.gen s.shared.chan.signalCutoff (s.thread t) = .outside := by
    rw [ht, standing]
  have hmine := share_of_standing (s := s) hold
  have hmove := fun j => count_move (s := s) (t := t) (c := (Ucond.wait s.shared.chan timed).1)
    (q := { s.shared.queue with unreleased := s.shared.queue.unreleased + 1 })
    (w := (Ucond.wait s.shared.chan timed).2) rfl rfl j
  have hp := hmove .passed
  have he := hmove .early
  have hl := hmove .late
  rw [hnew, hmine] at hp he hl
  simp only [reduceCtorEq, decide_false, decide_true, Bool.toNat_false, Bool.toNat_true, Nat.add_zero] at hp he hl
  have hcount := h.waiters
  have hrel := h.released
  have hunrel := h.unreleased
  have hdebt := h.debt
  unfold entitled at hrel
  refine ⟨?_, ?_, ?_, ?_, ?_, h.cutoff, ?_, ?_, fun u ticket g0 tm hu => ?_⟩
  · rw [hp, he, hl]
    show s.shared.chan.waiters + 1 = count .passed s + count .early s + (count .late s + 1)
    omega
  · exact iff_of_true rfl (Nat.succ_pos _)
  · unfold entitled
    rw [hp, he]
    exact hrel
  · show s.shared.queue.unreleased + 1 + s.shared.queue.released = s.shared.chan.waiters + 1
    omega
  · rw [he, hl]
    show s.shared.chan.signals ≤ count .early s ∨ (count .late s + 1 = 0 ∧ count .early s ≤ s.shared.chan.signals)
    omega
  · exact h.signalAt.trans (Nat.le_succ _)
  · exact h.broadcastAt.trans (Nat.le_succ _)
  · by_cases hut : u = t
    · subst hut
      rw [ThreadSystem.move_thread_self] at hu
      obtain ⟨rfl, rfl, rfl⟩ : s.shared.chan.nextTicket = ticket ∧ s.shared.chan.gen = g0 ∧
          timed = tm := by simpa [Ucond.wait] using hu
      refine ⟨Nat.lt_succ_self _, Nat.le_refl _, ?_⟩
      exact iff_of_false (not_not.mpr rfl) (Nat.not_lt.mpr h.broadcastAt)
    · rw [ThreadSystem.move_thread_of_ne s _ hut] at hu
      obtain ⟨hlt, hle, hiff⟩ := h.tickets u ticket g0 tm hu
      exact ⟨Nat.lt_succ_of_lt hlt, hle, hiff⟩

theorem standing_queued {gen cutoff ticket g0 : ℕ} {timed : Bool} : standing gen cutoff (.queued ticket g0 timed) =
      if gen ≠ g0 then .passed else if ticket < cutoff then .early else .late := rfl

theorem Inv.resume (h : Inv s) {ticket g0 : ℕ} {timed : Bool} {r : CvChan × CvThread}
    (ht : s.thread t = .queued ticket g0 timed) (hr : Ucond.resume s.shared.chan ticket g0 = some r) :
    Inv (ThreadSystem.move s t
      (⟨r.1, { s.shared.queue with released := s.shared.queue.released - 1 }⟩, r.2)) := by
  have hcount := h.waiters
  have hrel := h.released
  have hunrel := h.unreleased
  have hdebt := h.debt
  unfold entitled at hrel
  unfold Ucond.resume at hr
  by_cases hgen : s.shared.chan.gen ≠ g0
  · rw [if_pos hgen] at hr
    obtain rfl := Option.some.inj hr
    have hk : standing s.shared.chan.gen s.shared.chan.signalCutoff (s.thread t) = .passed := by
      rw [ht, standing_queued, if_pos hgen]
    refine h.leave (σ := s.shared.chan.signals) hk (by decide) ⟨rfl, rfl⟩
      fun p e l (hp : p + 1 = _) (he : e = _) (hl : l = _) => ?_
    rw [← hp, ← he, ← hl] at hcount
    rw [← hp, ← he] at hrel
    rw [← he, ← hl] at hdebt
    generalize min s.shared.chan.signals e = m at hrel ⊢
    refine ⟨?_, ?_, hdebt⟩ <;> clear hdebt <;> dsimp only <;> omega
  · rw [if_neg hgen] at hr
    split at hr
    · next hsig =>
      obtain rfl := Option.some.inj hr
      have hk : standing s.shared.chan.gen s.shared.chan.signalCutoff (s.thread t) = .early := by
        rw [ht, standing_queued, if_neg hgen, if_pos hsig.2]
      have hpos := hsig.1
      refine h.leave hk (by decide) ⟨rfl, rfl⟩
        fun p e l (hp : p = _) (he : e + 1 = _) (hl : l = _) => ?_
      rw [← hp, ← he, ← hl] at hcount
      rw [← hp, ← he] at hrel
      rw [← he, ← hl] at hdebt
      obtain ⟨σ, hσ⟩ : ∃ σ, s.shared.chan.signals = σ + 1 := ⟨_, (Nat.succ_pred_eq_of_pos hpos).symm⟩
      rw [hσ, Nat.add_min_add_right] at hrel
      rw [hσ] at hdebt ⊢
      refine ⟨?_, ?_, ?_⟩
      · clear hdebt
        dsimp only
        rw [hrel, Nat.add_sub_cancel]
        omega
      · clear hdebt
        dsimp only
        omega
      · omega
    · cases hr

theorem Inv.timeout (h : Inv s) {ticket g0 : ℕ} {timed : Bool} {r : CvChan × CvThread}
    (ht : s.thread t = .queued ticket g0 timed) (hr : Ucond.timeout s.shared.chan ticket g0 timed = some r) :
    Inv (ThreadSystem.move s t
      (⟨r.1, { s.shared.queue with unreleased := s.shared.queue.unreleased - 1 }⟩, r.2)) := by
  have hcount := h.waiters
  have hrel := h.released
  have hunrel := h.unreleased
  have hdebt := h.debt
  unfold entitled at hrel
  unfold Ucond.timeout at hr
  split at hr
  · cases hr
  next hstay =>
  split at hr <;> cases hr
  rw [not_or] at hstay
  by_cases hearly : ticket < s.shared.chan.signalCutoff
  · -- an early sleeper times out only while no signal is pending
    have hnone : s.shared.chan.signals = 0 := by
      by_contra hne
      exact hstay.2 ⟨Nat.pos_of_ne_zero hne, hearly⟩
    have hk : standing s.shared.chan.gen s.shared.chan.signalCutoff (s.thread t) = .early := by
      rw [ht, standing_queued, if_neg hstay.1, if_pos hearly]
    refine h.leave (σ := s.shared.chan.signals) hk (by decide) ⟨rfl, rfl⟩
      fun p e l (hp : p = _) (he : e + 1 = _) (hl : l = _) => ?_
    rw [← hp, ← he, ← hl] at hcount
    rw [hnone, Nat.zero_min] at hrel ⊢
    refine ⟨?_, ?_, .inl (Nat.zero_le _)⟩ <;> clear hdebt <;> dsimp only <;> omega
  · have hk : standing s.shared.chan.gen s.shared.chan.signalCutoff (s.thread t) = .late := by
      rw [ht, standing_queued, if_neg hstay.1, if_neg hearly]
    refine h.leave (σ := s.shared.chan.signals) hk (by decide) ⟨rfl, rfl⟩
      fun p e l (hp : p = _) (he : e = _) (hl : l + 1 = _) => ?_
    rw [← hp, ← he, ← hl] at hcount
    rw [← hp, ← he] at hrel
    rw [← he, ← hl] at hdebt
    refine ⟨hrel, ?_, .inl (hdebt.resolve_right fun h => Nat.succ_ne_zero l h.1)⟩
    -- the late sleeper is among the unreleased ones
    have hsome : s.shared.queue.released ≤ p + e :=
      hrel.trans_le (Nat.add_le_add_left (Nat.min_le_right _ e) p)
    clear hdebt hrel
    dsimp only
    omega

theorem move_thread_same (sh : CvShared) : (ThreadSystem.move s t (sh, s.thread t)).thread =
    s.thread := Function.update_eq_self ..

theorem count_congr {k : Standing} {s' : CvState ι} {p : CvThread → Bool} (hthread : s'.thread = s.thread)
    (h : ∀ u, decide (standing s'.shared.chan.gen s'.shared.chan.signalCutoff (s.thread u) = k) =
      p (s.thread u)) : count k s' = tally p s.thread := by
  unfold count
  rw [hthread]
  exact total_congr fun u => congrArg Bool.toNat (h u)

theorem count_signal (h : Inv s) {c : CvChan} {q : QueueModel}
    (hgen : c.gen = s.shared.chan.gen) (hcut : c.signalCutoff = s.shared.chan.nextTicket) :
    count .passed (ThreadSystem.move s t (⟨c, q⟩, s.thread t)) = count .passed s ∧
      count .early (ThreadSystem.move s t (⟨c, q⟩, s.thread t)) = count .early s + count .late s ∧
      count .late (ThreadSystem.move s t (⟨c, q⟩, s.thread t)) = 0 := by
  have hthread := move_thread_same (s := s) (t := t) ⟨c, q⟩
  -- the standing of a thread once the cutoff is the next ticket
  have hnew : ∀ u, standing c.gen c.signalCutoff (s.thread u) =
      match standing s.shared.chan.gen s.shared.chan.signalCutoff (s.thread u) with
      | .late => .early
      | k => k := by
    intro u
    rw [hgen, hcut]
    cases hu : s.thread u with
    | idle ret => rfl
    | queued ticket g0 timed =>
      have hlt := (h.tickets u ticket g0 timed hu).1
      simp only [standing_queued, hlt, if_true]
      by_cases hg : s.shared.chan.gen ≠ g0
      · simp only [if_pos hg]
      · simp only [if_neg hg]
        by_cases hearly : ticket < s.shared.chan.signalCutoff
        · simp only [if_pos hearly]
        · simp only [if_neg hearly]
  refine ⟨count_congr hthread fun u => ?_, ?_, ?_⟩
  · rw [ThreadSystem.move_shared, hnew u]
    cases standing s.shared.chan.gen s.shared.chan.signalCutoff (s.thread u) <;> rfl
  · have hsum : total (fun w => share s .early w + share s .late w) s.thread =
        count .early s + count .late s := total_add (share s .early) (share s .late) s.thread
    rw [← hsum]
    unfold count
    rw [hthread]
    refine total_congr fun u => ?_
    show (decide (standing c.gen c.signalCutoff (s.thread u) = .early)).toNat = _
    rw [hnew u, share, share]
    cases standing s.shared.chan.gen s.shared.chan.signalCutoff (s.thread u) <;> rfl
  · unfold count
    rw [hthread]
    refine tally_eq_zero_iff.mpr fun u => ?_
    rw [ThreadSystem.move_shared, hnew u]
    cases standing s.shared.chan.gen s.shared.chan.signalCutoff (s.thread u) <;> rfl

theorem signal_queue (q : QueueModel) (n : ℕ) : (q.signal n).signalAt = n ∧ (q.signal n).broadcastAt = q.broadcastAt ∧
      (q.signal n).unreleased = q.unreleased - 1 ∧ (q.signal n).released = q.released + min 1 q.unreleased := by
  unfold QueueModel.signal
  by_cases hpos : 0 < q.unreleased
  · rw [if_pos hpos]
    exact ⟨rfl, rfl, rfl, by dsimp only; omega⟩
  · rw [if_neg hpos]
    exact ⟨rfl, rfl, by dsimp only; omega, by dsimp only; omega⟩

theorem Inv.signal (h : Inv s) : Inv (ThreadSystem.move s t (⟨Ucond.signal s.shared.chan,
      s.shared.queue.signal s.shared.chan.nextTicket⟩, s.thread t)) := by
  obtain ⟨hat, hbat, hunrel', hrel'⟩ := signal_queue s.shared.queue s.shared.chan.nextTicket
  have hcount := h.waiters
  have hrel := h.released
  have hunrel := h.unreleased
  have hdebt := h.debt
  have hcutoff := h.cutoff.trans h.signalAt
  unfold entitled at hrel
  have hall : s.shared.queue.released =
      count .passed s + min s.shared.chan.signals (count .early s + count .late s) := by
    rcases hdebt with hfew | ⟨hnone, -⟩
    · rw [hrel, Nat.min_eq_left hfew, Nat.min_eq_left (hfew.trans (Nat.le_add_right ..))]
    · rw [hrel, hnone, Nat.add_zero]
  unfold Ucond.signal
  by_cases hroom : s.shared.chan.signals < s.shared.chan.waiters
  · rw [if_pos hroom]
    obtain ⟨hp, he, hl⟩ := count_signal (t := t)
      (c := { s.shared.chan with
        signals := s.shared.chan.signals + 1, signalCutoff := s.shared.chan.nextTicket })
      (q := s.shared.queue.signal s.shared.chan.nextTicket) h rfl rfl
    refine ⟨?_, h.hasWaiters, ?_, ?_, ?_, ?_, ?_, ?_, fun u ticket g0 timed hu => ?_⟩
    · rw [hp, he, hl, Nat.add_zero, ← Nat.add_assoc]
      exact hcount
    · unfold entitled
      rw [hp, he, ThreadSystem.move_shared, hrel']
      dsimp only
      clear hunrel' hrel' hp he hl hrel hdebt
      omega
    · rw [ThreadSystem.move_shared, hrel', hunrel']
      dsimp only
      clear hdebt hrel hall
      omega
    · rw [he, hl, ThreadSystem.move_shared]
      dsimp only
      clear hrel hall hunrel hunrel' hrel'
      omega
    · rw [ThreadSystem.move_shared, hat]
    · rw [ThreadSystem.move_shared, hat]
    · rw [ThreadSystem.move_shared, hbat]
      exact h.broadcastAt
    · rw [move_thread_same] at hu
      rw [ThreadSystem.move_shared, hbat]
      exact h.tickets u ticket g0 timed hu
  · rw [if_neg hroom]
    -- the signals already cover every sleeper: nobody is left to release
    have hsame : ∀ k, count k (ThreadSystem.move s t (⟨s.shared.chan,
        s.shared.queue.signal s.shared.chan.nextTicket⟩, s.thread t)) = count k s :=
      fun k => count_congr (move_thread_same _) fun u => rfl
    have hnone : s.shared.queue.unreleased = 0 := by
      rw [Nat.min_eq_right (by clear hrel hdebt hall; omega)] at hall
      clear hrel hdebt
      omega
    rw [hnone] at hunrel hunrel' hrel'
    refine ⟨?_, h.hasWaiters, ?_, ?_, ?_, ?_, ?_, ?_, fun u ticket g0 timed hu => ?_⟩
    · rw [hsame, hsame, hsame]
      exact h.waiters
    · unfold entitled
      rw [hsame, hsame, ThreadSystem.move_shared, hrel']
      exact hrel
    · rw [ThreadSystem.move_shared, hrel', hunrel']
      exact hunrel
    · rw [hsame, hsame]
      exact h.debt
    · rw [ThreadSystem.move_shared, hat]
      exact hcutoff
    · rw [ThreadSystem.move_shared, hat]
    · rw [ThreadSystem.move_shared, hbat]
      exact h.broadcastAt
    · rw [move_thread_same] at hu
      rw [ThreadSystem.move_shared, hbat]
      exact h.tickets u ticket g0 timed hu

theorem Inv.broadcast (h : Inv s) : Inv (ThreadSystem.move s t (⟨Ucond.broadcast s.shared.chan,
      s.shared.queue.broadcast s.shared.chan.nextTicket⟩, s.thread t)) := by
  have hcount := h.waiters
  have hrel := h.released
  have hunrel := h.unreleased
  have hthread := move_thread_same (s := s) (t := t) ⟨Ucond.broadcast s.shared.chan,
    s.shared.queue.broadcast s.shared.chan.nextTicket⟩
  unfold entitled at hrel
  -- no sleeper has read the new generation
  have hnew : ∀ u, standing (s.shared.chan.gen + 1) s.shared.chan.signalCutoff (s.thread u) =
      match standing s.shared.chan.gen s.shared.chan.signalCutoff (s.thread u) with
      | .outside => .outside
      | _ => .passed := by
    intro u
    cases hu : s.thread u with
    | idle ret => rfl
    | queued ticket g0 timed =>
      have hle := (h.tickets u ticket g0 timed hu).2.1
      simp only [standing_queued]
      rw [if_pos (by omega)]
      split
      · next hout =>
        split at hout
        · cases hout
        · split at hout <;> cases hout
      · rfl
  have hzero : ∀ k, k = .early ∨ k = .late → count k (ThreadSystem.move s t
      (⟨Ucond.broadcast s.shared.chan, s.shared.queue.broadcast s.shared.chan.nextTicket⟩,
        s.thread t)) = 0 := by
    intro k hk
    unfold count
    rw [hthread]
    refine tally_eq_zero_iff.mpr fun u => ?_
    show decide (standing (s.shared.chan.gen + 1) s.shared.chan.signalCutoff _ = k) = false
    rw [hnew u]
    rcases hk with rfl | rfl <;>
      cases standing s.shared.chan.gen s.shared.chan.signalCutoff (s.thread u) <;> rfl
  have hall : count .passed (ThreadSystem.move s t
      (⟨Ucond.broadcast s.shared.chan, s.shared.queue.broadcast s.shared.chan.nextTicket⟩,
        s.thread t)) = count .passed s + count .early s + count .late s := by
    have hsum : count .passed s + count .early s + count .late s =
        total (fun w => share s .passed w + share s .early w + share s .late w) s.thread := by
      rw [total_add, total_add]
      rfl
    rw [hsum]
    unfold count
    rw [hthread]
    refine total_congr fun u => ?_
    show (decide (standing (s.shared.chan.gen + 1) s.shared.chan.signalCutoff _ = .passed)).toNat = _
    rw [hnew u, share, share, share]
    cases standing s.shared.chan.gen s.shared.chan.signalCutoff (s.thread u) <;> rfl
  have he := hzero .early (.inl rfl)
  have hl := hzero .late (.inr rfl)
  refine ⟨?_, h.hasWaiters, ?_, ?_, ?_, h.cutoff, h.signalAt, Nat.le_refl _, fun u ticket g0 timed hu => ?_⟩
  · rw [hall, he, hl]
    exact hcount
  · unfold entitled
    rw [hall, he]
    show s.shared.queue.released + s.shared.queue.unreleased = _
    omega
  · show 0 + (s.shared.queue.released + s.shared.queue.unreleased) = s.shared.chan.waiters
    omega
  · rw [he, hl]
    exact .inr ⟨rfl, Nat.zero_le _⟩
  · rw [hthread] at hu
    obtain ⟨hlt, hle, -⟩ := h.tickets u ticket g0 timed hu
    refine ⟨hlt, hle.trans (Nat.le_succ _), iff_of_true ?_ hlt⟩
    show s.shared.chan.gen + 1 ≠ g0
    omega

/-- **A step without stale signals keeps the invariant.** -/
theorem Inv.step {s' : CvState ι} {e : ι × CvAction} (h : Inv s) (hok : NoStaleSignal s e)
    (hs : (system ι).step s e = some s') : Inv s' := by
  obtain ⟨t, a⟩ := e
  obtain ⟨r, hr, rfl⟩ := (ThreadSystem.step_eq_some _).mp hs
  cases ht : s.thread t with
  | idle ret =>
    cases a with
    | wait timed =>
      rw [ht] at hr
      obtain rfl := Option.some.inj hr
      exact h.wait ht (hok timed rfl)
    | signal | signalTo =>
      rw [ht] at hr
      obtain rfl := Option.some.inj hr
      rw [← ht]
      exact h.signal
    | broadcast =>
      rw [ht] at hr
      obtain rfl := Option.some.inj hr
      rw [← ht]
      exact h.broadcast
    | resume | timeout =>
      rw [ht] at hr
      cases hr
  | queued ticket g0 timed =>
    cases a with
    | resume =>
      rw [ht] at hr
      obtain ⟨x, hx, rfl⟩ := Option.map_eq_some_iff.mp hr
      exact h.resume ht hx
    | timeout =>
      rw [ht] at hr
      obtain ⟨x, hx, rfl⟩ := Option.map_eq_some_iff.mp hr
      exact h.timeout ht hx
    | wait | signal | signalTo | broadcast =>
      rw [ht] at hr
      cases hr

/-! ## The promise -/

structure Sound (s : CvState ι) : Prop where
  agrees : entitled s = s.shared.queue.released
  counted : s.shared.queue.unreleased + s.shared.queue.released = s.shared.chan.waiters ∧
    s.shared.chan.waiters = tally (fun w => match w with
      | .idle _ => false
      | .queued _ _ _ => true) s.thread
  passedBefore : ∀ t ticket g0 timed, s.thread t = .queued ticket g0 timed →
    (s.shared.chan.gen ≠ g0 ↔ ticket < s.shared.queue.broadcastAt)
  sentBefore : ∀ t ticket g0 timed, s.thread t = .queued ticket g0 timed →
    (resume s.shared.chan ticket g0).isSome = true →
      ticket < s.shared.queue.broadcastAt ∨ ticket < s.shared.queue.signalAt

theorem Inv.sound (h : Inv s) : Sound s where
  agrees := h.released.symm
  counted := by
    refine ⟨h.unreleased, ?_⟩
    rw [h.waiters]
    have hsum : count .passed s + count .early s + count .late s =
        total (fun w => share s .passed w + share s .early w + share s .late w) s.thread := by
      rw [total_add, total_add]
      rfl
    rw [hsum]
    refine total_congr fun u => ?_
    rw [share, share, share]
    cases s.thread u with
    | idle ret => rfl
    | queued ticket g0 timed =>
      rw [standing_queued]
      split
      · rfl
      · split <;> rfl
  passedBefore t ticket g0 timed ht := (h.tickets t ticket g0 timed ht).2.2
  sentBefore t ticket g0 timed ht hsome := by
    unfold Ucond.resume at hsome
    by_cases hgen : s.shared.chan.gen ≠ g0
    · exact .inl ((h.tickets t ticket g0 timed ht).2.2.mp hgen)
    · rw [if_neg hgen] at hsome
      split at hsome
      · next hsig => exact .inr (lt_of_lt_of_le hsig.2 h.cutoff)
      · cases hsome

/-- **A run without stale signals agrees with the queue.** -/
theorem sound_of_noStaleSignal {ls : List (ι × CvAction)} (h : (system ι).Meets NoStaleSignal Ucond.init ls) :
    (system ι).Always Sound Ucond.init ls :=
  (system ι).always_of_invariant (fun _ _ _ hinv hok hs => hinv.step hok hs)
    (fun _ hinv => hinv.sound) Inv.init h

def signalThenBroadcast : List (Fin 3 × CvAction) :=
  [(0, .wait false), (1, .wait true), (2, .signal), (1, .resume), (2, .broadcast), (0, .resume)]

instance (s : CvState ι) (e : ι × CvAction) : Decidable (NoStaleSignal s e) :=
  match h : e.2 with
  | .wait timed =>
    decidable_of_iff (s.shared.chan.signals ≤ count .early s + count .late s)
      ⟨fun hle _ _ => hle, fun hok => hok timed h⟩
  | .resume | .timeout | .signal | .signalTo | .broadcast =>
    .isTrue fun timed hw => by rw [h] at hw; cases hw

theorem sound_signalThenBroadcast : ((system (Fin 3)).exec Ucond.init signalThenBroadcast).isSome = true ∧
      (system (Fin 3)).Always Sound Ucond.init signalThenBroadcast :=
  ⟨by decide, sound_of_noStaleSignal (by decide)⟩

/-- **A stale signal swallows a wake.** A broadcast overtakes a signal and releases its taker,
the next sleeper queues while the signal is still pending, and its own signal is not counted. -/
theorem stale_signal_swallows_wake : ¬(system (Fin 3)).Always Sound Ucond.init
      [(0, .wait false), (2, .signal), (2, .broadcast), (1, .wait false), (0, .resume), (2, .signal)] := by
  intro h
  -- the queue has released the second sleeper, and the counters have not
  exact absurd (h.last (system (Fin 3)) rfl).agrees (by decide)

end Invariant

end Prosperity.Kern.Ucond
