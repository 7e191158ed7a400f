import Prosperity.Kern.SimpleWait

/-!
# Runs of the wait queues

Whatever the order of waits, turns, deadlines and wakes, the queue of an address is the list of those that wait there.
A waiter leaves it once: when a wake selects it, or when its call returns.
-/

namespace Prosperity.Kern

variable {ι : Type*} [DecidableEq ι]

structure Queues (c : WaitChans ι) (queue : ℕ → List ι) : Prop where
  linked : ∀ addr, Linked c.waiters.toLinks (c.chan addr) (queue addr)
  queued : ∀ t, c.waiters.queued t = true ↔ ∃ addr, t ∈ queue addr
  apart : ∀ t a b, t ∈ queue a → t ∈ queue b → a = b
  arrival : ∀ addr, (queue addr).Pairwise fun t u => c.arrival t < c.arrival u
  clock : ∀ addr, ∀ t ∈ queue addr, c.arrival t < c.clock
  wakes : ∀ t, c.wakes t = (c.waiters.selected t).toNat
  selected : ∀ addr, ∀ t ∈ queue addr, c.waiters.selected t = false

namespace Queues

variable {c : WaitChans ι} {queue : ℕ → List ι} {addr : ℕ} {t : ι}

omit [DecidableEq ι] in
theorem queued_of_mem (h : Queues c queue) (ht : t ∈ queue addr) : c.waiters.queued t = true :=
  (h.queued t).mpr ⟨addr, ht⟩

/-- **Entering** a queue: a new node at its end. -/
theorem enter (h : Queues c queue) (ht : ∀ a, t ∉ queue a) :
    Queues ((c.fresh t).queueSimple addr t) (Function.update queue addr (queue addr ++ [t])) := by
  -- the new node touches no queue
  have hfresh : ∀ a, Linked (c.fresh t).waiters.toLinks (c.chan a) (queue a) := fun a =>
    (h.linked a).congr fun u hu => by
      have hne : u ≠ t := fun heq => ht a (heq ▸ hu)
      obtain ⟨hp, hn⟩ := c.waiters.toLinks.setPrev_of_ne hne none
      obtain ⟨hp', hn'⟩ := (c.waiters.toLinks.setPrev t none).setNext_of_ne hne none
      exact ⟨hp'.trans hp, hn'.trans hn⟩
  have hnext : (c.fresh t).waiters.next t = none := Function.update_self ..
  have hpush := (hfresh addr).pushBack (ht addr) hnext
  have hmem : ∀ a u, u ∈ Function.update queue addr (queue addr ++ [t]) a ↔ u ∈ queue a ∨ a = addr ∧ u = t := by
    intro a u
    by_cases ha : a = addr
    · subst ha
      rw [Function.update_self, List.mem_append, List.mem_singleton]
      simp
    · rw [Function.update_of_ne ha]
      simp [ha]
  have hother : ∀ a, ∀ u ∈ queue a, u ≠ t := fun a u hu heq => ht a (heq ▸ hu)
  have hold : ∀ a, ∀ u ∈ queue a, (c.fresh t).arrival u = c.arrival u := fun a u hu =>
    Function.update_of_ne (hother a u hu) _ _
  refine ⟨fun a => ?_, fun u => ?_, fun u a b ha hb => ?_, fun a => ?_, fun a u hu => ?_, fun u => ?_, fun a u hu => ?_⟩
  · by_cases ha : a = addr
    · subst ha
      simp only [WaitChans.queueSimple, Function.update_self]
      exact hpush
    · simp only [WaitChans.queueSimple, Function.update_of_ne ha]
      refine (hfresh a).congr fun u hu => Links.pushBack_of_notMem (hfresh addr) (fun hin => ?_) fun heq => ?_
      · exact ha (h.apart u a addr hu hin)
      · exact ht a (heq ▸ hu)
  · change Function.update (Function.update c.waiters.queued t false) t true u = true ↔ _
    simp only [hmem, exists_or, exists_and_right, exists_eq]
    by_cases hut : u = t
    · subst hut
      simp
    · rw [Function.update_of_ne hut, Function.update_of_ne hut, h.queued]
      simp [hut]
  · rw [hmem] at ha hb
    rcases ha with ha | ⟨ha, rfl⟩
    · rcases hb with hb | ⟨hb, rfl⟩
      · exact h.apart u a b ha hb
      · exact absurd ha (ht a)
    · rcases hb with hb | ⟨hb, -⟩
      · exact absurd hb (ht b)
      · rw [ha, hb]
  · change (Function.update queue addr (queue addr ++ [t]) a).Pairwise
      fun u v => (c.fresh t).arrival u < (c.fresh t).arrival v
    have hsame : (queue a).Pairwise fun u v => (c.fresh t).arrival u < (c.fresh t).arrival v := by
      refine (h.arrival a).imp_of_mem fun {u v} hu hv huv => ?_
      rw [hold a u hu, hold a v hv]
      exact huv
    by_cases ha : a = addr
    · subst ha
      rw [Function.update_self]
      refine List.pairwise_append.mpr ⟨hsame, List.pairwise_singleton _ _, fun u hu v hv => ?_⟩
      rw [List.mem_singleton.mp hv, hold a u hu]
      have hself : (c.fresh t).arrival t = c.clock := Function.update_self ..
      rw [hself]
      exact h.clock a u hu
    · rw [Function.update_of_ne ha]
      exact hsame
  · change (c.fresh t).arrival u < c.clock + 1
    rcases (hmem a u).mp hu with hu | ⟨-, rfl⟩
    · rw [hold a u hu]
      exact Nat.lt_succ_of_lt (h.clock a u hu)
    · have hself : (c.fresh u).arrival u = c.clock := Function.update_self ..
      rw [hself]
      exact Nat.lt_succ_self _
  · change Function.update c.wakes t 0 u = (Function.update c.waiters.selected t false u).toNat
    by_cases hut : u = t
    · subst hut
      rw [Function.update_self, Function.update_self]
      rfl
    · rw [Function.update_of_ne hut, Function.update_of_ne hut, h.wakes]
  · change Function.update c.waiters.selected t false u = false
    rcases (hmem a u).mp hu with hu | ⟨-, rfl⟩
    · rw [Function.update_of_ne (hother a u hu), h.selected a u hu]
    · exact Function.update_self ..

/-- **Leaving** a queue, if the node is still in it. -/
theorem remove (h : Queues c queue) (ht : ∀ a, t ∈ queue a → a = addr) :
    Queues (c.removeSimple addr t) (Function.update queue addr ((queue addr).erase t)) := by
  unfold WaitChans.removeSimple
  split
  · next hnot =>
    have hout : t ∉ queue addr := fun hin => by
      rw [h.queued_of_mem hin] at hnot
      cases hnot
    rw [List.erase_of_not_mem hout, Function.update_eq_self]
    exact h
  · next hqueued =>
    rw [Bool.not_eq_false, h.queued] at hqueued
    obtain ⟨a, hin⟩ := hqueued
    obtain rfl := ht a hin
    obtain ⟨l, r, hsplit⟩ := List.append_of_mem hin
    have hlinked := h.linked a
    have hnodup := hlinked.nodup
    have herase : (queue a).erase t = l ++ r := by
      have hl : t ∉ l := by
        rw [hsplit] at hlinked
        exact hlinked.notMem_split.1
      rw [hsplit, List.erase_append_right _ hl, List.erase_cons_head]
    have hsub : ∀ b, (Function.update queue a ((queue a).erase t) b).Sublist (queue b) := fun b => by
      by_cases hb : b = a
      · subst hb
        rw [Function.update_self]
        exact List.erase_sublist
      · rw [Function.update_of_ne hb]
    have hmem : ∀ b u, u ∈ Function.update queue a ((queue a).erase t) b ↔ u ∈ queue b ∧ u ≠ t := by
      intro b u
      by_cases hb : b = a
      · subst hb
        rw [Function.update_self, hnodup.mem_erase_iff, and_comm]
      · rw [Function.update_of_ne hb, iff_self_and]
        exact fun hu heq => hb (ht b (heq ▸ hu))
    refine ⟨fun b => ?_, fun u => ?_, fun u b b' hb hb' => ?_, fun b => (h.arrival b).sublist (hsub b),
      fun b u hu => h.clock b u ((hsub b).subset hu), h.wakes, fun b u hu => h.selected b u ((hsub b).subset hu)⟩
    · rw [hsplit] at hlinked
      by_cases hb : b = a
      · subst hb
        simp only [Function.update_self]
        rw [herase]
        exact hlinked.unlink
      · simp only [Function.update_of_ne hb]
        refine (h.linked b).congr fun u hu => Links.unlink_of_notMem hlinked fun hu' => ?_
        exact hb (h.apart u b a hu (hsplit ▸ hu'))
    · change Function.update c.waiters.queued t false u = true ↔ _
      simp only [hmem]
      by_cases hut : u = t
      · subst hut
        simp
      · rw [Function.update_of_ne hut, h.queued]
        simp [hut]
    · exact h.apart u b b' ((hsub b).subset hb) ((hsub b').subset hb')

/-- **A wake** takes nodes from the front of the queue and selects them. -/
theorem wakeLoop (n : ℕ) (h : Queues c queue) :
    Queues (WaitChans.wakeLoop addr n c) (Function.update queue addr ((queue addr).drop n)) ∧
      ∀ t, (WaitChans.wakeLoop addr n c).waiters.selected t = true ↔
        c.waiters.selected t = true ∨ t ∈ (queue addr).take n := by
  induction n generalizing c queue with
  | zero =>
    rw [List.drop_zero, Function.update_eq_self]
    exact ⟨h, fun t => by simp [WaitChans.wakeLoop]⟩
  | succ n ih =>
    have hhead := (h.linked addr).head
    cases hq : queue addr with
    | nil =>
      rw [hq] at hhead
      have hsame : WaitChans.wakeLoop addr (n + 1) c = c := by
        unfold WaitChans.wakeLoop
        rw [hhead]
        rfl
      rw [hsame, List.drop_nil, ← hq, Function.update_eq_self]
      exact ⟨h, fun t => by simp [hq]⟩
    | cons t r =>
      rw [hq] at hhead
      have hstep : WaitChans.wakeLoop addr (n + 1) c =
          WaitChans.wakeLoop addr n ((c.removeSimple addr t).select t) := by
        rw [WaitChans.wakeLoop, hhead]
        rfl
      have hin : t ∈ queue addr := by
        rw [hq]
        exact List.mem_cons_self
      have hone : ∀ a, t ∈ queue a → a = addr := fun a ha => h.apart t a addr ha hin
      have hremoved := h.remove hone
      rw [hq, List.erase_cons_head] at hremoved
      have hselect : (c.removeSimple addr t).waiters.selected = c.waiters.selected := by
        unfold WaitChans.removeSimple
        split <;> rfl
      have hout : ∀ a, t ∉ Function.update queue addr r a := fun a hta => by
        by_cases ha : a = addr
        · subst ha
          rw [Function.update_self] at hta
          have hnodup := (h.linked a).nodup
          rw [hq] at hnodup
          exact (List.nodup_cons.mp hnodup).1 hta
        · rw [Function.update_of_ne ha] at hta
          exact ha (h.apart t a addr hta hin)
      have hselected : Queues ((c.removeSimple addr t).select t) (Function.update queue addr r) := by
        refine ⟨hremoved.linked, hremoved.queued, hremoved.apart, hremoved.arrival, hremoved.clock, fun u => ?_,
          fun a u hu => ?_⟩
        · change Function.update (c.removeSimple addr t).wakes t ((c.removeSimple addr t).wakes t + 1) u =
            (Function.update (c.removeSimple addr t).waiters.selected t true u).toNat
          by_cases hut : u = t
          · subst hut
            rw [Function.update_self, Function.update_self, hremoved.wakes, hselect, h.selected addr u hin]
            rfl
          · rw [Function.update_of_ne hut, Function.update_of_ne hut, hremoved.wakes]
        · change Function.update (c.removeSimple addr t).waiters.selected t true u = false
          have hut : u ≠ t := fun heq => hout a (heq ▸ hu)
          rw [Function.update_of_ne hut]
          exact hremoved.selected a u hu
      obtain ⟨hqueues, hsel⟩ := ih hselected
      rw [Function.update_self, Function.update_idem] at hqueues
      rw [hstep]
      refine ⟨hqueues, fun u => ?_⟩
      rw [hsel u, Function.update_self, List.take_succ_cons, List.mem_cons, ← or_assoc]
      refine or_congr_left ?_
      change Function.update (c.removeSimple addr t).waiters.selected t true u = true ↔ _
      by_cases hut : u = t
      · subst hut
        simp
      · rw [Function.update_of_ne hut, hselect]
        simp [hut]

end Queues

theorem wakeCount_eq (n : UInt64) : (wakeCount n : ℤ) = max n.toInt64.toInt32.toInt 1 := by
  unfold wakeCount
  dsimp only
  split <;> omega

namespace SimpleWait

structure Inv (s : Threads ι (WaitChans ι) WaitThread) (queue : ℕ → List ι) : Prop where
  queues : Queues s.shared queue
  waits : ∀ addr t, t ∈ queue addr ↔ Waits s addr t
  timedOut : ∀ t, s.thread t = .idle (-SysError.eTIMEDOUT.code) → s.shared.waiters.selected t = false

namespace Inv

variable {s : Threads ι (WaitChans ι) WaitThread} {queue : ℕ → List ι} {t : ι}

omit [DecidableEq ι] in
theorem isQueue (h : Inv s queue) (addr : ℕ) : IsQueue s addr (queue addr) :=
  ⟨h.queues.linked addr, h.waits addr, h.queues.arrival addr⟩

omit [DecidableEq ι] in
theorem sound (h : Inv s queue) : Sound s where
  queues addr := ⟨queue addr, h.isQueue addr⟩
  wakes t := by
    rw [h.queues.wakes]
    exact Bool.toNat_le _
  selected t := by
    rw [h.queues.wakes]
    cases s.shared.waiters.selected t <;> simp
  timedOut := h.timedOut

omit [DecidableEq ι] in
theorem notMem (h : Inv s queue) (ht : ∀ addr op val deadline, s.thread t ≠ .asleep addr op val deadline) (a : ℕ) :
    t ∉ queue a := by
  rw [h.waits]
  rintro ⟨⟨op, val, deadline, hsleep⟩, -⟩
  exact ht _ _ _ _ hsleep

end Inv

omit [DecidableEq ι] in
theorem Inv.init : Inv (SimpleWait.init : Threads ι (WaitChans ι) WaitThread) fun _ => [] where
  queues :=
    { linked := fun _ => ⟨List.nodup_nil, rfl, rfl, trivial⟩
      queued := fun t => iff_of_false (fun h => by cases h) fun h => by
        obtain ⟨_, h⟩ := h
        cases h
      apart := fun t a b h => by cases h
      arrival := fun _ => List.Pairwise.nil
      clock := fun _ t h => by cases h
      wakes := fun _ => rfl
      selected := fun _ t h => by cases h }
  waits addr t := by
    refine iff_of_false (fun h => by cases h) ?_
    rintro ⟨⟨op, val, deadline, h⟩, -⟩
    cases h
  timedOut t h := by
    have hcode : (0 : ℤ) = -SysError.eTIMEDOUT.code := WaitThread.idle.inj h
    exact absurd hcode (by decide)

/-! ## The steps -/

section Steps

variable {c : WaitChans ι} {f : ι → WaitThread} {s : Threads ι (WaitChans ι) WaitThread} {queue : ℕ → List ι}
  {t : ι} {addr : ℕ}

theorem turn_cases (c : WaitChans ι) (t : ι) (addr : ℕ) (op : WaitOp) (val : UInt64) (deadline : Option ℕ)
    (word : UInt64) (now : ℕ) (stopping : Bool) :
    turn c t addr op val deadline word now stopping = (c, .asleep addr op val deadline) ∨
      ∃ ret, turn c t addr op val deadline word now stopping = (c.removeSimple addr t, .idle ret) ∧
        (ret = -SysError.eTIMEDOUT.code → c.waiters.selected t = false) := by
  unfold turn
  split
  · next hloop =>
    simp only [Bool.and_eq_true, Bool.not_eq_true'] at hloop
    split
    · exact .inr ⟨_, rfl, fun _ => hloop.2⟩
    · exact .inl rfl
  · refine .inr ⟨0, rfl, fun hcode => absurd hcode (by decide)⟩

/-- **A turn** of a thread that is in the queue of its address, unless a wake has selected it. -/
theorem Inv.turn (hqueues : Queues c queue) (ht : ∀ a, t ∈ queue a ↔ a = addr ∧ c.waiters.selected t = false)
    (hothers : ∀ u, u ≠ t → ∀ a, u ∈ queue a ↔ Waits ⟨c, f⟩ a u)
    (htimed : ∀ u, u ≠ t → f u = .idle (-SysError.eTIMEDOUT.code) → c.waiters.selected u = false) (op : WaitOp)
    (val : UInt64) (deadline : Option ℕ) (word : UInt64) (now : ℕ) (stopping : Bool) :
    ∃ queue', Inv (ThreadSystem.move ⟨c, f⟩ t (turn c t addr op val deadline word now stopping)) queue' := by
  rcases turn_cases c t addr op val deadline word now stopping with hsleep | ⟨ret, hleave, hret⟩
  · rw [hsleep]
    refine ⟨queue, hqueues, fun a u => ?_, fun u hu => ?_⟩
    · by_cases hut : u = t
      · subst hut
        rw [ht, Waits, ThreadSystem.move_thread_self]
        constructor
        · rintro ⟨rfl, hsel⟩
          exact ⟨⟨_, _, _, rfl⟩, hsel⟩
        · rintro ⟨⟨_, _, _, heq⟩, hsel⟩
          exact ⟨(WaitThread.asleep.inj heq).1.symm, hsel⟩
      · rw [hothers u hut, Waits, Waits, ThreadSystem.move_thread_of_ne _ _ hut]
        rfl
    · by_cases hut : u = t
      · subst hut
        rw [ThreadSystem.move_thread_self] at hu
        cases hu
      · rw [ThreadSystem.move_thread_of_ne _ _ hut] at hu
        exact htimed u hut hu
  · rw [hleave]
    have hselect : (c.removeSimple addr t).waiters.selected = c.waiters.selected := by
      unfold WaitChans.removeSimple
      split <;> rfl
    refine ⟨_, hqueues.remove fun a ha => ((ht a).mp ha).1, fun a u => ?_, fun u hu => ?_⟩
    · have hmem : u ∈ Function.update queue addr ((queue addr).erase t) a ↔ u ∈ queue a ∧ u ≠ t := by
        by_cases ha : a = addr
        · subst ha
          rw [Function.update_self, (hqueues.linked a).nodup.mem_erase_iff, and_comm]
        · rw [Function.update_of_ne ha, iff_self_and]
          exact fun hu heq => ha ((ht a).mp (heq ▸ hu)).1
      rw [hmem]
      by_cases hut : u = t
      · subst hut
        refine iff_of_false (fun h => h.2 rfl) ?_
        rintro ⟨⟨_, _, _, heq⟩, -⟩
        rw [ThreadSystem.move_thread_self] at heq
        cases heq
      · rw [hothers u hut, Waits, Waits, ThreadSystem.move_thread_of_ne _ _ hut, ThreadSystem.move_shared, hselect]
        exact and_iff_left hut
    · rw [ThreadSystem.move_shared]
      dsimp only
      rw [hselect]
      by_cases hut : u = t
      · subst hut
        rw [ThreadSystem.move_thread_self] at hu
        exact hret (WaitThread.idle.inj hu)
      · rw [ThreadSystem.move_thread_of_ne _ _ hut] at hu
        exact htimed u hut hu

/-- **A wake** by a thread that does not sleep. -/
theorem Inv.wake (h : Inv s queue) (ht : ∀ addr op val deadline, s.thread t ≠ .asleep addr op val deadline)
    {w : WaitThread} (hw : w = .idle 0 ∨ ∃ addrs, w = .waking addrs) (addr : ℕ) (n : UInt64) :
    Inv (ThreadSystem.move s t (s.shared.wakeSimple addr n, w))
        (Function.update queue addr ((queue addr).drop (wakeCount n))) ∧
      ∀ u, (s.shared.wakeSimple addr n).waiters.selected u = true ↔
        s.shared.waiters.selected u = true ∨ u ∈ (queue addr).take (wakeCount n) := by
  obtain ⟨(hqueues : Queues (s.shared.wakeSimple addr n) _), hselected⟩ :=
    h.queues.wakeLoop (wakeCount n)
  refine ⟨⟨hqueues, fun a u => ?_, fun u hu => ?_⟩, hselected⟩
  · by_cases hut : u = t
    · subst hut
      refine iff_of_false (fun hmem => ?_) ?_
      · have hsub : Function.update queue addr ((queue addr).drop (wakeCount n)) a ⊆ queue a := by
          by_cases ha : a = addr
          · subst ha
            rw [Function.update_self]
            exact List.drop_subset _ _
          · rw [Function.update_of_ne ha]
            exact List.Subset.refl _
        exact h.notMem ht a (hsub hmem)
      · rintro ⟨⟨_, _, _, heq⟩, -⟩
        rw [ThreadSystem.move_thread_self] at heq
        rcases hw with rfl | ⟨_, rfl⟩ <;> cases heq
    · have hnot : (s.shared.wakeSimple addr n).waiters.selected u = false ↔
          s.shared.waiters.selected u = false ∧ u ∉ (queue addr).take (wakeCount n) := by
        rw [← Bool.not_eq_true, WaitChans.wakeSimple, hselected u, not_or, Bool.not_eq_true]
      rw [Waits, ThreadSystem.move_thread_of_ne _ _ hut, ThreadSystem.move_shared, hnot, ← and_assoc]
      change _ ↔ Waits s a u ∧ _
      rw [← h.waits]
      by_cases ha : a = addr
      · subst ha
        rw [Function.update_self]
        have hsplit := List.take_append_drop (wakeCount n) (queue a)
        have hnodup := (h.queues.linked a).nodup
        rw [← hsplit] at hnodup
        have hcross := (List.nodup_append.mp hnodup).2.2
        constructor
        · intro hdrop
          exact ⟨List.drop_subset _ _ hdrop, fun htake => hcross u htake u hdrop rfl⟩
        · rintro ⟨hin, htake⟩
          rw [← hsplit] at hin
          exact (List.mem_append.mp hin).resolve_left htake
      · rw [Function.update_of_ne ha, iff_self_and]
        exact fun hin htake => ha (h.queues.apart u a addr hin (List.take_subset _ _ htake))
  · have hut : u ≠ t := by
      rintro rfl
      rw [ThreadSystem.move_thread_self] at hu
      rcases hw with rfl | ⟨_, rfl⟩
      · exact absurd (WaitThread.idle.inj hu) (by decide)
      · cases hu
    rw [ThreadSystem.move_thread_of_ne _ _ hut] at hu
    rw [ThreadSystem.move_shared, ← Bool.not_eq_true]
    dsimp only
    rw [WaitChans.wakeSimple, hselected u, not_or, Bool.not_eq_true]
    refine ⟨h.timedOut u hu, fun htake => ?_⟩
    obtain ⟨⟨_, _, _, hsleep⟩, -⟩ := (h.waits addr u).mp (List.take_subset _ _ htake)
    rw [hu] at hsleep
    cases hsleep

theorem Inv.moveAwake (h : Inv s queue) (ht : ∀ addr op val deadline, s.thread t ≠ .asleep addr op val deadline)
    {w : WaitThread} (hw : w = .idle 0 ∨ ∃ addrs, w = .waking addrs) :
    Inv (ThreadSystem.move s t (s.shared, w)) queue := by
  refine ⟨h.queues, fun a u => ?_, fun u hu => ?_⟩
  · by_cases hut : u = t
    · subst hut
      refine iff_of_false (h.notMem ht a) ?_
      rintro ⟨⟨_, _, _, heq⟩, -⟩
      rw [ThreadSystem.move_thread_self] at heq
      rcases hw with rfl | ⟨_, rfl⟩ <;> cases heq
    · rw [h.waits, Waits, Waits, ThreadSystem.move_thread_of_ne _ _ hut]
      rfl
  · by_cases hut : u = t
    · subst hut
      rw [ThreadSystem.move_thread_self] at hu
      rcases hw with rfl | ⟨_, rfl⟩
      · exact absurd (WaitThread.idle.inj hu) (by decide)
      · cases hu
    · rw [ThreadSystem.move_thread_of_ne _ _ hut] at hu
      exact h.timedOut u hu

/-- **A thread begins to wait**: it joins the queue and takes a turn. -/
theorem Inv.enter (h : Inv s queue) (ht : ∀ addr op val deadline, s.thread t ≠ .asleep addr op val deadline)
    (addr : ℕ) (op : WaitOp) (val : UInt64) (deadline : Option ℕ) (word : UInt64) (now : ℕ) (stopping : Bool) :
    ∃ queue', Inv (ThreadSystem.move s t
      (SimpleWait.turn ((s.shared.fresh t).queueSimple addr t) t addr op val deadline word now stopping)) queue' := by
  have hout := h.notMem ht
  have hselected : ∀ u, u ≠ t → ((s.shared.fresh t).queueSimple addr t).waiters.selected u =
      s.shared.waiters.selected u := fun u hut => Function.update_of_ne hut ..
  have hfresh : ((s.shared.fresh t).queueSimple addr t).waiters.selected t = false := Function.update_self ..
  refine Inv.turn (f := s.thread) (h.queues.enter hout) (fun a => ?_) (fun u hut a => ?_) (fun u hut hu => ?_)
    op val deadline word now stopping
  · rw [hfresh, and_iff_left rfl]
    by_cases ha : a = addr
    · subst ha
      simp
    · rw [Function.update_of_ne ha]
      exact iff_of_false (hout a) ha
  · rw [Waits, hselected u hut]
    change _ ↔ Waits s a u
    rw [← h.waits]
    by_cases ha : a = addr
    · subst ha
      simp [hut]
    · rw [Function.update_of_ne ha]
  · rw [hselected u hut]
    exact h.timedOut u hu

theorem Inv.wakesOldest (h : Inv s queue) (ht : ∀ addr op val deadline, s.thread t ≠ .asleep addr op val deadline)
    {w : WaitThread} (hw : w = .idle 0 ∨ ∃ addrs, w = .waking addrs) {addr : ℕ} {n : UInt64} {action : WaitAction}
    (honly : ∀ addr' n', Wakes s (t, action) addr' n' → addr' = addr ∧ n' = n) :
    WakesOldest s (t, action) (ThreadSystem.move s t (s.shared.wakeSimple addr n, w)) := by
  obtain ⟨hinv, hselected⟩ := h.wake ht hw addr n
  intro addr' n' hwakes q hq
  obtain ⟨rfl, rfl⟩ := honly addr' n' hwakes
  obtain rfl := hq.linked.unique (h.queues.linked addr')
  have hqueue := hinv.isQueue addr'
  rw [Function.update_self, List.drop_eq_drop_min] at hqueue
  refine ⟨min (wakeCount n') (queue addr').length, ?_, hqueue, fun u => ?_⟩
  · rw [← wakeCount_eq]
    omega
  · rw [← List.take_eq_take_min]
    exact hselected u

/-- **One step** of any thread. -/
theorem Inv.step {s' : Threads ι (WaitChans ι) WaitThread} {e : ι × WaitAction} (h : Inv s queue)
    (hstep : (system ι).step s e = some s') : (∃ queue', Inv s' queue') ∧ WakesOldest s e s' := by
  obtain ⟨t, action⟩ := e
  obtain ⟨r, hact, rfl⟩ := ((⟨act⟩ : ThreadSystem ..).step_eq_some).mp hstep
  have hnone : ∀ s', (∀ addr n, ¬Wakes s (t, action) addr n) → WakesOldest s (t, action) s' :=
    fun s' hnot addr n hwakes => absurd hwakes (hnot addr n)
  cases hthread : s.thread t with
  | idle ret =>
    have hawake : ∀ addr op val deadline, s.thread t ≠ .asleep addr op val deadline := by
      intro addr op val deadline heq
      rw [hthread] at heq
      cases heq
    rw [hthread] at hact
    cases action with
    | wait addr op val deadline word now stopping =>
      obtain rfl := Option.some.inj hact
      refine ⟨h.enter hawake addr op val deadline word now stopping, hnone _ fun addr' n hwakes => ?_⟩
      rcases hwakes with heq | ⟨heq, -⟩ <;> cases heq
    | wake addr n =>
      obtain rfl := Option.some.inj hact
      refine ⟨⟨_, (h.wake hawake (.inl rfl) addr n).1⟩, h.wakesOldest hawake (.inl rfl) fun addr' n' hwakes => ?_⟩
      rcases hwakes with heq | ⟨heq, -⟩
      · obtain ⟨rfl, rfl⟩ := WaitAction.wake.inj heq
        exact ⟨rfl, rfl⟩
      · cases heq
    | nwake addrs =>
      obtain rfl := Option.some.inj hact
      refine ⟨⟨queue, h.moveAwake hawake (.inr ⟨addrs, rfl⟩)⟩, hnone _ fun addr n hwakes => ?_⟩
      rcases hwakes with heq | ⟨heq, -⟩ <;> cases heq
    | _ => cases hact
  | asleep addr op val deadline =>
    rw [hthread] at hact
    cases action with
    | turn word now stopping =>
      obtain rfl := Option.some.inj hact
      refine ⟨?_, hnone _ fun addr' n hwakes => ?_⟩
      · refine Inv.turn (f := s.thread) h.queues (fun a => ?_) (fun u _ a => h.waits a u) (fun u _ hu => h.timedOut u hu)
          op val deadline word now stopping
        rw [h.waits, Waits, hthread]
        constructor
        · rintro ⟨⟨_, _, _, heq⟩, hsel⟩
          exact ⟨(WaitThread.asleep.inj heq).1.symm, hsel⟩
        · rintro ⟨rfl, hsel⟩
          exact ⟨⟨_, _, _, rfl⟩, hsel⟩
      · rcases hwakes with heq | ⟨heq, -⟩ <;> cases heq
    | _ => cases hact
  | waking addrs =>
    have hawake : ∀ addr op val deadline, s.thread t ≠ .asleep addr op val deadline := by
      intro addr op val deadline heq
      rw [hthread] at heq
      cases heq
    rw [hthread] at hact
    cases action with
    | wakeNext =>
      cases addrs with
      | nil =>
        obtain rfl := Option.some.inj hact
        refine ⟨⟨queue, h.moveAwake hawake (.inl rfl)⟩, hnone _ fun addr n hwakes => ?_⟩
        rcases hwakes with heq | ⟨-, -, addrs', heq⟩
        · cases heq
        · dsimp only at heq
          rw [hthread] at heq
          cases WaitThread.waking.inj heq
      | cons addr addrs =>
        obtain rfl := Option.some.inj hact
        refine ⟨⟨_, (h.wake hawake (.inr ⟨addrs, rfl⟩) addr 0x7fffffff).1⟩,
          h.wakesOldest hawake (.inr ⟨addrs, rfl⟩) fun addr' n' hwakes => ?_⟩
        rcases hwakes with heq | ⟨-, rfl, addrs', heq⟩
        · cases heq
        · dsimp only at heq
          rw [hthread] at heq
          exact ⟨(List.cons.inj (WaitThread.waking.inj heq)).1.symm, rfl⟩
    | _ => cases hact

end Steps

/-- **Every run** of waits, turns, deadlines and wakes. In every state the queue of an address is a linked list of those
that wait there, by their arrival. Every wake selects the oldest of them, as many as it is for. No waiter takes a second
wake, and none that was selected returns with the deadline. -/
theorem simple_waits (actions : List (ι × WaitAction)) :
    (system ι).Always Sound init actions ∧ (system ι).EveryStep WakesOldest init actions := by
  have hinit : ∃ queue, Inv (init : Threads ι (WaitChans ι) WaitThread) queue := ⟨_, Inv.init⟩
  have hall : (system ι).Meets (fun _ _ => True) init actions := (system ι).meets_true _ _
  have hkeep : ∀ s e s', (∃ queue, Inv s queue) → True → (system ι).step s e = some s' → ∃ queue, Inv s' queue := by
    rintro s e s' ⟨queue, h⟩ - hstep
    exact (h.step hstep).1
  have hwakes : ∀ s e s', (∃ queue, Inv s queue) → True → (system ι).step s e = some s' → WakesOldest s e s' := by
    rintro s e s' ⟨queue, h⟩ - hstep
    exact (h.step hstep).2
  have hsound : ∀ s : Threads ι (WaitChans ι) WaitThread, (∃ queue, Inv s queue) → Sound s := by
    rintro s ⟨queue, h⟩
    exact h.sound
  exact ⟨(system ι).always_of_invariant hkeep hsound hinit hall, (system ι).everyStep_of_invariant hkeep hwakes hinit hall⟩

end SimpleWait

end Prosperity.Kern
