import Mathlib.Data.List.Nodup
import Prosperity.Kern.EventFlag

/-!
# Runs of the kernel event flag

What an event flag promises over every run of its methods, and exactly the runs that keep the
promise: those in which no `Clear` drops a sticky bit. The header promises that the sticky bits
are asserted again after every clear; `Clear` does not do it, and a later `Take` then brings bits
back that a waiter examined earlier was waiting for.
-/

namespace Prosperity.Kern

/-! ## Sets of bits -/

def Within (a b : EvfBits) : Prop := a &&& b = a

instance (a b : EvfBits) : Decidable (Within a b) := inferInstanceAs (Decidable (_ = _))

theorem within_iff {a b : EvfBits} :
    Within a b ↔ ∀ i, a.getLsbD i = true → b.getLsbD i = true := by
  constructor
  · intro h i hi
    have hand : (a &&& b).getLsbD i = true := by rw [h]; exact hi
    rw [BitVec.getLsbD_and, Bool.and_eq_true] at hand
    exact hand.2
  · intro h
    apply BitVec.eq_of_getLsbD_eq
    intro i _
    rw [BitVec.getLsbD_and]
    cases hi : a.getLsbD i with
    | false => rfl
    | true => rw [h i hi]; rfl

theorem Within.trans {a b c : EvfBits} (h : Within a b) (h' : Within b c) : Within a c :=
  within_iff.mpr fun i hi => within_iff.mp h' i (within_iff.mp h i hi)

theorem within_or_left (a b : EvfBits) : Within a (a ||| b) :=
  within_iff.mpr fun i hi => by rw [BitVec.getLsbD_or, hi]; rfl

theorem within_or_right (a b : EvfBits) : Within b (a ||| b) :=
  within_iff.mpr fun i hi => by rw [BitVec.getLsbD_or, hi, Bool.or_true]

theorem or_within {a b c : EvfBits} (ha : Within a c) (hb : Within b c) : Within (a ||| b) c := by
  refine within_iff.mpr fun i hi => ?_
  rw [BitVec.getLsbD_or, Bool.or_eq_true] at hi
  rcases hi with hi | hi
  · exact within_iff.mp ha i hi
  · exact within_iff.mp hb i hi

theorem within_and {a b c : EvfBits} : Within a (b &&& c) ↔ Within a b ∧ Within a c := by
  simp only [within_iff, BitVec.getLsbD_and, Bool.and_eq_true]
  exact ⟨fun h => ⟨fun i hi => (h i hi).1, fun i hi => (h i hi).2⟩,
    fun h i hi => ⟨h.1 i hi, h.2 i hi⟩⟩

namespace EventFlag

variable {sticky b b' p : EvfBits} {m : EvfMode}

theorem cleared_within : Within (cleared b p m) b := by
  unfold cleared
  by_cases hall : m &&& kEvfClearAll ≠ 0
  · rw [if_pos hall]
    exact within_iff.mpr fun i hi => by simp at hi
  rw [if_neg hall]
  by_cases hpat : m &&& kEvfClearPat ≠ 0
  · rw [if_pos hpat]
    exact (within_and.mp (show Within (b &&& ~~~p) (b &&& ~~~p) from BitVec.and_self)).1
  · rw [if_neg hpat]
    exact BitVec.and_self

theorem take_within (h : Within sticky b) : Within (take sticky b p m) b :=
  or_within cleared_within h

theorem within_take : Within sticky (take sticky b p m) := within_or_right _ _

theorem satisfied_mono (h : Within b b') (hs : satisfied b p m = true) : satisfied b' p m = true := by
  unfold satisfied at hs ⊢
  by_cases hor : m &&& kEvfOr ≠ 0
  · rw [if_pos hor, decide_eq_true_iff] at hs ⊢
    intro hzero
    apply hs
    apply BitVec.eq_of_getLsbD_eq
    intro i _
    -- a common bit of `b` and the pattern would be one of `b'` and the pattern
    by_contra hne
    rw [show (0 : EvfBits).getLsbD i = false from BitVec.getLsbD_zero, Bool.not_eq_false,
      BitVec.getLsbD_and, Bool.and_eq_true] at hne
    have hbit : (b' &&& p).getLsbD i = true := by
      rw [BitVec.getLsbD_and, within_iff.mp h i hne.1, hne.2]
      rfl
    rw [hzero] at hbit
    simp at hbit
  · rw [if_neg hor, decide_eq_true_iff] at hs ⊢
    have hp : Within p b := (BitVec.and_comm p b).trans hs
    exact (BitVec.and_comm b' p).trans (hp.trans h)

/-! ## The scan of the queue -/

variable {ι : Type*}

def pending (q : List (ι × Bool × Waiter)) : List ℕ :=
  (q.filter fun x => !x.2.2.done).map fun x => x.2.2.serial

/-- The queue `q` is served in order from the bits `b`. `bs i` are the bits waiter `i` is tested
against: where it matches it is given these bits, and its clear mode is applied, with the sticky
bits asserted again, before the next waiter is tested. -/
def ServedInOrder (sticky b : EvfBits) (q q' : List (ι × Bool × Waiter)) (b' : EvfBits) : Prop :=
  ∃ bs : ℕ → EvfBits, bs 0 = b ∧ bs q.length = b' ∧ q'.length = q.length ∧ ∀ i t timed w, q[i]? = some (t, timed, w) →
      if w.done = false ∧ satisfied (bs i) w.pattern w.mode = true then
        q'[i]? = some (t, timed, w.matched (bs i)) ∧ bs (i + 1) = cleared (bs i) w.pattern w.mode ||| sticky
      else q'[i]? = some (t, timed, w) ∧ bs (i + 1) = bs i

theorem servedInOrder_cons {q q' : List (ι × Bool × Waiter)} {t : ι} {timed : Bool}
    {w w' : Waiter} {b₁ : EvfBits} (h : ServedInOrder sticky b₁ q q' b')
    (hw : if w.done = false ∧ satisfied b w.pattern w.mode = true then
        w' = w.matched b ∧ b₁ = cleared b w.pattern w.mode ||| sticky else w' = w ∧ b₁ = b) :
    ServedInOrder sticky b ((t, timed, w) :: q) ((t, timed, w') :: q') b' := by
  obtain ⟨bs, h₀, hn, hlen, hstep⟩ := h
  refine ⟨fun i => Nat.casesOn i b bs, rfl, hn, congrArg (· + 1) hlen, ?_⟩
  intro i u timed' v hi
  cases i with
  | zero =>
    obtain ⟨rfl, rfl, rfl⟩ : t = u ∧ timed = timed' ∧ w = v := by simpa using hi
    show if w.done = false ∧ satisfied b w.pattern w.mode = true then _ else _
    by_cases hm : w.done = false ∧ satisfied b w.pattern w.mode = true
    · rw [if_pos hm] at hw ⊢
      exact ⟨by rw [hw.1]; rfl, h₀.trans hw.2⟩
    · rw [if_neg hm] at hw ⊢
      exact ⟨by rw [hw.1]; rfl, h₀.trans hw.2⟩
  | succ i => exact hstep i u timed' v hi

/-- **The scan of `Set` serves the queue in order.** -/
theorem serve_inOrder (sticky : EvfBits) (q : List (ι × Bool × Waiter)) (b : EvfBits) :
    ServedInOrder sticky b q (serve sticky b q).2.1 (serve sticky b q).1 := by
  induction q generalizing b with
  | nil => exact ⟨fun _ => b, rfl, rfl, rfl, fun i t timed w h => by simp at h⟩
  | cons x q ih =>
    obtain ⟨t, timed, w⟩ := x
    by_cases hm : (w.done || !satisfied b w.pattern w.mode) = true
    · rw [serve, if_pos hm]
      refine servedInOrder_cons (ih b) ?_
      rw [if_neg (by rintro ⟨h₁, h₂⟩; simp [h₁, h₂] at hm)]
      exact ⟨rfl, rfl⟩
    · rw [serve, if_neg hm]
      refine servedInOrder_cons (ih _) ?_
      rw [if_pos (by simpa using hm)]
      exact ⟨rfl, rfl⟩

theorem serve_perm (sticky : EvfBits) (q : List (ι × Bool × Waiter)) (b : EvfBits) :
    ((serve sticky b q).2.2.map Completion.serial ++ pending (serve sticky b q).2.1).Perm (pending q) := by
  induction q generalizing b with
  | nil => exact .refl _
  | cons x q ih =>
    obtain ⟨t, timed, w⟩ := x
    by_cases hm : (w.done || !satisfied b w.pattern w.mode) = true
    · rw [serve, if_pos hm]
      cases hd : w.done with
      | true => simpa [pending, hd] using ih b
      | false =>
        have := List.perm_middle.trans ((ih b).cons w.serial)
        simpa [pending, hd] using this
    · rw [serve, if_neg hm]
      have hd : w.done = false := by
        rw [Bool.or_eq_true, not_or] at hm
        exact Bool.not_eq_true _ ▸ hm.1
      have := (ih (take sticky b w.pattern w.mode)).cons w.serial
      simpa [pending, hd, Waiter.matched, Waiter.completion] using this

theorem serve_bits (q : List (ι × Bool × Waiter)) (h : Within sticky b) :
    Within (serve sticky b q).1 b ∧ Within sticky (serve sticky b q).1 := by
  induction q generalizing b with
  | nil => exact ⟨BitVec.and_self, h⟩
  | cons x q ih =>
    obtain ⟨t, timed, w⟩ := x
    by_cases hm : (w.done || !satisfied b w.pattern w.mode) = true
    · rw [serve, if_pos hm]
      exact ih h
    · rw [serve, if_neg hm]
      obtain ⟨h₁, h₂⟩ := ih (b := take sticky b w.pattern w.mode) within_take
      exact ⟨h₁.trans (take_within h), h₂⟩

theorem serve_unsatisfied (q : List (ι × Bool × Waiter)) (h : Within sticky b) :
    ∀ x ∈ (serve sticky b q).2.1, x.2.2.done = false →
      satisfied (serve sticky b q).1 x.2.2.pattern x.2.2.mode = false := by
  induction q generalizing b with
  | nil => nofun
  | cons x q ih =>
    obtain ⟨t, timed, w⟩ := x
    by_cases hm : (w.done || !satisfied b w.pattern w.mode) = true
    · rw [serve, if_pos hm]
      intro y hy hd
      rcases List.mem_cons.mp hy with rfl | hy
      · have hno : satisfied b w.pattern w.mode = false := by
          rw [show w.done = false from hd, Bool.false_or, Bool.not_eq_true'] at hm
          exact hm
        rw [Bool.eq_false_iff] at hno ⊢
        exact fun hyes => hno (satisfied_mono (serve_bits q h).1 hyes)
      · exact ih h y hy hd
    · rw [serve, if_neg hm]
      intro y hy hd
      rcases List.mem_cons.mp hy with rfl | hy
      · exact absurd hd (by simp [Waiter.matched])
      · exact ih within_take y hy hd

theorem serve_matched (q : List (ι × Bool × Waiter)) (b : EvfBits)
    (hq : ∀ x ∈ q, x.2.2.done = false → x.2.2.cancelled = false) : ∀ c ∈ (serve sticky b q).2.2,
      c.cancelled = false ∧ satisfied c.result c.pattern c.mode = true := by
  induction q generalizing b with
  | nil => nofun
  | cons x q ih =>
    obtain ⟨t, timed, w⟩ := x
    have hrest := fun b => ih b fun y hy => hq y (List.mem_cons_of_mem _ hy)
    by_cases hm : (w.done || !satisfied b w.pattern w.mode) = true
    · rw [serve, if_pos hm]
      exact hrest b
    · rw [serve, if_neg hm]
      rw [Bool.or_eq_true, not_or, Bool.not_eq_true, Bool.not_eq_true', Bool.not_eq_false] at hm
      intro c hc
      rcases List.mem_cons.mp hc with rfl | hc
      · exact ⟨hq _ List.mem_cons_self hm.1, hm.2⟩
      · exact hrest _ c hc

theorem serve_recorded (sticky : EvfBits) (q : List (ι × Bool × Waiter)) (b : EvfBits) :
    ∀ x ∈ (serve sticky b q).2.1, x.2.2.done = true → x ∈ q ∨ x.2.2.completion ∈ (serve sticky b q).2.2 := by
  induction q generalizing b with
  | nil => nofun
  | cons x q ih =>
    obtain ⟨t, timed, w⟩ := x
    by_cases hm : (w.done || !satisfied b w.pattern w.mode) = true
    · rw [serve, if_pos hm]
      intro y hy hd
      rcases List.mem_cons.mp hy with rfl | hy
      · exact .inl List.mem_cons_self
      · exact (ih b y hy hd).imp_left (List.mem_cons_of_mem _)
    · rw [serve, if_neg hm]
      intro y hy hd
      rcases List.mem_cons.mp hy with rfl | hy
      · exact .inr List.mem_cons_self
      · exact (ih _ y hy hd).imp (List.mem_cons_of_mem _) (List.mem_cons_of_mem _)

theorem serve_pending (sticky : EvfBits) (q : List (ι × Bool × Waiter)) (b : EvfBits) :
    ∀ x ∈ (serve sticky b q).2.1, x.2.2.done = false → x ∈ q := by
  induction q generalizing b with
  | nil => nofun
  | cons x q ih =>
    obtain ⟨t, timed, w⟩ := x
    by_cases hm : (w.done || !satisfied b w.pattern w.mode) = true
    · rw [serve, if_pos hm]
      intro y hy hd
      rcases List.mem_cons.mp hy with rfl | hy
      · exact List.mem_cons_self
      · exact List.mem_cons_of_mem _ (ih b y hy hd)
    · rw [serve, if_neg hm]
      intro y hy hd
      rcases List.mem_cons.mp hy with rfl | hy
      · exact absurd hd (by simp [Waiter.matched])
      · exact List.mem_cons_of_mem _ (ih _ y hy hd)

theorem serve_serials (sticky : EvfBits) (q : List (ι × Bool × Waiter)) (b : EvfBits) :
    (serve sticky b q).2.1.map (fun x => x.2.2.serial) = q.map fun x => x.2.2.serial := by
  induction q generalizing b with
  | nil => rfl
  | cons x q ih =>
    obtain ⟨t, timed, w⟩ := x
    by_cases hm : (w.done || !satisfied b w.pattern w.mode) = true
    · rw [serve, if_pos hm]
      exact congrArg (w.serial :: ·) (ih b)
    · rw [serve, if_neg hm]
      exact congrArg (w.serial :: ·) (ih _)

/-! ## The scan of a cancel -/

theorem cancelAll_perm (p : EvfBits) (q : List (ι × Bool × Waiter)) :
    ((cancelAll p q).2.map Completion.serial).Perm (pending q) := by
  induction q with
  | nil => exact .refl _
  | cons x q ih =>
    obtain ⟨t, timed, w⟩ := x
    cases hd : w.done with
    | true => simpa [cancelAll, pending, hd] using ih
    | false =>
      have := ih.cons w.serial
      simpa [cancelAll, pending, hd, Waiter.cancel, Waiter.completion] using this

theorem cancelAll_done (p : EvfBits) (q : List (ι × Bool × Waiter)) : ∀ x ∈ (cancelAll p q).1, x.2.2.done = true := by
  induction q with
  | nil => nofun
  | cons x q ih =>
    obtain ⟨t, timed, w⟩ := x
    intro y hy
    cases hd : w.done with
    | true =>
      rw [cancelAll, if_pos hd] at hy
      rcases List.mem_cons.mp hy with rfl | hy
      · exact hd
      · exact ih y hy
    | false =>
      rw [cancelAll, if_neg (by simp [hd])] at hy
      rcases List.mem_cons.mp hy with rfl | hy
      · rfl
      · exact ih y hy

theorem cancelAll_recorded (p : EvfBits) (q : List (ι × Bool × Waiter)) :
    ∀ x ∈ (cancelAll p q).1, x ∈ q ∨ x.2.2.completion ∈ (cancelAll p q).2 := by
  induction q with
  | nil => nofun
  | cons x q ih =>
    obtain ⟨t, timed, w⟩ := x
    intro y hy
    by_cases hd : w.done = true
    · rw [cancelAll, if_pos hd] at hy ⊢
      rcases List.mem_cons.mp hy with rfl | hy
      · exact .inl List.mem_cons_self
      · exact (ih y hy).imp_left (List.mem_cons_of_mem _)
    · rw [cancelAll, if_neg hd] at hy ⊢
      rcases List.mem_cons.mp hy with rfl | hy
      · exact .inr List.mem_cons_self
      · exact (ih y hy).imp (List.mem_cons_of_mem _) (List.mem_cons_of_mem _)

theorem cancelAll_cancelled (p : EvfBits) (q : List (ι × Bool × Waiter)) :
    ∀ c ∈ (cancelAll p q).2, c.cancelled = true := by
  induction q with
  | nil => nofun
  | cons x q ih =>
    obtain ⟨t, timed, w⟩ := x
    intro c hc
    by_cases hd : w.done = true
    · rw [cancelAll, if_pos hd] at hc
      exact ih c hc
    · rw [cancelAll, if_neg hd] at hc
      rcases List.mem_cons.mp hc with rfl | hc
      · rfl
      · exact ih c hc

theorem cancelAll_serials (p : EvfBits) (q : List (ι × Bool × Waiter)) :
    (cancelAll p q).1.map (fun x => x.2.2.serial) = q.map fun x => x.2.2.serial := by
  induction q with
  | nil => rfl
  | cons x q ih =>
    obtain ⟨t, timed, w⟩ := x
    by_cases hd : w.done = true
    · rw [cancelAll, if_pos hd]
      exact congrArg (w.serial :: ·) ih
    · rw [cancelAll, if_neg hd]
      exact congrArg (w.serial :: ·) ih

end EventFlag

/-! ## The promise, and the calls that keep it -/

namespace EvfState

open EventFlag

variable {ι : Type*}

structure Sound (s : EvfState ι) : Prop where
  unsatisfied : ∀ x ∈ s.waiters, x.2.2.done = false → satisfied s.bits x.2.2.pattern x.2.2.mode = false
  once : (s.completions.map Completion.serial).Nodup
  matched : ∀ c ∈ s.completions, c.cancelled = false → satisfied c.result c.pattern c.mode = true
  recorded : ∀ x ∈ s.waiters, x.2.2.done = true → x.2.2.completion ∈ s.completions
  inOrder : (s.waiters.map fun x => x.2.2.serial).Pairwise (· < ·)
  asserted : Within s.sticky s.bits

/-- What every step promises: a `Set` serves the queue in order, and the end of a sleep answers
with what its waiter was completed with. -/
structure StepSound [DecidableEq ι] (s : EvfState ι) (e : EvfEvent ι) (s' : EvfState ι) : Prop where
  serves : ∀ t b, e = .set t b → ServedInOrder s.sticky (s.bits ||| b) s.waiters s'.waiters s'.bits
  answers : ∀ t, e = .resume t → ∃ timed w, (t, timed, w) ∈ s.waiters ∧ w.done = true ∧
    s'.replies = (t, if w.cancelled then .error .eCANCELED else .ok w.result) :: s.replies

def KeepsSticky (s : EvfState ι) : EvfEvent ι → Prop
  | .clear _ b => Within s.sticky b
  | _ => True

instance (s : EvfState ι) (e : EvfEvent ι) : Decidable (s.KeepsSticky e) := by
  cases e <;> unfold KeepsSticky <;> infer_instance

/-! ## The invariant -/

/-- What the calls that keep the sticky bits keep. -/
structure Inv (s : EvfState ι) : Prop where
  unsatisfied : ∀ x ∈ s.waiters, x.2.2.done = false → satisfied s.bits x.2.2.pattern x.2.2.mode = false
  distinct : (s.completions.map Completion.serial ++ pending s.waiters).Nodup
  completed_lt : ∀ c ∈ s.completions, c.serial < s.nextSerial
  queued_lt : ∀ x ∈ s.waiters, x.2.2.serial < s.nextSerial
  matched : ∀ c ∈ s.completions, c.cancelled = false → satisfied c.result c.pattern c.mode = true
  fresh : ∀ x ∈ s.waiters, x.2.2.done = false → x.2.2.cancelled = false
  recorded : ∀ x ∈ s.waiters, x.2.2.done = true → x.2.2.completion ∈ s.completions
  inOrder : (s.waiters.map fun x => x.2.2.serial).Pairwise (· < ·)
  asserted : Within s.sticky s.bits

variable {s s' : EvfState ι}

theorem Inv.sound (h : s.Inv) : s.Sound where
  unsatisfied := h.unsatisfied
  once := h.distinct.of_append_left
  matched := h.matched
  recorded := h.recorded
  inOrder := h.inOrder
  asserted := h.asserted

theorem Inv.make {init sticky : EvfBits} (h : Within sticky init) : (make init sticky : EvfState ι).Inv where
  unsatisfied := nofun
  distinct := List.nodup_nil
  completed_lt := nofun
  queued_lt := nofun
  matched := nofun
  fresh := nofun
  recorded := nofun
  inOrder := List.Pairwise.nil
  asserted := h

theorem Inv.answer (h : s.Inv) (t : ι) (r : EvfReply) : (s.answer t r).Inv :=
  ⟨h.unsatisfied, h.distinct, h.completed_lt, h.queued_lt, h.matched, h.fresh, h.recorded, h.inOrder, h.asserted⟩

theorem mem_pending {q : List (ι × Bool × Waiter)} {n : ℕ} (h : n ∈ pending q) : ∃ x ∈ q, x.2.2.serial = n := by
  obtain ⟨x, hx, rfl⟩ := List.mem_map.mp h
  exact ⟨x, (List.mem_filter.mp hx).1, rfl⟩

theorem Inv.next_fresh (h : s.Inv) : s.nextSerial ∉ s.completions.map Completion.serial ++ pending s.waiters := by
  intro hmem
  rcases List.mem_append.mp hmem with hc | hp
  · obtain ⟨c, hc, heq⟩ := List.mem_map.mp hc
    exact absurd (h.completed_lt c hc) (by omega)
  · obtain ⟨x, hx, heq⟩ := mem_pending hp
    exact absurd (h.queued_lt x hx) (by omega)

theorem Inv.takeNow (h : s.Inv) (t : ι) {pattern : EvfBits} {mode : EvfMode}
    (hs : satisfied s.bits pattern mode = true) : (s.takeNow t pattern mode).Inv where
  unsatisfied x hx hd := by
    have hno := h.unsatisfied x hx hd
    rw [Bool.eq_false_iff] at hno ⊢
    exact fun hyes => hno (satisfied_mono (take_within h.asserted) hyes)
  distinct := by
    show ((s.completions ++ [_]).map Completion.serial ++ pending s.waiters).Nodup
    rw [List.map_append, List.append_assoc]
    refine (List.perm_middle (a := s.nextSerial)).nodup_iff.mpr ?_
    exact List.nodup_cons.mpr ⟨h.next_fresh, h.distinct⟩
  completed_lt c hc := by
    rcases List.mem_append.mp hc with hc | hc
    · exact Nat.lt_succ_of_lt (h.completed_lt c hc)
    · obtain rfl := List.mem_singleton.mp hc
      exact Nat.lt_succ_self _
  queued_lt x hx := Nat.lt_succ_of_lt (h.queued_lt x hx)
  matched c hc hcan := by
    rcases List.mem_append.mp hc with hc | hc
    · exact h.matched c hc hcan
    · obtain rfl := List.mem_singleton.mp hc
      exact hs
  fresh := h.fresh
  recorded x hx hd := List.mem_append_left _ (h.recorded x hx hd)
  inOrder := h.inOrder
  asserted := within_take

theorem Inv.serial_lt (h : s.Inv) {ws : List (ι × Bool × Waiter)}
    (hser : (ws.map fun x => x.2.2.serial) = s.waiters.map fun x => x.2.2.serial) :
    ∀ x ∈ ws, x.2.2.serial < s.nextSerial := by
  intro x hx
  obtain ⟨y, hy, heq⟩ := List.mem_map.mp (hser ▸ List.mem_map_of_mem hx)
  exact heq ▸ h.queued_lt y hy

theorem Inv.set (h : s.Inv) (b : EvfBits) : (s.set b).Inv := by
  have hb : Within s.sticky (s.bits ||| b) := h.asserted.trans (within_or_left _ _)
  have hser := serve_serials s.sticky s.waiters (s.bits ||| b)
  have hperm := serve_perm s.sticky s.waiters (s.bits ||| b)
  refine ⟨serve_unsatisfied s.waiters hb, ?_, ?_, ?_, ?_, ?_, ?_, ?_, (serve_bits s.waiters hb).2⟩
  · show ((s.completions ++ _).map Completion.serial ++ pending _).Nodup
    rw [List.map_append, List.append_assoc]
    exact (hperm.append_left _).nodup_iff.mpr h.distinct
  · intro c hc
    rcases List.mem_append.mp hc with hc | hc
    · exact h.completed_lt c hc
    · obtain ⟨x, hx, heq⟩ := mem_pending
        (hperm.subset (List.mem_append_left _ (List.mem_map_of_mem (f := Completion.serial) hc)))
      exact heq ▸ h.queued_lt x hx
  · exact h.serial_lt hser
  · intro c hc hcan
    rcases List.mem_append.mp hc with hc | hc
    · exact h.matched c hc hcan
    · exact (serve_matched s.waiters _ h.fresh c hc).2
  · exact fun x hx hd => h.fresh x (serve_pending s.sticky s.waiters _ x hx hd) hd
  · intro x hx hd
    rcases serve_recorded s.sticky s.waiters _ x hx hd with hq | hc
    · exact List.mem_append_left _ (h.recorded x hq hd)
    · exact List.mem_append_right _ hc
  · show ((serve s.sticky (s.bits ||| b) s.waiters).2.1.map _).Pairwise (· < ·)
    rw [hser]
    exact h.inOrder

theorem Inv.clear (h : s.Inv) {b : EvfBits} (hb : Within s.sticky b) : (s.clear b).Inv where
  unsatisfied x hx hd := by
    have hno := h.unsatisfied x hx hd
    rw [Bool.eq_false_iff] at hno ⊢
    have hsub : Within (s.bits &&& b) s.bits :=
      (within_and.mp (show Within (s.bits &&& b) (s.bits &&& b) from BitVec.and_self)).1
    exact fun hyes => hno (satisfied_mono hsub hyes)
  distinct := h.distinct
  completed_lt := h.completed_lt
  queued_lt := h.queued_lt
  matched := h.matched
  fresh := h.fresh
  recorded := h.recorded
  inOrder := h.inOrder
  asserted := within_and.mpr ⟨h.asserted, hb⟩

theorem Inv.queue (h : s.Inv) (t : ι) (timed : Bool) {pattern : EvfBits}
    {mode : EvfMode} (hs : satisfied s.bits pattern mode = false) :
    Inv { s with
      waiters := s.waiters ++ [(t, timed, ⟨pattern, mode, 0, false, false, s.nextSerial⟩)]
      nextSerial := s.nextSerial + 1 } where
  unsatisfied x hx hd := by
    rcases List.mem_append.mp hx with hx | hx
    · exact h.unsatisfied x hx hd
    · obtain rfl := List.mem_singleton.mp hx
      exact hs
  distinct := by
    have hpend : pending
        (s.waiters ++ [(t, timed, (⟨pattern, mode, 0, false, false, s.nextSerial⟩ : Waiter))]) =
          pending s.waiters ++ [s.nextSerial] := by
      simp [pending]
    show (s.completions.map Completion.serial ++ pending _).Nodup
    rw [hpend, ← List.append_assoc]
    refine (List.perm_append_singleton _ _).nodup_iff.mpr ?_
    exact List.nodup_cons.mpr ⟨h.next_fresh, h.distinct⟩
  completed_lt c hc := Nat.lt_succ_of_lt (h.completed_lt c hc)
  queued_lt x hx := by
    rcases List.mem_append.mp hx with hx | hx
    · exact Nat.lt_succ_of_lt (h.queued_lt x hx)
    · obtain rfl := List.mem_singleton.mp hx
      exact Nat.lt_succ_self _
  matched := h.matched
  fresh x hx hd := by
    rcases List.mem_append.mp hx with hx | hx
    · exact h.fresh x hx hd
    · obtain rfl := List.mem_singleton.mp hx
      rfl
  recorded x hx hd := by
    rcases List.mem_append.mp hx with hx | hx
    · exact h.recorded x hx hd
    · obtain rfl := List.mem_singleton.mp hx
      cases hd
  inOrder := by
    rw [List.map_append, List.pairwise_append]
    refine ⟨h.inOrder, List.pairwise_singleton _ _, fun n hn m hm => ?_⟩
    obtain ⟨x, hx, rfl⟩ := List.mem_map.mp hn
    obtain rfl := List.mem_singleton.mp hm
    exact h.queued_lt x hx
  asserted := h.asserted

theorem Inv.wait (h : s.Inv) (t : ι) (pattern : EvfBits) (mode : EvfMode)
    (timed : Bool) : (s.wait t pattern mode timed).Inv := by
  unfold EvfState.wait
  by_cases hs : satisfied s.bits pattern mode = true
  · rw [if_pos hs]
    exact h.takeNow t hs
  · rw [if_neg hs]
    exact h.queue t timed (Bool.eq_false_iff.mpr hs)

theorem Inv.trywait (h : s.Inv) (t : ι) (pattern : EvfBits) (mode : EvfMode) : (s.trywait t pattern mode).Inv := by
  unfold EvfState.trywait
  by_cases hs : satisfied s.bits pattern mode = true
  · rw [if_pos hs]
    exact h.takeNow t hs
  · rw [if_neg hs]
    exact h.answer t _

theorem pending_of_done {q : List (ι × Bool × Waiter)} (h : ∀ x ∈ q, x.2.2.done = true) : pending q = [] := by
  rw [pending, List.filter_eq_nil_iff.mpr fun x hx => by simp [h x hx]]
  rfl

theorem Inv.cancel (h : s.Inv) (t : ι) (p : EvfBits) : (s.cancel t p).Inv := by
  have hser := cancelAll_serials p s.waiters
  have hperm := cancelAll_perm p s.waiters
  have hdone := cancelAll_done p s.waiters
  refine ⟨?_, ?_, ?_, ?_, ?_, ?_, ?_, ?_, h.asserted⟩
  · exact fun x hx hd => absurd (hdone x hx) (by rw [hd]; decide)
  · show ((s.completions ++ _).map Completion.serial ++ pending (cancelAll p s.waiters).1).Nodup
    rw [pending_of_done hdone, List.append_nil, List.map_append]
    exact (hperm.append_left _).nodup_iff.mpr h.distinct
  · intro c hc
    rcases List.mem_append.mp hc with hc | hc
    · exact h.completed_lt c hc
    · obtain ⟨x, hx, heq⟩ :=
        mem_pending (hperm.subset (List.mem_map_of_mem (f := Completion.serial) hc))
      exact heq ▸ h.queued_lt x hx
  · exact h.serial_lt hser
  · intro c hc hcan
    rcases List.mem_append.mp hc with hc | hc
    · exact h.matched c hc hcan
    · exact absurd (cancelAll_cancelled p s.waiters c hc) (by rw [hcan]; decide)
  · exact fun x hx hd => absurd (hdone x hx) (by rw [hd]; decide)
  · intro x hx hd
    rcases cancelAll_recorded p s.waiters x hx with hq | hc
    · exact List.mem_append_left _ (h.recorded x hq hd)
    · exact List.mem_append_right _ hc
  · show ((cancelAll p s.waiters).1.map _).Pairwise (· < ·)
    rw [hser]
    exact h.inOrder

/-- The flags that `sys_evf_create` and `sys_evf_open` make. -/
def Made (s : EvfState ι) : Prop :=
  (∃ initPattern, s = create initPattern) ∨ ∃ name seed, s = openAbsent name seed

theorem Made.inv (h : s.Made) : s.Inv := by
  rcases h with ⟨initPattern, rfl⟩ | ⟨name, seed, rfl⟩
  · exact Inv.make (within_iff.mpr fun i hi => by simp at hi)
  · apply Inv.make
    split
    · exact within_iff.mpr fun i hi => by simp at hi
    · exact BitVec.and_self

variable [DecidableEq ι]

theorem Inv.removeWaiter (h : s.Inv) (t : ι) : (s.removeWaiter t).Inv := by
  have hsub : (s.waiters.eraseP fun x => x.1 = t).Sublist s.waiters := List.eraseP_sublist
  refine ⟨fun x hx => h.unsatisfied x (hsub.subset hx), ?_, h.completed_lt,
    fun x hx => h.queued_lt x (hsub.subset hx), h.matched, fun x hx => h.fresh x (hsub.subset hx),
    fun x hx => h.recorded x (hsub.subset hx), h.inOrder.sublist (hsub.map _), h.asserted⟩
  exact h.distinct.sublist (((hsub.filter _).map _).append_left _)

/-- **The calls that keep the sticky bits keep the invariant.** -/
theorem Inv.step {e : EvfEvent ι} (h : s.Inv) (hok : s.KeepsSticky e) (hs : s.step e = some s') : s'.Inv := by
  cases e with
  | set t b =>
    simp only [EvfState.step] at hs
    split at hs <;> cases hs
    exact h.set b
  | clear t b =>
    simp only [EvfState.step] at hs
    split at hs <;> cases hs
    exact h.clear hok
  | trywait t pattern mode =>
    simp only [EvfState.step] at hs
    split at hs <;> cases hs
    exact h.trywait t pattern mode
  | wait t pattern mode timed =>
    simp only [EvfState.step] at hs
    split at hs <;> cases hs
    exact h.wait t pattern mode timed
  | cancel t pattern =>
    simp only [EvfState.step] at hs
    split at hs <;> cases hs
    exact h.cancel t pattern
  | resume t =>
    simp only [EvfState.step, EvfState.resume] at hs
    repeat' split at hs
    all_goals cases hs
    all_goals exact (h.removeWaiter t).answer t _
  | timeout t =>
    simp only [EvfState.step, EvfState.timeout] at hs
    repeat' split at hs
    all_goals cases hs
    exact (h.removeWaiter t).answer t _

theorem step_sound {e : EvfEvent ι} (hs : s.step e = some s') : s.StepSound e s' := by
  refine ⟨fun t b he => ?_, fun t he => ?_⟩
  · subst he
    simp only [EvfState.step] at hs
    split at hs <;> cases hs
    exact serve_inOrder s.sticky s.waiters (s.bits ||| b)
  · subst he
    simp only [EvfState.step, EvfState.resume] at hs
    split at hs
    · next u timed w hw =>
      have hu : u = t := by simpa using List.find?_some hw
      subst hu
      split at hs <;> cases hs
      exact ⟨timed, w, List.mem_of_find?_eq_some hw, ‹_›, rfl⟩
    · cases hs

theorem Sound.keepsSticky {e : EvfEvent ι} (hs : s.step e = some s') (h : s'.Sound) : s.KeepsSticky e := by
  cases e with
  | clear t b =>
    simp only [EvfState.step] at hs
    split at hs <;> cases hs
    exact (within_and.mp h.asserted).2
  | _ => trivial

/-- **A run keeps the promise if and only if no `Clear` in it drops a sticky bit.** -/
theorem sound_iff_keepsSticky {s s' : EvfState ι} {ls : List (EvfEvent ι)} (hmade : s.Made)
    (hrun : (system ι).exec s ls = some s') : (system ι).Always Sound s ls ∧ (system ι).EveryStep StepSound s ls ↔
      (system ι).Meets KeepsSticky s ls := by
  have hstep : ∀ (s : EvfState ι) e s', s.Inv → s.KeepsSticky e →
      (system ι).step s e = some s' → s'.Inv := fun s e s' hinv hok hs => hinv.step hok hs
  constructor
  · rintro ⟨halways, -⟩
    exact (system ι).meets_of_always (fun s e s' hs h => Sound.keepsSticky hs h) hrun halways
  · intro hok
    refine ⟨(system ι).always_of_invariant hstep (fun s => Inv.sound) hmade.inv hok, ?_⟩
    exact (system ι).everyStep_of_invariant hstep (fun s e s' _ _ hs => step_sound hs) hmade.inv
      hok

theorem sound_signalled_wait : (system (Fin 2)).Always Sound (openAbsent "SceSystemStateMgr" 1)
        [.wait 1 2 2 false, .clear 0 1, .set 0 2, .resume 1] ∧
      (system (Fin 2)).EveryStep StepSound (openAbsent "SceSystemStateMgr" 1)
        [.wait 1 2 2 false, .clear 0 1, .set 0 2, .resume 1] :=
  (sound_iff_keepsSticky (.inr ⟨_, _, rfl⟩) rfl).mpr (by decide)

/-- **A `Clear` that drops the sticky bit misses a waiter.** Bit 0 is sticky and cleared; thread 1
then waits for it, thread 2 for bit 1. Setting bit 1 completes thread 2, and the sticky bit that
its `Take` asserts again satisfies thread 1, which was examined before. -/
theorem clear_misses_waiter : ¬ (system (Fin 3)).Always Sound (openAbsent "SceSystemStateMgr" 1) [.clear 0 0] ∧
      ¬ (system (Fin 3)).Always (fun s => ∀ x ∈ s.waiters, x.2.2.done = false →
          satisfied s.bits x.2.2.pattern x.2.2.mode = false) (openAbsent "SceSystemStateMgr" 1)
        [.clear 0 0, .wait 1 1 2 false, .wait 2 2 2 false, .set 0 2] := by
  refine ⟨fun h => ?_, fun h => ?_⟩
  · exact absurd (h.last (system (Fin 3)) rfl).asserted (by decide)
  · exact absurd (h.last (system (Fin 3)) rfl) (by decide)

end EvfState

end Prosperity.Kern
