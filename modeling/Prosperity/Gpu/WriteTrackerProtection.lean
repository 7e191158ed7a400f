import Prosperity.Foundations.Threads
import Prosperity.Gpu.WriteTracker

/-!
# Read-only pages of the write tracker

Between calls and handlers a page the tracker made read-only has the state `kProtected`, so that a
write to it is taken by the fault handler. What happens in between decides it: a page is read-only
and not protected only while a handler or `Disarm` has still to open it. That is kept by every
step but three kinds, which the condition names: an `mprotect` that fails to open, an `mprotect`
of `Arm` that protects a page taken and opened since it was marked, and `Drain` clearing the state
of a page that is read-only.
-/

set_option linter.unusedSectionVars false

namespace Prosperity.Gpu

def Thread.Opens : Thread → ℕ → Prop
  | .faultOpen page, p => p = page
  | .hostWrite page _ run, p | .flush page _ run, p => run ≠ 0 ∧ run ≤ p ∧ p < page
  | .hostEnqueue page _ run, p | .hostStore page _ run _, p => run ≠ 0 ∧ run ≤ p ∧ p ≤ page
  | _, _ => False

/-- The run of an announcement begins at a page it has passed, and it stays in its range. -/
def Thread.Wf : Thread → Prop
  | .hostWrite page end_ run | .flush page end_ run => run ≤ page ∧ page ≤ end_
  | .hostEnqueue page end_ run | .hostStore page end_ run _ => run ≤ page ∧ page < end_
  | _ => True

/-- The pages `Disarm` has still to open. -/
def Owner.Opens : Owner → ℕ → Prop
  | .disarm first end_ _ _, p | .disarmOpen first end_ _, p => first ≤ p ∧ p < end_
  | _, _ => False

/-- The pages `Arm` has marked and not protected yet. -/
@[simp] def Owner.Run : Owner → ℕ → Prop
  | .mark _ _ page run, p => run ≠ 0 ∧ run ≤ p ∧ p < page
  | .protect _ _ at_ run, p => run ≤ p ∧ p < at_
  | .rollback page at_, p => page ≤ p ∧ p < at_
  | _, _ => False

/-- `Arm` protects from a page on, and the loop of `Disarm` is in its range. -/
def Owner.Wf : Owner → Prop
  | .protect _ _ _ run => run ≠ 0
  | .disarm first _ page _ => first ≤ page
  | _ => True

instance (c : Thread) (p : ℕ) : Decidable (c.Opens p) := by
  induction c using Thread.casesOn <;> dsimp only [Thread.Opens] <;> infer_instance

instance (c : Owner) (p : ℕ) : Decidable (c.Opens p) := by
  cases c <;> dsimp only [Owner.Opens] <;> infer_instance

instance (c : Owner) (p : ℕ) : Decidable (c.Run p) := by
  cases c <;> dsimp only [Owner.Run] <;> infer_instance

theorem of_setRange_false {f : ℕ → Bool} {first end_ p : ℕ}
    (h : setRange f first end_ false p = true) : f p = true := by
  by_cases hin : first ≤ p ∧ p < end_
  · rw [setRange_of_mem f false hin] at h
    cases h
  · rwa [setRange_of_not_mem f false hin] at h

namespace WriteTracker

variable {ι : Type*} [DecidableEq ι] [Fintype ι]

def Writable (s : WriteTracker ι) : Prop :=
  s.owner = .idle → (∀ t, s.thread t = .idle) → ∀ page, s.readOnly page = true → s.everArmed page = true ∧ s.takes page

def Opening (s : WriteTracker ι) (page : ℕ) : Prop := ∃ t, (s.thread t).Opens page

/-- A page that stays read-only is protected for good, or something else than thread `t` has
still to open it. -/
def OpensLater (s : WriteTracker ι) (t : ι) (page : ℕ) : Prop :=
  s.readOnly page = true → (s.state page = .kProtected ∧ ¬s.owner.Run page) ∨ s.owner.Opens page ∨
      ∃ u, u ≠ t ∧ (s.thread u).Opens page

/-- The careful steps. An `mprotect` that opens pages fails only where each is writable already,
stays protected, or is still opened by another. `Arm` protects a run only while each of its pages
is still marked or the handler that took it has still to open it. `Drain` clears the state of a
page only if the page is writable or a handler has still to open it. -/
def Careful (s : WriteTracker ι) : WriteEvent ι → Prop
  | .thread t ok =>
    match s.thread t with
    | .faultOpen page => ok = true ∨ s.OpensLater t page
    | .flush page _ run => ok = true ∨ ∀ p, run ≤ p → p < page → s.OpensLater t p
    | _ => True
  | .owner ok =>
    match s.owner with
    | .protect _ _ at_ run =>
      ok = true → ∀ p, run ≤ p → p < at_ → s.state p = .kProtected ∨ s.Opening p
    | .disarmOpen first end_ _ =>
      ok = true ∨ ∀ p, first ≤ p → p < end_ → s.readOnly p = true → s.Opening p
    | .eraseArmed _ end_ page _ =>
      page < end_ → Covers s.armed page → s.readOnly page = true → s.Opening page
    | _ => True
  | _ => True

instance (s : WriteTracker ι) (page : ℕ) : Decidable (s.Opening page) :=
  inferInstanceAs (Decidable (∃ t, (s.thread t).Opens page))

instance (s : WriteTracker ι) (t : ι) (page : ℕ) : Decidable (s.OpensLater t page) :=
  inferInstanceAs (Decidable (_ → _ ∨ _ ∨ ∃ u, u ≠ t ∧ (s.thread u).Opens page))

instance (s : WriteTracker ι) (e : WriteEvent ι) : Decidable (s.Careful e) := by
  cases e with
  | thread t ok =>
    dsimp only [Careful]
    generalize s.thread t = c
    cases c <;> infer_instance
  | owner ok =>
    dsimp only [Careful]
    generalize s.owner = c
    cases c <;> infer_instance
  | _ => exact instDecidableTrue

/-! ## The invariant -/

/-- A read-only page is protected, or something has still to open it; and while `Arm` has marked a
page that was read-only already, a handler has. -/
structure ProtectInv (s : WriteTracker ι) : Prop where
  zero : s.readOnly 0 = false
  record : ∀ p, s.state p ≠ .kOpen → covered p ∧ s.everArmed p = true
  thread : ∀ t, (s.thread t).Wf
  owner : s.owner.Wf
  opens : ∀ p, s.readOnly p = true → s.state p = .kProtected ∨ s.Opening p ∨ s.owner.Opens p
  run : ∀ p, s.owner.Run p → s.readOnly p = true → s.Opening p

theorem ProtectInv.init : ProtectInv (init : WriteTracker ι) where
  zero := rfl
  record := by simp [WriteTracker.init]
  thread _ := trivial
  owner := trivial
  opens := by simp [WriteTracker.init]
  run := by simp [WriteTracker.init]

variable {s s' : WriteTracker ι} {page first end_ : ℕ} {rest : List Range}

theorem ProtectInv.writable (h : ProtectInv s) : Writable s := by
  intro howner hthreads page hro
  have hp : s.state page = .kProtected := by
    rcases h.opens page hro with hp | ⟨t, ht⟩ | hopens
    · exact hp
    · rw [hthreads t] at ht
      exact ht.elim
    · rw [howner] at hopens
      exact hopens.elim
  obtain ⟨hcov, hever⟩ := h.record page (by rw [hp]; nofun)
  exact ⟨hever, hcov, hp⟩

theorem ProtectInv.frame (h : ProtectInv s)
    (hthread : s'.thread = s.thread) (howner : s'.owner = s.owner) (hstate : s'.state = s.state)
    (hever : s'.everArmed = s.everArmed) (hro : s'.readOnly = s.readOnly) : ProtectInv s' := by
  refine ⟨?_, ?_, ?_, ?_, ?_, ?_⟩ <;>
    simp only [Opening, hthread, howner, hstate, hever, hro]
  exacts [h.zero, h.record, h.thread, h.owner, h.opens, h.run]

/-! ## The steps of the handlers -/

theorem ProtectInv.of_thread (h : ProtectInv s) (t : ι) (c : Thread)
    (howner : s'.owner = s.owner) (hever : s'.everArmed = s.everArmed)
    (hthread : s'.thread = Function.update s.thread t c) (hwf : c.Wf)
    (hro : ∀ p, s'.readOnly p = true → s.readOnly p = true)
    (hstate : ∀ p, s'.state p = s.state p ∨ (s.state p = .kProtected ∧ (p ≠ 0 → c.Opens p)))
    (hopens : ∀ p, s'.readOnly p = true → (s.thread t).Opens p →
      c.Opens p ∨ (s'.state p = s.state p ∧ s.OpensLater t p)) : ProtectInv s' := by
  have hopening : ∀ p, s'.Opening p ↔ c.Opens p ∨ ∃ u, u ≠ t ∧ (s.thread u).Opens p := fun p => by
    rw [Opening, hthread]
    exact exists_update_iff s.thread t c (·.Opens p)
  have hopening₀ : ∀ p, s.Opening p ↔ (s.thread t).Opens p ∨ ∃ u, u ≠ t ∧ (s.thread u).Opens p :=
    fun p => exists_thread_iff s.thread t (·.Opens p)
  have hzero : s'.readOnly 0 = false := by
    have := hro 0
    have := h.zero
    grind
  -- a page some handler had to open is still opened, or was safe to leave
  have hstill : ∀ p, s'.readOnly p = true → s.Opening p →
      s'.Opening p ∨ (s'.state p = .kProtected ∧ ¬s.owner.Run p) ∨ s.owner.Opens p := by
    intro p hp hop
    rw [hopening₀] at hop
    rw [hopening]
    rcases hop with hmine | hother
    · rcases hopens p hp hmine with hc | ⟨heq, hlater⟩
      · exact .inl (.inl hc)
      · rw [heq]
        rcases hlater (hro p hp) with hprot | hdis | hother
        · exact .inr (.inl hprot)
        · exact .inr (.inr hdis)
        · exact .inl (.inr hother)
    · exact .inl (.inr hother)
  have htaken : ∀ p, s'.readOnly p = true → s'.state p ≠ s.state p → s'.Opening p := by
    intro p hp hne
    have hp0 : p ≠ 0 := by rintro rfl; rw [hzero] at hp; cases hp
    rcases hstate p with heq | ⟨_, hc⟩
    · exact absurd heq hne
    · exact (hopening p).mpr (.inl (hc hp0))
  refine ⟨hzero, fun p hp => ?_, fun u => ?_, howner ▸ h.owner, fun p hp => ?_, fun p hrun hp => ?_⟩
  · rw [hever]
    rcases hstate p with heq | ⟨hprot, _⟩
    · exact h.record p (heq ▸ hp)
    · exact h.record p (by rw [hprot]; nofun)
  · rw [hthread]
    by_cases hut : u = t
    · rw [hut, Function.update_self]
      exact hwf
    · rw [Function.update_of_ne hut]
      exact h.thread u
  · rw [howner]
    by_cases heq : s'.state p = s.state p
    · rcases h.opens p (hro p hp) with hprot | hop | hdis
      · exact .inl (heq.trans hprot)
      · rcases hstill p hp hop with hop | hprot | hdis
        · exact .inr (.inl hop)
        · exact .inl hprot.1
        · exact .inr (.inr hdis)
      · exact .inr (.inr hdis)
    · exact .inr (.inl (htaken p hp heq))
  · rw [howner] at hrun
    rcases hstill p hp (h.run p hrun (hro p hp)) with hop | hprot | hdis
    · exact hop
    · exact absurd hrun hprot.2
    · exact absurd hdis (by cases h' : s.owner <;> simp_all [Owner.Run, Owner.Opens])

theorem ProtectInv.goto (h : ProtectInv s) (t : ι) (c : Thread) (hwf : c.Wf)
    (hopens : ∀ p, (s.thread t).Opens p → c.Opens p) : ProtectInv (s.goto t c) :=
  h.of_thread t c rfl rfl rfl hwf (fun _ => id) (fun _ => .inl rfl)
    fun p _ hp => .inl (hopens p hp)

theorem ProtectInv.take (h : ProtectInv s) (t : ι) (c : Thread)
    (htakes : s.takes page) (hwf : c.Wf) (hpage : page ≠ 0 → c.Opens page)
    (hopens : ∀ p, (s.thread t).Opens p → c.Opens p) : ProtectInv ((s.take page).goto t c) := by
  refine h.of_thread t c rfl rfl rfl hwf (fun _ => id) (fun p => ?_) fun p _ hp => .inl (hopens p hp)
  by_cases hp : p = page
  · subst hp
    exact .inr ⟨htakes.2, hpage⟩
  · exact .inl (Function.update_of_ne hp ..)

theorem ProtectInv.openPages (h : ProtectInv s) (t : ι) (c : Thread) (ok : Bool) (first end_ : ℕ) (hwf : c.Wf)
    (hok : ok = true ∨ ∀ p, first ≤ p → p < end_ → s.OpensLater t p)
    (hopens : ∀ p, (s.thread t).Opens p → first ≤ p ∧ p < end_) :
    ProtectInv ((s.openPages ok first end_).goto t c) := by
  refine h.of_thread t c rfl rfl rfl hwf (fun p hp => ?_) (fun _ => .inl rfl) fun p hp hop => ?_
  · simp only [WriteTracker.goto, WriteTracker.openPages] at hp
    split at hp
    · exact of_setRange_false hp
    · exact hp
  · obtain ⟨hlo, hhi⟩ := hopens p hop
    rcases hok with rfl | hlater
    · simp [WriteTracker.goto, WriteTracker.openPages, setRange, hlo, hhi] at hp
    · exact .inr ⟨rfl, hlater p hlo hhi⟩

/-- **A step of a handler keeps the invariant.** -/
theorem ProtectInv.threadStep (h : ProtectInv s) {t : ι} {ok : Bool}
    (hok : s.Careful (.thread t ok)) (hs : s.threadStep t ok = some s') : ProtectInv s' := by
  have hwf := h.thread t
  rw [WriteTracker.threadStep] at hs
  simp only [Careful] at hok
  generalize hc : s.thread t = c at hs hok hwf
  cases c <;> simp only [Option.some.injEq, reduceCtorEq] at hs <;> subst hs
  case fault page =>
    unfold onWriteFault
    split
    next htakes =>
      exact h.take t _ htakes.2 trivial (fun _ => rfl) (by rw [hc]; exact fun p => False.elim)
    next => exact h.goto t _ trivial (by rw [hc]; exact fun p => False.elim)
  case faultOpen page =>
    refine h.openPages t _ ok page (page + 1) trivial ?_ ?_
    · rcases hok with rfl | hlater
      · exact .inl rfl
      · exact .inr fun p hlo hhi => (show p = page by omega) ▸ hlater
    · rw [hc]
      intro p hp
      simp only [Thread.Opens] at hp
      omega
  case faultEnqueue page | faultStore page at_ | noteRemap first end_ =>
    exact h.of_thread t _ rfl rfl rfl trivial (fun _ => id) (fun _ => .inl rfl)
      (by rw [hc]; exact fun p _ => False.elim)
  case hostWrite page end_ run =>
    simp only [Thread.Wf] at hwf
    unfold onHostWrite
    by_cases hlt : page < end_
    · rw [if_pos hlt]
      by_cases htakes : s.takes page
      · -- the page joins the run, or begins it
        rw [if_pos htakes]
        refine h.take t _ htakes ?_ ?_ ?_
        · simp only [Thread.Wf]
          split <;> omega
        · simp only [Thread.Opens]
          split <;> omega
        · rw [hc]
          simp only [Thread.Opens]
          intro p hp
          rw [if_neg hp.1]
          omega
      · rw [if_neg htakes]
        by_cases hrun : run = 0
        · rw [if_pos hrun]
          refine h.goto t _ ⟨Nat.zero_le _, hlt⟩ ?_
          rw [hc]
          exact fun p hp => absurd hrun hp.1
        · rw [if_neg hrun]
          exact h.goto t _ hwf (by rw [hc]; exact fun p => id)
    · rw [if_neg hlt]
      by_cases hrun : run = 0
      · rw [if_pos hrun]
        exact h.goto t _ trivial (by rw [hc]; exact fun p hp => absurd hrun hp.1)
      · rw [if_neg hrun]
        refine h.goto t _ ?_ ?_
        · simp only [Thread.Wf]
          omega
        · rw [hc]
          simp only [Thread.Opens]
          omega
  case hostEnqueue page end_ run =>
    exact h.of_thread t _ rfl rfl rfl hwf (fun _ => id) (fun _ => .inl rfl)
      (by rw [hc]; exact fun p _ hp => .inl hp)
  case hostStore page end_ run at_ =>
    refine h.of_thread t _ rfl rfl rfl ?_ (fun _ => id) (fun _ => .inl rfl) ?_
    · simp only [Thread.Wf] at hwf ⊢
      omega
    · rw [hc]
      simp only [Thread.Opens]
      omega
  case flush page end_ run =>
    simp only [Thread.Wf] at hwf
    refine h.openPages t _ ok run page ?_ hok ?_
    · split
      · simp only [Thread.Wf]
        omega
      · trivial
    · rw [hc]
      exact fun p hp => hp.2

/-! ## The steps of the owner -/

theorem ProtectInv.of_owner (h : ProtectInv s) (hthread : s'.thread = s.thread) (hpos : s'.owner.Wf)
    (hrecord : ∀ p, s'.state p ≠ .kOpen → covered p ∧ s'.everArmed p = true)
    (hro : ∀ p, s'.readOnly p = true → s.readOnly p = true ∨ (p ≠ 0 ∧ (s'.state p = .kProtected ∨ s.Opening p)))
    (hstate : ∀ p, s.readOnly p = true → s.state p = .kProtected →
      s'.state p = .kProtected ∨ s.Opening p ∨ s'.owner.Opens p)
    (hopens : ∀ p, s'.readOnly p = true → s.owner.Opens p → s'.owner.Opens p ∨ s.Opening p)
    (hrun : ∀ p, s'.owner.Run p → s'.readOnly p = true → s.Opening p) : ProtectInv s' := by
  have hopening : ∀ p, s'.Opening p ↔ s.Opening p := fun p => by rw [Opening, Opening, hthread]
  refine ⟨?_, hrecord, hthread ▸ h.thread, hpos, fun p hp => ?_,
    fun p hr hp => (hopening p).mpr (hrun p hr hp)⟩
  · cases h0 : s'.readOnly 0 with
    | false => rfl
    | true =>
      rcases hro 0 h0 with hold | ⟨hne, _⟩
      · rw [h.zero] at hold
        exact hold.symm
      · exact absurd rfl hne
  · rw [hopening]
    rcases hro p hp with hold | ⟨_, hprot | hop⟩
    · rcases h.opens p hold with hprot | hop | hdis
      · exact hstate p hold hprot
      · exact .inr (.inl hop)
      · rcases hopens p hp hdis with hdis | hop
        · exact .inr (.inr hdis)
        · exact .inr (.inl hop)
    · exact .inl hprot
    · exact .inr (.inl hop)

theorem ProtectInv.moveOwner (h : ProtectInv s) (hthread : s'.thread = s.thread) (hstate : s'.state = s.state)
    (hever : s'.everArmed = s.everArmed) (hro : s'.readOnly = s.readOnly) (hpos : s'.owner.Wf)
    (hopens : ∀ p, s.owner.Opens p → s'.owner.Opens p)
    (hrun : ∀ p, s'.owner.Run p → s.owner.Run p) : ProtectInv s' := by
  refine h.of_owner hthread hpos ?_ (fun p hp => .inl (hro ▸ hp)) ?_
    (fun p _ hp => .inl (hopens p hp)) (fun p hr hp => h.run p (hrun p hr) (hro ▸ hp))
  · rw [hstate, hever]
    exact h.record
  · rw [hstate]
    exact fun p _ hp => .inl hp

theorem ProtectInv.storeOpen (h : ProtectInv s) (page : ℕ)
    (hthread : s'.thread = s.thread) (hever : s'.everArmed = s.everArmed)
    (hro : s'.readOnly = s.readOnly) (hpos : s'.owner.Wf)
    (hstate : s'.state = s.state ∨ (s'.state = Function.update s.state page .kOpen ∧
      (s.readOnly page = true → s.state page = .kProtected → s.Opening page ∨ s'.owner.Opens page)))
    (hopens : ∀ p, s.owner.Opens p → s'.owner.Opens p)
    (hrun : ∀ p, s'.owner.Run p → s.owner.Run p) : ProtectInv s' := by
  rcases hstate with heq | ⟨heq, hpage⟩
  · exact h.moveOwner hthread heq hever hro hpos hopens hrun
  · refine h.of_owner hthread hpos (fun p hp => ?_) (fun p hp => .inl (hro ▸ hp)) (fun p hp hprot => ?_)
      (fun p _ hp => .inl (hopens p hp)) (fun p hr hp => h.run p (hrun p hr) (hro ▸ hp))
    · rw [heq] at hp
      rw [hever]
      by_cases hpp : p = page
      · rw [hpp, Function.update_self] at hp
        exact absurd rfl hp
      · rw [Function.update_of_ne hpp] at hp
        exact h.record p hp
    · rw [heq]
      by_cases hpp : p = page
      · subst hpp
        exact .inr (hpage hp hprot)
      · rw [Function.update_of_ne hpp]
        exact .inl hprot

theorem ProtectInv.stepAllArmed (h : ProtectInv s)
    (hc : s.owner = .allArmed first end_ page) : ProtectInv (s.stepAllArmed first end_ page) := by
  unfold WriteTracker.stepAllArmed
  split_ifs <;>
    exact h.moveOwner rfl rfl rfl rfl trivial (by rw [hc]; exact fun p => id) fun p => False.elim

theorem ProtectInv.stepRefuse (h : ProtectInv s)
    (hc : s.owner = .refuse first end_ page) : ProtectInv (s.stepRefuse first end_ page) := by
  have hopens : ∀ p, ¬s.owner.Opens p := by rw [hc]; exact fun p => id
  unfold WriteTracker.stepRefuse
  split_ifs
  · exact h.moveOwner rfl rfl rfl rfl trivial (fun p hp => (hopens p hp).elim) fun p => False.elim
  · exact h.moveOwner rfl rfl rfl rfl trivial (fun p hp => (hopens p hp).elim) fun p => False.elim
  · exact h.moveOwner rfl rfl rfl rfl trivial (fun p hp => (hopens p hp).elim)
      fun p hp => absurd rfl hp.1

theorem ProtectInv.stepMark (h : ProtectInv s) {run : ℕ}
    (hc : s.owner = .mark first end_ page run) : ProtectInv (s.stepMark first end_ page run) := by
  have hopens : ∀ p, ¬s.owner.Opens p := by rw [hc]; exact fun p => id
  have hrun : ∀ p, s.owner.Run p ↔ run ≠ 0 ∧ run ≤ p ∧ p < page := by
    rw [hc]
    exact fun p => Iff.rfl
  unfold WriteTracker.stepMark
  by_cases hlt : page < end_
  · rw [if_pos hlt]
    by_cases hcov : covered page
    · rw [if_neg (not_not_intro hcov)]
      by_cases hopen : s.state page = .kOpen
      · rw [if_neg (not_not_intro hopen)]
        refine h.of_owner rfl trivial (fun p hp => ?_) (fun p hp => .inl hp) (fun p _ hp => .inl ?_)
          (fun p _ hp => (hopens p hp).elim) (fun p hr hp => ?_)
        · dsimp only at hp ⊢
          by_cases hpp : p = page
          · subst hpp
            exact ⟨hcov, Function.update_self ..⟩
          · rw [Function.update_of_ne hpp] at hp ⊢
            exact h.record p hp
        · dsimp only
          by_cases hpp : p = page
          · rw [hpp, Function.update_self]
          · rw [Function.update_of_ne hpp]
            exact hp
        · by_cases hpp : p = page
          · subst hpp
            rcases h.opens p hp with hprot | hop | hdis
            · rw [hopen] at hprot
              cases hprot
            · exact hop
            · exact (hopens p hdis).elim
          · apply h.run p ((hrun p).mpr ?_) hp
            simp only [Owner.Run] at hr
            split at hr <;> omega
      · rw [if_pos hopen]
        by_cases h0 : run = 0
        · rw [if_pos h0]
          exact h.moveOwner rfl rfl rfl rfl trivial (fun p hp => (hopens p hp).elim)
            fun p hp => absurd rfl hp.1
        · rw [if_neg h0]
          exact h.moveOwner rfl rfl rfl rfl h0 (fun p hp => (hopens p hp).elim)
            fun p hp => (hrun p).mpr ⟨h0, hp⟩
    · rw [if_pos hcov]
      exact h.moveOwner rfl rfl rfl rfl trivial (fun p hp => (hopens p hp).elim)
        fun p => False.elim
  · rw [if_neg hlt]
    by_cases h0 : run = 0
    · rw [if_pos h0]
      exact h.moveOwner rfl rfl rfl rfl trivial (fun p hp => (hopens p hp).elim)
        fun p => False.elim
    · rw [if_neg h0]
      refine h.moveOwner rfl rfl rfl rfl h0 (fun p hp => (hopens p hp).elim) fun p hp => ?_
      simp only [Owner.Run] at hp
      exact (hrun p).mpr (by omega)

theorem ProtectInv.stepProtect (h : ProtectInv s) {ok : Bool}
    {at_ run : ℕ} (hc : s.owner = .protect first end_ at_ run)
    (hok : ok = true → ∀ p, run ≤ p → p < at_ → s.state p = .kProtected ∨ s.Opening p) :
    ProtectInv (s.stepProtect ok first end_ at_ run) := by
  have hopens : ∀ p, ¬s.owner.Opens p := by rw [hc]; exact fun p => id
  have hpos : run ≠ 0 := by
    have := h.owner
    rwa [hc] at this
  unfold WriteTracker.stepProtect
  split
  next htrue =>
    refine h.of_owner rfl trivial h.record (fun p hp => ?_) (fun p _ hp => .inl hp)
      (fun p _ hp => (hopens p hp).elim) fun p hp => absurd rfl hp.1
    simp only [setRange] at hp
    split at hp
    next hin => exact .inr ⟨by omega, hok htrue p hin.1 hin.2⟩
    next => exact .inl hp
  next =>
    refine h.moveOwner rfl rfl rfl rfl trivial (fun p hp => (hopens p hp).elim) fun p hp => ?_
    rw [hc]
    exact hp

theorem ProtectInv.stepRollback (h : ProtectInv s) {at_ : ℕ}
    (hc : s.owner = .rollback page at_) : ProtectInv (s.stepRollback page at_) := by
  have hopens : ∀ p, ¬s.owner.Opens p := by rw [hc]; exact fun p => id
  have hrun : ∀ p, s.owner.Run p ↔ page ≤ p ∧ p < at_ := by rw [hc]; exact fun p => Iff.rfl
  unfold WriteTracker.stepRollback
  split
  next hlt =>
    refine h.storeOpen page rfl rfl rfl trivial (.inr ⟨rfl, fun hro _ => .inl ?_⟩)
      (fun p hp => (hopens p hp).elim) fun p hp => ?_
    · exact h.run page ((hrun page).mpr ⟨Nat.le_refl _, hlt⟩) hro
    · simp only [Owner.Run] at hp
      exact (hrun p).mpr (by omega)
  next =>
    exact h.moveOwner rfl rfl rfl rfl trivial (fun p hp => (hopens p hp).elim) fun p => False.elim

theorem ProtectInv.stepDisarm (h : ProtectInv s) (hc : s.owner = .disarm first end_ page rest) :
    ProtectInv (s.stepDisarm first end_ page rest) := by
  have hle : first ≤ page := by
    have := h.owner
    rwa [hc] at this
  have hopens : ∀ p, s.owner.Opens p → first ≤ p ∧ p < end_ := by rw [hc]; exact fun p => id
  unfold WriteTracker.stepDisarm
  split
  next hlt =>
    refine h.storeOpen page rfl rfl rfl (Nat.le_succ_of_le hle) ?_ hopens
      fun p => False.elim
    dsimp only
    split
    · exact .inr ⟨rfl, fun _ _ => .inr ⟨hle, hlt⟩⟩
    · exact .inl rfl
  next => exact h.moveOwner rfl rfl rfl rfl trivial hopens fun p => False.elim

theorem ProtectInv.stepDisarmOpen (h : ProtectInv s) {ok : Bool} (hc : s.owner = .disarmOpen first end_ rest)
    (hok : ok = true ∨ ∀ p, first ≤ p → p < end_ → s.readOnly p = true → s.Opening p) :
    ProtectInv (s.stepDisarmOpen ok first end_ rest) := by
  have hold : ∀ p, (s.stepDisarmOpen ok first end_ rest).readOnly p = true →
      s.readOnly p = true := by
    intro p hp
    simp only [WriteTracker.stepDisarmOpen] at hp
    split at hp
    · exact of_setRange_false hp
    · exact hp
  refine h.of_owner rfl trivial h.record (fun p hp => .inl (hold p hp)) (fun p _ hp => .inl hp)
    (fun p hp hop => .inr ?_) fun p => False.elim
  rw [hc] at hop
  rcases hok with rfl | hopening
  · rw [WriteTracker.stepDisarmOpen] at hp
    dsimp only at hp
    rw [if_pos rfl, setRange_of_mem _ _ hop] at hp
    cases hp
  · exact hopening p hop.1 hop.2 (hold p hp)

theorem ProtectInv.demoteNext (h : ProtectInv s) (hopens : ∀ p, ¬s.owner.Opens p)
    (rest : List Range) : ProtectInv (s.demoteNext rest) := by
  cases rest with
  | nil =>
    unfold WriteTracker.demoteNext
    exact h.moveOwner rfl rfl rfl rfl trivial (fun p hp => (hopens p hp).elim) fun p => False.elim
  | cons r rest =>
    unfold WriteTracker.demoteNext
    exact h.moveOwner rfl rfl rfl rfl (Nat.le_refl _) (fun p hp => (hopens p hp).elim)
      fun p => False.elim

theorem ProtectInv.stepEraseArmed (h : ProtectInv s) (hc : s.owner = .eraseArmed first end_ page rest)
    (hok : page < end_ → Covers s.armed page → s.readOnly page = true → s.Opening page) :
    ProtectInv (s.stepEraseArmed first end_ page rest) := by
  have hopens : ∀ p, ¬s.owner.Opens p := by rw [hc]; exact fun p => id
  unfold WriteTracker.stepEraseArmed
  split
  next hlt =>
    refine h.storeOpen page rfl rfl rfl trivial ?_ (fun p hp => (hopens p hp).elim)
      fun p => False.elim
    dsimp only
    split
    next hin => exact .inr ⟨rfl, fun hro _ => .inl (hok hlt hin.1 hro)⟩
    next => exact .inl rfl
  next =>
    exact h.moveOwner rfl rfl rfl rfl trivial (fun p hp => (hopens p hp).elim) fun p => False.elim

theorem ProtectInv.stepReopen (h : ProtectInv s) (hc : s.owner = .reopen first end_ page rest) :
    ProtectInv (s.stepReopen first end_ page rest) := by
  have hopens : ∀ p, ¬s.owner.Opens p := by rw [hc]; exact fun p => id
  unfold WriteTracker.stepReopen
  split
  next hlt =>
    refine h.storeOpen page rfl rfl rfl trivial ?_ (fun p hp => (hopens p hp).elim)
      fun p => False.elim
    dsimp only
    split
    next hin =>
      refine .inr ⟨rfl, fun _ hprot => ?_⟩
      rw [hin.2] at hprot
      cases hprot
    next => exact .inl rfl
  next =>
    exact h.moveOwner rfl rfl rfl rfl trivial (fun p hp => (hopens p hp).elim) fun p => False.elim

theorem ProtectInv.pass (h : ProtectInv s) (hopens : ∀ p, ¬s.owner.Opens p)
    (hthread : s'.thread = s.thread) (hstate : s'.state = s.state)
    (hever : s'.everArmed = s.everArmed) (hro : s'.readOnly = s.readOnly) (hpos : s'.owner.Wf)
    (hrun : ∀ p, ¬s'.owner.Run p) : ProtectInv s' :=
  h.moveOwner hthread hstate hever hro hpos (fun p hp => (hopens p hp).elim)
    fun p hp => (hrun p hp).elim

theorem countReport_frame (pages : List ℕ) (s : WriteTracker ι) : (pages.foldl countReport s).state = s.state ∧
      (pages.foldl countReport s).everArmed = s.everArmed ∧ (pages.foldl countReport s).readOnly = s.readOnly ∧
      (pages.foldl countReport s).thread = s.thread := by
  induction pages generalizing s with
  | nil => exact ⟨rfl, rfl, rfl, rfl⟩
  | cons page pages ih =>
    rw [List.foldl_cons]
    obtain ⟨hstate, hever, hro, hthread⟩ := ih (countReport s page)
    rw [hstate, hever, hro, hthread]
    unfold countReport
    dsimp only
    split_ifs <;> exact ⟨rfl, rfl, rfl, rfl⟩

/-- **A step of the owner keeps the invariant.** -/
theorem ProtectInv.ownerStep (h : ProtectInv s) {ok : Bool}
    (hok : s.Careful (.owner ok)) (hs : s.ownerStep ok = some s') : ProtectInv s' := by
  rw [WriteTracker.ownerStep] at hs
  simp only [Careful] at hok
  have hopens := fun p => Iff.of_eq (congrArg (fun c => Owner.Opens c p) (Eq.refl s.owner))
  cases hc : s.owner <;> simp only [hc, Option.some.injEq, reduceCtorEq] at hs hok hopens <;>
    try subst hs
  case allArmed => exact h.stepAllArmed hc
  case refuse => exact h.stepRefuse hc
  case mark => exact h.stepMark hc
  case protect => exact h.stepProtect hc hok
  case rollback => exact h.stepRollback hc
  case disarm => exact h.stepDisarm hc
  case disarmOpen => exact h.stepDisarmOpen hc hok
  case disarmErase =>
    exact h.pass (by rw [hc]; exact fun p => id) rfl rfl rfl rfl trivial fun p => id
  case disarmNote first end_ rest =>
    have hnoted : ProtectInv { s with noted := s.noted ++ [(first, end_)] } :=
      h.frame rfl rfl rfl rfl rfl
    exact hnoted.demoteNext (by dsimp only; rw [hc]; exact fun p => id) rest
  case drain => exact h.pass (by rw [hc]; exact fun p => id) rfl rfl rfl rfl trivial fun p => id
  case drainNext rest | reopenNext rest =>
    cases rest <;> exact h.pass (by rw [hc]; exact fun p => id) rfl rfl rfl rfl trivial fun p => id
  case eraseArmed => exact h.stepEraseArmed hc hok
  case takeFaulted =>
    unfold WriteTracker.stepTakeFaulted
    split_ifs <;>
      exact h.pass (by rw [hc]; exact fun p => id) rfl rfl rfl rfl trivial fun p => id
  case takeSlot at_ head pages =>
    unfold WriteTracker.stepTakeSlot at hs
    split_ifs at hs <;> obtain rfl := Option.some.inj hs <;>
      exact h.pass (by rw [hc]; exact fun p => id) rfl rfl rfl rfl trivial fun p => id
  case reopen => exact h.stepReopen hc
  case report =>
    obtain ⟨hstate, hever, hro, hthread⟩ := countReport_frame s.reportedPages s
    exact h.pass (by rw [hc]; exact fun p => id) hthread hstate hever hro trivial fun p => id

/-! ## Runs -/

/-- **What every careful step keeps.** -/
theorem ProtectInv.step {e : WriteEvent ι} (h : ProtectInv s)
    (hok : s.Careful e) (hs : s.step e = some s') : ProtectInv s' := by
  have hidle : s.owner = .idle → ∀ p, ¬s.owner.Opens p := fun hc p => by rw [hc]; exact id
  have hquiet : ∀ t, s.thread t = .idle → ∀ p, ¬(s.thread t).Opens p := fun t hc p => by
    rw [hc]
    exact id
  cases e with
  | arm base bytes =>
    simp only [WriteTracker.step, Option.ite_none_right_eq_some, Option.some.injEq] at hs
    obtain ⟨⟨hc, _⟩, rfl⟩ := hs
    exact h.pass (hidle hc) rfl rfl rfl rfl trivial fun p => id
  | collect =>
    simp only [WriteTracker.step, Option.ite_none_right_eq_some, Option.some.injEq] at hs
    obtain ⟨hc, rfl⟩ := hs
    exact h.pass (hidle hc) rfl rfl rfl rfl trivial fun p => id
  | release base bytes =>
    simp only [WriteTracker.step, Option.ite_none_right_eq_some, Option.some.injEq] at hs
    obtain ⟨⟨hc, _⟩, rfl⟩ := hs
    exact h.pass (hidle hc) rfl rfl rfl rfl (Nat.le_refl _) fun p => id
  | endFrame =>
    simp only [WriteTracker.step, Option.ite_none_right_eq_some, Option.some.injEq] at hs
    obtain ⟨hc, rfl⟩ := hs
    have hframe : ProtectInv { s with reported := [], frame := s.frame + 1 } :=
      h.frame rfl rfl rfl rfl rfl
    exact hframe.demoteNext (hidle hc) _
  | owner ok => exact h.ownerStep hok hs
  | fault t addr =>
    simp only [WriteTracker.step, Option.ite_none_right_eq_some, Option.some.injEq] at hs
    obtain ⟨hc, rfl⟩ := hs
    exact h.goto t _ trivial fun p hp => (hquiet t hc p hp).elim
  | hostWrite t addr len =>
    simp only [WriteTracker.step, Option.ite_none_right_eq_some, Option.some.injEq] at hs
    obtain ⟨⟨hc, hlen, _⟩, rfl⟩ := hs
    refine h.of_thread t _ rfl rfl rfl ⟨Nat.zero_le _, ?_⟩ (fun _ => id) (fun _ => .inl rfl)
      fun p _ hp => (hquiet t hc p hp).elim
    simp only [pageDown, pageUp, kPage]
    omega
  | remap t base bytes =>
    simp only [WriteTracker.step, Option.ite_none_right_eq_some, Option.some.injEq] at hs
    obtain ⟨⟨hc, _⟩, rfl⟩ := hs
    exact h.of_thread t _ rfl rfl rfl trivial (fun p => of_setRange_false) (fun _ => .inl rfl)
      fun p _ hp => (hquiet t hc p hp).elim
  | thread t ok => exact h.threadStep hok hs
  | write addr =>
    simp only [WriteTracker.step, Option.ite_none_left_eq_some, Option.some.injEq] at hs
    obtain ⟨_, rfl⟩ := hs
    exact h.frame rfl rfl rfl rfl rfl
  | noteWrite base bytes =>
    simp only [WriteTracker.step, Option.ite_none_right_eq_some, Option.some.injEq] at hs
    obtain ⟨_, rfl⟩ := hs
    exact h.frame rfl rfl rfl rfl rfl

/-- **Every read-only page is taken by the fault handler**: between calls and handlers a page the
tracker made read-only is protected, in every run of careful steps. -/
theorem writable_of_careful (ls : List (WriteEvent ι))
    (hok : (system ι).Meets Careful init ls) : (system ι).Always Writable init ls :=
  (system ι).always_of_invariant (fun _ _ _ h hok hs => ProtectInv.step h hok hs)
    (fun _ h => ProtectInv.writable h) ProtectInv.init hok

/-- A page is armed and written: its handler opens it, and `Collect` takes it. -/
def writeRun : List (WriteEvent (Fin 1)) :=
  [.arm 4096 4096] ++ List.replicate 7 (.owner true) ++ [.fault 0 4100] ++
    List.replicate 4 (.thread 0 true) ++ [.write 4100, .collect] ++ List.replicate 10 (.owner true)

theorem writable_writeRun : (system (Fin 1)).Always Writable init writeRun :=
  writable_of_careful writeRun (by decide +kernel)

def remapRun : List (WriteEvent (Fin 1)) :=
  [.remap 0 4096 4096, .thread 0 true, .arm 4096 4096] ++ List.replicate 7 (.owner true) ++
    [.collect] ++ List.replicate 7 (.owner true)

/-- `Drain` clears the state of a page that was armed after its remap, and leaves it read-only. -/
theorem drain_strands_page : ¬∀ ls, (system (Fin 1)).Always Writable init ls := by
  intro h
  have hrun : ((system (Fin 1)).exec init remapRun).any
      (fun s => s.owner = .idle ∧ s.thread 0 = .idle ∧ s.readOnly 1 = true ∧ s.state 1 = .kOpen) =
        true := by decide +kernel
  refine (system (Fin 1)).not_always_of_exec hrun (fun s hs hw => ?_) (h remapRun)
  obtain ⟨howner, hthread, hro, hopen⟩ := of_decide_eq_true hs
  obtain ⟨_, _, hprot⟩ := hw howner (fun t => Subsingleton.elim t 0 ▸ hthread) 1 hro
  rw [hopen] at hprot
  cases hprot

end WriteTracker

end Prosperity.Gpu
