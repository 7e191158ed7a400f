import Prosperity.Foundations.FlagWord
import Prosperity.Foundations.Tally
import Prosperity.Kern.Urwlock

/-!
# Runs of the reader/writer lock

Over every interleaving of kernel calls and userland swaps, a write hold excludes every other
hold, the reader field counts the read holds, and `RW_UNLOCK` clears a waiter bit only when no
thread of its kind is blocked.

The word changes only by swaps, and each swap acts on one of its four fields: so the invariant
ties every field to the threads, and one lemma for each swap says which field it moves. The
counters of blocked calls move under the bucket's mutex only, so a call that has published its
waiter bit and not yet counted itself is never beside an unlock that reads the counters.
-/

set_option linter.unusedSectionVars false

namespace Prosperity.Kern.Urwlock

/-! ## The fields of the word -/

def owned (w : RwWord) : Bool := w &&& kWriteOwner ≠ 0

def readers (w : RwWord) : ℕ := (w &&& kMaxReaders).toNat

def waiting (wr : Bool) (w : RwWord) : Bool := w &&& waiterBit wr ≠ 0

section Fields

def waiterFlag (wr : Bool) : BitVec 3 := if wr then 2#3 else 1#3

theorem kWriteOwner_eq : kWriteOwner = 4#3 ++ 0#29 := by decide

theorem kMaxReaders_eq : kMaxReaders = 0#3 ++ BitVec.allOnes 29 := by decide

theorem waiterBit_eq (wr : Bool) : waiterBit wr = waiterFlag wr ++ 0#29 := by
  cases wr <;> decide

theorem exists_fields (w : RwWord) : ∃ (f : BitVec 3) (r : BitVec 29), w = f ++ r :=
  exists_append (k := 3) (n := 29) w

theorem mask_eq_zero {f g : BitVec 3} {r : BitVec 29} : (f ++ r) &&& (g ++ 0#29) = 0 ↔ f &&& g = 0 := by
  rw [BitVec.and_append, BitVec.and_zero, show (0 : RwWord) = 0#3 ++ 0#29 by decide, append_eq_append_iff]
  exact ⟨And.left, fun h => ⟨h, rfl⟩⟩

variable (f : BitVec 3) (r : BitVec 29)

theorem owned_append : owned (f ++ r) = decide (f &&& 4#3 ≠ 0) := by
  rw [owned, kWriteOwner_eq]
  exact decide_eq_decide.mpr (not_congr mask_eq_zero)

theorem waiting_append (wr : Bool) : waiting wr (f ++ r) = decide (f &&& waiterFlag wr ≠ 0) := by
  rw [waiting, waiterBit_eq]
  exact decide_eq_decide.mpr (not_congr mask_eq_zero)

theorem readers_append : readers (f ++ r) = r.toNat := by
  rw [readers, kMaxReaders_eq, BitVec.and_append, BitVec.and_zero, BitVec.and_allOnes,
    toNat_append_eq, BitVec.toNat_ofNat]
  simp

theorem owned_eq_false {w : RwWord} : owned w = false ↔ w &&& kWriteOwner = 0 := by
  simp [owned]

theorem readers_eq_zero {w : RwWord} : readers w = 0 ↔ w &&& kMaxReaders = 0 := by
  rw [readers, ← BitVec.toNat_inj]
  rfl

theorem readers_room {w : RwWord} (h : w &&& kMaxReaders ≠ kMaxReaders) : readers w + 1 < 2 ^ 29 := by
  obtain ⟨f, r, rfl⟩ := exists_fields w
  rw [kMaxReaders_eq, BitVec.and_append, BitVec.and_zero, BitVec.and_allOnes, Ne, append_eq_append_iff] at h
  rw [readers_append]
  have hlt := r.isLt
  have hne : r.toNat ≠ 2 ^ 29 - 1 := by
    intro heq
    apply h
    exact ⟨rfl, BitVec.eq_of_toNat_eq (by rw [heq, BitVec.toNat_allOnes])⟩
  omega

end Fields

/-! ## What each swap does to the fields -/

section Swaps

variable (w : RwWord)

theorem own_fields : owned (w ||| kWriteOwner) = true ∧ readers (w ||| kWriteOwner) = readers w ∧
    ∀ wr, waiting wr (w ||| kWriteOwner) = waiting wr w := by
  obtain ⟨f, r, rfl⟩ := exists_fields w
  rw [kWriteOwner_eq, BitVec.or_append, BitVec.or_zero, owned_append, readers_append, readers_append]
  refine ⟨?_, rfl, fun wr => ?_⟩
  · revert f
    decide
  · rw [waiting_append, waiting_append]
    revert f wr
    decide

theorem disown_fields : owned (w &&& ~~~kWriteOwner) = false ∧ readers (w &&& ~~~kWriteOwner) = readers w ∧
    ∀ wr, waiting wr (w &&& ~~~kWriteOwner) = waiting wr w := by
  obtain ⟨f, r, rfl⟩ := exists_fields w
  rw [kWriteOwner_eq, BitVec.not_append, BitVec.and_append, BitVec.not_zero, BitVec.and_allOnes,
    owned_append, readers_append, readers_append]
  refine ⟨?_, rfl, fun wr => ?_⟩
  · revert f
    decide
  · rw [waiting_append, waiting_append]
    revert f wr
    decide

theorem publish_fields (wr : Bool) : owned (w ||| waiterBit wr) = owned w ∧
    readers (w ||| waiterBit wr) = readers w ∧ waiting wr (w ||| waiterBit wr) = true ∧
    waiting (!wr) (w ||| waiterBit wr) = waiting (!wr) w := by
  obtain ⟨f, r, rfl⟩ := exists_fields w
  rw [waiterBit_eq, BitVec.or_append, BitVec.or_zero, owned_append, owned_append, readers_append,
    readers_append, waiting_append, waiting_append, waiting_append]
  refine ⟨?_, rfl, ?_, ?_⟩ <;> revert f wr <;> decide

theorem retire_fields (wr : Bool) : owned (w &&& ~~~waiterBit wr) = owned w ∧
    readers (w &&& ~~~waiterBit wr) = readers w ∧ waiting wr (w &&& ~~~waiterBit wr) = false ∧
    waiting (!wr) (w &&& ~~~waiterBit wr) = waiting (!wr) w := by
  obtain ⟨f, r, rfl⟩ := exists_fields w
  rw [waiterBit_eq, BitVec.not_append, BitVec.and_append, BitVec.not_zero, BitVec.and_allOnes,
    owned_append, owned_append, readers_append, readers_append, waiting_append, waiting_append,
    waiting_append]
  refine ⟨?_, rfl, ?_, ?_⟩ <;> revert f wr <;> decide

variable {w}

theorem add_one_fields (h : readers w + 1 < 2 ^ 29) : owned (w + 1) = owned w ∧
    readers (w + 1) = readers w + 1 ∧ ∀ wr, waiting wr (w + 1) = waiting wr w := by
  obtain ⟨f, r, rfl⟩ := exists_fields w
  rw [readers_append] at h
  have hup : (f ++ r) + 1 = f ++ (r + 1#29) := append_add_one (k := 3) h
  rw [hup]
  refine ⟨by rw [owned_append, owned_append], ?_, fun wr => by rw [waiting_append, waiting_append]⟩
  rw [readers_append, readers_append, BitVec.toNat_add, BitVec.toNat_ofNat]
  exact Nat.mod_eq_of_lt h

theorem sub_one_fields (h : 0 < readers w) : owned (w - 1) = owned w ∧
    readers (w - 1) + 1 = readers w ∧ ∀ wr, waiting wr (w - 1) = waiting wr w := by
  obtain ⟨f, r, rfl⟩ := exists_fields w
  rw [readers_append] at h
  have hdown : (f ++ r) - 1 = f ++ (r - 1#29) := append_sub_one (k := 3) h
  rw [hdown]
  refine ⟨by rw [owned_append, owned_append], ?_, fun wr => by rw [waiting_append, waiting_append]⟩
  have hlt := r.isLt
  rw [readers_append, readers_append, BitVec.toNat_sub, BitVec.toNat_ofNat]
  omega

end Swaps

/-! ## The invariant -/

variable {ι : Type*}

def inside (c : RwThread) : Bool :=
  match c.pc with
  | .top _ | .loaded _ _ | .published _ | .unlockTop | .unlocking _ => true
  | _ => false

def asleepIn (wr : Bool) (c : RwThread) : Bool := c.pc = .asleep wr

def unlocks (c : RwThread) : Bool :=
  match c.pc with
  | .unlockCall | .unlockTop | .unlocking _ => true
  | _ => false

abbrev RwState (ι : Type*) := Threads ι (RwShared ι) RwThread

section Invariant

variable [Fintype ι]

/-- What every step keeps. -/
structure Inv (s : RwState ι) : Prop where
  writes : (owned s.shared.word).toNat = tally RwThread.writes s.thread
  reads : readers s.shared.word = total RwThread.reads s.thread
  excludes : owned s.shared.word = true → readers s.shared.word = 0
  blocked : ∀ wr, blocked s.shared wr = tally (asleepIn wr) s.thread
  guarded : Guarded inside s.shared.mutex s.thread
  holds : ∀ t, unlocks (s.thread t) = true → 0 < (s.thread t).reads ∨ (s.thread t).writes = true

/-- What an action of thread `t` does, field by field: each moves with the thread's own share. -/
structure Effect (s : RwState ι) (t : ι) (a : RwAction) (r : RwShared ι × RwThread) : Prop where
  writeHolds : (owned r.1.word).toNat + (s.thread t).writes.toNat = (owned s.shared.word).toNat + r.2.writes.toNat
  readHolds : readers r.1.word + (s.thread t).reads = readers s.shared.word + r.2.reads
  excl : owned r.1.word = true → readers r.1.word = 0
  sleepers : ∀ wr, blocked r.1 wr + (asleepIn wr (s.thread t)).toNat = blocked s.shared wr + (asleepIn wr r.2).toNat
  bucket : r.1.mutex = s.shared.mutex ∨ s.shared.mutex = none ∨ s.shared.mutex = some t
  insideOwns : inside r.2 = true → r.1.mutex = some t
  unlockHolds : unlocks r.2 = true → 0 < r.2.reads ∨ r.2.writes = true
  waiterBits : ∀ wr, waiting wr r.1.word = waiting wr s.shared.word ∨
    (waiting wr r.1.word = true ∧ a = .kernel ∧ ∃ st, (s.thread t).pc = .loaded wr st) ∨
    (waiting wr r.1.word = false ∧ a = .kernel ∧ (∃ st, (s.thread t).pc = .unlocking st) ∧ blocked s.shared wr = 0)

theorem Inv.init (flags : BitVec 32) : Inv (Urwlock.init flags : RwState ι) where
  writes := by
    have hnone : tally RwThread.writes (Urwlock.init flags : RwState ι).thread = 0 :=
      tally_eq_zero_iff.mpr fun _ => rfl
    rw [hnone]
    exact (by decide : (owned 0).toNat = 0)
  reads := by
    have hnone : total RwThread.reads (Urwlock.init flags : RwState ι).thread = 0 :=
      total_eq_zero_iff.mpr fun _ => rfl
    rw [hnone]
    exact (by decide : readers 0 = 0)
  excludes _ := (by decide : readers 0 = 0)
  blocked wr := by
    have hnone : tally (asleepIn wr) (Urwlock.init flags : RwState ι).thread = 0 :=
      tally_eq_zero_iff.mpr fun _ => rfl
    rw [hnone]
    cases wr <;> rfl
  guarded t h := by cases h
  holds t h := by cases h

variable [DecidableEq ι] {s : RwState ι} {t : ι} {a : RwAction} {r : RwShared ι × RwThread}

/-- **An action keeps the invariant**, since every count moves by the acting thread's share. -/
theorem Effect.inv (e : Effect s t a r) (h : Inv s) : Inv (ThreadSystem.move s t r) where
  writes := by
    have hup := tally_update RwThread.writes s.thread t r.2
    have hown := e.writeHolds
    rw [h.writes] at hown
    show _ = tally RwThread.writes (Function.update s.thread t r.2)
    rw [ThreadSystem.move_shared]
    omega
  reads := by
    have hup := total_update RwThread.reads s.thread t r.2
    have hread := e.readHolds
    rw [h.reads] at hread
    show _ = total RwThread.reads (Function.update s.thread t r.2)
    rw [ThreadSystem.move_shared]
    omega
  excludes := e.excl
  blocked wr := by
    have hup := tally_update (asleepIn wr) s.thread t r.2
    have hblk := e.sleepers wr
    rw [h.blocked wr] at hblk
    show _ = tally (asleepIn wr) (Function.update s.thread t r.2)
    rw [ThreadSystem.move_shared]
    omega
  guarded := h.guarded.step e.bucket e.insideOwns
  holds u hu := by
    by_cases hut : u = t
    · subst hut
      rw [ThreadSystem.move_thread_self] at hu ⊢
      exact e.unlockHolds hu
    · rw [ThreadSystem.move_thread_of_ne s r hut] at hu ⊢
      exact h.holds u hu

theorem Effect.of_same (h : Inv s) (hword : r.1.word = s.shared.word)
    (hblk : ∀ wr, blocked r.1 wr = blocked s.shared wr)
    (hwrites : r.2.writes = (s.thread t).writes) (hreads : r.2.reads = (s.thread t).reads)
    (hasleep : ∀ wr, asleepIn wr r.2 = asleepIn wr (s.thread t))
    (hmutex : r.1.mutex = s.shared.mutex ∨ s.shared.mutex = none ∨ s.shared.mutex = some t)
    (hin : inside r.2 = true → r.1.mutex = some t)
    (hholds : unlocks r.2 = true → 0 < r.2.reads ∨ r.2.writes = true) : Effect s t a r where
  writeHolds := by rw [hword, hwrites]
  readHolds := by rw [hword, hreads]
  excl := by
    rw [hword]
    exact h.excludes
  sleepers wr := by rw [hblk wr, hasleep wr]
  bucket := hmutex
  insideOwns := hin
  unlockHolds := hholds
  waiterBits wr := .inl (by rw [hword])

theorem Inv.not_writes (h : Inv s) (ho : owned s.shared.word = false) (u : ι) : (s.thread u).writes = false := by
  have hzero := h.writes
  rw [ho] at hzero
  exact tally_eq_zero_iff.mp hzero.symm u

theorem Inv.not_reads (h : Inv s) (hr : readers s.shared.word = 0) (u : ι) : (s.thread u).reads = 0 := by
  have hzero := h.reads
  rw [hr] at hzero
  exact total_eq_zero_iff.mp hzero.symm u

theorem Inv.reads_le (h : Inv s) (u : ι) : (s.thread u).reads ≤ readers s.shared.word := by
  rw [h.reads]
  exact le_total RwThread.reads s.thread u

theorem Inv.owned_of_writes (h : Inv s) {u : ι} (hu : (s.thread u).writes = true) : owned s.shared.word = true := by
  by_contra ho
  rw [h.not_writes (Bool.eq_false_iff.mpr ho) u] at hu
  cases hu

/-! ## The actions -/

theorem Effect.acquireWrite (h : Inv s) (ho : owned s.shared.word = false)
    (hr : readers s.shared.word = 0) (hword : r.1.word = s.shared.word ||| kWriteOwner)
    (hblk : ∀ wr, blocked r.1 wr = blocked s.shared wr) (hwrites : r.2.writes = true)
    (hreads : r.2.reads = (s.thread t).reads) (hasleep : ∀ wr, asleepIn wr r.2 = asleepIn wr (s.thread t))
    (hmutex : r.1.mutex = s.shared.mutex ∨ s.shared.mutex = none ∨ s.shared.mutex = some t)
    (hpc : r.2.pc = .idle) : Effect s t a r := by
  obtain ⟨hown, hread, hwait⟩ := own_fields s.shared.word
  refine ⟨?_, ?_, fun _ => ?_, fun wr => ?_, hmutex, fun hin => ?_, fun hu => ?_, fun wr => ?_⟩
  · rw [hword, hown, ho, h.not_writes ho t, hwrites]
    rfl
  · rw [hword, hread, hreads]
  · rw [hword, hread, hr]
  · rw [hblk wr, hasleep wr]
  · simp [inside, hpc] at hin
  · simp [unlocks, hpc] at hu
  · exact .inl (by rw [hword, hwait wr])

theorem Effect.acquireRead (ho : owned s.shared.word = false)
    (hmax : s.shared.word &&& kMaxReaders ≠ kMaxReaders) (hword : r.1.word = s.shared.word + 1)
    (hblk : ∀ wr, blocked r.1 wr = blocked s.shared wr)
    (hwrites : r.2.writes = (s.thread t).writes) (hreads : r.2.reads = (s.thread t).reads + 1)
    (hasleep : ∀ wr, asleepIn wr r.2 = asleepIn wr (s.thread t))
    (hmutex : r.1.mutex = s.shared.mutex ∨ s.shared.mutex = none ∨ s.shared.mutex = some t)
    (hpc : r.2.pc = .idle) : Effect s t a r := by
  obtain ⟨hown, hread, hwait⟩ := add_one_fields (readers_room hmax)
  refine ⟨?_, ?_, fun hx => ?_, fun wr => ?_, hmutex, fun hin => ?_, fun hu => ?_, fun wr => ?_⟩
  · rw [hword, hown, hwrites]
  · rw [hword, hread, hreads]
    omega
  · rw [hword, hown, ho] at hx
    cases hx
  · rw [hblk wr, hasleep wr]
  · simp [inside, hpc] at hin
  · simp [unlocks, hpc] at hu
  · exact .inl (by rw [hword, hwait wr])

theorem publish_effect (h : Inv s) {wr : Bool} {st : RwWord} (hpc : (s.thread t).pc = .loaded wr st) :
    Effect s t .kernel (publish s.shared (s.thread t) wr st) := by
  have hmine : s.shared.mutex = some t := h.guarded t (by simp [inside, hpc])
  have hawake : ∀ b, asleepIn b (s.thread t) = false := fun b => by simp [asleepIn, hpc]
  unfold publish
  by_cases hnew : st ≠ st ||| waiterBit wr
  · rw [if_pos hnew]
    by_cases hcas : s.shared.word = st
    · rw [if_pos hcas]
      subst hcas
      obtain ⟨hown, hread, hset, hother⟩ := publish_fields s.shared.word wr
      refine ⟨?_, ?_, ?_, fun b => ?_, .inl rfl, fun _ => hmine, nofun, fun b => ?_⟩
      · simp only [hown]
      · simp only [hread]
      · simp only [hown, hread]
        exact h.excludes
      · rw [hawake b]
        rfl
      · rcases Bool.eq_or_eq_not b wr with rfl | rfl
        · exact .inr (.inl ⟨hset, rfl, _, hpc⟩)
        · exact .inl hother
    · rw [if_neg hcas]
      exact .of_same h rfl (fun _ => rfl) rfl rfl (fun b => (hawake b).symm) (.inl rfl)
        (fun _ => hmine) nofun
  · rw [if_neg hnew]
    exact .of_same h rfl (fun _ => rfl) rfl rfl (fun b => (hawake b).symm) (.inl rfl)
      (fun _ => hmine) nofun

theorem tryWrite_effect (h : Inv s) {st : RwWord} (hpc : (s.thread t).pc = .loaded true st) :
    Effect s t .kernel (tryWrite s.shared (s.thread t) st) := by
  have hmine : s.shared.mutex = some t := h.guarded t (by simp [inside, hpc])
  have hawake : ∀ b, asleepIn b (s.thread t) = false := fun b => by simp [asleepIn, hpc]
  unfold tryWrite
  by_cases hidle : st &&& kWriteOwner = 0 ∧ st &&& kMaxReaders = 0
  · rw [if_pos hidle]
    by_cases hcas : s.shared.word = st
    · rw [if_pos hcas]
      subst hcas
      exact .acquireWrite h (owned_eq_false.mpr hidle.1) (readers_eq_zero.mpr hidle.2) rfl
        (fun _ => rfl) rfl rfl (fun b => (hawake b).symm) (.inr (.inr hmine)) rfl
    · rw [if_neg hcas]
      exact .of_same h rfl (fun _ => rfl) rfl rfl (fun b => (hawake b).symm) (.inl rfl)
        (fun _ => hmine) nofun
  · rw [if_neg hidle]
    exact publish_effect h hpc

theorem tryRead_effect (h : Inv s) {st : RwWord} (hpc : (s.thread t).pc = .loaded false st) :
    Effect s t .kernel (tryRead s.shared (s.thread t) st) := by
  have hmine : s.shared.mutex = some t := h.guarded t (by simp [inside, hpc])
  have hawake : ∀ b, asleepIn b (s.thread t) = false := fun b => by simp [asleepIn, hpc]
  unfold tryRead
  split
  · next hfree =>
    by_cases hmax : st &&& kMaxReaders = kMaxReaders
    · rw [if_pos hmax]
      exact .of_same h rfl (fun _ => rfl) rfl rfl (fun b => (hawake b).symm) (.inr (.inr hmine))
        nofun nofun
    rw [if_neg hmax]
    by_cases hcas : s.shared.word = st
    · rw [if_pos hcas]
      subst hcas
      exact .acquireRead (owned_eq_false.mpr hfree.1) hmax rfl (fun _ => rfl) rfl rfl
        (fun b => (hawake b).symm) (.inr (.inr hmine)) rfl
    · rw [if_neg hcas]
      exact .of_same h rfl (fun _ => rfl) rfl rfl (fun b => (hawake b).symm) (.inl rfl)
        (fun _ => hmine) nofun
  · exact publish_effect h hpc

theorem retire_spec (sh : RwShared ι) (next : RwWord) :
    owned (retire sh next) = owned next ∧ readers (retire sh next) = readers next ∧
      ∀ wr, waiting wr (retire sh next) = waiting wr next ∨
        (waiting wr (retire sh next) = false ∧ blocked sh wr = 0) := by
  -- one retirement, of either kind
  have hone : ∀ (wr : Bool) (w : RwWord), blocked sh wr = 0 →
      owned (w &&& ~~~waiterBit wr) = owned w ∧ readers (w &&& ~~~waiterBit wr) = readers w ∧
        ∀ b, waiting b (w &&& ~~~waiterBit wr) = waiting b w ∨
          (waiting b (w &&& ~~~waiterBit wr) = false ∧ blocked sh b = 0) := by
    intro wr w hzero
    obtain ⟨hown, hread, hclear, hother⟩ := retire_fields w wr
    refine ⟨hown, hread, fun b => ?_⟩
    rcases Bool.eq_or_eq_not b wr with rfl | rfl
    · exact .inr ⟨hclear, hzero⟩
    · exact .inl hother
  have hwriters : ∃ w, w = (if sh.blockedWriters = 0 then next &&& ~~~kWriteWaiters else next) ∧
      owned w = owned next ∧ readers w = readers next ∧
        ∀ b, waiting b w = waiting b next ∨ (waiting b w = false ∧ blocked sh b = 0) := by
    by_cases hzero : sh.blockedWriters = 0
    · exact ⟨_, (if_pos hzero).symm, hone true next hzero⟩
    · exact ⟨_, (if_neg hzero).symm, rfl, rfl, fun b => .inl rfl⟩
  obtain ⟨w, hw, hown, hread, hwait⟩ := hwriters
  unfold retire
  rw [← hw]
  by_cases hzero : sh.blockedReaders = 0
  · dsimp only
    rw [if_pos hzero]
    obtain ⟨hown', hread', hwait'⟩ := hone false w hzero
    refine ⟨hown'.trans hown, hread'.trans hread, fun b => ?_⟩
    rcases hwait' b with heq | hcleared
    · exact (hwait b).imp (fun h => heq.trans h) fun h => ⟨heq.trans h.1, h.2⟩
    · exact .inr hcleared
  · dsimp only
    rw [if_neg hzero]
    exact ⟨hown, hread, hwait⟩

theorem tryUnlock_effect (h : Inv s) {st : RwWord} (hpc : (s.thread t).pc = .unlocking st) :
    Effect s t .kernel (tryUnlock s.shared (s.thread t) st) := by
  have hmine : s.shared.mutex = some t := h.guarded t (by simp [inside, hpc])
  have hawake : ∀ b, asleepIn b (s.thread t) = false := fun b => by simp [asleepIn, hpc]
  have hhold := h.holds t (by simp [unlocks, hpc])
  -- the swap failed: the word has moved under the call, which looks at it again
  have hretry : Effect s t .kernel
      (s.shared, { s.thread t with pc := RwPc.unlocking s.shared.word }) :=
    .of_same h rfl (fun _ => rfl) rfl rfl (fun b => (hawake b).symm) (.inl rfl)
      (fun _ => hmine) (fun _ => hhold)
  unfold tryUnlock
  by_cases howner : st &&& kWriteOwner ≠ 0
  · rw [if_pos howner]
    by_cases hcas : s.shared.word = st
    · rw [if_pos hcas]
      subst hcas
      have hown : owned s.shared.word = true := by
        rw [← Bool.not_eq_false, owned_eq_false]
        exact howner
      -- the owner bit leaves no read hold, so the hold given up is the write hold
      have hw : (s.thread t).writes = true := by
        rcases hhold with hr | hw
        · rw [h.not_reads (h.excludes hown) t] at hr
          exact absurd hr (lt_irrefl 0)
        · exact hw
      obtain ⟨hoff, hread, hwait⟩ := disown_fields s.shared.word
      obtain ⟨hown', hread', hwait'⟩ :=
        retire_spec s.shared (s.shared.word &&& ~~~kWriteOwner)
      refine ⟨?_, ?_, fun hx => ?_, fun b => ?_, .inr (.inr hmine), nofun, nofun, fun b => ?_⟩
      · simp only [leave, hown', hoff, hown, hw]
        rfl
      · simp only [leave, hread', hread]
      · simp only [leave, hown', hoff] at hx
        cases hx
      · rw [hawake b]
        rfl
      · rcases hwait' b with heq | ⟨hclear, hzero⟩
        · exact .inl (heq.trans (hwait b))
        · exact .inr (.inr ⟨hclear, rfl, ⟨_, hpc⟩, hzero⟩)
    · rw [if_neg hcas]
      exact hretry
  rw [if_neg howner]
  by_cases hcount : st &&& kMaxReaders ≠ 0
  · rw [if_pos hcount]
    by_cases hcas : s.shared.word = st
    · rw [if_pos hcas]
      subst hcas
      have hown : owned s.shared.word = false := owned_eq_false.mpr (not_not.mp howner)
      have hpos : 0 < readers s.shared.word :=
        Nat.pos_of_ne_zero fun hz => hcount (readers_eq_zero.mp hz)
      have hr : 0 < (s.thread t).reads := by
        rcases hhold with hr | hw
        · exact hr
        · rw [h.not_writes hown t] at hw
          cases hw
      obtain ⟨hsame, hread, hwait⟩ := sub_one_fields hpos
      obtain ⟨hown', hread', hwait'⟩ := retire_spec s.shared (s.shared.word - 1)
      refine ⟨?_, ?_, fun hx => ?_, fun b => ?_, .inr (.inr hmine), nofun, nofun, fun b => ?_⟩
      · simp only [leave, hown', hsame]
      · simp only [leave, hread']
        omega
      · simp only [leave, hown', hsame, hown] at hx
        cases hx
      · rw [hawake b]
        rfl
      · rcases hwait' b with heq | ⟨hclear, hzero⟩
        · exact .inl (heq.trans (hwait b))
        · exact .inr (.inr ⟨hclear, rfl, ⟨_, hpc⟩, hzero⟩)
    · rw [if_neg hcas]
      exact hretry
  · rw [if_neg hcount]
    exact .of_same h rfl (fun _ => rfl) rfl rfl (fun b => (hawake b).symm) (.inr (.inr hmine))
      nofun nofun

theorem blocked_setBlocked (sh : RwShared ι) (wr b : Bool) (n : ℕ) :
    blocked (setBlocked sh wr n) b = if b = wr then n else blocked sh b := by
  cases wr <;> cases b <;> rfl

theorem setBlocked_word (sh : RwShared ι) (wr : Bool) (n : ℕ) : (setBlocked sh wr n).word = sh.word := by
  cases wr <;> rfl

theorem Effect.of_counter (h : Inv s) {wr : Bool} {n : ℕ} {m : Option ι} {c : RwThread}
    (hn : n + (asleepIn wr (s.thread t)).toNat = blocked s.shared wr + (asleepIn wr c).toNat)
    (hother : ∀ b, b ≠ wr → asleepIn b c = asleepIn b (s.thread t))
    (hwrites : c.writes = (s.thread t).writes) (hreads : c.reads = (s.thread t).reads)
    (hmutex : s.shared.mutex = none ∨ s.shared.mutex = some t) (hin : inside c = true → m = some t)
    (hholds : unlocks c = false) :
    Effect s t a ({ setBlocked s.shared wr n with mutex := m }, c) := by
  have hword : (setBlocked s.shared wr n).word = s.shared.word := setBlocked_word ..
  refine ⟨?_, ?_, ?_, fun b => ?_, .inr hmutex, hin, fun hu => ?_, fun b => ?_⟩
  · simp only [hword, hwrites]
  · simp only [hword, hreads]
  · simp only [hword]
    exact h.excludes
  · show blocked (setBlocked s.shared wr n) b + _ = _
    rw [blocked_setBlocked]
    by_cases hb : b = wr
    · rw [if_pos hb, hb]
      exact hn
    · rw [if_neg hb, hother b hb]
  · rw [hholds] at hu
    cases hu
  · exact .inl (by simp only [hword])

theorem kernel_effect (h : Inv s) (hr : kernel t s.shared (s.thread t) = some r) : Effect s t .kernel r := by
  unfold kernel at hr
  cases hpc : (s.thread t).pc with
  | idle =>
    rw [hpc] at hr
    cases hr
  | call wr =>
    rw [hpc] at hr
    dsimp only at hr
    split at hr <;> cases hr
    next hfree =>
    exact .of_same h rfl (fun _ => rfl) rfl rfl (fun b => by simp [asleepIn, hpc])
      (.inr (.inl (Option.isNone_iff_eq_none.mp hfree))) (fun _ => rfl) nofun
  | top wr =>
    rw [hpc] at hr
    cases hr
    exact .of_same h rfl (fun _ => rfl) rfl rfl (fun b => by simp [asleepIn, hpc]) (.inl rfl)
      (fun _ => h.guarded t (by simp [inside, hpc])) nofun
  | loaded wr st =>
    rw [hpc] at hr
    cases wr with
    | true =>
      obtain rfl := Option.some.inj hr
      exact tryWrite_effect h hpc
    | false =>
      obtain rfl := Option.some.inj hr
      exact tryRead_effect h hpc
  | published wr =>
    rw [hpc] at hr
    obtain rfl := Option.some.inj hr
    refine .of_counter h ?_ (fun b hb => ?_) rfl rfl
      (.inr (h.guarded t (by simp [inside, hpc]))) nofun rfl
    · simp [asleepIn, hpc]
    · simp [asleepIn, hpc, Ne.symm hb]
  | asleep wr =>
    rw [hpc] at hr
    dsimp only at hr
    split at hr <;> cases hr
    next hfree =>
    have hself : asleepIn wr (s.thread t) = true := by simp [asleepIn, hpc]
    have hpos : 0 < blocked s.shared wr := by
      rw [h.blocked wr]
      exact tally_pos hself
    refine .of_counter h ?_ (fun b hb => ?_) rfl rfl
      (.inl (Option.isNone_iff_eq_none.mp hfree)) (fun _ => rfl) rfl
    · rw [hself]
      simp only [asleepIn, Bool.toNat_true, reduceCtorEq, decide_false, Bool.toNat_false]
      omega
    · simp [asleepIn, hpc, Ne.symm hb]
  | unlockCall =>
    rw [hpc] at hr
    dsimp only at hr
    split at hr <;> cases hr
    next hfree =>
    exact .of_same h rfl (fun _ => rfl) rfl rfl (fun b => by simp [asleepIn, hpc])
      (.inr (.inl (Option.isNone_iff_eq_none.mp hfree))) (fun _ => rfl)
      (fun _ => h.holds t (by simp [unlocks, hpc]))
  | unlockTop =>
    rw [hpc] at hr
    cases hr
    exact .of_same h rfl (fun _ => rfl) rfl rfl (fun b => by simp [asleepIn, hpc]) (.inl rfl)
      (fun _ => h.guarded t (by simp [inside, hpc]))
      (fun _ => h.holds t (by simp [unlocks, hpc]))
  | unlocking st =>
    rw [hpc] at hr
    obtain rfl := Option.some.inj hr
    exact tryUnlock_effect h hpc

/-- **Every action acts field by field.** -/
theorem act_effect (h : Inv s) (hr : act t a s.shared (s.thread t) = some r) : Effect s t a r := by
  cases a with
  | kernel => exact kernel_effect h hr
  | userRdlock =>
    simp only [act] at hr
    split at hr <;> cases hr
    next hok =>
    exact .acquireRead (owned_eq_false.mpr hok.2.1) hok.2.2.2 rfl (fun _ => rfl) rfl rfl
      (fun _ => rfl) (.inl rfl) hok.1
  | userWrlock =>
    simp only [act] at hr
    split at hr <;> cases hr
    next hok =>
    exact .acquireWrite h (owned_eq_false.mpr hok.2.1) (readers_eq_zero.mpr hok.2.2) rfl
      (fun _ => rfl) rfl rfl (fun _ => rfl) (.inl rfl) hok.1
  | userRdunlock =>
    simp only [act] at hr
    split at hr <;> cases hr
    next hok =>
    have hpos : 0 < readers s.shared.word := lt_of_lt_of_le hok.2 (h.reads_le t)
    obtain ⟨hown, hread, hwait⟩ := sub_one_fields hpos
    refine ⟨?_, ?_, fun hx => ?_, fun _ => rfl, .inl rfl, fun hin => ?_, fun hu => ?_,
      fun wr => .inl (hwait wr)⟩
    · rw [hown]
    · dsimp only
      have := hok.2
      omega
    · rw [hown] at hx
      have := h.excludes hx
      omega
    · simp [inside, hok.1] at hin
    · simp [unlocks, hok.1] at hu
  | userWrunlock =>
    simp only [act] at hr
    split at hr <;> cases hr
    next hok =>
    obtain ⟨hoff, hread, hwait⟩ := disown_fields s.shared.word
    refine ⟨?_, ?_, fun hx => ?_, fun _ => rfl, .inl rfl, fun hin => ?_, fun hu => ?_,
      fun wr => .inl (hwait wr)⟩
    · rw [hoff, h.owned_of_writes hok.2, hok.2]
      rfl
    · simp only [hread]
    · rw [hoff] at hx
      cases hx
    · simp [inside, hok.1] at hin
    · simp [unlocks, hok.1] at hu
  | rdlock | wrlock =>
    simp only [act] at hr
    split at hr <;> cases hr
    next hok =>
    exact .of_same h rfl (fun _ => rfl) rfl rfl (fun b => by simp [asleepIn, hok]) (.inl rfl)
      nofun nofun
  | unlock =>
    simp only [act] at hr
    split at hr <;> cases hr
    next hok =>
    exact .of_same h rfl (fun _ => rfl) rfl rfl (fun b => by simp [asleepIn, hok.1]) (.inl rfl)
      nofun (fun _ => hok.2)

theorem Inv.step {s' : RwState ι} {e : ι × RwAction} (h : Inv s) (hs : (system ι).step s e = some s') : Inv s' := by
  obtain ⟨r, hr, rfl⟩ := ThreadSystem.step_eq_some _ |>.mp hs
  exact (act_effect h hr).inv h

/-! ## The promise -/

structure Sound (s : RwState ι) : Prop where
  exclusive : ∀ t, (s.thread t).writes = true → ∀ u, (s.thread u).reads = 0 ∧ ((s.thread u).writes = true → u = t)
  counted : readers s.shared.word = ∑ t, (s.thread t).reads
  ownerBit : owned s.shared.word = true ↔ ∃ t, (s.thread t).writes = true

/-- What every step promises: a waiter bit is cleared only by `RW_UNLOCK`, while no thread of its
kind is blocked, and set only by a call of its kind. -/
structure StepSound (s : RwState ι) (e : ι × RwAction) (s' : RwState ι) : Prop where
  cleared : ∀ wr, waiting wr s.shared.word = true → waiting wr s'.shared.word = false →
    e.2 = .kernel ∧ (∃ st, (s.thread e.1).pc = .unlocking st) ∧
      ∀ u, (s.thread u).pc ≠ .asleep wr ∧ (s.thread u).pc ≠ .published wr
  set : ∀ wr, waiting wr s.shared.word = false → waiting wr s'.shared.word = true →
    e.2 = .kernel ∧ ∃ st, (s.thread e.1).pc = .loaded wr st

theorem Inv.sound (h : Inv s) : Sound s where
  exclusive t ht u := by
    have hown := h.owned_of_writes ht
    refine ⟨h.not_reads (h.excludes hown) u, fun hu => ?_⟩
    by_contra hne
    have htwo := add_le_total (fun c : RwThread => c.writes.toNat) s.thread hne
    have hone : total (fun c : RwThread => c.writes.toNat) s.thread = 1 := by
      have := h.writes
      rw [hown] at this
      exact this.symm
    rw [hone, hu, ht] at htwo
    exact absurd htwo (by decide)
  counted := h.reads
  ownerBit := by
    constructor
    · intro hown
      by_contra hnone
      push Not at hnone
      have := h.writes
      rw [hown, tally_eq_zero_iff.mpr fun t => Bool.eq_false_iff.mpr (hnone t)] at this
      exact absurd this (by decide)
    · rintro ⟨t, ht⟩
      exact h.owned_of_writes ht

theorem Inv.step_sound {s' : RwState ι} {e : ι × RwAction} (h : Inv s)
    (hs : (system ι).step s e = some s') : StepSound s e s' := by
  obtain ⟨r, hr, rfl⟩ := ThreadSystem.step_eq_some _ |>.mp hs
  have heff := act_effect h hr
  refine ⟨fun wr hwas hnow => ?_, fun wr hwas hnow => ?_⟩
  · rw [ThreadSystem.move_shared] at hnow
    rcases heff.waiterBits wr with hsame | hset | ⟨-, hkernel, ⟨st, hpc⟩, hzero⟩
    · rw [hnow, hwas] at hsame
      cases hsame
    · rw [hset.1] at hnow
      cases hnow
    · refine ⟨hkernel, ⟨st, hpc⟩, fun u => ⟨fun hu => ?_, fun hu => ?_⟩⟩
      · rw [h.blocked wr] at hzero
        have := tally_eq_zero_iff.mp hzero u
        simp [asleepIn, hu] at this
      · -- the unlock has the bucket's mutex, and so would a call between its two updates
        have hsame := h.guarded.unique (t := u) (u := e.1) (by simp [inside, hu])
          (by simp [inside, hpc])
        rw [hsame, hpc] at hu
        cases hu
  · rw [ThreadSystem.move_shared] at hnow
    rcases heff.waiterBits wr with hsame | ⟨-, hkernel, hpc⟩ | hclear
    · rw [hnow, hwas] at hsame
      cases hsame
    · exact ⟨hkernel, hpc⟩
    · rw [hclear.1] at hnow
      cases hnow

/-- **Every run of the lock is sound**: from the idle lock, whatever its preference and however
the threads' actions interleave. -/
theorem sound_run (flags : BitVec 32) (ls : List (ι × RwAction)) : (system ι).Always Sound (Urwlock.init flags) ls ∧
      (system ι).EveryStep StepSound (Urwlock.init flags) ls := by
  have hmeets : (system ι).Meets (fun _ _ => True) (Urwlock.init flags) ls :=
    (system ι).meets_true _ ls
  refine ⟨?_, ?_⟩
  · exact (system ι).always_of_invariant (fun s e s' h _ hs => h.step hs) (fun s h => h.sound)
      (Inv.init flags) hmeets
  · exact (system ι).everyStep_of_invariant (fun s e s' h _ hs => h.step hs)
      (fun s e s' h _ hs => h.step_sound hs) (Inv.init flags) hmeets

end Invariant

end Prosperity.Kern.Urwlock
