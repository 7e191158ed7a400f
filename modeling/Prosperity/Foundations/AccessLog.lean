import Mathlib.Data.List.Basic

/-!
# Programs that log what they access

A program over a state also lists the accesses it makes, in order. What holds of all its accesses is proved by the
rules of a weakest precondition, which also say what the program returns and leaves.
-/

namespace Prosperity

/-- What a program leaves. -/
structure Outcome (σ ε α : Type) where
  value : α
  state : σ
  log : List ε

/-- A program over states `σ` that makes accesses `ε`. -/
def Logged (σ ε α : Type) : Type := σ → Outcome σ ε α

namespace Logged

variable {σ ε α β : Type}

def run (m : Logged σ ε α) (s : σ) : Outcome σ ε α := m s

instance : Monad (Logged σ ε) where
  pure a := fun s => ⟨a, s, []⟩
  bind m f := fun s => ⟨(f (m s).value (m s).state).value, (f (m s).value (m s).state).state,
    (m s).log ++ (f (m s).value (m s).state).log⟩

def access (e : ε) (f : σ → α × σ) : Logged σ ε α := fun s => ⟨(f s).1, (f s).2, [e]⟩

def look (f : σ → α) : Logged σ ε α := fun s => ⟨f s, s, []⟩

def change (f : σ → σ) : Logged σ ε Unit := fun s => ⟨(), f s, []⟩

/-- A test that is only made behind a condition. -/
def guarded (c : Bool) (m : Logged σ ε Bool) : Logged σ ε Bool := if c then m else pure false

def runIf (c : Bool) (m : Logged σ ε PUnit) : Logged σ ε PUnit := if c then m else pure ⟨⟩

def collect (g : α → Logged σ ε β) : List α → Logged σ ε (List β)
  | [] => pure []
  | a :: l => do
    let b ← g a
    let bs ← collect g l
    pure (b :: bs)

/-- From `s` the program makes allowed accesses only, and leaves what `Q` says. -/
def Safe (P : ε → Prop) (m : Logged σ ε α) (s : σ) (Q : α → σ → Prop) : Prop :=
  (∀ e ∈ (m.run s).log, P e) ∧ Q (m.run s).value (m.run s).state

section Rules

variable {P : ε → Prop} {m : Logged σ ε α} {f : α → Logged σ ε β} {s : σ} {e : ε} {l : List α}

theorem safe_pure {a : α} {Q : α → σ → Prop} : Safe P (pure a : Logged σ ε α) s Q ↔ Q a s :=
  and_iff_right fun _ h => by cases h

theorem safe_bind {Q : β → σ → Prop} : Safe P (m >>= f) s Q ↔ Safe P m s fun a s' => Safe P (f a) s' Q := by
  change (∀ e ∈ (m.run s).log ++ ((f (m.run s).value).run (m.run s).state).log, P e) ∧ _ ↔ _
  simp only [List.mem_append, or_imp, forall_and]
  exact and_assoc

theorem safe_access {g : σ → α × σ} {Q : α → σ → Prop} : Safe P (access e g) s Q ↔ P e ∧ Q (g s).1 (g s).2 := by
  change (∀ e' ∈ [e], P e') ∧ _ ↔ _
  rw [List.forall_mem_singleton]
  rfl

theorem safe_look {g : σ → α} {Q : α → σ → Prop} : Safe P (look g : Logged σ ε α) s Q ↔ Q (g s) s :=
  and_iff_right fun _ h => by cases h

theorem safe_change {g : σ → σ} {Q : Unit → σ → Prop} : Safe P (change g : Logged σ ε Unit) s Q ↔ Q () (g s) :=
  and_iff_right fun _ h => by cases h

theorem Safe.mono {Q Q' : α → σ → Prop} (h : Safe P m s Q) (himp : ∀ a s', Q a s' → Q' a s') : Safe P m s Q' :=
  ⟨h.1, himp _ _ h.2⟩

theorem safe_guarded {c : Bool} {m : Logged σ ε Bool} {v : Bool}
    (h : c = true → Safe P m s fun b s' => b = v ∧ s' = s) :
    Safe P (guarded c m) s fun b s' => b = (c && v) ∧ s' = s := by
  cases c with
  | true => exact h rfl
  | false => exact safe_pure.mpr ⟨rfl, rfl⟩

theorem safe_runIf {c : Bool} {m : Logged σ ε PUnit} {Q : PUnit → σ → Prop} (h : c = true → Safe P m s Q)
    (hnot : c = false → Q ⟨⟩ s) : Safe P (runIf c m) s Q := by
  cases c with
  | true => exact h rfl
  | false => exact safe_pure.mpr (hnot rfl)

theorem Safe.forM {g : α → Logged σ ε PUnit} {I : σ → Prop}
    (hstep : ∀ a ∈ l, ∀ s, I s → Safe P (g a) s fun _ s' => I s') (h : I s) :
    Safe P (l.forM g) s fun _ s' => I s' := by
  induction l generalizing s with
  | nil => exact safe_pure.mpr h
  | cons a l ih =>
    rw [List.forM, safe_bind]
    refine (hstep a List.mem_cons_self s h).mono fun _ s' hs' => ?_
    exact ih (fun b hb => hstep b (List.mem_cons_of_mem _ hb)) hs'

theorem Safe.anyM {g : α → Logged σ ε Bool} {p : α → Bool}
    (hstep : ∀ a ∈ l, Safe P (g a) s fun b s' => b = p a ∧ s' = s) :
    Safe P (l.anyM g) s fun b s' => b = l.any p ∧ s' = s := by
  induction l with
  | nil => exact safe_pure.mpr ⟨rfl, rfl⟩
  | cons a l ih =>
    rw [List.anyM, safe_bind]
    refine (hstep a List.mem_cons_self).mono fun b s' hb => ?_
    obtain ⟨rfl, rfl⟩ := hb
    cases hp : p a with
    | true => exact safe_pure.mpr ⟨by rw [List.any_cons, hp, Bool.true_or], rfl⟩
    | false =>
      rw [List.any_cons, hp, Bool.false_or]
      exact ih fun b hb => hstep b (List.mem_cons_of_mem _ hb)

theorem Safe.allM {g : α → Logged σ ε Bool} {p : α → Bool}
    (hstep : ∀ a ∈ l, Safe P (g a) s fun b s' => b = p a ∧ s' = s) :
    Safe P (l.allM g) s fun b s' => b = l.all p ∧ s' = s := by
  induction l with
  | nil => exact safe_pure.mpr ⟨rfl, rfl⟩
  | cons a l ih =>
    rw [List.allM, safe_bind]
    refine (hstep a List.mem_cons_self).mono fun b s' hb => ?_
    obtain ⟨rfl, rfl⟩ := hb
    cases hp : p a with
    | true =>
      rw [List.all_cons, hp, Bool.true_and]
      exact ih fun b hb => hstep b (List.mem_cons_of_mem _ hb)
    | false => exact safe_pure.mpr ⟨by rw [List.all_cons, hp, Bool.false_and], rfl⟩

theorem mem_log_bind :
    e ∈ ((m >>= f).run s).log ↔ e ∈ (m.run s).log ∨ e ∈ ((f (m.run s).value).run (m.run s).state).log :=
  List.mem_append

theorem mem_log_bind_of_value {a : α} (h : Safe P m s fun b s' => b = a ∧ s' = s) (he : e ∈ ((f a).run s).log) :
    e ∈ ((m >>= f).run s).log := by
  obtain ⟨-, hvalue, hstate⟩ := h
  rw [mem_log_bind, hvalue, hstate]
  exact .inr he

theorem mem_log_forM {g : α → Logged σ ε PUnit} {a : α} (ha : a ∈ l) (h : ∀ s, e ∈ ((g a).run s).log) :
    e ∈ ((l.forM g).run s).log := by
  induction l generalizing s with
  | nil => cases ha
  | cons b l ih =>
    rw [List.forM, mem_log_bind]
    rcases List.mem_cons.mp ha with rfl | ha
    · exact .inl (h s)
    · exact .inr (ih ha)

end Rules

/-- Two logs one after the other have the property if each has it. -/
structure Composes (R : List ε → Prop) : Prop where
  nil : R []
  append : ∀ l m, R l → R m → R (l ++ m)

theorem Composes.of_forall (P : ε → Prop) : Composes fun l : List ε => ∀ e ∈ l, P e where
  nil := by simp
  append := fun l m hl hm e he => (List.mem_append.mp he).elim (hl e) (hm e)

def Logs (R : List ε → Prop) (m : Logged σ ε α) : Prop := ∀ s, R (m.run s).log

namespace Composes

variable {R : List ε → Prop} (hR : Composes R) {m : Logged σ ε α} {f : α → Logged σ ε β} {l : List α}
include hR

theorem pure (a : α) : Logs R (Pure.pure a : Logged σ ε α) := fun _ => hR.nil

theorem bind (hm : Logs R m) (hf : ∀ a, Logs R (f a)) : Logs R (m >>= f) :=
  fun s => hR.append _ _ (hm s) (hf _ _)

theorem look (g : σ → α) : Logs R (Logged.look g : Logged σ ε α) := fun _ => hR.nil

theorem change (g : σ → σ) : Logs R (Logged.change g : Logged σ ε Unit) := fun _ => hR.nil

theorem runIf {c : Bool} {m : Logged σ ε PUnit} (h : c = true → Logs R m) : Logs R (Logged.runIf c m) := by
  cases c with
  | true => exact h rfl
  | false => exact hR.pure _

theorem guarded {c : Bool} {m : Logged σ ε Bool} (h : c = true → Logs R m) : Logs R (Logged.guarded c m) := by
  cases c with
  | true => exact h rfl
  | false => exact hR.pure _

theorem forM {g : α → Logged σ ε PUnit} (h : ∀ a ∈ l, Logs R (g a)) : Logs R (l.forM g) := by
  induction l with
  | nil => exact hR.pure _
  | cons a l ih =>
    exact hR.bind (h a List.mem_cons_self) fun _ => ih fun b hb => h b (List.mem_cons_of_mem _ hb)

theorem allM {g : α → Logged σ ε Bool} (h : ∀ a ∈ l, Logs R (g a)) : Logs R (l.allM g) := by
  induction l with
  | nil => exact hR.pure _
  | cons a l ih =>
    rw [List.allM]
    refine hR.bind (h a List.mem_cons_self) fun b => ?_
    cases b with
    | true => exact ih fun b hb => h b (List.mem_cons_of_mem _ hb)
    | false => exact hR.pure _

theorem collect {g : α → Logged σ ε β} (h : ∀ a ∈ l, Logs R (g a)) : Logs R (Logged.collect g l) := by
  induction l with
  | nil => exact hR.pure _
  | cons a l ih =>
    refine hR.bind (h a List.mem_cons_self) fun b => ?_
    exact hR.bind (ih fun b hb => h b (List.mem_cons_of_mem _ hb)) fun bs => hR.pure _

end Composes

end Logged

end Prosperity
