import Mathlib.Data.List.Basic

/-!
# Computed labelled executions

A labelled system computes its steps: `step s l` is the state after the event `l`, or `none`
where `l` cannot happen in `s`. An execution is a list of events, so an interleaving of any
number of parties is one list of their events in the order they take effect.
-/

namespace Prosperity

universe u v

structure LabelledSystem (σ : Type u) (ε : Type v) where
  /-- The state after an event, `none` where the event cannot happen. -/
  step : σ → ε → Option σ

namespace LabelledSystem

variable {σ : Type u} {ε : Type v} (T : LabelledSystem σ ε)

def exec : σ → List ε → Option σ
  | s, [] => some s
  | s, l :: ls => (T.step s l).bind fun s' => exec s' ls

/-- `P` holds in every state the execution of `ls` from `s` passes through. -/
def Always (P : σ → Prop) : σ → List ε → Prop
  | s, [] => P s
  | s, l :: ls => P s ∧ ∀ s', T.step s l = some s' → Always P s' ls

/-- `Q` holds of every step of the execution of `ls` from `s`. -/
def EveryStep (Q : σ → ε → σ → Prop) : σ → List ε → Prop
  | _, [] => True
  | s, l :: ls => ∀ s', T.step s l = some s' → Q s l s' ∧ EveryStep Q s' ls

/-- `Q` holds of some step of the execution of `ls` from `s`. -/
def SomeStep (Q : σ → ε → σ → Prop) : σ → List ε → Prop
  | _, [] => False
  | s, l :: ls => ∃ s', T.step s l = some s' ∧ (Q s l s' ∨ SomeStep Q s' ls)

/-- Every event of the execution of `ls` from `s` meets `ok` in the state it happens in. -/
def Meets (ok : σ → ε → Prop) : σ → List ε → Prop
  | _, [] => True
  | s, l :: ls => ok s l ∧ ∀ s', T.step s l = some s' → Meets ok s' ls

instance decidableMeets (ok : σ → ε → Prop) [∀ s l, Decidable (ok s l)] :
    ∀ (s : σ) (ls : List ε), Decidable (T.Meets ok s ls)
  | _, [] => inferInstanceAs (Decidable True)
  | s, l :: ls =>
    match h : T.step s l with
    | none => decidable_of_iff (ok s l) (by simp [Meets, h])
    | some s' =>
      have := decidableMeets ok s' ls
      decidable_of_iff (ok s l ∧ T.Meets ok s' ls) (by simp [Meets, h])

@[simp] theorem exec_nil (s : σ) : T.exec s [] = some s := rfl

theorem exec_cons (s : σ) (l : ε) (ls : List ε) : T.exec s (l :: ls) = (T.step s l).bind fun s' => T.exec s' ls := rfl

variable {s s' : σ} {ok : σ → ε → Prop} {P Inv : σ → Prop} {ls : List ε} {Q : σ → ε → σ → Prop}

theorem exec_cons_of_step {l : ε} (h : T.step s l = some s') (ls : List ε) : T.exec s (l :: ls) = T.exec s' ls := by
  rw [exec_cons, h, Option.bind_some]

theorem exec_append (s : σ) (ls ms : List ε) : T.exec s (ls ++ ms) = (T.exec s ls).bind fun s' => T.exec s' ms := by
  induction ls generalizing s with
  | nil => rfl
  | cons l ls ih =>
    rw [List.cons_append, exec_cons, exec_cons, Option.bind_assoc]
    exact congrArg _ (funext fun s' => ih s')

theorem meets_true (s : σ) (ls : List ε) : T.Meets (fun _ _ => True) s ls := by
  induction ls generalizing s with
  | nil => trivial
  | cons l ls ih => exact ⟨trivial, fun s' _ => ih s'⟩

theorem meets_of_forall (h : ∀ s l, ok s l) (s : σ) (ls : List ε) : T.Meets ok s ls := by
  induction ls generalizing s with
  | nil => trivial
  | cons l ls ih => exact ⟨h s l, fun s' _ => ih s'⟩

theorem always_true (s : σ) (ls : List ε) : T.Always (fun _ => True) s ls := by
  induction ls generalizing s with
  | nil => trivial
  | cons l ls ih => exact ⟨trivial, fun s' _ => ih s'⟩

theorem Always.head (h : T.Always P s ls) : P s := by
  cases ls with
  | nil => exact h
  | cons l ls => exact h.1

theorem Always.last (h : T.Always P s ls) (hs : T.exec s ls = some s') : P s' := by
  induction ls generalizing s with
  | nil => exact Option.some.inj hs ▸ h
  | cons l ls ih =>
    obtain ⟨m, hm, hls⟩ := Option.bind_eq_some_iff.mp hs
    exact ih (h.2 m hm) hls

theorem not_always_of_exec {p : σ → Bool}
    (hrun : (T.exec s ls).any p = true) (hp : ∀ s', p s' = true → ¬P s') : ¬T.Always P s ls := by
  obtain ⟨s', hs', hps'⟩ := (Option.any_eq_true p _).mp hrun
  exact fun h => hp s' hps' (h.last T hs')

/-- **The invariant rule.** An invariant kept by the steps that meet `ok` holds throughout
every execution whose steps all meet `ok`. -/
theorem always_of_invariant (hstep : ∀ s l s', Inv s → ok s l → T.step s l = some s' → Inv s')
    (himp : ∀ s, Inv s → P s) (hs : Inv s) (hok : T.Meets ok s ls) : T.Always P s ls := by
  induction ls generalizing s with
  | nil => exact himp s hs
  | cons l ls ih =>
    exact ⟨himp s hs, fun s' h => ih (hstep s l s' hs hok.1 h) (hok.2 s' h)⟩

/-- **The step rule.** What an invariant implies of one step holds of every step. -/
theorem everyStep_of_invariant (hstep : ∀ s l s', Inv s → ok s l → T.step s l = some s' → Inv s')
    (himp : ∀ s l s', Inv s → ok s l → T.step s l = some s' → Q s l s')
    (hs : Inv s) (hok : T.Meets ok s ls) : T.EveryStep Q s ls := by
  induction ls generalizing s with
  | nil => trivial
  | cons l ls ih =>
    exact fun s' h =>
      ⟨himp s l s' hs hok.1 h, ih (hstep s l s' hs hok.1 h) (hok.2 s' h)⟩

theorem meets_iff_of_invariant {p q : σ → ε → Prop} (hiff : ∀ s l, Inv s → ok s l → (p s l ↔ q s l))
    (hstep : ∀ s l s', Inv s → ok s l → p s l → T.step s l = some s' → Inv s')
    (hs : Inv s) (hok : T.Meets ok s ls) : T.Meets p s ls ↔ T.Meets q s ls := by
  induction ls generalizing s with
  | nil => exact Iff.rfl
  | cons l ls ih =>
    have hhead := hiff s l hs hok.1
    constructor
    · rintro ⟨hp, hrest⟩
      exact ⟨hhead.mp hp, fun s' h => (ih (hstep s l s' hs hok.1 hp h) (hok.2 s' h)).mp (hrest s' h)⟩
    · rintro ⟨hq, hrest⟩
      have hp := hhead.mpr hq
      exact ⟨hp, fun s' h => (ih (hstep s l s' hs hok.1 hp h) (hok.2 s' h)).mpr (hrest s' h)⟩

theorem exec_of_progress (hstep : ∀ s l, Inv s → ok s l → ∃ s', T.step s l = some s' ∧ Inv s')
    (hs : Inv s) (hok : T.Meets ok s ls) : ∃ s', T.exec s ls = some s' := by
  induction ls generalizing s with
  | nil => exact ⟨s, rfl⟩
  | cons l ls ih =>
    obtain ⟨m, hm, hinv⟩ := hstep s l hs hok.1
    rw [exec_cons_of_step T hm]
    exact ih hinv (hok.2 m hm)

theorem meets_of_always (h : ∀ s l s', T.step s l = some s' → P s' → ok s l)
    (hrun : T.exec s ls = some s') (hP : T.Always P s ls) : T.Meets ok s ls := by
  induction ls generalizing s with
  | nil => trivial
  | cons l ls ih =>
    obtain ⟨m, hm, hrest⟩ := Option.bind_eq_some_iff.mp hrun
    refine ⟨h s l m hm (hP.2 m hm).head, fun m' hm' => ?_⟩
    obtain rfl : m = m' := Option.some.inj (hm.symm.trans hm')
    exact ih hrest (hP.2 m hm)

theorem someStep_cons {l : ε} (h : T.step s l = some s')
    (ls : List ε) : T.SomeStep Q s (l :: ls) ↔ Q s l s' ∨ T.SomeStep Q s' ls := by
  constructor
  · rintro ⟨m, hm, hQ⟩
    obtain rfl : m = s' := Option.some.inj (hm.symm.trans h)
    exact hQ
  · exact fun hQ => ⟨s', h, hQ⟩

theorem not_someStep_of_invariant {p : ε → Prop}
    (hstep : ∀ s l s', Inv s → p l → T.step s l = some s' → Inv s' ∧ ¬Q s l s')
    (hs : Inv s) (hp : ∀ l ∈ ls, p l) : ¬T.SomeStep Q s ls := by
  induction ls generalizing s with
  | nil => exact id
  | cons l ls ih =>
    rintro ⟨s', h, hQ | hrest⟩
    · exact (hstep s l s' hs (hp l List.mem_cons_self) h).2 hQ
    · exact ih (hstep s l s' hs (hp l List.mem_cons_self) h).1
        (fun m hm => hp m (List.mem_cons_of_mem l hm)) hrest

theorem meets_and_of_forall {p : ε → Prop}
    (hp : ∀ l ∈ ls, p l) (hok : T.Meets ok s ls) : T.Meets (fun s l => p l ∧ ok s l) s ls := by
  induction ls generalizing s with
  | nil => trivial
  | cons l ls ih =>
    exact ⟨⟨hp l List.mem_cons_self, hok.1⟩,
      fun s' hs => ih (fun m hm => hp m (List.mem_cons_of_mem _ hm)) (hok.2 s' hs)⟩

theorem always_iff_exec : T.Always P s ls ↔ ∀ pre s', pre <+: ls → T.exec s pre = some s' → P s' := by
  induction ls generalizing s with
  | nil =>
    constructor
    · intro h pre s' hpre hs
      obtain rfl := List.prefix_nil.mp hpre
      exact Option.some.inj hs ▸ h
    · exact fun h => h [] s List.prefix_rfl rfl
  | cons l ls ih =>
    constructor
    · rintro ⟨hs, hrest⟩ pre s' hpre hexec
      cases pre with
      | nil => exact Option.some.inj hexec ▸ hs
      | cons m pre =>
        obtain ⟨rfl, htail⟩ := List.cons_prefix_cons.mp hpre
        obtain ⟨s₁, h₁, hexec⟩ := Option.bind_eq_some_iff.mp hexec
        exact ih.mp (hrest s₁ h₁) pre s' htail hexec
    · intro h
      refine ⟨h [] s List.nil_prefix rfl, fun s₁ h₁ => ih.mpr fun pre s' hpre hexec => ?_⟩
      exact h (l :: pre) s' (List.cons_prefix_cons.mpr ⟨rfl, hpre⟩)
        (by rw [exec_cons_of_step T h₁, hexec])

end LabelledSystem

end Prosperity
