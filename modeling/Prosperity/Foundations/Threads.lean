import Mathlib.Data.Fintype.Defs
import Prosperity.Foundations.Execution

/-!
# Threads over shared state

A system of threads has one shared state and one local state per thread, and an event is an
action of one thread: it reads and writes the shared state and the thread's own local state.
`Guarded` is what a mutex in the shared state gives: only its owner is inside.
-/

namespace Prosperity

universe u v w x

structure ThreadSystem (ι : Type u) (σ : Type v) (τ : Type w) (α : Type x) where
  act : ι → α → σ → τ → Option (σ × τ)

structure Threads (ι : Type u) (σ : Type v) (τ : Type w) where
  shared : σ
  thread : ι → τ

namespace ThreadSystem

variable {ι : Type u} {σ : Type v} {τ : Type w} {α : Type x} [DecidableEq ι]
  (T : ThreadSystem ι σ τ α)

/-- The state after thread `t`'s local state and the shared state have moved on. -/
def move (s : Threads ι σ τ) (t : ι) (r : σ × τ) : Threads ι σ τ :=
  ⟨r.1, Function.update s.thread t r.2⟩

def system : LabelledSystem (Threads ι σ τ) (ι × α) :=
  ⟨fun s e => (T.act e.1 e.2 s.shared (s.thread e.1)).map (move s e.1)⟩

theorem step_eq_some {s s' : Threads ι σ τ} {t : ι} {a : α} : T.system.step s (t, a) = some s' ↔
      ∃ r, T.act t a s.shared (s.thread t) = some r ∧ move s t r = s' :=
  Option.map_eq_some_iff

@[simp] theorem move_shared (s : Threads ι σ τ) (t : ι) (r : σ × τ) : (move s t r).shared = r.1 := rfl

@[simp] theorem move_thread_self (s : Threads ι σ τ) (t : ι) (r : σ × τ) :
    (move s t r).thread t = r.2 := Function.update_self ..

theorem move_thread_of_ne (s : Threads ι σ τ) {t u : ι} (r : σ × τ) (h : u ≠ t) :
    (move s t r).thread u = s.thread u := Function.update_of_ne h ..

end ThreadSystem

section Some

variable {ι : Type u} {τ : Type w} [DecidableEq ι]

theorem exists_thread_iff (f : ι → τ) (t : ι) (P : τ → Prop) : (∃ u, P (f u)) ↔ P (f t) ∨ ∃ u, u ≠ t ∧ P (f u) := by
  constructor
  · rintro ⟨u, hu⟩
    by_cases hut : u = t
    · exact .inl (hut ▸ hu)
    · exact .inr ⟨u, hut, hu⟩
  · rintro (ht | ⟨u, _, hu⟩)
    · exact ⟨t, ht⟩
    · exact ⟨u, hu⟩

theorem exists_update_iff (f : ι → τ) (t : ι) (a : τ) (P : τ → Prop) :
    (∃ u, P (Function.update f t a u)) ↔ P a ∨ ∃ u, u ≠ t ∧ P (f u) := by
  rw [exists_thread_iff _ t, Function.update_self]
  refine or_congr_right (exists_congr fun u => and_congr_right fun hut => ?_)
  rw [Function.update_of_ne hut]

end Some

section Guarded

variable {ι : Type u} {τ : Type w} [DecidableEq ι] {inside : τ → Bool} {owner owner' : Option ι}
  {f : ι → τ}

def Guarded (inside : τ → Bool) (owner : Option ι) (f : ι → τ) : Prop :=
  ∀ t, inside (f t) = true → owner = some t

omit [DecidableEq ι] in
theorem Guarded.unique (h : Guarded inside owner f) {t u : ι} (ht : inside (f t) = true)
    (hu : inside (f u) = true) : t = u :=
  Option.some.inj ((h t ht).symm.trans (h u hu))

theorem Guarded.step (h : Guarded inside owner f) {t : ι} {a : τ}
    (howner : owner' = owner ∨ owner = none ∨ owner = some t) (hin : inside a = true → owner' = some t) :
    Guarded inside owner' (Function.update f t a) := by
  intro u hu
  by_cases hut : u = t
  · subst hut
    rw [Function.update_self] at hu
    exact hin hu
  · rw [Function.update_of_ne hut] at hu
    have hown := h u hu
    rcases howner with heq | hnone | ht
    · rw [heq, hown]
    · rw [hnone] at hown
      cases hown
    · rw [ht] at hown
      exact absurd (Option.some.inj hown).symm hut

end Guarded

end Prosperity
