import Mathlib.Data.Finset.Basic

/-!
# Live registers

A step of a straight-line program writes some registers, from the values of some registers and of a
part of the state that only some of the steps change. Two runs, one of which leaves out steps, agree on
the registers that are live as long as no step is left out that writes a live register or changes that
part.
-/

namespace Prosperity

/-- The steps of instructions `I` on states `S` with registers `R`, and a hidden part `H`. -/
structure Transfer (I S R V H : Type) where
  step : I → S → S
  reg : S → R → V
  hidden : S → H
  reads : I → Finset R
  writes : I → Finset R
  /-- The step may change the hidden part. -/
  keeps : I → Bool
  frame : ∀ {i : I} {r : R}, r ∉ writes i → ∀ s, reg (step i s) r = reg s r
  frame_hidden : ∀ {i : I}, keeps i = false → ∀ s, hidden (step i s) = hidden s
  determined : ∀ {i : I} {s t : S}, hidden s = hidden t → (∀ r ∈ reads i, reg s r = reg t r) →
    hidden (step i s) = hidden (step i t) ∧ ∀ r ∈ writes i, reg (step i s) r = reg (step i t) r

namespace Transfer

variable {I S R V H : Type} {T : Transfer I S R V H} {i : I} {s t : S}
  {live regs : Finset R}

structure Agree (T : Transfer I S R V H) (live : Finset R) (s t : S) : Prop where
  hidden : T.hidden s = T.hidden t
  reg : ∀ r ∈ live, T.reg s r = T.reg t r

theorem Agree.refl (T : Transfer I S R V H) (live : Finset R) (s : S) : T.Agree live s s :=
  ⟨rfl, fun _ _ => rfl⟩

theorem Agree.mono (h : T.Agree live s t) (hsub : regs ⊆ live) : T.Agree regs s t :=
  ⟨h.hidden, fun r hr => h.reg r (hsub hr)⟩

/-- **A step that both make**: what it writes is live no more, and what it reads is. -/
theorem Agree.step [DecidableEq R] (h : T.Agree ((live \ T.writes i) ∪ T.reads i) s t) :
    T.Agree live (T.step i s) (T.step i t) := by
  have hreads : ∀ r ∈ T.reads i, T.reg s r = T.reg t r := fun r hr =>
    h.reg r (Finset.mem_union_right _ hr)
  obtain ⟨hhidden, hwrites⟩ := T.determined h.hidden hreads
  refine ⟨hhidden, ?_⟩
  intro r hr
  by_cases hw : r ∈ T.writes i
  · exact hwrites r hw
  · -- A register that the step leaves alone was live before it.
    rw [T.frame hw, T.frame hw]
    exact h.reg r (Finset.mem_union_left _ (Finset.mem_sdiff.mpr ⟨hr, hw⟩))

/-- **A step that one leaves out**: it writes no live register, and keeps the hidden part. -/
theorem Agree.skip (h : T.Agree live s t) (hdead : Disjoint (T.writes i) live)
    (hkeeps : T.keeps i = false) : T.Agree live (T.step i s) t := by
  refine ⟨(T.frame_hidden hkeeps s).trans h.hidden, ?_⟩
  intro r hr
  have hw : r ∉ T.writes i := fun hw => Finset.disjoint_left.mp hdead hw hr
  rw [T.frame hw]
  exact h.reg r hr

end Transfer

/-- The steps of instructions `I` on states `S` with registers `R`, some of which a step writes only on
occasion. -/
structure Tracked (I S R V : Type) where
  step : I → S → S
  reg : S → R → V
  reads : I → Finset R
  writes : I → Finset R
  /-- What a step writes on every occasion. -/
  kills : I → Finset R
  frame : ∀ {i : I} {r : R}, r ∉ writes i → ∀ s, reg (step i s) r = reg s r
  determined : ∀ {i : I} {s t : S} {r : R}, (∀ q ∈ reads i, reg s q = reg t q) →
    (r ∉ kills i → reg s r = reg t r) → reg (step i s) r = reg (step i t) r

namespace Tracked

variable {I S R V : Type} {T : Tracked I S R V} {i : I} {s t : S} {live regs : Finset R}

def Agree (T : Tracked I S R V) (live : Finset R) (s t : S) : Prop :=
  ∀ r ∈ live, T.reg s r = T.reg t r

/-- **A step that both make**: only what it always writes is live no more. -/
theorem Agree.step [DecidableEq R] (h : T.Agree ((live \ T.kills i) ∪ T.reads i) s t) :
    T.Agree live (T.step i s) (T.step i t) := by
  intro r hr
  apply T.determined
  · intro q hq
    exact h q (Finset.mem_union_right _ hq)
  · intro hkill
    exact h r (Finset.mem_union_left _ (Finset.mem_sdiff.mpr ⟨hr, hkill⟩))

/-- **A step that one leaves out**: it writes no live register. -/
theorem Agree.skip (h : T.Agree live s t) (hdead : Disjoint (T.writes i) live) : T.Agree live (T.step i s) t := by
  intro r hr
  have hw : r ∉ T.writes i := fun hw => Finset.disjoint_left.mp hdead hw hr
  rw [T.frame hw]
  exact h r hr

end Tracked

end Prosperity
