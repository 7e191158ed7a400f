import Mathlib.Data.List.Induction
import Mathlib.Data.List.Nodup
import Mathlib.Data.List.Pairwise

/-!
# Overlays of a row of registers

Writes of several registers in a row are laid over each other: a write retires every earlier one that it
meets, also where a part of that is left. The version of some registers is the write that is still there
and covers them all.
-/

namespace Prosperity

structure Overlay (ι : Type) where
  first : ℕ
  count : ℕ
  version : ι

namespace Overlay

variable {ι : Type}

def Covers (o : Overlay ι) (first count : ℕ) : Prop :=
  o.first ≤ first ∧ first + count ≤ o.first + o.count

def Has (o : Overlay ι) (register : ℕ) : Prop := o.first ≤ register ∧ register < o.first + o.count

/-- The write and another one have a register in common. -/
def Meets (o o' : Overlay ι) : Prop := o'.first < o.first + o.count ∧ o.first < o'.first + o'.count

instance (o : Overlay ι) (first count : ℕ) : Decidable (o.Covers first count) :=
  inferInstanceAs (Decidable (_ ∧ _))

instance (o o' : Overlay ι) : Decidable (o.Meets o') := inferInstanceAs (Decidable (_ ∧ _))

instance (o : Overlay ι) (register : ℕ) : Decidable (o.Has register) := inferInstanceAs (Decidable (_ ∧ _))

theorem Meets.symm {o o' : Overlay ι} (h : o.Meets o') : o'.Meets o := ⟨h.2, h.1⟩

theorem Has.meets {o o' : Overlay ι} {register : ℕ} (h : o.Has register) (h' : o'.Has register) : o.Meets o' := by
  obtain ⟨hle, hlt⟩ := h
  obtain ⟨hle', hlt'⟩ := h'
  exact ⟨by omega, by omega⟩

theorem Meets.has {o o' : Overlay ι} (h : o.Meets o') (hpos : 0 < o.count) (hpos' : 0 < o'.count) :
    o.Has (max o.first o'.first) ∧ o'.Has (max o.first o'.first) := by
  obtain ⟨hlt, hlt'⟩ := h
  constructor
  · exact ⟨Nat.le_max_left _ _, Nat.max_lt.mpr ⟨by omega, hlt⟩⟩
  · exact ⟨Nat.le_max_right _ _, Nat.max_lt.mpr ⟨hlt', by omega⟩⟩

theorem Covers.has {o : Overlay ι} {first count : ℕ} (hpos : 0 < count) (h : o.Covers first count) :
    o.Has first := ⟨h.1, by have := h.2; omega⟩

theorem Covers.meets {o o' : Overlay ι} {first count : ℕ} (hpos : 0 < count)
    (h : o.Covers first count) (h' : o'.Covers first count) : o.Meets o' :=
  (h.has hpos).meets (h'.has hpos)

end Overlay

section Lay

variable {ι : Type} {live history mid : List (Overlay ι)} {o : Overlay ι} {first count : ℕ}

/-- A write retires those that it meets. -/
def lay (live : List (Overlay ι)) (o : Overlay ι) : List (Overlay ι) :=
  (live.filter fun old => ¬old.Meets o) ++ [o]

def layAll (history : List (Overlay ι)) : List (Overlay ι) := history.foldl lay []

/-- The last write that is there and covers the registers. -/
def versionOf (live : List (Overlay ι)) (first count : ℕ) : Option ι :=
  (live.reverse.find? fun o => o.Covers first count).map Overlay.version

/-! ## What is there -/

theorem layAll_snoc (history : List (Overlay ι)) (o : Overlay ι) : layAll (history ++ [o]) = lay (layAll history) o :=
  List.foldl_concat _ _ _ _

theorem mem_lay {old : Overlay ι} : old ∈ lay live o ↔ (old ∈ live ∧ ¬old.Meets o) ∨ old = o := by
  simp only [lay, List.mem_append, List.mem_filter, decide_eq_true_eq, List.mem_singleton]

theorem mem_foldl_lay_of_mem (ho : o ∈ live) (hmid : ∀ o' ∈ mid, ¬o.Meets o') : o ∈ mid.foldl lay live := by
  induction mid generalizing live with
  | nil => exact ho
  | cons o' mid ih =>
    have hkept : o ∈ lay live o' := mem_lay.mpr (.inl ⟨ho, hmid o' List.mem_cons_self⟩)
    exact ih hkept fun o'' h => hmid o'' (List.mem_cons_of_mem _ h)

theorem of_mem_foldl_lay (ho : o ∈ mid.foldl lay live) : o ∈ mid ∨ (o ∈ live ∧ ∀ o' ∈ mid, ¬o.Meets o') := by
  induction mid generalizing live with
  | nil => exact .inr ⟨ho, fun _ h => absurd h List.not_mem_nil⟩
  | cons o' mid ih =>
    obtain hmem | ⟨hmem, hmid⟩ := ih ho
    · exact .inl (List.mem_cons_of_mem _ hmem)
    · obtain ⟨hlive, hmeets⟩ | rfl := mem_lay.mp hmem
      · refine .inr ⟨hlive, fun o'' h => ?_⟩
        obtain rfl | h := List.mem_cons.mp h
        · exact hmeets
        · exact hmid o'' h
      · exact .inl List.mem_cons_self

theorem mem_of_mem_layAll (ho : o ∈ layAll history) : o ∈ history := by
  obtain hmem | ⟨hmem, _⟩ := of_mem_foldl_lay ho
  · exact hmem
  · exact absurd hmem List.not_mem_nil

theorem apart_layAll (history : List (Overlay ι)) : (layAll history).Pairwise fun o o' => ¬o.Meets o' := by
  induction history using List.reverseRecOn with
  | nil => exact .nil
  | append_singleton history o ih =>
    rw [layAll_snoc]
    refine List.pairwise_append.mpr ⟨ih.filter _, List.pairwise_singleton _ _, fun old hold o' ho' => ?_⟩
    obtain rfl := List.mem_singleton.mp ho'
    exact of_decide_eq_true (List.mem_filter.mp hold).2

theorem eq_of_meets {o' : Overlay ι} (ho : o ∈ layAll history) (ho' : o' ∈ layAll history)
    (h : o.Meets o') : o = o' := by
  by_contra hne
  have : Std.Symm fun a b : Overlay ι => ¬a.Meets b := ⟨fun a b hab hba => hab hba.symm⟩
  exact (apart_layAll history).forall ho ho' hne h

/-! ## Versions -/

theorem of_versionOf {version : ι} (h : versionOf live first count = some version) :
    ∃ o ∈ live, o.Covers first count ∧ o.version = version := by
  obtain ⟨o, hfind, hversion⟩ := Option.map_eq_some_iff.mp h
  have hmem := List.mem_reverse.mp (List.mem_of_find?_eq_some hfind)
  have hcovers := List.find?_some hfind
  exact ⟨o, hmem, of_decide_eq_true hcovers, hversion⟩

/-- **One write at most covers some registers.** -/
theorem versionOf_of_mem (hpos : 0 < count) (ho : o ∈ layAll history) (hcovers : o.Covers first count) :
    versionOf (layAll history) first count = some o.version := by
  cases h : versionOf (layAll history) first count with
  | some version =>
    obtain ⟨o', ho', hcovers', rfl⟩ := of_versionOf h
    rw [eq_of_meets ho' ho (hcovers'.meets hpos hcovers)]
  | none =>
    have hnone := List.find?_eq_none.mp (Option.map_eq_none_iff.mp h) o (List.mem_reverse.mpr ho)
    exact absurd (decide_eq_true hcovers) hnone

theorem versionOf_ne_of_filled {before after : List (Overlay ι)} (hpos : 0 < count)
    (hcovers : o.Covers first count) (hafter : ∀ o' ∈ after, ¬o.Meets o')
    (hnew : ∀ o' ∈ history, o'.version ≠ o.version) : versionOf (layAll history) first count ≠
      versionOf (layAll (history ++ (before ++ o :: after))) first count := by
  have hmem : o ∈ layAll (history ++ (before ++ o :: after)) := by
    rw [layAll, List.foldl_append, List.foldl_append, List.foldl_cons]
    exact mem_foldl_lay_of_mem (mem_lay.mpr (.inr rfl)) hafter
  rw [versionOf_of_mem hpos hmem hcovers]
  intro h
  obtain ⟨o', ho', _, hversion⟩ := of_versionOf h
  exact hnew o' (mem_of_mem_layAll ho') hversion

theorem versionOf_ne_of_retired {o' : Overlay ι} (hpos : 0 < count) (ho : o ∈ layAll history)
    (hcovers : o.Covers first count) (ho' : o' ∈ mid) (hmeets : o.Meets o')
    (hnodup : ((history ++ mid).map Overlay.version).Nodup) :
    versionOf (layAll history) first count ≠ versionOf (layAll (history ++ mid)) first count := by
  rw [versionOf_of_mem hpos ho hcovers]
  intro h
  obtain ⟨l, hl, _, hversion⟩ := of_versionOf h.symm
  have hhistory := mem_of_mem_layAll ho
  -- the versions tell the writes apart, so it would be the same write
  have hinj := List.inj_on_of_nodup_map hnodup
  obtain rfl : l = o :=
    hinj (mem_of_mem_layAll hl) (List.mem_append_left _ hhistory) hversion
  rw [layAll, List.foldl_append] at hl
  obtain hmid | ⟨_, hapart⟩ := of_mem_foldl_lay hl
  · rw [List.map_append] at hnodup
    exact List.disjoint_of_nodup_append hnodup (List.mem_map_of_mem hhistory)
      (List.mem_map_of_mem hmid)
  · exact hapart o' ho' hmeets

end Lay

end Prosperity
