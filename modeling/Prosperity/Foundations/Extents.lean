import Mathlib.Data.List.Basic
import Mathlib.Data.List.Pairwise
import Mathlib.Data.List.Perm.Basic
import Mathlib.Data.List.TakeWhile
import Mathlib.Tactic.Common

/-!
# Maps of extents

A free list keeps extents, each an offset with a length, in an ordered map from the offset. The map
is modelled by the list of its entries in key order. How often a position is covered is a count, so
that moving an extent from one list to another, splitting it and joining two that touch leave the
counts of all lists together as they were.
-/

namespace Prosperity

/-- An offset with a length. -/
abbrev Extent : Type := ℕ × ℕ

def Extent.Has (e : Extent) (x : ℕ) : Prop := e.1 ≤ x ∧ x < e.1 + e.2

instance (e : Extent) (x : ℕ) : Decidable (e.Has x) := inferInstanceAs (Decidable (_ ∧ _))

def cover (l : List Extent) (x : ℕ) : ℕ := l.countP fun e => e.Has x

def Extent.Before (a b : Extent) : Prop := a.1 + a.2 ≤ b.1 ∧ a.1 < b.1

def Parted (l : List Extent) : Prop := l.Pairwise Extent.Before

/-- `emplace` of an ordered map: an entry whose key is there already stays. -/
def emplace (new : Extent) : List Extent → List Extent
  | [] => [new]
  | e :: es =>
    if new.1 < e.1 then new :: e :: es
    else if new.1 = e.1 then e :: es
    else e :: emplace new es

def eraseKey (k : ℕ) (l : List Extent) : List Extent := l.filter fun e => e.1 ≠ k

theorem cover_cons (e : Extent) (l : List Extent) (x : ℕ) :
    cover (e :: l) x = cover l x + if e.Has x then 1 else 0 := by
  rw [cover, List.countP_cons]
  simp [cover]

theorem cover_append (l m : List Extent) (x : ℕ) : cover (l ++ m) x = cover l x + cover m x :=
  List.countP_append

variable {l : List Extent} {a b new e : Extent}

theorem cover_perm {m : List Extent} (h : l.Perm m) (x : ℕ) : cover l x = cover m x :=
  h.countP_eq _

def Extent.Apart (a b : Extent) : Prop := a.Before b ∨ b.Before a

theorem Extent.Apart.key_ne (h : a.Apart b) : a.1 ≠ b.1 := by
  rcases h with h | h
  · exact Nat.ne_of_lt h.2
  · exact Nat.ne_of_gt h.2

theorem Extent.Apart.symm (h : a.Apart b) : b.Apart a := Or.symm h

theorem Parted.apart (h : Parted l) (ha : a ∈ l) (hb : b ∈ l) (hne : a.1 ≠ b.1) : a.Apart b := by
  have : Std.Symm Extent.Apart := ⟨fun _ _ => Extent.Apart.symm⟩
  have happ : l.Pairwise Extent.Apart := h.imp Or.inl
  exact happ.forall ha hb fun heq => hne (by rw [heq])

theorem ite_has_join (a n m x : ℕ) : (if Extent.Has (a, n + m) x then 1 else 0) =
    (if Extent.Has (a, n) x then 1 else 0) + if Extent.Has (a + n, m) x then 1 else 0 := by
  simp only [Extent.Has]
  by_cases hlo : a ≤ x <;> by_cases hmid : x < a + n <;> by_cases hhi : x < a + n + m <;>
    simp [hlo, hmid, hhi, ← Nat.add_assoc] <;> omega

theorem perm_emplace (h : ∀ e ∈ l, new.1 ≠ e.1) : (emplace new l).Perm (new :: l) := by
  induction l with
  | nil => exact .refl _
  | cons e es ih =>
    rw [List.forall_mem_cons] at h
    rw [emplace, if_neg h.1]
    split_ifs
    · exact .refl _
    · exact ((ih h.2).cons e).trans (.swap new e es)

theorem Parted.emplace (h : Parted l) (hnew : ∀ e ∈ l, new.Apart e) : Parted (emplace new l) := by
  induction l with
  | nil => exact List.pairwise_singleton _ _
  | cons e es ih =>
    rw [List.forall_mem_cons] at hnew
    obtain ⟨hhead, htail⟩ := List.pairwise_cons.mp h
    rw [Prosperity.emplace, if_neg hnew.1.key_ne]
    split_ifs with hlt
    · -- In front of the head, and so of all behind it.
      have hbefore : new.Before e := hnew.1.resolve_right fun hb => Nat.lt_asymm hlt hb.2
      refine List.pairwise_cons.mpr ⟨List.forall_mem_cons.mpr ⟨hbefore, fun a ha => ?_⟩, h⟩
      have hea := hhead a ha
      exact ⟨by have := hbefore.1; have := hea.2; omega, Nat.lt_trans hbefore.2 hea.2⟩
    · have hbefore : e.Before new := hnew.1.resolve_left fun hb => hlt hb.2
      refine List.pairwise_cons.mpr ⟨fun a ha => ?_, ih htail hnew.2⟩
      have hkeys : ∀ a ∈ es, new.1 ≠ a.1 := fun a ha => (hnew.2 a ha).key_ne
      rcases List.mem_cons.mp ((perm_emplace hkeys).mem_iff.mp ha) with rfl | ha
      · exact hbefore
      · exact hhead a ha

theorem Parted.eraseKey (h : Parted l) (k : ℕ) : Parted (eraseKey k l) :=
  List.Pairwise.filter _ h

theorem mem_eraseKey {k : ℕ} : e ∈ eraseKey k l ↔ e ∈ l ∧ e.1 ≠ k := by
  simp [eraseKey]

theorem perm_eraseKey (h : Parted l) (he : e ∈ l) : l.Perm (e :: eraseKey e.1 l) := by
  induction l with
  | nil => cases he
  | cons a l ih =>
    obtain ⟨hhead, htail⟩ := List.pairwise_cons.mp h
    by_cases hkey : a.1 = e.1
    · have hae : a = e := by
        rcases List.mem_cons.mp he with rfl | he
        · rfl
        · exact absurd hkey (Nat.ne_of_lt (hhead e he).2)
      subst hae
      have hrest : Prosperity.eraseKey a.1 (a :: l) = l := by
        rw [Prosperity.eraseKey, List.filter_cons_of_neg (by simp)]
        exact List.filter_eq_self.mpr fun b hb => by simpa using (Nat.ne_of_lt (hhead b hb).2).symm
      rw [hrest]
    · have he' : e ∈ l := (List.mem_cons.mp he).resolve_left fun hea => hkey (by rw [hea])
      rw [Prosperity.eraseKey, List.filter_cons_of_pos (by simpa using hkey)]
      exact ((ih htail he').cons a).trans (.swap e a _)

theorem pairwise_of_cover_le (h : ∀ x, cover l x ≤ 1) : l.Pairwise fun a b => ∀ x, ¬(a.Has x ∧ b.Has x) := by
  induction l with
  | nil => exact .nil
  | cons e l ih =>
    refine List.pairwise_cons.mpr ⟨fun b hb x hx => ?_, ih fun x => ?_⟩
    · have hcover := h x
      have hpos : 0 < cover l x := List.countP_pos_iff.mpr ⟨b, hb, by simpa using hx.2⟩
      rw [cover_cons, if_pos hx.1] at hcover
      omega
    · have hcover := h x
      rw [cover_cons] at hcover
      omega

theorem apart_of_disjoint (ha : 0 < a.2) (hb : 0 < b.2) (h : ∀ x, ¬(a.Has x ∧ b.Has x)) : a.Apart b := by
  have hmax := h (max a.1 b.1)
  simp only [Extent.Has] at hmax
  simp only [Extent.Apart, Extent.Before]
  omega

/-! ## Putting an extent back -/

def joinPrev (l : List Extent) (new : Extent) : List Extent × Extent :=
  match (l.takeWhile fun e => e.1 < new.1).getLast? with
  | some p => if p.1 + p.2 = new.1 then (eraseKey p.1 l, (p.1, new.2 + p.2)) else (l, new)
  | none => (l, new)

/-- The extent joined with `next`, if that begins where it ends. -/
def joinNext (next : Option Extent) (l : List Extent) (new : Extent) : List Extent × Extent :=
  match next with
  | some n => if new.1 + new.2 = n.1 then (eraseKey n.1 l, (new.1, new.2 + n.2)) else (l, new)
  | none => (l, new)

def release (l : List Extent) (new : Extent) : List Extent :=
  let joined := joinPrev l new
  let joined := joinNext (l.find? fun e => new.1 ≤ e.1) joined.1 joined.2
  emplace joined.2 joined.1

structure Joined (l : List Extent) (new : Extent) (r : List Extent × Extent) : Prop where
  parted : Parted r.1
  apart : ∀ e ∈ r.1, r.2.Apart e
  cover : ∀ x, cover (r.2 :: r.1) x = cover (new :: l) x

theorem Joined.refl (h : Parted l) (hnew : ∀ e ∈ l, new.Apart e) : Joined l new (l, new) := ⟨h, hnew, fun _ => rfl⟩

theorem joined_before {p : Extent} (h : Parted l)
    (hnew : ∀ e ∈ l, new.Apart e) (hp : p ∈ l) (hmeet : p.1 + p.2 = new.1) :
    Joined l new (eraseKey p.1 l, (p.1, new.2 + p.2)) := by
  have hperm := perm_eraseKey h hp
  refine ⟨h.eraseKey _, fun e he => ?_, fun x => ?_⟩
  · obtain ⟨hel, hne⟩ := mem_eraseKey.mp he
    have hpe := h.apart hp hel (Ne.symm hne)
    have hne' := hnew e hel
    simp only [Extent.Apart, Extent.Before] at hpe hne' ⊢
    omega
  · obtain ⟨o, b⟩ := new
    obtain ⟨a, n⟩ := p
    obtain rfl : a + n = o := hmeet
    rw [cover_cons, cover_cons, cover_perm hperm, cover_cons, Nat.add_comm b, ite_has_join]
    dsimp only
    omega

theorem joined_behind {n : Extent} (h : Parted l)
    (hnew : ∀ e ∈ l, new.Apart e) (hn : n ∈ l) (hmeet : new.1 + new.2 = n.1) :
    Joined l new (eraseKey n.1 l, (new.1, new.2 + n.2)) := by
  have hperm := perm_eraseKey h hn
  refine ⟨h.eraseKey _, fun e he => ?_, fun x => ?_⟩
  · obtain ⟨hel, hne⟩ := mem_eraseKey.mp he
    have hnext := h.apart hn hel (Ne.symm hne)
    have hne' := hnew e hel
    have hself := hnew n hn
    simp only [Extent.Apart, Extent.Before] at hnext hne' hself ⊢
    omega
  · obtain ⟨o, b⟩ := new
    obtain ⟨a, m⟩ := n
    obtain rfl : o + b = a := hmeet
    rw [cover_cons, cover_cons, cover_perm hperm, cover_cons, ite_has_join]
    dsimp only
    omega

theorem joined_joinPrev (h : Parted l) (hnew : ∀ e ∈ l, new.Apart e) : Joined l new (joinPrev l new) := by
  unfold joinPrev
  split
  case h_1 p hp =>
    split_ifs with hmeet
    · exact joined_before h hnew (List.takeWhile_subset _ (List.mem_of_getLast? hp)) hmeet
    · exact .refl h hnew
  case h_2 => exact .refl h hnew

theorem joined_joinNext {next : Option Extent} (h : Parted l) (hnew : ∀ e ∈ l, new.Apart e)
    (hnext : ∀ n ∈ next, new.1 + new.2 = n.1 → n ∈ l) : Joined l new (joinNext next l new) := by
  unfold joinNext
  split
  case h_1 n =>
    split_ifs with hmeet
    · exact joined_behind h hnew (hnext n rfl hmeet) hmeet
    · exact .refl h hnew
  case h_2 => exact .refl h hnew

theorem mem_joinPrev (he : e ∈ l) (hkey : new.1 ≤ e.1) : e ∈ (joinPrev l new).1 := by
  unfold joinPrev
  split
  case h_1 p hp =>
    split_ifs
    · have hlt := List.mem_takeWhile_imp (List.mem_of_getLast? hp)
      refine mem_eraseKey.mpr ⟨he, fun heq => ?_⟩
      simp only [decide_eq_true_eq] at hlt
      omega
    · exact he
  case h_2 => exact he

theorem joined_release (h : Parted l) (hnew : ∀ e ∈ l, new.Apart e) : let joined := joinPrev l new
    Joined joined.1 joined.2
      (joinNext (l.find? fun e => new.1 ≤ e.1) joined.1 joined.2) := by
  have hprev := joined_joinPrev h hnew
  refine joined_joinNext hprev.parted hprev.apart fun n hn _ => ?_
  refine mem_joinPrev (List.mem_of_find?_eq_some hn) ?_
  simpa using List.find?_some hn

theorem Parted.release (h : Parted l) (hnew : ∀ e ∈ l, new.Apart e) : Parted (release l new) :=
  (joined_release h hnew).parted.emplace (joined_release h hnew).apart

/-- **Putting an extent back** counts it once more. -/
theorem cover_release (h : Parted l) (hnew : ∀ e ∈ l, new.Apart e) (x : ℕ) :
    cover (release l new) x = cover l x + if new.Has x then 1 else 0 := by
  have hprev := joined_joinPrev h hnew
  have hboth := joined_release h hnew
  rw [release, cover_perm (perm_emplace fun e he => (hboth.apart e he).key_ne), hboth.cover, hprev.cover, cover_cons]

def JoinClosed (P : Extent → Prop) : Prop := ∀ a n m, P (a, n) → P (a + n, m) → P (a, n + m)

theorem forall_joinPrev {P : Extent → Prop} (hP : JoinClosed P) (hl : ∀ e ∈ l, P e) (hnew : P new) :
    (∀ e ∈ (joinPrev l new).1, P e) ∧ P (joinPrev l new).2 := by
  unfold joinPrev
  split
  case h_1 p hp =>
    split_ifs with hmeet
    · refine ⟨fun e he => hl e (mem_eraseKey.mp he).1, ?_⟩
      rw [Nat.add_comm]
      exact hP _ _ _ (hl p (List.takeWhile_subset _ (List.mem_of_getLast? hp))) (by rwa [hmeet])
    · exact ⟨hl, hnew⟩
  case h_2 => exact ⟨hl, hnew⟩

theorem forall_joinNext {P : Extent → Prop} (hP : JoinClosed P) (next : Option Extent)
    (hnext : ∀ n ∈ next, P n) (hl : ∀ e ∈ l, P e) (hnew : P new) :
    (∀ e ∈ (joinNext next l new).1, P e) ∧ P (joinNext next l new).2 := by
  unfold joinNext
  split
  case h_1 n =>
    split_ifs with hmeet
    · refine ⟨fun e he => hl e (mem_eraseKey.mp he).1, ?_⟩
      exact hP _ _ _ hnew (by rw [hmeet]; exact hnext n rfl)
    · exact ⟨hl, hnew⟩
  case h_2 => exact ⟨hl, hnew⟩

theorem forall_release {P : Extent → Prop} (hP : JoinClosed P)
    (h : Parted l) (happ : ∀ e ∈ l, new.Apart e) (hl : ∀ e ∈ l, P e) (hnew : P new) : ∀ e ∈ release l new, P e := by
  obtain ⟨hl', hnew'⟩ := forall_joinPrev hP hl hnew
  obtain ⟨hl'', hnew''⟩ := forall_joinNext hP (l.find? fun e => new.1 ≤ e.1)
    (fun n hn => hl n (List.mem_of_find?_eq_some hn)) hl' hnew'
  intro e he
  have hboth := joined_release h happ
  have hmem := (perm_emplace fun e he => (hboth.apart e he).key_ne).mem_iff.mp he
  rcases List.mem_cons.mp hmem with rfl | hmem
  · exact hnew''
  · exact hl'' e hmem

/-! ## Taking from an extent -/

/-- The first extent of at least `bytes` bytes, and the list without its first `bytes` bytes. -/
def takeFirst (bytes : ℕ) (l : List Extent) : Option (ℕ × List Extent) :=
  (l.find? fun e => bytes ≤ e.2).map fun e =>
    (e.1, if e.2 = bytes then eraseKey e.1 l
      else emplace (e.1 + bytes, e.2 - bytes) (eraseKey e.1 l))

/-- **Taking from an extent** takes the bytes from the count and keeps the rest apart. -/
theorem takeFirst_spec {bytes : ℕ} {l' : List Extent} {at_ : ℕ} (h : Parted l)
    (hbytes : 0 < bytes) (ht : takeFirst bytes l = some (at_, l')) :
    Parted l' ∧ (∀ x, cover l' x + (if Extent.Has (at_, bytes) x then 1 else 0) = cover l x) ∧
      ∃ left, (at_, bytes + left) ∈ l ∧ ∀ e ∈ l', e ∈ l ∨ 0 < left ∧ e = (at_ + bytes, left) := by
  obtain ⟨e, he, heq⟩ := Option.map_eq_some_iff.mp ht
  obtain ⟨rfl, rfl⟩ := Prod.mk.inj heq
  have hmem := List.mem_of_find?_eq_some he
  have hle : bytes ≤ e.2 := by simpa using List.find?_some he
  have hperm := perm_eraseKey h hmem
  split_ifs with hall
  · refine ⟨h.eraseKey _, fun x => ?_, 0, ?_, fun a ha => .inl (mem_eraseKey.mp ha).1⟩
    · rw [cover_perm hperm, cover_cons, ← hall]
    · rwa [← hall]
  · obtain ⟨left, hleft⟩ := Nat.exists_eq_add_of_le hle
    have hpos : 0 < left := by omega
    rw [hleft, Nat.add_sub_cancel_left]
    have happ : ∀ a ∈ eraseKey e.1 l, Extent.Apart (e.1 + bytes, left) a := by
      intro a ha
      obtain ⟨hal, hne⟩ := mem_eraseKey.mp ha
      have hea := h.apart hmem hal (Ne.symm hne)
      simp only [Extent.Apart, Extent.Before] at hea ⊢
      omega
    have hperm' := perm_emplace fun a ha => (happ a ha).key_ne
    refine ⟨(h.eraseKey _).emplace happ, fun x => ?_, left, ?_, fun a ha => ?_⟩
    · have hjoin := ite_has_join e.1 bytes left x
      rw [← hleft] at hjoin
      change (if e.Has x then 1 else 0) = _ at hjoin
      rw [cover_perm hperm', cover_cons, cover_perm hperm, cover_cons, hjoin]
      omega
    · rwa [← hleft]
    · rcases List.mem_cons.mp (hperm'.mem_iff.mp ha) with rfl | ha
      · exact .inr ⟨hpos, rfl⟩
      · exact .inl (mem_eraseKey.mp ha).1

end Prosperity
