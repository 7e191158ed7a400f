import Mathlib.Data.List.Nodup
import Mathlib.Logic.Function.Basic

/-!
# Queues of linked nodes

A doubly linked list whose nodes belong to someone else: the list owns its two ends only. Nodes are appended at the
back and unlinked from anywhere.
-/

namespace Prosperity

/-- The pointers of the nodes. -/
structure Links (ι : Type*) where
  prev : ι → Option ι
  next : ι → Option ι

/-- The pointers of a list. -/
structure Ends (ι : Type*) where
  head : Option ι
  tail : Option ι

namespace Links

variable {ι : Type*} [DecidableEq ι]

def setPrev (h : Links ι) (t : ι) (p : Option ι) : Links ι := { h with prev := Function.update h.prev t p }

def setNext (h : Links ι) (t : ι) (n : Option ι) : Links ι := { h with next := Function.update h.next t n }

/-- Appends a node. -/
def pushBack (h : Links ι) (e : Ends ι) (t : ι) : Links ι × Ends ι :=
  let h := h.setPrev t e.tail
  match e.tail with
  | some last => (h.setNext last (some t), ⟨e.head, some t⟩)
  | none => (h, ⟨some t, some t⟩)

def bridgeNext (h : Links ι) (e : Ends ι) (t : ι) : Links ι × Ends ι :=
  match h.prev t with
  | some p => (h.setNext p (h.next t), e)
  | none => (h, { e with head := h.next t })

def bridgePrev (h : Links ι) (e : Ends ι) (t : ι) : Links ι × Ends ι :=
  match h.next t with
  | some n => (h.setPrev n (h.prev t), e)
  | none => (h, { e with tail := h.prev t })

/-- Takes a node out. -/
def unlink (h : Links ι) (e : Ends ι) (t : ι) : Links ι × Ends ι :=
  let r := h.bridgeNext e t
  let r := r.1.bridgePrev r.2 t
  ((r.1.setPrev t none).setNext t none, r.2)

/-- The nodes follow each other, from behind `p` to before `n`. -/
def Seg (h : Links ι) : Option ι → List ι → Option ι → Prop
  | _, [], _ => True
  | p, t :: l, n => h.prev t = p ∧ h.next t = l.head?.or n ∧ Seg h (some t) l n

section Seg

variable {h h' : Links ι} {p p' n n' : Option ι} {l r : List ι} {t a : ι}

omit [DecidableEq ι] in
theorem seg_append : h.Seg p (l ++ r) n ↔ h.Seg p l (r.head?.or n) ∧ h.Seg (l.getLast?.or p) r n := by
  induction l generalizing p with
  | nil => simp [Seg]
  | cons t l ih =>
    have hlast : (t :: l).getLast?.or p = l.getLast?.or (some t) := by
      rw [List.getLast?_cons]
      cases l.getLast? <;> rfl
    have hhead : (l ++ r).head?.or n = l.head?.or (r.head?.or n) := by
      cases l <;> simp
    rw [List.cons_append, Seg, Seg, ih, hhead, hlast]
    simp only [and_assoc]

omit [DecidableEq ι] in
theorem Seg.congr (hseg : h.Seg p l n) (hsame : ∀ t ∈ l, h'.prev t = h.prev t ∧ h'.next t = h.next t) :
    h'.Seg p l n := by
  induction l generalizing p with
  | nil => trivial
  | cons t l ih =>
    obtain ⟨hprev, hnext, hrest⟩ := hseg
    obtain ⟨hp, hn⟩ := hsame t List.mem_cons_self
    exact ⟨hp.trans hprev, hn.trans hnext, ih hrest fun u hu => hsame u (List.mem_cons_of_mem _ hu)⟩

theorem setPrev_of_ne (h : Links ι) {t u : ι} (hne : u ≠ t) (p : Option ι) :
    (h.setPrev t p).prev u = h.prev u ∧ (h.setPrev t p).next u = h.next u :=
  ⟨Function.update_of_ne hne .., rfl⟩

theorem setNext_of_ne (h : Links ι) {t u : ι} (hne : u ≠ t) (n : Option ι) :
    (h.setNext t n).prev u = h.prev u ∧ (h.setNext t n).next u = h.next u :=
  ⟨rfl, Function.update_of_ne hne ..⟩

theorem Seg.setPrev_of_notMem (hseg : h.Seg p l n) (ht : t ∉ l) (p' : Option ι) : (h.setPrev t p').Seg p l n :=
  hseg.congr fun _ hu => h.setPrev_of_ne (ne_of_mem_of_not_mem hu ht) p'

theorem Seg.setNext_of_notMem (hseg : h.Seg p l n) (ht : t ∉ l) (n' : Option ι) : (h.setNext t n').Seg p l n :=
  hseg.congr fun _ hu => h.setNext_of_ne (ne_of_mem_of_not_mem hu ht) n'

theorem Seg.setNext_last (hseg : h.Seg p (l ++ [a]) n) (ha : a ∉ l) (n' : Option ι) :
    (h.setNext a n').Seg p (l ++ [a]) n' := by
  rw [seg_append] at hseg ⊢
  refine ⟨hseg.1.setNext_of_notMem ha n', hseg.2.1, ?_, trivial⟩
  exact Function.update_self ..

theorem Seg.setPrev_first (hseg : h.Seg p (a :: r) n) (ha : a ∉ r) (p' : Option ι) :
    (h.setPrev a p').Seg p' (a :: r) n :=
  ⟨Function.update_self .., hseg.2.1, hseg.2.2.setPrev_of_notMem ha p'⟩

end Seg

end Links

variable {ι : Type*}

/-- The pointers form the list of the nodes `q`. -/
structure Linked (h : Links ι) (e : Ends ι) (q : List ι) : Prop where
  nodup : q.Nodup
  head : e.head = q.head?
  tail : e.tail = q.getLast?
  seg : h.Seg none q none

namespace Linked

variable {h h' : Links ι} {e : Ends ι} {q q' l r : List ι} {t : ι}

theorem congr (hq : Linked h e q) (hsame : ∀ t ∈ q, h'.prev t = h.prev t ∧ h'.next t = h.next t) : Linked h' e q :=
  ⟨hq.nodup, hq.head, hq.tail, hq.seg.congr hsame⟩

theorem unique (hq : Linked h e q) (hq' : Linked h e q') : q = q' := by
  have hsegs : ∀ (l l' : List ι) (p p' : Option ι), l.head? = l'.head? → h.Seg p l none → h.Seg p' l' none → l = l' := by
    intro l
    induction l with
    | nil =>
      intro l' p p' hhead _ _
      cases l' with
      | nil => rfl
      | cons u l' => cases hhead
    | cons t l ih =>
      intro l' p p' hhead hl hl'
      cases l' with
      | nil => cases hhead
      | cons u l' =>
        obtain rfl := Option.some.inj hhead
        have hnext : l.head? = l'.head? := by
          have := hl.2.1.symm.trans hl'.2.1
          simpa using this
        rw [ih l' _ _ hnext hl.2.2 hl'.2.2]
  exact hsegs q q' none none (hq.head.symm.trans hq'.head) hq.seg hq'.seg

variable [DecidableEq ι]

/-- **Appending** a node that is in no list. -/
theorem pushBack (hq : Linked h e q) (ht : t ∉ q) (hnext : h.next t = none) :
    Linked (h.pushBack e t).1 (h.pushBack e t).2 (q ++ [t]) := by
  have hnodup : (q ++ [t]).Nodup := by
    rw [List.nodup_append]
    refine ⟨hq.nodup, List.nodup_singleton t, fun a ha b hb heq => ?_⟩
    rw [List.mem_singleton.mp hb] at heq
    exact ht (heq ▸ ha)
  unfold Links.pushBack
  rcases List.eq_nil_or_concat' q with rfl | ⟨front, last, rfl⟩
  · rw [hq.tail]
    exact ⟨hnodup, rfl, rfl, Function.update_self .., hnext, trivial⟩
  · have hlast : e.tail = some last := by rw [hq.tail, List.getLast?_concat]
    have hne : t ≠ last := fun heq => ht (heq ▸ List.mem_append_right _ (List.mem_singleton_self _))
    have hfront : last ∉ front := fun hmem => by
      have := (List.nodup_append.mp hq.nodup).2.2 last hmem last (List.mem_singleton_self _)
      exact this rfl
    rw [hlast]
    refine ⟨hnodup, ?_, by rw [List.getLast?_concat], Links.seg_append.mpr ⟨?_, ?_, ?_, trivial⟩⟩
    · rw [hq.head]
      cases front <;> rfl
    · exact (hq.seg.setPrev_of_notMem ht _).setNext_last hfront _
    · rw [List.getLast?_concat]
      exact Function.update_self ..
    · exact ((h.setPrev t (some last)).setNext_of_ne hne (some t)).2.trans hnext

omit [DecidableEq ι] in
theorem split (hq : Linked h e (l ++ t :: r)) :
    h.Seg none l (some t) ∧ h.prev t = l.getLast? ∧ h.next t = r.head? ∧ h.Seg (some t) r none := by
  obtain ⟨hl, hprev, hnext, hr⟩ := Links.seg_append.mp hq.seg
  rw [Option.or_none] at hprev hnext
  exact ⟨hl, hprev, hnext, hr⟩

omit [DecidableEq ι] in
theorem notMem_split (hq : Linked h e (l ++ t :: r)) : t ∉ l ∧ t ∉ r ∧ l.Nodup ∧ r.Nodup ∧ ∀ a ∈ l, a ∉ r := by
  obtain ⟨hl, hr, hcross⟩ := List.nodup_append.mp hq.nodup
  obtain ⟨htr, hr⟩ := List.nodup_cons.mp hr
  exact ⟨fun ht => hcross t ht t List.mem_cons_self rfl, htr, hl, hr,
    fun a ha har => hcross a ha a (List.mem_cons_of_mem _ har) rfl⟩

theorem bridgeNext (hq : Linked h e (l ++ t :: r)) :
    (h.bridgeNext e t).1.Seg none l r.head? ∧ (h.bridgeNext e t).1.Seg (some t) r none ∧
      (h.bridgeNext e t).1.prev t = l.getLast? ∧ (h.bridgeNext e t).1.next t = r.head? ∧
      (h.bridgeNext e t).2.head = (l ++ r).head? ∧ (h.bridgeNext e t).2.tail = e.tail := by
  obtain ⟨hl, hprev, hnext, hr⟩ := hq.split
  obtain ⟨htl, htr, hlnodup, -, hcross⟩ := hq.notMem_split
  unfold Links.bridgeNext
  rcases List.eq_nil_or_concat' l with rfl | ⟨front, last, rfl⟩
  · have hnone : h.prev t = none := hprev
    rw [hnone]
    exact ⟨trivial, hr, hnone, hnext, hnext, rfl⟩
  · have hlast : h.prev t = some last := by rw [hprev, List.getLast?_concat]
    have hmem : last ∈ front ++ [last] := List.mem_append_right _ (List.mem_singleton_self _)
    have hne : t ≠ last := fun heq => htl (heq ▸ hmem)
    have hfront : last ∉ front := fun hin => (List.nodup_append.mp hlnodup).2.2 last hin last (List.mem_singleton_self _) rfl
    obtain ⟨hsameprev, hsamenext⟩ := h.setNext_of_ne hne (h.next t)
    rw [hlast]
    refine ⟨?_, hr.setNext_of_notMem (hcross last hmem) _, hsameprev.trans hprev, hsamenext.trans hnext, ?_, rfl⟩
    · rw [hnext]
      exact hl.setNext_last hfront _
    · dsimp only
      rw [hq.head]
      cases front <;> rfl

/-- **Taking out** a node of the list. -/
theorem unlink (hq : Linked h e (l ++ t :: r)) : Linked (h.unlink e t).1 (h.unlink e t).2 (l ++ r) := by
  obtain ⟨htl, htr, hlnodup, hrnodup, hcross⟩ := hq.notMem_split
  obtain ⟨hl, hr, hprev, hnext, hhead, htail⟩ := hq.bridgeNext
  have hnodup : (l ++ r).Nodup :=
    List.nodup_append.mpr ⟨hlnodup, hrnodup, fun a ha b hb heq => hcross a ha (heq ▸ hb)⟩
  unfold Links.unlink
  dsimp only
  generalize h.bridgeNext e t = bridged at hl hr hprev hnext hhead htail
  obtain ⟨h1, e1⟩ := bridged
  dsimp only at hl hr hprev hnext hhead htail ⊢
  have hclear : ∀ h2 : Links ι, h2.Seg none l r.head? → h2.Seg l.getLast? r none →
      ((h2.setPrev t none).setNext t none).Seg none (l ++ r) none := fun h2 hl2 hr2 => by
    rw [Links.seg_append, Option.or_none, Option.or_none]
    exact ⟨(hl2.setPrev_of_notMem htl _).setNext_of_notMem htl _, (hr2.setPrev_of_notMem htr _).setNext_of_notMem htr _⟩
  unfold Links.bridgePrev
  cases r with
  | nil =>
    have hnone : h1.next t = none := hnext
    rw [hnone]
    refine ⟨hnodup, hhead, ?_, hclear h1 hl trivial⟩
    dsimp only
    rw [hprev, List.append_nil]
  | cons n rest =>
    have hfirst : h1.next t = some n := hnext
    have hnl : n ∉ l := fun hin => hcross n hin List.mem_cons_self
    rw [hfirst]
    refine ⟨hnodup, hhead, ?_, hclear _ (hl.setPrev_of_notMem hnl _) ?_⟩
    · dsimp only
      rw [htail, hq.tail]
      simp [List.getLast?_append]
    · rw [hprev]
      exact hr.setPrev_first (List.nodup_cons.mp hrnodup).1 _

end Linked

/-! ## Other lists -/

namespace Links

variable [DecidableEq ι] {h : Links ι} {e : Ends ι} {q : List ι} {t u : ι}

theorem pushBack_of_notMem (hq : Linked h e q) (hu : u ∉ q) (hne : u ≠ t) :
    (h.pushBack e t).1.prev u = h.prev u ∧ (h.pushBack e t).1.next u = h.next u := by
  unfold Links.pushBack
  dsimp only
  have htail := hq.tail
  cases hlast : e.tail with
  | none => exact h.setPrev_of_ne hne none
  | some last =>
    have hmem : last ∈ q := List.mem_of_getLast? (htail.symm.trans hlast)
    obtain ⟨hp, hn⟩ := (h.setPrev t (some last)).setNext_of_ne (ne_of_mem_of_not_mem hmem hu).symm (some t)
    obtain ⟨hp', hn'⟩ := h.setPrev_of_ne hne (some last)
    exact ⟨hp.trans hp', hn.trans hn'⟩

theorem unlink_of_notMem {l r : List ι} (hq : Linked h e (l ++ t :: r)) (hu : u ∉ l ++ t :: r) :
    (h.unlink e t).1.prev u = h.prev u ∧ (h.unlink e t).1.next u = h.next u := by
  obtain ⟨hl, hprev, hnext, hr⟩ := hq.split
  have hut : u ≠ t := fun heq => hu (heq ▸ List.mem_append_right _ List.mem_cons_self)
  obtain ⟨-, -, hprev1, hnext1, -, -⟩ := hq.bridgeNext
  have h1 : (h.bridgeNext e t).1.prev u = h.prev u ∧ (h.bridgeNext e t).1.next u = h.next u := by
    unfold Links.bridgeNext
    cases hp : h.prev t with
    | none => exact ⟨rfl, rfl⟩
    | some p =>
      have hmem : p ∈ l := List.mem_of_getLast? (hprev.symm.trans hp)
      exact h.setNext_of_ne (ne_of_mem_of_not_mem (List.mem_append_left _ hmem) hu).symm _
  have h2 : ((h.bridgeNext e t).1.bridgePrev (h.bridgeNext e t).2 t).1.prev u = h.prev u ∧
      ((h.bridgeNext e t).1.bridgePrev (h.bridgeNext e t).2 t).1.next u = h.next u := by
    unfold Links.bridgePrev
    cases hn : (h.bridgeNext e t).1.next t with
    | none => exact h1
    | some n =>
      have hmem : n ∈ r := List.mem_of_head? (hnext1.symm.trans hn)
      have hin : n ∈ l ++ t :: r := List.mem_append_right _ (List.mem_cons_of_mem _ hmem)
      obtain ⟨hp', hn'⟩ := (h.bridgeNext e t).1.setPrev_of_ne (ne_of_mem_of_not_mem hin hu).symm
        ((h.bridgeNext e t).1.prev t)
      exact ⟨hp'.trans h1.1, hn'.trans h1.2⟩
  unfold Links.unlink
  dsimp only
  obtain ⟨hp3, hn3⟩ := ((h.bridgeNext e t).1.bridgePrev (h.bridgeNext e t).2 t).1.setPrev_of_ne hut none
  obtain ⟨hp4, hn4⟩ :=
    (((h.bridgeNext e t).1.bridgePrev (h.bridgeNext e t).2 t).1.setPrev t none).setNext_of_ne hut none
  exact ⟨(hp4.trans hp3).trans h2.1, (hn4.trans hn3).trans h2.2⟩

end Links

end Prosperity
