import Mathlib.Algebra.Order.BigOperators.Group.Finset
import Prosperity.Foundations.ImmediateDominators

/-!
# The last table is that of the dominators

If each node that is reached has a smaller predecessor that is reached, the passes end, and the chain of a node in
the last table has just the nodes that are on every walk to it. A pass only takes nodes off the chains: behind the
turn of a node its chain is, but for itself, on the chain of each smaller predecessor, and no later turn of the pass
changes it.
-/

namespace Prosperity.Dominators

open Relation (ReflTransGen)

variable {preds : ℕ → List ℕ} {idom : ℕ → Option ℕ} {fuel blocks a b c d m p v x y : ℕ}

/-! ## Walks -/

/-- A walk from node 0 gets to the node, and to no `d`. -/
inductive Avoids (preds : ℕ → List ℕ) (d : ℕ) : ℕ → Prop
  | zero : d ≠ 0 → Avoids preds d 0
  | step {p b : ℕ} : Avoids preds d p → p ∈ preds b → b ≠ d → Avoids preds d b

/-- Every walk to `x` has `d`. -/
def Dominates (preds : ℕ → List ℕ) (d x : ℕ) : Prop := ¬Avoids preds d x

/-- A walk from `y` to `x` that stays on nodes not below `y`. -/
def Above (preds : ℕ → List ℕ) (y x : ℕ) : Prop := ReflTransGen (fun u v => u ∈ preds v ∧ y ≤ v) y x

theorem Avoids.ne (h : Avoids preds d x) : x ≠ d := by
  cases h with
  | zero hd => exact hd.symm
  | step _ _ hne => exact hne

theorem Avoids.above (h : Avoids preds d y) (hdy : d < y) (hx : Above preds y x) : Avoids preds d x := by
  induction hx with
  | refl => exact h
  | tail _ hstep ih => exact .step ih hstep.1 (by have := hstep.2; omega)

theorem Dominates.pred (h : Dominates preds d b) (hdb : b ≠ d) (hp : p ∈ preds b) : Dominates preds d p :=
  fun hav => h (.step hav hp hdb)

theorem Above.trans (h : Above preds y x) (hyx : y ≤ x) (h' : Above preds x v) : Above preds y v :=
  ReflTransGen.trans h (ReflTransGen.mono (fun _ _ hw => ⟨hw.1, Nat.le_trans hyx hw.2⟩) _ _ h')

/-! ## Chains -/

section Chains

theorem Ancestor.le (hinv : Inv preds idom) (h : Ancestor idom a b) : a ≤ b := by
  induction h with
  | refl => exact Nat.le_refl _
  | @tail u w _ hstep ih =>
    by_cases hu : u = 0
    · rw [hu, hinv.zero] at hstep
      obtain rfl := Option.some.inj hstep
      exact Nat.zero_le _
    · exact Nat.le_trans (Nat.le_of_lt (hinv.down u w hstep hu)) ih

theorem Ancestor.isSome (hinv : Inv preds idom) (h : Ancestor idom a b) (hb : (idom b).isSome) : (idom a).isSome := by
  induction h with
  | refl => exact hb
  | tail _ hstep _ => exact hinv.closed _ _ hstep

theorem Ancestor.next (h : Ancestor idom a b) (hne : a ≠ b) (hb : idom b = some c) : Ancestor idom a c := by
  rcases ReflTransGen.cases_head h with heq | ⟨e, he, hrest⟩
  · exact absurd heq.symm hne
  · obtain rfl := Option.some.inj (hb.symm.trans he)
    exact hrest

/-- **A chain is in order.** -/
theorem Ancestor.of_le (hinv : Inv preds idom) (ha : Ancestor idom a x) (hb : Ancestor idom b x) (hab : a ≤ b) :
    Ancestor idom a b := by
  induction hb using ReflTransGen.head_induction_on with
  | refl => exact ha
  | @head x y hxy hyb ih =>
    by_cases hax : a = x
    · -- the chain goes down, so that the two are the same
      subst hax
      have hby : b ≤ y := Ancestor.le hinv hyb
      by_cases hzero : a = 0
      · subst hzero
        rw [hinv.zero] at hxy
        obtain rfl := Option.some.inj hxy
        obtain rfl := Nat.le_zero.mp hby
        exact .refl
      · have hdown := hinv.down a y hxy hzero
        omega
    · exact ih (ha.next hax hxy)

end Chains

/-! ## The nearest common ancestor -/

section Intersect

/-- **What is on both chains is on the chain of the node where they meet.** -/
theorem intersect_nearest (hinv : Inv preds idom) (ha : (idom a).isSome) (hb : (idom b).isSome)
    (h : intersect idom fuel a b = some c) (hda : Ancestor idom d a) (hdb : Ancestor idom d b) : Ancestor idom d c := by
  induction fuel generalizing a b with
  | zero => cases h
  | succ fuel ih =>
    have hle := Ancestor.le hinv hda
    have hle' := Ancestor.le hinv hdb
    unfold intersect at h
    split at h
    · obtain rfl := Option.some.inj h
      exact hda
    · split at h
      · rename_i hlt
        -- the larger finger moves up; `d` is below it, so it is on what is left of the chain
        obtain ⟨next, hnext⟩ := Option.isSome_iff_exists.mp ha
        have hdown := hinv.down a next hnext (by omega)
        rw [hnext] at h
        dsimp only at h
        rw [if_neg (Nat.ne_of_lt hdown)] at h
        exact ih (hinv.closed a next hnext) hb h (hda.next (by omega) hnext) hdb
      · obtain ⟨next, hnext⟩ := Option.isSome_iff_exists.mp hb
        have hdown := hinv.down b next hnext (by omega)
        rw [hnext] at h
        dsimp only at h
        rw [if_neg (Nat.ne_of_lt hdown)] at h
        exact ih ha (hinv.closed b next hnext) h hda (hdb.next (by omega) hnext)

/-- **The walk ends**: each step goes down. -/
theorem intersect_isSome (hinv : Inv preds idom) (ha : (idom a).isSome) (hb : (idom b).isSome)
    (hfuel : a + b < fuel) : (intersect idom fuel a b).isSome := by
  induction fuel generalizing a b with
  | zero => exact absurd hfuel (Nat.not_lt_zero _)
  | succ fuel ih =>
    unfold intersect
    split
    · rfl
    · split
      · rename_i hlt
        obtain ⟨next, hnext⟩ := Option.isSome_iff_exists.mp ha
        have hdown := hinv.down a next hnext (by omega)
        rw [hnext]
        dsimp only
        rw [if_neg (Nat.ne_of_lt hdown)]
        exact ih (hinv.closed a next hnext) hb (by omega)
      · obtain ⟨next, hnext⟩ := Option.isSome_iff_exists.mp hb
        have hdown := hinv.down b next hnext (by omega)
        rw [hnext]
        dsimp only
        rw [if_neg (Nat.ne_of_lt hdown)]
        exact ih ha (hinv.closed b next hnext) (by omega)

theorem candidate_nearest (hinv : Inv preds idom) {ps : List ℕ} {first : Option ℕ}
    (hfirst : ∀ e, first = some e → (idom e).isSome ∧ Ancestor idom d e)
    (h : candidate fuel idom ps first = some (some c)) (hd : ∀ p ∈ ps, (idom p).isSome → Ancestor idom d p) :
    Ancestor idom d c := by
  induction ps generalizing first with
  | nil => exact (hfirst c (Option.some.inj h)).2
  | cons p ps ih =>
    unfold candidate at h
    rw [List.foldlM_cons] at h
    obtain ⟨next, hnext, hrest⟩ := Option.bind_eq_some_iff.mp h
    -- the candidate that is carried along is in the table and has `d` on its chain
    refine ih (fun e he => ?_) hrest fun q hq => hd q (List.mem_cons_of_mem _ hq)
    subst he
    cases hp : idom p with
    | none =>
      rw [hp] at hnext
      exact hfirst e (Option.some.inj hnext)
    | some up =>
      have hps : (idom p).isSome := by rw [hp]; rfl
      have hdp := hd p List.mem_cons_self hps
      rw [hp] at hnext
      cases first with
      | none =>
        obtain rfl := Option.some.inj (Option.some.inj hnext)
        exact ⟨hps, hdp⟩
      | some e' =>
        obtain ⟨hes, hde⟩ := hfirst e' rfl
        obtain ⟨e'', hmeet, heq⟩ := Option.map_eq_some_iff.mp hnext
        obtain rfl := Option.some.inj heq
        exact ⟨(intersect_spec hinv hps hes hmeet).2.2.2.2, intersect_nearest hinv hps hes hmeet hdp hde⟩

theorem candidate_isSome (hinv : Inv preds idom) (hin : ∀ x, (idom x).isSome → x < blocks)
    (hfuel : 2 * blocks ≤ fuel) {ps : List ℕ} {first : Option ℕ} (hfirst : ∀ e, first = some e → (idom e).isSome) :
    (candidate fuel idom ps first).isSome := by
  induction ps generalizing first with
  | nil => rfl
  | cons p ps ih =>
    unfold candidate
    rw [List.foldlM_cons]
    cases hp : idom p with
    | none => exact ih hfirst
    | some up =>
      have hps : (idom p).isSome := by rw [hp]; rfl
      cases first with
      | none =>
        refine ih fun e he => ?_
        obtain rfl := Option.some.inj he
        exact hps
      | some e' =>
        have hes := hfirst e' rfl
        have hlt := hin p hps
        have hlt' := hin e' hes
        obtain ⟨e, he⟩ := Option.isSome_iff_exists.mp
          (intersect_isSome hinv hps hes (by omega : p + e' < fuel))
        dsimp only
        rw [he]
        refine ih fun e'' he'' => ?_
        obtain rfl := Option.some.inj he''
        exact (intersect_spec hinv hps hes he).2.2.2.2

end Intersect

/-! ## A new link -/

section Update

variable (hinv : Inv preds idom) (hb : b ≠ 0) (hlt : c < b)
include hinv hb hlt

theorem ancestor_update_of_le (hbv : b ≤ v) (h : Ancestor idom v x) : Ancestor (Function.update idom b (some c)) v x := by
  induction h using ReflTransGen.head_induction_on with
  | refl => exact .refl
  | @head x y hxy hyv ih =>
    have hvy := Ancestor.le hinv hyv
    have hxb : x ≠ b := by
      rintro rfl
      have hdown := hinv.down x y hxy hb
      omega
    exact .head (by rwa [Function.update_of_ne hxb]) ih

omit hinv hb hlt in
theorem ancestor_update_of_not (hnot : ¬Ancestor idom b x) (h : Ancestor idom v x) :
    Ancestor (Function.update idom b (some c)) v x := by
  induction h using ReflTransGen.head_induction_on with
  | refl => exact .refl
  | @head x y hxy _ ih =>
    have hxb : x ≠ b := by
      rintro rfl
      exact hnot .refl
    exact .head (by rwa [Function.update_of_ne hxb]) (ih fun hby => hnot (.head hxy hby))

omit hb hlt in
theorem ancestor_update_of_lt (hxb : x < b) (h : Ancestor idom v x) : Ancestor (Function.update idom b (some c)) v x :=
  ancestor_update_of_not (fun hbx => absurd (Ancestor.le hinv hbx) (by omega)) h

/-- **Chains lose nodes only**, if the new link goes to the chain of the old one. -/
theorem ancestor_of_update (hc : ∀ e, idom b = some e → Ancestor idom c e) (hx : (idom x).isSome)
    (h : Ancestor (Function.update idom b (some c)) v x) : Ancestor idom v x := by
  induction h using ReflTransGen.head_induction_on with
  | refl => exact .refl
  | @head x y hxy hyv ih =>
    by_cases hxb : x = b
    · subst hxb
      rw [Function.update_self] at hxy
      obtain rfl := Option.some.inj hxy
      obtain ⟨e, he⟩ := Option.isSome_iff_exists.mp hx
      have hanc := hc e he
      exact ReflTransGen.head he (hanc.trans (ih (Ancestor.isSome hinv hanc (hinv.closed x e he))))
    · rw [Function.update_of_ne hxb] at hxy
      exact .head hxy (ih (hinv.closed x y hxy))

theorem ancestor_update_iff (hinv' : Inv preds (Function.update idom b (some c))) (hbx : Ancestor idom b x)
    (hvb : v < b) : Ancestor (Function.update idom b (some c)) v x ↔ Ancestor (Function.update idom b (some c)) v c := by
  have hbx' := @ancestor_update_of_le preds idom b c b x hinv hb hlt (Nat.le_refl b) hbx
  constructor
  · intro h
    exact (Ancestor.of_le hinv' h hbx' (Nat.le_of_lt hvb)).next (Nat.ne_of_lt hvb) (Function.update_self ..)
  · intro h
    exact hbx'.trans (.head (Function.update_self ..) h)

end Update

/-! ## Between two turns -/

/-- What holds of the table before the turn of node `m`. -/
structure Good (preds : ℕ → List ℕ) (blocks m : ℕ) (idom : ℕ → Option ℕ) : Prop extends Inv preds idom where
  inside : ∀ x, (idom x).isSome → x < blocks
  done : Done preds idom m
  /-- The nodes on every walk are on the chain. -/
  dominators : ∀ x d, (idom x).isSome → Dominates preds d x → Ancestor idom d x
  /-- A link goes up a walk. -/
  above : ∀ x y, idom x = some y → x ≠ 0 → Above preds y x
  /-- The nodes that have had their turn. -/
  past : ∀ x, 0 < x → x < m → (idom x).isSome → ∀ p ∈ preds x, p < x → (idom p).isSome →
    ∀ v, Ancestor idom v x → v ≠ x → Ancestor idom v p
  /-- The nodes that have not. -/
  ahead : ∀ x, 0 < x → m ≤ x → (idom x).isSome → ∃ p ∈ preds x, p < x ∧ (idom p).isSome ∧
    ∀ v, m ≤ v → Ancestor idom v x → v ≠ x → Ancestor idom v p
  /-- A link is not above what its predecessors have in common. -/
  nearest : ∀ x y, idom x = some y → x ≠ 0 → ∀ v, (∀ p ∈ preds x, (idom p).isSome → Ancestor idom v p) →
    Ancestor idom v y

section Turns

variable {cand : Option ℕ}

theorem Good.above_of_ancestor (h : Good preds blocks m idom) (hanc : Ancestor idom y x) : Above preds y x := by
  induction hanc using ReflTransGen.head_induction_on with
  | refl => exact .refl
  | @head x z hxz hzy ih =>
    by_cases hx : x = 0
    · subst hx
      rw [h.zero] at hxz
      obtain rfl := Option.some.inj hxz
      exact ih
    · exact Above.trans ih (Ancestor.le h.toInv hzy) (h.above x z hxz hx)

/-- **A turn** that gives its node a link. -/
theorem Good.update (h : Good preds blocks b idom) (hb : b ≠ 0) (hbb : b < blocks) (hlt : c < b)
    (hinv' : Inv preds (Function.update idom b (some c))) (hdone' : Done preds (Function.update idom b (some c)) (b + 1))
    (hsome : ∃ p ∈ preds b, (idom p).isSome) (hcommon : ∀ p ∈ preds b, (idom p).isSome → Ancestor idom c p)
    (hnearest : ∀ d, (∀ p ∈ preds b, (idom p).isSome → Ancestor idom d p) → Ancestor idom d c) :
    Good preds blocks (b + 1) (Function.update idom b (some c)) := by
  have hinv := h.toInv
  have hshrink : ∀ e, idom b = some e → Ancestor idom c e := fun e he => h.nearest b e he hb c hcommon
  have hcs : (idom c).isSome := by
    obtain ⟨p, hp, hps⟩ := hsome
    exact Ancestor.isSome hinv (hcommon p hp hps) hps
  have hself : Function.update idom b (some c) b = some c := Function.update_self ..
  have hother : ∀ {x}, x ≠ b → Function.update idom b (some c) x = idom x := fun hx => Function.update_of_ne hx ..
  have hkeep : ∀ {v x}, b ≤ v → Ancestor idom v x → Ancestor (Function.update idom b (some c)) v x :=
    fun hbv hanc => ancestor_update_of_le hinv hb hlt hbv hanc
  have hbelow : ∀ {v x}, x < b → Ancestor idom v x → Ancestor (Function.update idom b (some c)) v x :=
    fun hxb hanc => ancestor_update_of_lt hinv hxb hanc
  have hback : ∀ {v x}, (idom x).isSome → Ancestor (Function.update idom b (some c)) v x → Ancestor idom v x :=
    fun hx hanc => ancestor_of_update hinv hb hlt hshrink hx hanc
  have hgrow : ∀ {x}, (idom x).isSome → (Function.update idom b (some c) x).isSome := by
    intro x hx
    by_cases hxb : x = b
    · rw [hxb, hself]
      rfl
    · rwa [hother hxb]
  -- the chain of the node has the nodes on every walk to it
  have hdomb : ∀ d, Dominates preds d b → Ancestor (Function.update idom b (some c)) d b := by
    intro d hd
    by_cases hdb : b = d
    · rw [hdb]
      exact .refl
    · refine .head hself (hbelow hlt (hnearest d fun p hp hps => ?_))
      exact h.dominators p d hps (hd.pred hdb hp)
  refine ⟨hinv', ?_, hdone', ?_, ?_, ?_, ?_, ?_⟩
  -- in each field the node of the turn is apart from the others, whose entries stay
  · intro x hx
    by_cases hxb : x = b
    · exact hxb ▸ hbb
    · rw [hother hxb] at hx
      exact h.inside x hx
  · intro x d hx hd
    by_cases hxb : x = b
    · subst hxb
      exact hdomb d hd
    rw [hother hxb] at hx
    have hanc := h.dominators x d hx hd
    by_cases hbx : Ancestor idom b x
    · rcases Nat.lt_or_ge d b with hdb | hdb
      · -- what is on every walk to `x` is on every walk to the node, from which a walk goes on to `x`
        have hdb' : Dominates preds d b := fun hav => hd (hav.above hdb (h.above_of_ancestor hbx))
        exact (hkeep (Nat.le_refl b) hbx).trans (hdomb d hdb')
      · exact hkeep hdb hanc
    · exact ancestor_update_of_not hbx hanc
  · intro x y hxy hx
    by_cases hxb : x = b
    · -- the new entry is above each predecessor, from which an edge goes on
      subst hxb
      rw [hself] at hxy
      obtain rfl := Option.some.inj hxy
      obtain ⟨p, hp, hps⟩ := hsome
      exact .tail (h.above_of_ancestor (hcommon p hp hps)) ⟨hp, Nat.le_of_lt hlt⟩
    · rw [hother hxb] at hxy
      exact h.above x y hxy hx
  · intro x hx hxb hxs p hp hpx hps v hv hvx
    have hpb : p ≠ b := by omega
    rw [hother hpb] at hps
    rcases Nat.lt_or_eq_of_le (Nat.le_of_lt_succ hxb) with hxb | rfl
    · rw [hother (Nat.ne_of_lt hxb)] at hxs
      exact hbelow (by omega) (h.past x hx hxb hxs p hp hpx hps v (hback hxs hv) hvx)
    · -- the chain of the node goes on at the new entry, which is common to its predecessors
      have hvc := hback hcs (hv.next hvx hself)
      exact hbelow hpx (ReflTransGen.trans (hcommon p hp hps) hvc)
  · intro x hx hbx hxs
    have hxb : x ≠ b := by omega
    rw [hother hxb] at hxs
    obtain ⟨p, hp, hpx, hps, hchain⟩ := h.ahead x hx (by omega) hxs
    exact ⟨p, hp, hpx, hgrow hps, fun v hv hvx hne => hkeep (by omega) (hchain v (by omega) (hback hxs hvx) hne)⟩
  · intro x y hxy hx v hv
    have hold : ∀ p ∈ preds x, (idom p).isSome → Ancestor idom v p := fun p hp hps => hback hps (hv p hp (hgrow hps))
    by_cases hxb : x = b
    · subst hxb
      rw [hself] at hxy
      obtain rfl := Option.some.inj hxy
      exact hbelow hlt (hnearest v hold)
    rw [hother hxb] at hxy
    have hvy := h.nearest x y hxy hx v hold
    by_cases hby : Ancestor idom b y
    · rcases Nat.lt_or_ge v b with hvb | hvb
      · -- the smaller predecessor has the node on its chain as well, and loses the same
        have hyx := h.down x y hxy hx
        have hle := Ancestor.le hinv hby
        have hxs : (idom x).isSome := by rw [hxy]; rfl
        obtain ⟨p, hp, hpx, hps, hchain⟩ := h.ahead x (Nat.pos_of_ne_zero hx) (by omega) hxs
        have hbp : Ancestor idom b p := hchain b (Nat.le_refl b) (.head hxy hby) (Ne.symm hxb)
        have hvc := (ancestor_update_iff hinv hb hlt hinv' hbp hvb).mp (hv p hp (hgrow hps))
        exact (ancestor_update_iff hinv hb hlt hinv' hby hvb).mpr hvc
      · exact hkeep hvb hvy
    · exact ancestor_update_of_not hby hvy

theorem Good.skip (h : Good preds blocks b idom) (hdone' : Done preds idom (b + 1)) (hnone : idom b = none) :
    Good preds blocks (b + 1) idom := by
  have hne : ∀ {x}, (idom x).isSome → x ≠ b := by
    rintro x hx rfl
    rw [hnone] at hx
    cases hx
  refine ⟨h.toInv, h.inside, hdone', h.dominators, h.above, ?_, ?_, h.nearest⟩
  · intro x hx hxb hxs
    have hthis := hne hxs
    exact h.past x hx (by omega) hxs
  · intro x hx hbx hxs
    obtain ⟨p, hp, hpx, hps, hchain⟩ := h.ahead x hx (by omega) hxs
    exact ⟨p, hp, hpx, hps, fun v hv => hchain v (by omega)⟩

/-- **Each turn** keeps what holds between two. -/
theorem Good.turn (hordered : Ordered preds) (h : Good preds blocks b idom) (hb : b ≠ 0) (hbb : b < blocks)
    {flag : Bool} {st : (ℕ → Option ℕ) × Bool} (hturn : turn preds fuel (idom, flag) b = some st) :
    Good preds blocks (b + 1) st.1 ∧ (st = (idom, flag) ∨ ∃ c, st = (Function.update idom b (some c), true) ∧
      c < blocks ∧ ∀ e, idom b = some e → c < e) := by
  have hinv := h.toInv
  obtain ⟨hinv', hdone', -, -⟩ := turn_spec hordered hb hinv h.done hturn
  obtain ⟨cand, hcand, rfl⟩ := Option.map_eq_some_iff.mp hturn
  obtain ⟨hnone, hsome⟩ := candidate_spec hinv (fun c hc => by cases hc) hcand
  dsimp only at hinv' hdone' hcand ⊢
  cases cand with
  | none =>
    rw [if_neg (fun hchange => absurd hchange.1 (by decide))] at hinv' hdone' ⊢
    refine ⟨h.skip hdone' ?_, .inl rfl⟩
    -- a node in the table has a smaller predecessor, which has had its turn
    by_contra hbs
    obtain ⟨p, hp, hpb, hreach⟩ := hordered b hb (h.reached b (Option.isSome_iff_ne_none.mpr hbs))
    have hps := h.done p hpb hreach
    rw [(hnone rfl).2 p hp] at hps
    cases hps
  | some c =>
    -- with no predecessor in the table there is no candidate
    have hex : ∃ p ∈ preds b, (idom p).isSome := by
      by_contra hnot
      push Not at hnot
      rw [candidate_of_none fun p hp => Option.not_isSome_iff_eq_none.mp (hnot p hp)] at hcand
      cases hcand
    have hreach : Reached preds b := by
      obtain ⟨p, hp, hps⟩ := hex
      exact .step (h.reached p hps) hp
    obtain ⟨-, -, hcommon⟩ := hsome c rfl
    have hlt : c < b := by
      obtain ⟨p, hp, hpb, hreach'⟩ := hordered b hb hreach
      exact Nat.lt_of_le_of_lt (hcommon p hp (h.done p hpb hreach')).2 hpb
    have hnear := fun d => @candidate_nearest preds idom fuel c d hinv _ none (fun e he => by cases he) hcand
    by_cases hsame : idom b = some c
    · -- the entry is the candidate already: the update changes nothing
      rw [if_neg (fun hchange => hchange.2 hsame)] at hinv' hdone' ⊢
      have hid : Function.update idom b (some c) = idom := by rw [← hsame, Function.update_eq_self]
      have hgood := h.update hb hbb hlt (by rwa [hid]) (by rwa [hid]) hex (fun p hp hps => (hcommon p hp hps).1) hnear
      rw [hid] at hgood
      exact ⟨hgood, .inl rfl⟩
    · rw [if_pos ⟨rfl, hsame⟩] at hinv' hdone' ⊢
      refine ⟨h.update hb hbb hlt hinv' hdone' hex (fun p hp hps => (hcommon p hp hps).1) hnear,
        .inr ⟨c, rfl, by omega, fun e he => ?_⟩⟩
      have hce := Ancestor.le hinv (h.nearest b e he hb c fun p hp hps => (hcommon p hp hps).1)
      have hne : c ≠ e := fun heq => hsame (heq ▸ he)
      omega

end Turns

/-! ## The passes end -/

section Ends

variable {n : ℕ} {flag : Bool} {st : (ℕ → Option ℕ) × Bool} {idom' : ℕ → Option ℕ}

/-- How far a table may still go down. -/
def weight (blocks : ℕ) (idom : ℕ → Option ℕ) : ℕ := ∑ x ∈ Finset.range blocks, (idom x).getD blocks

theorem weight_update (hb : b < blocks) (hc : c < blocks) (hdown : ∀ e, idom b = some e → c < e) :
    weight blocks (Function.update idom b (some c)) < weight blocks idom := by
  have hb' : Function.update idom b (some c) b = some c := Function.update_self ..
  refine Finset.sum_lt_sum (fun x _ => ?_) ⟨b, Finset.mem_range.mpr hb, ?_⟩
  · by_cases hxb : x = b
    · subst hxb
      rw [hb', Option.getD_some]
      cases he : idom x with
      | none => exact Nat.le_of_lt hc
      | some e => exact Nat.le_of_lt (hdown e he)
    · rw [Function.update_of_ne hxb]
  · rw [hb', Option.getD_some]
    cases he : idom b with
    | none => exact hc
    | some e => exact hdown e he

/-- **The turns of a pass.** -/
theorem Good.turns (hordered : Ordered preds) (h : Good preds blocks m idom) (hm : m ≠ 0) (hblocks : m + n ≤ blocks)
    (hturns : (List.range' m n).foldlM (Dominators.turn preds fuel) (idom, flag) = some st) :
    Good preds blocks (m + n) st.1 ∧ weight blocks st.1 ≤ weight blocks idom ∧
      (st.2 = true → flag = true ∨ weight blocks st.1 < weight blocks idom) := by
  induction n generalizing m idom flag with
  | zero =>
    obtain rfl := Option.some.inj hturns
    exact ⟨h, Nat.le_refl _, .inl⟩
  | succ n ih =>
    rw [List.range'_succ, List.foldlM_cons] at hturns
    obtain ⟨⟨idom', flag'⟩, hturn, hrest⟩ := Option.bind_eq_some_iff.mp hturns
    obtain ⟨hgood, hcase⟩ := h.turn hordered hm (by omega) hturn
    obtain ⟨hgood', hle, hflag⟩ := ih hgood (Nat.succ_ne_zero m) (by omega) hrest
    rw [Nat.succ_add_eq_add_succ] at hgood'
    rcases hcase with heq | ⟨c, heq, hc, hdown⟩
    · obtain ⟨rfl, rfl⟩ := Prod.mk.inj heq
      exact ⟨hgood', hle, hflag⟩
    · obtain ⟨rfl, rfl⟩ := Prod.mk.inj heq
      have hlower := @weight_update idom blocks m c (by omega) hc hdown
      dsimp only at hle hflag
      exact ⟨hgood', by omega, fun _ => .inr (by omega)⟩

theorem Good.turns_isSome (hordered : Ordered preds) (h : Good preds blocks m idom) (hm : m ≠ 0)
    (hblocks : m + n ≤ blocks) (hfuel : 2 * blocks ≤ fuel) :
    ((List.range' m n).foldlM (Dominators.turn preds fuel) (idom, flag)).isSome := by
  induction n generalizing m idom flag with
  | zero => rfl
  | succ n ih =>
    rw [List.range'_succ, List.foldlM_cons]
    obtain ⟨cand, hcand⟩ := Option.isSome_iff_exists.mp (@candidate_isSome preds idom fuel blocks h.toInv h.inside hfuel
      (preds m) none (fun e he => by cases he))
    obtain ⟨⟨idom', flag'⟩, hturn⟩ : ∃ st, Dominators.turn preds fuel (idom, flag) m = some st := by
      unfold Dominators.turn
      dsimp only
      rw [hcand]
      exact ⟨_, rfl⟩
    rw [hturn]
    exact ih (h.turn hordered hm (by omega) hturn).1 (Nat.succ_ne_zero m) (by omega)

theorem Good.again (hordered : Ordered preds) (h : Good preds blocks blocks idom) : Good preds blocks 1 idom := by
  refine ⟨h.toInv, h.inside, ?_, h.dominators, h.above, ?_, ?_, h.nearest⟩
  · intro x hx _
    obtain rfl := Nat.lt_one_iff.mp hx
    rw [h.zero]
    rfl
  · intro x hx hxm
    omega
  · intro x hx _ hxs
    obtain ⟨p, hp, hpx, hreach⟩ := hordered x (by omega) (h.reached x hxs)
    have hxb := h.inside x hxs
    have hps := h.done p (by omega) hreach
    exact ⟨p, hp, hpx, hps, fun v _ hv hne => h.past x hx hxb hxs p hp hpx hps v hv hne⟩

theorem good_start (hblocks : 0 < blocks) : Good preds blocks 1 start := by
  have hinv := inv_start preds
  have hzero : ∀ x, (start x).isSome → x = 0 := by
    intro x hx
    unfold start at hx
    split at hx
    · assumption
    · cases hx
  have hnone : ∀ x y, start x = some y → x ≠ 0 → False := fun x y hxy hx => hx (hzero x (by rw [hxy]; rfl))
  refine ⟨hinv, ?_, ?_, ?_, ?_, ?_, ?_, ?_⟩
  · intro x hx
    rwa [hzero x hx]
  · intro x hx _
    obtain rfl := Nat.lt_one_iff.mp hx
    rfl
  · intro x d hx hd
    obtain rfl := hzero x hx
    by_contra hnot
    refine hd (.zero ?_)
    rintro rfl
    exact hnot .refl
  · exact fun x y hxy hx => absurd hx (fun hx => hnone x y hxy hx)
  · intro x hx hxm
    omega
  · intro x hx _ hxs
    have hx0 := hzero x hxs
    omega
  · exact fun x y hxy hx => absurd hx (fun hx => hnone x y hxy hx)

/-- **The passes end**: each but the last makes the table go down. -/
theorem passes_isSome (hordered : Ordered preds) (hblocks : 0 < blocks) (hfuel : 2 * blocks ≤ fuel)
    (h : Good preds blocks 1 idom) (hn : weight blocks idom < n) : (passes preds fuel blocks n idom).isSome := by
  induction n generalizing idom with
  | zero => exact absurd hn (Nat.not_lt_zero _)
  | succ n ih =>
    have hlen : 1 + (blocks - 1) = blocks := by omega
    obtain ⟨st, hpass⟩ := Option.isSome_iff_exists.mp
      (@Good.turns_isSome preds idom fuel blocks 1 (blocks - 1) false hordered h Nat.one_ne_zero (by omega) hfuel)
    obtain ⟨hgood, -, hflag⟩ := h.turns hordered Nat.one_ne_zero (by omega) hpass
    rw [hlen] at hgood
    unfold passes pass
    rw [hpass]
    dsimp only [Option.bind_some]
    split
    · rename_i hchange
      have hlower := (hflag hchange).resolve_left (by decide)
      exact ih (hgood.again hordered) (by omega)
    · rfl

theorem weight_start_le (blocks : ℕ) : weight blocks start ≤ blocks * blocks := by
  have hterm : ∀ x ∈ Finset.range blocks, (start x).getD blocks ≤ blocks := by
    intro x _
    unfold start
    split
    · exact Nat.zero_le _
    · exact Nat.le_refl _
  calc weight blocks start ≤ ∑ _x ∈ Finset.range blocks, blocks := Finset.sum_le_sum hterm
    _ = blocks * blocks := by rw [Finset.sum_const_nat fun _ _ => rfl, Finset.card_range]

theorem Good.passes (hordered : Ordered preds) (hblocks : 0 < blocks) (h : Good preds blocks 1 idom)
    (hpasses : passes preds fuel blocks n idom = some idom') : Good preds blocks blocks idom' := by
  induction n generalizing idom with
  | zero => cases hpasses
  | succ n ih =>
    obtain ⟨st, hpass, hrest⟩ := Option.bind_eq_some_iff.mp hpasses
    have hlen : 1 + (blocks - 1) = blocks := by omega
    obtain ⟨hgood, -, -⟩ := h.turns hordered Nat.one_ne_zero (by omega) hpass
    rw [hlen] at hgood
    split at hrest
    · exact ih (hgood.again hordered) hrest
    · obtain rfl := Option.some.inj hrest
      exact hgood

/-- **The chains of the last table are the dominators.** -/
theorem passes_dominates (hordered : Ordered preds) (hin : ∀ x, Reached preds x → x < blocks)
    (hpasses : Dominators.passes preds fuel blocks n start = some idom') (hb : Reached preds b) :
    Ancestor idom' d b ↔ Dominates preds d b := by
  have hblocks : 0 < blocks := hin 0 .zero
  have hgood := (good_start hblocks).passes hordered hblocks hpasses
  obtain ⟨-, -, hfix⟩ := passes_ancestor hordered hblocks (inv_start preds) hpasses
  refine ⟨fun hanc hav => ?_, hgood.dominators b d (hgood.done b (hin b hb) hb)⟩
  clear hb
  -- a walk keeps out of the chain of the node
  suffices Reached preds b ∧ ¬Ancestor idom' d b from this.2 hanc
  clear hanc
  induction hav with
  | zero hd =>
    refine ⟨.zero, fun hanc => hd ?_⟩
    exact Nat.le_zero.mp (Ancestor.le hgood.toInv hanc)
  | @step p b _ hp hne ih =>
    obtain ⟨hreach, hnot⟩ := ih
    have hreach' : Reached preds b := .step hreach hp
    refine ⟨hreach', fun hanc => ?_⟩
    by_cases hzero : b = 0
    · have hle := Ancestor.le hgood.toInv hanc
      omega
    · obtain ⟨c, hc, hcp⟩ := hfix b hzero (hin b hreach') p hp (hgood.done p (hin p hreach) hreach)
      exact hnot (hcp.trans (hanc.next (Ne.symm hne) hc))

end Ends

end Prosperity.Dominators
