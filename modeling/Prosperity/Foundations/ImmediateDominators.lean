import Mathlib.Data.List.Basic
import Mathlib.Logic.Relation

/-!
# Immediate dominators by iteration

Nodes are numbers, and the walk from node 0 is given by the predecessors of each node. A table of
immediate dominators starts with node 0 alone; a pass gives each node the nearest common ancestor of
its predecessors in the table, and the passes end when one changes nothing. If each node that is reached has
a predecessor with a smaller number that is reached as well, the chain of a node in the last table has only
nodes that are on the chain of each predecessor.
-/

namespace Prosperity.Dominators

/-- A node on the chain of `b`. -/
def Ancestor (idom : ℕ → Option ℕ) (a b : ℕ) : Prop := Relation.ReflTransGen (fun x y => idom x = some y) b a

/-- The nearest common ancestor of two nodes: the larger goes up until they meet. A node without another one
above it ends the walk. -/
def intersect (idom : ℕ → Option ℕ) : ℕ → ℕ → ℕ → Option ℕ
  | 0, _, _ => none
  | fuel + 1, a, b =>
    if a = b then some a
    else if b < a then
      match idom a with
      | none => some b
      | some next => if next = a then some b else intersect idom fuel next b
    else
      match idom b with
      | none => some a
      | some next => if next = b then some a else intersect idom fuel a next

section Iteration

variable (preds : ℕ → List ℕ) (fuel : ℕ)

/-- The common ancestor of the predecessors that are in the table. -/
def candidate (idom : ℕ → Option ℕ) (ps : List ℕ) (start : Option ℕ) : Option (Option ℕ) :=
  ps.foldlM (fun cand p =>
    match idom p, cand with
    | none, _ => some cand
    | some _, none => some (some p)
    | some _, some c => (intersect idom fuel p c).map some) start

/-- A node takes its candidate; the flag notes a change. -/
def turn (st : (ℕ → Option ℕ) × Bool) (b : ℕ) : Option ((ℕ → Option ℕ) × Bool) :=
  (candidate fuel st.1 (preds b) none).map fun cand =>
    if cand.isSome ∧ st.1 b ≠ cand then (Function.update st.1 b cand, true) else st

/-- The nodes but node 0 in order. -/
def pass (blocks : ℕ) (idom : ℕ → Option ℕ) : Option ((ℕ → Option ℕ) × Bool) :=
  (List.range' 1 (blocks - 1)).foldlM (turn preds fuel) (idom, false)

def passes (blocks : ℕ) : ℕ → (ℕ → Option ℕ) → Option (ℕ → Option ℕ)
  | 0, _ => none
  | n + 1, idom =>
    (pass preds fuel blocks idom).bind fun st => if st.2 then passes blocks n st.1 else some st.1

/-- The table of node 0. -/
def start : ℕ → Option ℕ := fun b => if b = 0 then some 0 else none

end Iteration

/-! ## Soundness -/

section Soundness

variable {preds : ℕ → List ℕ} {fuel blocks : ℕ} {idom : ℕ → Option ℕ} {a b c m p x : ℕ}

/-- A walk from node 0 gets to the node. -/
inductive Reached (preds : ℕ → List ℕ) : ℕ → Prop
  | zero : Reached preds 0
  | step {p b : ℕ} : Reached preds p → p ∈ preds b → Reached preds b

/-- Each node that is reached, but node 0, has a smaller predecessor that is reached. -/
def Ordered (preds : ℕ → List ℕ) : Prop :=
  ∀ b, b ≠ 0 → Reached preds b → ∃ p ∈ preds b, p < b ∧ Reached preds p

/-- What holds of each table. -/
structure Inv (preds : ℕ → List ℕ) (idom : ℕ → Option ℕ) : Prop where
  zero : idom 0 = some 0
  down : ∀ x y, idom x = some y → x ≠ 0 → y < x
  closed : ∀ x y, idom x = some y → (idom y).isSome
  reached : ∀ x, (idom x).isSome → Reached preds x

/-- The nodes below `m` that are reached are in the table. -/
def Done (preds : ℕ → List ℕ) (idom : ℕ → Option ℕ) (m : ℕ) : Prop :=
  ∀ x, x < m → Reached preds x → (idom x).isSome

/-- **The walk ends at an ancestor of both nodes.** -/
theorem intersect_spec (hinv : Inv preds idom) (ha : (idom a).isSome) (hb : (idom b).isSome)
    (h : intersect idom fuel a b = some c) :
    Ancestor idom c a ∧ Ancestor idom c b ∧ c ≤ a ∧ c ≤ b ∧ (idom c).isSome := by
  induction fuel generalizing a b with
  | zero => cases h
  | succ fuel ih =>
    unfold intersect at h
    split at h
    · rename_i heq
      obtain rfl := Option.some.inj h
      subst heq
      exact ⟨.refl, .refl, Nat.le_refl _, Nat.le_refl _, ha⟩
    · split at h
      · rename_i hlt
        obtain ⟨next, hnext⟩ := Option.isSome_iff_exists.mp ha
        have hdown := hinv.down a next hnext (by omega)
        rw [hnext] at h
        dsimp only at h
        rw [if_neg (Nat.ne_of_lt hdown)] at h
        obtain ⟨hca, hcb, hle, hle', hsome⟩ := ih (hinv.closed a next hnext) hb h
        exact ⟨.head hnext hca, hcb, by omega, hle', hsome⟩
      · obtain ⟨next, hnext⟩ := Option.isSome_iff_exists.mp hb
        have hdown := hinv.down b next hnext (by omega)
        rw [hnext] at h
        dsimp only at h
        rw [if_neg (Nat.ne_of_lt hdown)] at h
        obtain ⟨hca, hcb, hle, hle', hsome⟩ := ih ha (hinv.closed b next hnext) h
        exact ⟨hca, .head hnext hcb, hle, by omega, hsome⟩

theorem candidate_of_none {ps : List ℕ} (hps : ∀ p ∈ ps, idom p = none) : candidate fuel idom ps none = some none := by
  induction ps with
  | nil => rfl
  | cons p ps ih =>
    unfold candidate
    rw [List.foldlM_cons, hps p (List.mem_cons_self ..)]
    exact ih fun q hq => hps q (List.mem_cons_of_mem _ hq)

/-- **A candidate is an ancestor of the predecessors in the table**, and there is one if one of them is. -/
theorem candidate_spec (hinv : Inv preds idom) {ps : List ℕ} {first cand : Option ℕ}
    (hfirst : ∀ c, first = some c → (idom c).isSome) (h : candidate fuel idom ps first = some cand) :
    (cand = none → first = none ∧ ∀ p ∈ ps, idom p = none) ∧
      ∀ c, cand = some c → (idom c).isSome ∧ (∀ d, first = some d → Ancestor idom c d ∧ c ≤ d) ∧
        ∀ p ∈ ps, (idom p).isSome → Ancestor idom c p ∧ c ≤ p := by
  induction ps generalizing first with
  | nil =>
    obtain rfl := Option.some.inj h
    refine ⟨fun hnone => ⟨hnone, fun p hp => absurd hp List.not_mem_nil⟩, ?_⟩
    intro c hc
    refine ⟨hfirst c hc, ?_, fun p hp => absurd hp List.not_mem_nil⟩
    intro d hd
    obtain rfl := Option.some.inj (hc.symm.trans hd)
    exact ⟨.refl, Nat.le_refl _⟩
  | cons p ps ih =>
    unfold candidate at h
    rw [List.foldlM_cons] at h
    obtain ⟨next, hnext, hrest⟩ := Option.bind_eq_some_iff.mp h
    change candidate fuel idom ps next = some cand at hrest
    cases hp : idom p with
    | none =>
      rw [hp] at hnext
      obtain rfl := Option.some.inj hnext
      obtain ⟨hnone, hsome⟩ := ih hfirst hrest
      refine ⟨fun h => ⟨(hnone h).1, ?_⟩, fun c hc => ⟨(hsome c hc).1, (hsome c hc).2.1, ?_⟩⟩
      · intro q hq
        rcases List.mem_cons.mp hq with rfl | hq
        · exact hp
        · exact (hnone h).2 q hq
      · intro q hq hqs
        rcases List.mem_cons.mp hq with rfl | hq
        · rw [hp] at hqs
          cases hqs
        · exact (hsome c hc).2.2 q hq hqs
    | some up =>
      have hps : (idom p).isSome := by rw [hp]; rfl
      rw [hp] at hnext
      -- behind the step there is a candidate that is an ancestor of `p` and of the one before
      have hstep : ∃ d, next = some d ∧ (idom d).isSome ∧ (Ancestor idom d p ∧ d ≤ p) ∧
          ∀ e, first = some e → Ancestor idom d e ∧ d ≤ e := by
        cases hcase : first with
        | none =>
          rw [hcase] at hnext
          obtain rfl := Option.some.inj hnext
          exact ⟨p, rfl, hps, ⟨.refl, Nat.le_refl _⟩, fun e he => by cases he⟩
        | some e =>
          rw [hcase] at hnext
          obtain ⟨d, hd, rfl⟩ := Option.map_eq_some_iff.mp hnext
          obtain ⟨hdp, hde, hle, hle', hds⟩ := intersect_spec hinv hps (hfirst e hcase) hd
          refine ⟨d, rfl, hds, ⟨hdp, hle⟩, ?_⟩
          intro e' he'
          obtain rfl := Option.some.inj he'
          exact ⟨hde, hle'⟩
      obtain ⟨d, rfl, hds, hdp, hdfirst⟩ := hstep
      obtain ⟨hnone, hsome⟩ := ih (fun c hc => Option.some.inj hc ▸ hds) hrest
      refine ⟨fun h => absurd (hnone h).1 (Option.some_ne_none d), ?_⟩
      intro c hc
      obtain ⟨hcs, hcd, hcps⟩ := hsome c hc
      obtain ⟨hcd, hle⟩ := hcd d rfl
      refine ⟨hcs, ?_, ?_⟩
      · intro e he
        exact ⟨(hdfirst e he).1.trans hcd, Nat.le_trans hle (hdfirst e he).2⟩
      · intro q hq hqs
        rcases List.mem_cons.mp hq with rfl | hq
        · exact ⟨hdp.1.trans hcd, Nat.le_trans hle hdp.2⟩
        · exact hcps q hq hqs

theorem inv_start (preds : ℕ → List ℕ) : Inv preds start := by
  have hzero : ∀ x y, start x = some y → x = 0 ∧ y = 0 := by
    intro x y h
    unfold start at h
    split at h
    · exact ⟨‹_›, (Option.some.inj h).symm⟩
    · cases h
  refine ⟨rfl, ?_, ?_, ?_⟩
  · intro x y h hx
    exact absurd (hzero x y h).1 hx
  · intro x y h
    obtain ⟨-, rfl⟩ := hzero x y h
    rfl
  · intro x h
    obtain ⟨y, hy⟩ := Option.isSome_iff_exists.mp h
    obtain ⟨rfl, -⟩ := hzero x y hy
    exact .zero

/-- **A turn** keeps what holds of a table, and puts its node in. -/
theorem turn_spec (hordered : Ordered preds) (hb : b ≠ 0) (hinv : Inv preds idom) (hdone : Done preds idom b)
    {flag : Bool} {st : (ℕ → Option ℕ) × Bool} (h : turn preds fuel (idom, flag) b = some st) :
    Inv preds st.1 ∧ Done preds st.1 (b + 1) ∧ (flag = true → st.2 = true) ∧
      (st.2 = false → st.1 = idom ∧ ∀ p ∈ preds b, (idom p).isSome → ∃ c, idom b = some c ∧ Ancestor idom c p) := by
  obtain ⟨cand, hcand, hst⟩ := Option.map_eq_some_iff.mp h
  obtain ⟨hnone, hsome⟩ := candidate_spec hinv (fun c hc => by cases hc) hcand
  have hpred : Reached preds b → ∃ p ∈ preds b, p < b ∧ (idom p).isSome := by
    intro hreach
    obtain ⟨p, hp, hlt, hreach'⟩ := hordered b hb hreach
    exact ⟨p, hp, hlt, hdone p hlt hreach'⟩
  have hdown : ∀ c, cand = some c → c < b ∧ Reached preds b := by
    intro c hc
    obtain ⟨-, -, hcps⟩ := hsome c hc
    -- a candidate comes from a predecessor in the table
    have hreach : Reached preds b := by
      by_contra hnot
      have hall : ∀ p ∈ preds b, idom p = none := by
        intro p hp
        by_contra hpn
        exact hnot (.step (hinv.reached p (Option.isSome_iff_ne_none.mpr hpn)) hp)
      rw [candidate_of_none hall, hc] at hcand
      cases hcand
    obtain ⟨p, hp, hlt, hps⟩ := hpred hreach
    exact ⟨Nat.lt_of_le_of_lt (hcps p hp hps).2 hlt, hreach⟩
  dsimp only at hst
  split at hst
  · rename_i hchange
    obtain ⟨c, rfl⟩ := Option.isSome_iff_exists.mp hchange.1
    obtain ⟨hlt, hreach⟩ := hdown c rfl
    subst hst
    dsimp only
    have hold : ∀ x, (idom x).isSome → (Function.update idom b (some c) x).isSome := by
      intro x hx
      by_cases hxb : x = b
      · subst hxb
        rw [Function.update_self]
        rfl
      · rwa [Function.update_of_ne hxb]
    refine ⟨⟨?_, ?_, ?_, ?_⟩, ?_, fun _ => rfl, fun hf => by cases hf⟩
    · rw [Function.update_of_ne (Ne.symm hb)]
      exact hinv.zero
    · intro x y hxy hx
      by_cases hxb : x = b
      · subst hxb
        rw [Function.update_self] at hxy
        obtain rfl := Option.some.inj hxy
        exact hlt
      · rw [Function.update_of_ne hxb] at hxy
        exact hinv.down x y hxy hx
    · intro x y hxy
      apply hold
      by_cases hxb : x = b
      · subst hxb
        rw [Function.update_self] at hxy
        obtain rfl := Option.some.inj hxy
        exact (hsome c rfl).1
      · rw [Function.update_of_ne hxb] at hxy
        exact hinv.closed x y hxy
    · intro x hx
      by_cases hxb : x = b
      · rwa [hxb]
      · rw [Function.update_of_ne hxb] at hx
        exact hinv.reached x hx
    · intro x hx hreach'
      rcases Nat.lt_or_eq_of_le (Nat.le_of_lt_succ hx) with hxb | rfl
      · exact hold x (hdone x hxb hreach')
      · rw [Function.update_self]
        rfl
  · rename_i hsame
    subst hst
    refine ⟨hinv, ?_, fun hf => hf, ?_⟩
    · intro x hx hreach
      rcases Nat.lt_or_eq_of_le (Nat.le_of_lt_succ hx) with hxb | rfl
      · exact hdone x hxb hreach
      · obtain ⟨p, hp, -, hps⟩ := hpred hreach
        cases hc : cand with
        | none =>
          rw [(hnone hc).2 p hp] at hps
          cases hps
        | some c =>
          by_contra hnot
          refine hsame ⟨by rw [hc]; rfl, ?_⟩
          intro heq
          rw [hc] at heq
          exact hnot (Option.isSome_iff_exists.mpr ⟨c, heq⟩)
    · intro _
      refine ⟨rfl, ?_⟩
      intro p hp hps
      cases hc : cand with
      | none =>
        rw [(hnone hc).2 p hp] at hps
        cases hps
      | some c =>
        refine ⟨c, ?_, ((hsome c hc).2.2 p hp hps).1⟩
        by_contra hne
        exact hsame ⟨by rw [hc]; rfl, by rw [hc]; exact hne⟩

/-- **A pass** that changes nothing has found the ancestors. -/
theorem foldl_turn_spec (hordered : Ordered preds) {n : ℕ} {flag : Bool} {st : (ℕ → Option ℕ) × Bool}
    (hm : m ≠ 0) (hinv : Inv preds idom) (hdone : Done preds idom m)
    (h : (List.range' m n).foldlM (turn preds fuel) (idom, flag) = some st) :
    Inv preds st.1 ∧ Done preds st.1 (m + n) ∧ (flag = true → st.2 = true) ∧
      (st.2 = false → st.1 = idom ∧ ∀ b, m ≤ b → b < m + n → ∀ p ∈ preds b, (idom p).isSome →
        ∃ c, idom b = some c ∧ Ancestor idom c p) := by
  induction n generalizing m idom flag with
  | zero =>
    obtain rfl := Option.some.inj h
    exact ⟨hinv, hdone, fun hf => hf, fun _ => ⟨rfl, fun b hle hlt => by omega⟩⟩
  | succ n ih =>
    rw [List.range'_succ, List.foldlM_cons] at h
    obtain ⟨⟨idom', flag'⟩, hturn, hrest⟩ := Option.bind_eq_some_iff.mp h
    obtain ⟨hinv', hdone', hflag, hfix⟩ := turn_spec hordered hm hinv hdone hturn
    obtain ⟨hinv'', hdone'', hflag', hfix'⟩ := ih (Nat.succ_ne_zero m) hinv' hdone' hrest
    refine ⟨hinv'', ?_, fun hf => hflag' (hflag hf), ?_⟩
    · rwa [Nat.succ_add_eq_add_succ] at hdone''
    · intro hf
      have hf' : flag' = false := by
        by_contra hne
        rw [hflag' (by simpa using hne)] at hf
        cases hf
      obtain ⟨heq, hrest'⟩ := hfix' hf
      obtain ⟨heq', hfirst⟩ := hfix hf'
      dsimp only at heq' hrest'
      subst heq'
      refine ⟨heq, ?_⟩
      intro b hle hlt
      rcases Nat.lt_or_eq_of_le hle with hmb | rfl
      · exact hrest' b hmb (by omega)
      · exact hfirst

/-- **The last table has ancestors only**: the immediate dominator of a node is on the chain of each
predecessor that is reached. -/
theorem passes_ancestor (hordered : Ordered preds) {n : ℕ} {idom' : ℕ → Option ℕ} (hblocks : 0 < blocks)
    (hinv : Inv preds idom) (h : passes preds fuel blocks n idom = some idom') :
    Inv preds idom' ∧ Done preds idom' blocks ∧ ∀ b, b ≠ 0 → b < blocks → ∀ p ∈ preds b, (idom' p).isSome →
      ∃ c, idom' b = some c ∧ Ancestor idom' c p := by
  induction n generalizing idom with
  | zero => cases h
  | succ n ih =>
    obtain ⟨⟨mid, flag⟩, hpass, hrest⟩ := Option.bind_eq_some_iff.mp h
    have hdone : Done preds idom 1 := by
      intro x hx _
      obtain rfl := Nat.lt_one_iff.mp hx
      rw [hinv.zero]
      rfl
    obtain ⟨hinv', hdone', -, hfix⟩ := foldl_turn_spec hordered Nat.one_ne_zero hinv hdone hpass
    rw [Nat.add_sub_cancel' hblocks] at hdone' hfix
    dsimp only at hrest
    split at hrest
    · exact ih hinv' hrest
    · rename_i hflag
      obtain rfl := Option.some.inj hrest
      obtain ⟨heq, hall⟩ := hfix (by simpa using hflag)
      dsimp only at heq
      refine ⟨hinv', hdone', ?_⟩
      intro b hb hlt
      rw [heq]
      exact hall b (Nat.pos_of_ne_zero hb) hlt

end Soundness

end Prosperity.Dominators
