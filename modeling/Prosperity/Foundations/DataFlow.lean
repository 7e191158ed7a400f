import Mathlib.Data.List.GetD
import Mathlib.Logic.Function.Iterate

/-!
# Forward data flow over basic blocks

A worklist carries facts along the edges between blocks: it takes a block, applies its transfer function
to the facts before it, and joins the outcome into the facts before each successor. A successor whose facts
change goes on the list. The number of turns has a bound.

Blocks are runs of instructions, each given by the index of its first.
-/

namespace Prosperity

universe u

/-! ## The worklist -/

structure FlowProblem (δ : Type u) where
  succ : ℕ → List ℕ
  transfer : ℕ → δ → δ
  join : δ → δ → δ
  /-- The first facts are not changed to the second. -/
  same : δ → δ → Bool

/-- The facts before each block that has been reached, and the list, its end first. -/
structure FlowState (δ : Type u) where
  at_ : ℕ → Option δ
  work : List ℕ

namespace FlowProblem

variable {δ : Type u} (P : FlowProblem δ)

/-- Facts that are sent to a block. -/
def send (out : δ) (st : FlowState δ) (s : ℕ) : FlowState δ :=
  let push (d : δ) : FlowState δ :=
    ⟨Function.update st.at_ s (some d), if s ∈ st.work then st.work else s :: st.work⟩
  match st.at_ s with
  | none => push out
  | some d => if P.same d (P.join d out) then st else push (P.join d out)

def turn (st : FlowState δ) : FlowState δ :=
  match st.work with
  | [] => st
  | b :: rest =>
    match st.at_ b with
    | none => ⟨st.at_, rest⟩
    | some d => (P.succ b).foldl (P.send (P.transfer b d)) ⟨st.at_, rest⟩

/-- The turns, from the facts before the first block. -/
def run (init : δ) (budget : ℕ) : FlowState δ :=
  P.turn^[budget] ⟨fun b => if b = 0 then some init else none, [0]⟩

/-- The facts are ordered, and a join is above both sides. -/
structure Lawful (le : δ → δ → Prop) : Prop where
  refl : ∀ a, le a a
  trans : ∀ a b c, le a b → le b c → le a c
  left : ∀ a b, le a (P.join a b)
  right : ∀ a b, le b (P.join a b)
  same : ∀ a b, P.same a b = true → le b a

variable {P} {le : δ → δ → Prop} {st : FlowState δ} {out d : δ} {b s : ℕ}

def Covered (le : δ → δ → Prop) (st : FlowState δ) (s : ℕ) (d : δ) : Prop :=
  ∃ d', st.at_ s = some d' ∧ le d d'

def Sent (P : FlowProblem δ) (le : δ → δ → Prop) (st : FlowState δ) : Prop :=
  ∀ b d, st.at_ b = some d → b ∉ st.work → ∀ s ∈ P.succ b, Covered le st s (P.transfer b d)

theorem send_cases (hl : P.Lawful le) : (P.send out st s = st ∧ Covered le st s out) ∨ ∃ d, P.send out st s =
          ⟨Function.update st.at_ s (some d), if s ∈ st.work then st.work else s :: st.work⟩ ∧
        le out d ∧ ∀ d₀, st.at_ s = some d₀ → le d₀ d := by
  rw [send]
  cases hs : st.at_ s with
  | none => exact .inr ⟨out, rfl, hl.refl out, fun d₀ h => by cases h⟩
  | some d =>
    dsimp only
    by_cases hsame : P.same d (P.join d out) = true
    · rw [if_pos hsame]
      exact .inl ⟨rfl, d, hs, hl.trans _ _ _ (hl.right d out) (hl.same _ _ hsame)⟩
    · rw [if_neg hsame]
      refine .inr ⟨P.join d out, rfl, hl.right d out, fun d₀ h => ?_⟩
      obtain rfl := Option.some.inj h
      exact hl.left d out

theorem Covered.send (hl : P.Lawful le) {r : ℕ} (h : Covered le st r d) : Covered le (P.send out st s) r d := by
  obtain ⟨heq, -⟩ | ⟨d', heq, -, hold⟩ := send_cases hl
  · rwa [heq]
  · rw [heq]
    obtain ⟨d₀, hd₀, hle⟩ := h
    by_cases hr : r = s
    · subst hr
      exact ⟨d', Function.update_self .., hl.trans _ _ _ hle (hold d₀ hd₀)⟩
    · exact ⟨d₀, (Function.update_of_ne hr ..).trans hd₀, hle⟩

theorem covered_send (hl : P.Lawful le) : Covered le (P.send out st s) s out := by
  obtain ⟨heq, hcov⟩ | ⟨d', heq, hle, -⟩ := send_cases hl
  · rwa [heq]
  · rw [heq]
    exact ⟨d', Function.update_self .., hle⟩

theorem send_unlisted (hl : P.Lawful le) {r : ℕ} (hr : r ∉ (P.send out st s).work) :
    r ∉ st.work ∧ (P.send out st s).at_ r = st.at_ r := by
  obtain ⟨heq, -⟩ | ⟨d', heq, -, -⟩ := send_cases hl
  · rw [heq] at hr ⊢
    exact ⟨hr, rfl⟩
  · rw [heq] at hr ⊢
    dsimp only at hr ⊢
    by_cases hs : s ∈ st.work
    · rw [if_pos hs] at hr
      exact ⟨hr, Function.update_of_ne (fun h : r = s => hr (h.symm ▸ hs)) ..⟩
    · rw [if_neg hs, List.mem_cons, not_or] at hr
      exact ⟨hr.2, Function.update_of_ne hr.1 ..⟩

section Fold

variable {l : List ℕ}

theorem Covered.foldl (hl : P.Lawful le) {r : ℕ} (h : Covered le st r d) :
    Covered le (l.foldl (P.send out) st) r d := by
  induction l generalizing st with
  | nil => exact h
  | cons s l ih => exact ih (h.send hl)

theorem covered_foldl (hl : P.Lawful le) (hs : s ∈ l) : Covered le (l.foldl (P.send out) st) s out := by
  induction l generalizing st with
  | nil => cases hs
  | cons r l ih =>
    rcases List.mem_cons.mp hs with rfl | hs
    · exact (covered_send hl).foldl hl
    · exact ih hs

theorem foldl_unlisted (hl : P.Lawful le) {r : ℕ} (hr : r ∉ (l.foldl (P.send out) st).work) :
    r ∉ st.work ∧ (l.foldl (P.send out) st).at_ r = st.at_ r := by
  induction l generalizing st with
  | nil => exact ⟨hr, rfl⟩
  | cons s l ih =>
    obtain ⟨hwork, hat⟩ := ih hr
    obtain ⟨hwork', hat'⟩ := send_unlisted hl hwork
    exact ⟨hwork', hat.trans hat'⟩

end Fold

theorem Covered.turn (hl : P.Lawful le) {r : ℕ} (h : Covered le st r d) : Covered le (P.turn st) r d := by
  rw [FlowProblem.turn]
  split
  · exact h
  · split
    · exact h
    · exact Covered.foldl hl h

/-- **A turn** leaves the facts of the blocks that are not on the list sent. -/
theorem Sent.turn (hl : P.Lawful le) (h : Sent P le st) : Sent P le (P.turn st) := by
  rw [FlowProblem.turn]
  split
  · exact h
  case h_2 b rest hwork =>
    have hunlisted : ∀ r, r ∉ rest → r ≠ b → r ∉ st.work := fun r hr hb => by
      rw [hwork, List.mem_cons, not_or]
      exact ⟨hb, hr⟩
    split
    case h_1 hnone =>
      intro r d hd hr
      refine h r d hd (hunlisted r hr fun hb => ?_)
      rw [hb, hnone] at hd
      cases hd
    case h_2 d hb =>
      intro r dr hdr hr s hs
      obtain ⟨hrest, hat⟩ := foldl_unlisted hl hr
      rw [hat] at hdr
      by_cases heq : r = b
      · -- the block that the turn takes
        subst heq
        obtain rfl := Option.some.inj (hb.symm.trans hdr)
        exact covered_foldl hl hs
      · exact Covered.foldl hl (h r dr hdr (hunlisted r hrest heq) s hs)

/-- **Where the list is empty** the facts before the first block cover what they began as, and those of
every reached block have been sent. -/
theorem closed_of_done (hl : P.Lawful le) (init : δ) (budget : ℕ) (hdone : (P.run init budget).work = []) :
    Covered le (P.run init budget) 0 init ∧ ∀ b d, (P.run init budget).at_ b = some d →
        ∀ s ∈ P.succ b, Covered le (P.run init budget) s (P.transfer b d) := by
  have hrun : Covered le (P.run init budget) 0 init ∧ Sent P le (P.run init budget) := by
    clear hdone
    induction budget with
    | zero =>
      have hat : (P.run init 0).at_ = fun b => if b = 0 then some init else none := rfl
      have hwork : (P.run init 0).work = [0] := rfl
      refine ⟨⟨init, by rw [hat]; rfl, hl.refl init⟩, fun b d hd hb => ?_⟩
      rw [hwork, List.mem_singleton] at hb
      rw [hat] at hd
      dsimp only at hd
      rw [if_neg hb] at hd
      cases hd
    | succ budget ih =>
      rw [run, Function.iterate_succ_apply']
      exact ⟨ih.1.turn hl, ih.2.turn hl⟩
  refine ⟨hrun.1, fun b d hd => hrun.2 b d hd ?_⟩
  rw [hdone]
  exact List.not_mem_nil

end FlowProblem

/-! ## Blocks of indices -/

section Blocks

variable (leaders : List ℕ)

def blockAt (i : ℕ) : ℕ := (leaders.takeWhile (· ≤ i)).length - 1

def blockStart (b : ℕ) : ℕ := leaders.getD b 0

/-- The index behind a block, in a program of `n` instructions. -/
def blockEnd (n b : ℕ) : ℕ := leaders.getD (b + 1) n

variable {leaders} {i b n : ℕ}

theorem leader_le_iff (hl : leaders.Pairwise (· < ·)) (hb : b < leaders.length) :
    leaders[b] ≤ i ↔ b < (leaders.takeWhile (· ≤ i)).length := by
  induction leaders generalizing b with
  | nil => cases hb
  | cons a l ih =>
    obtain ⟨ha, hl⟩ := List.pairwise_cons.mp hl
    by_cases hle : a ≤ i
    · rw [List.takeWhile_cons_of_pos (by simpa using hle), List.length_cons]
      cases b with
      | zero => simpa using hle
      | succ b => rw [List.getElem_cons_succ, ih hl (Nat.lt_of_succ_lt_succ hb), Nat.succ_lt_succ_iff]
    · rw [List.takeWhile_cons_of_neg (by simpa using hle)]
      refine iff_of_false (fun h => hle ?_) (Nat.not_lt_zero b)
      cases b with
      | zero => exact h
      | succ b => exact Nat.le_trans (Nat.le_of_lt (ha _ (List.getElem_mem _))) h

/-- The first indices of the blocks of a program of `n` instructions. -/
structure Leaders (leaders : List ℕ) (n : ℕ) : Prop where
  sorted : leaders.Pairwise (· < ·)
  zero : 0 ∈ leaders
  lt : ∀ i ∈ leaders, i < n

namespace Leaders

theorem count_pos (h : Leaders leaders n) (i : ℕ) : 0 < (leaders.takeWhile (· ≤ i)).length := by
  obtain ⟨j, hj, hzero⟩ := List.getElem_of_mem h.zero
  exact Nat.zero_lt_of_lt ((leader_le_iff h.sorted hj).mp (hzero ▸ Nat.zero_le i))

theorem count_le (leaders : List ℕ) (i : ℕ) : (leaders.takeWhile (· ≤ i)).length ≤ leaders.length :=
  (List.takeWhile_sublist _).length_le

theorem blockAt_lt (h : Leaders leaders n) (i : ℕ) : blockAt leaders i < leaders.length := by
  have hpos := h.count_pos i
  have hle := count_le leaders i
  rw [blockAt]
  omega

theorem blockStart_le (h : Leaders leaders n) (i : ℕ) : blockStart leaders (blockAt leaders i) ≤ i := by
  rw [blockStart, List.getD_eq_getElem _ _ (h.blockAt_lt i), leader_le_iff h.sorted, blockAt]
  have := h.count_pos i
  omega

theorem blockAt_getElem (h : Leaders leaders n) (hb : b < leaders.length) : blockAt leaders leaders[b] = b := by
  have hin := (leader_le_iff h.sorted hb).mp (Nat.le_refl leaders[b])
  have hlt : (leaders.takeWhile (· ≤ leaders[b])).length ≤ b + 1 := by
    by_contra hgt
    have hnext : b + 1 < leaders.length := by
      have := count_le leaders leaders[b]
      omega
    have hle := (leader_le_iff h.sorted hnext).mpr (Nat.not_le.mp hgt)
    exact absurd (List.pairwise_iff_getElem.mp h.sorted b (b + 1) hb hnext (Nat.lt_succ_self b))
      (Nat.not_lt.mpr hle)
  rw [blockAt]
  omega

theorem blockStart_of_mem (h : Leaders leaders n) (hi : i ∈ leaders) : blockStart leaders (blockAt leaders i) = i := by
  obtain ⟨b, hb, rfl⟩ := List.getElem_of_mem hi
  rw [h.blockAt_getElem hb, blockStart, List.getD_eq_getElem _ _ hb]

/-- **A leader** begins the block behind that of the index before it, which ends there. -/
theorem blockAt_succ_of_mem (h : Leaders leaders n) (hi : i + 1 ∈ leaders) :
    blockAt leaders (i + 1) = blockAt leaders i + 1 ∧
      blockEnd leaders n (blockAt leaders i) = i + 1 ∧ blockAt leaders i + 1 < leaders.length := by
  obtain ⟨b, hb, hbi⟩ := List.getElem_of_mem hi
  have hself : blockAt leaders (i + 1) = b := by rw [← hbi, h.blockAt_getElem hb]
  have hnot : ¬b < (leaders.takeWhile (· ≤ i)).length := by
    rw [← leader_le_iff h.sorted hb]
    omega
  have hbefore : ∀ c < b, c < (leaders.takeWhile (· ≤ i)).length := by
    intro c hc
    rw [← leader_le_iff h.sorted (Nat.lt_trans hc hb)]
    have := List.pairwise_iff_getElem.mp h.sorted c b (Nat.lt_trans hc hb) hb hc
    omega
  have hpos := h.count_pos i
  have hcount : blockAt leaders i + 1 = b := by
    rw [blockAt]
    by_contra hne
    have := hbefore (leaders.takeWhile (· ≤ i)).length (by omega)
    omega
  refine ⟨by omega, ?_, by omega⟩
  rw [blockEnd, hcount, List.getD_eq_getElem _ _ hb, hbi]

theorem blockAt_succ_of_notMem (hi : i + 1 ∉ leaders) : blockAt leaders (i + 1) = blockAt leaders i := by
  have hsame : leaders.takeWhile (· ≤ i + 1) = leaders.takeWhile (· ≤ i) := by
    have hsub : ∀ l : List ℕ, i + 1 ∉ l → l.takeWhile (· ≤ i + 1) = l.takeWhile (· ≤ i) := by
      intro l hl
      induction l with
      | nil => rfl
      | cons a l ih =>
        rw [List.mem_cons, not_or] at hl
        by_cases hle : a ≤ i
        · rw [List.takeWhile_cons_of_pos (by simp; omega), List.takeWhile_cons_of_pos (by simpa using hle),
            ih hl.2]
        · rw [List.takeWhile_cons_of_neg (by simp; omega), List.takeWhile_cons_of_neg (by simpa using hle)]
    exact hsub leaders hi
  rw [blockAt, blockAt, hsame]

theorem blockEnd_of_last (h : Leaders leaders n) (hi : i + 1 = n) : blockEnd leaders n (blockAt leaders i) = n := by
  have hall : ¬blockAt leaders i + 1 < leaders.length := by
    intro hlt
    have hle : leaders[blockAt leaders i + 1] ≤ i := by
      have := h.lt _ (List.getElem_mem hlt)
      omega
    rw [leader_le_iff h.sorted hlt, blockAt] at hle
    omega
  rw [blockEnd, List.getD_eq_default _ _ (Nat.not_lt.mp hall)]

theorem blockAt_eq (h : Leaders leaders n) (hb : b < leaders.length) (hlo : blockStart leaders b ≤ i)
    (hhi : i < blockEnd leaders n b) : blockAt leaders i = b := by
  rw [blockStart, List.getD_eq_getElem _ _ hb, leader_le_iff h.sorted hb] at hlo
  have hle : (leaders.takeWhile (· ≤ i)).length ≤ b + 1 := by
    by_contra hgt
    have hnext : b + 1 < leaders.length := by
      have := count_le leaders i
      omega
    rw [blockEnd, List.getD_eq_getElem _ _ hnext] at hhi
    have := (leader_le_iff h.sorted hnext).mpr (Nat.not_le.mp hgt)
    omega
  rw [blockAt]
  omega

end Leaders

end Blocks

end Prosperity
