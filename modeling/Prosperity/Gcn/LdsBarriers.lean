import Prosperity.Foundations.BarrierWalks
import Prosperity.Gcn.ControlFlow

/-!
# Barriers that a wave of 64 lanes may omit

A group of 64 threads is one wave, whose LDS accesses need no barrier, until the host splits the wave.
`PlanLdsBarriers` puts barriers back into a program that has none of its own: between reads and the write behind
them, and between writes and the read behind them. Two writes need none.
-/

namespace Prosperity.Gcn

/-! ## The plan -/

def kGcnWave : ℕ := 64

def isLdsRead (inst : Inst) : Bool :=
  inst.enc = .kDs &&
    (inst.opcode = 0x20 || (54 ≤ inst.opcode && inst.opcode ≤ 56) || inst.opcode = 118 || inst.opcode = 119)

/-- `IsLdsWrite`, where an atomic that returns is a read as well. -/
def isLdsWrite (inst : Inst) : Bool :=
  inst.enc = .kDs && (inst.opcode = 0x20 || (13 ≤ inst.opcode && inst.opcode ≤ 15) || inst.opcode = 77)

def isBarrier (inst : Inst) : Bool := inst.enc = .kSopp && inst.opcode = 0x0a

structure LdsBarrierPlan where
  at_ : List ℕ := []
  lockstep : Bool := false

section Plan

variable (program : Program) (reachable : Option (ℕ → Bool))

def looksAt (i : ℕ) : Bool := reachable.all fun live => live i

def looked : List (Inst × ℕ) := program.zipIdx.filter fun x => looksAt reachable x.2

/-- Whether an access asks for a barrier: `action` is 1 behind a read and 2 behind a write. -/
def asksBarrier (action : ℕ) (inst : Inst) : Bool :=
  (isLdsRead inst && action = 2) || (isLdsWrite inst && action = 1)

/-- `action` behind an instruction. -/
def nextAction (action : ℕ) (inst : Inst) : ℕ :=
  if !isLdsRead inst && !isLdsWrite inst then action else if isLdsRead inst then 1 else 2

def ldsTurn (branchy : Bool) (st : LdsBarrierPlan × ℕ) (x : Inst × ℕ) : LdsBarrierPlan × ℕ :=
  if !looksAt reachable x.2 then st
  else if !isLdsRead x.1 && !isLdsWrite x.1 then st
  else
    (if asksBarrier st.2 x.1 then
        ⟨if st.1.at_.getLast? = some x.2 then st.1.at_ else st.1.at_ ++ [x.2], branchy⟩
      else st.1,
      nextAction st.2 x.1)

/-- `PlanLdsBarriers`, on a host whose subgroups split a wave or do not. -/
def planLdsBarriers (waveSplits : Bool) (threadsPerGroup : ℕ) : LdsBarrierPlan :=
  if !waveSplits ∨ threadsPerGroup ≠ kGcnWave then {}
  else
    let insts := (looked program reachable).map Prod.fst
    if !insts.any isLdsRead ∨ !insts.any isLdsWrite ∨ insts.any isBarrier then {}
    else (program.zipIdx.foldl (ldsTurn reachable (hasControlFlow program)) ({}, 0)).1

end Plan

/-! ## Where barriers come -/

section Walk

variable {program : Program} {reachable : Option (ℕ → Bool)} {branchy : Bool} {i j k : ℕ} {a b : Inst}

/-- The turn as a walk that places barriers. -/
def ldsStep (reachable : Option (ℕ → Bool)) (action : ℕ) (x : Inst × ℕ) : ℕ × Bool :=
  if !looksAt reachable x.2 then (action, false) else (nextAction action x.1, asksBarrier action x.1)

theorem ldsTurn_spec (st : LdsBarrierPlan × ℕ) (x : Inst × ℕ) :
    (ldsTurn reachable branchy st x).2 = (ldsStep reachable st.2 x).1 ∧
      (∀ k ∈ st.1.at_, k ∈ (ldsTurn reachable branchy st x).1.at_) ∧
      ((ldsStep reachable st.2 x).2 = true → x.2 ∈ (ldsTurn reachable branchy st x).1.at_) := by
  rw [ldsTurn, ldsStep]
  by_cases hlook : (!looksAt reachable x.2) = true
  · rw [if_pos hlook, if_pos hlook]
    exact ⟨rfl, fun k hk => hk, fun h => by cases h⟩
  rw [if_neg hlook, if_neg hlook]
  by_cases haccess : (!isLdsRead x.1 && !isLdsWrite x.1) = true
  · rw [if_pos haccess]
    refine ⟨(if_pos haccess).symm, fun k hk => hk, fun hask => ?_⟩
    simp only [Bool.and_eq_true, Bool.not_eq_true'] at haccess
    simp [asksBarrier, haccess.1, haccess.2] at hask
  rw [if_neg haccess]
  refine ⟨rfl, fun k hk => ?_, fun hask => ?_⟩
  · dsimp only
    split
    · dsimp only
      split
      · exact hk
      · exact List.mem_append_left _ hk
    · exact hk
  · -- a barrier that is there already stands at the same place
    dsimp only at hask ⊢
    rw [if_pos hask]
    dsimp only
    split
    · rename_i hlast
      exact List.mem_of_getLast? hlast
    · exact List.mem_append_right _ (List.mem_singleton_self _)

/-- **The walk notes each of its barriers.** -/
theorem ldsTurns_spec (k : ℕ) (hk : k ≤ program.length) :
    ((program.zipIdx.take k).foldl (ldsTurn reachable branchy) ({}, 0)).2 =
        BarrierWalk.stateAfter (ldsStep reachable) 0 (program.zipIdx.take k) ∧
      ∀ m < k, BarrierWalk.BarrierAt (ldsStep reachable) 0 program.zipIdx m →
        m ∈ ((program.zipIdx.take k).foldl (ldsTurn reachable branchy) ({}, 0)).1.at_ := by
  induction k with
  | zero => exact ⟨rfl, fun m hm => absurd hm (Nat.not_lt_zero m)⟩
  | succ k ih =>
    obtain ⟨hstate, hnoted⟩ := ih (Nat.le_of_succ_le hk)
    have hget : program.zipIdx[k]? = some (program[k], k) := by simp
    have htake : program.zipIdx.take (k + 1) = program.zipIdx.take k ++ [(program[k], k)] := by
      rw [List.take_add_one, hget]
      rfl
    rw [BarrierWalk.stateAfter_succ hget, htake, List.foldl_concat, ← hstate]
    obtain ⟨haction, hkept, hnew⟩ := @ldsTurn_spec reachable branchy
      ((program.zipIdx.take k).foldl (ldsTurn reachable branchy) ({}, 0)) (program[k], k)
    refine ⟨haction, fun m hm hbar => ?_⟩
    rcases Nat.lt_or_eq_of_le (Nat.le_of_lt_succ hm) with hlt | rfl
    · exact hkept m (hnoted m hlt hbar)
    · obtain ⟨x, hx, hbar⟩ := hbar
      obtain rfl := Option.some.inj (hget.symm.trans hx)
      rw [← hstate] at hbar
      exact hnew hbar

theorem mem_planLdsBarriers (hread : ∃ x ∈ looked program reachable, isLdsRead x.1 = true)
    (hwrite : ∃ x ∈ looked program reachable, isLdsWrite x.1 = true)
    (hown : ∀ x ∈ looked program reachable, isBarrier x.1 = false)
    (hbar : BarrierWalk.BarrierAt (ldsStep reachable) 0 program.zipIdx k) :
    k ∈ (planLdsBarriers program reachable true kGcnWave).at_ := by
  have hlt : k < program.length := by
    obtain ⟨x, hx, -⟩ := hbar
    simpa using (List.getElem?_eq_some_iff.mp hx).1
  -- the plan is not given up: there are reads and writes, and no barrier of the shader's own
  have hgate : ¬((!((looked program reachable).map Prod.fst).any isLdsRead) = true ∨
      (!((looked program reachable).map Prod.fst).any isLdsWrite) = true ∨
      ((looked program reachable).map Prod.fst).any isBarrier = true) := by
    rintro (h | h | h)
    · obtain ⟨x, hx, hxr⟩ := hread
      simp only [Bool.not_eq_true', List.any_eq_false] at h
      exact h x.1 (List.mem_map_of_mem hx) hxr
    · obtain ⟨x, hx, hxw⟩ := hwrite
      simp only [Bool.not_eq_true', List.any_eq_false] at h
      exact h x.1 (List.mem_map_of_mem hx) hxw
    · obtain ⟨inst, hinst, hb⟩ := List.any_eq_true.mp h
      obtain ⟨x, hx, rfl⟩ := List.mem_map.mp hinst
      rw [hown x hx] at hb
      cases hb
  rw [planLdsBarriers, if_neg (by decide), if_neg hgate]
  have hall := (@ldsTurns_spec program reachable (hasControlFlow program) program.length (Nat.le_refl _)).2 k hlt hbar
  rwa [List.take_of_length_le (by rw [List.length_zipIdx])] at hall

theorem ldsStep_keeps {kind action : ℕ} {x : Inst × ℕ} (hkind : kind = 1 ∨ kind = 2) (haction : action = kind)
    (hquiet : (ldsStep reachable action x).2 = false) : (ldsStep reachable action x).1 = kind := by
  subst haction
  rw [ldsStep] at hquiet ⊢
  split at hquiet
  · rename_i hlook
    rw [if_pos hlook]
  · rename_i hlook
    rw [if_neg hlook]
    dsimp only at hquiet ⊢
    rw [asksBarrier] at hquiet
    rw [nextAction]
    rcases hkind with rfl | rfl <;> cases hr : isLdsRead x.1 <;> cases hw : isLdsWrite x.1 <;>
      simp [hr, hw] at hquiet ⊢

/-- **A barrier comes between a read and a write, and between a write and a read**, in a group of one wave that the
host splits, if the program has no barrier of its own. -/
theorem barrier_between (hown : ∀ x ∈ looked program reachable, isBarrier x.1 = false) (hij : i < j)
    (ha : program[i]? = some a) (hb : program[j]? = some b) (hi : looksAt reachable i = true)
    (hj : looksAt reachable j = true) (hpair : isLdsRead a = true ∧ isLdsWrite b = true ∨
      isLdsWrite a = true ∧ isLdsRead a = false ∧ isLdsRead b = true) :
    ∃ k ∈ (planLdsBarriers program reachable true kGcnWave).at_, i < k ∧ k ≤ j := by
  have hlooked : ∀ {k : ℕ} {c : Inst}, program[k]? = some c → looksAt reachable k = true →
      (c, k) ∈ looked program reachable := by
    intro k c hc hk
    obtain ⟨hlt, rfl⟩ := List.getElem?_eq_some_iff.mp hc
    refine List.mem_filter.mpr ⟨List.mem_of_getElem? (i := k) (by simp [hlt]), hk⟩
  have hget : ∀ {k : ℕ} {c : Inst}, program[k]? = some c → program.zipIdx[k]? = some (c, k) := by
    intro k c hc
    obtain ⟨hlt, rfl⟩ := List.getElem?_eq_some_iff.mp hc
    simp [hlt]
  have hstep : ∀ {k : ℕ} (c : Inst) (action : ℕ), looksAt reachable k = true →
      ldsStep reachable action (c, k) = (nextAction action c, asksBarrier action c) := by
    intro k c action hk
    rw [ldsStep, hk]
    rfl
  -- the action that the first access leaves stays until a barrier is put or the second one asks for it
  rcases hpair with ⟨har, hbw⟩ | ⟨haw, har, hbr⟩
  · obtain ⟨k, hik, hkj, hbar⟩ := @BarrierWalk.exists_barrier _ _ (ldsStep reachable) 0 program.zipIdx (a, i) (b, j)
      i j (fun action => action = 1) hij (hget ha) (hget hb) (by rw [hstep a _ hi]; simp [nextAction, har])
      (fun action x h hquiet => ldsStep_keeps (.inl rfl) h hquiet)
      (fun action h => by rw [hstep b _ hj, h]; simp [asksBarrier, hbw])
    exact ⟨k, mem_planLdsBarriers ⟨_, hlooked ha hi, har⟩ ⟨_, hlooked hb hj, hbw⟩ hown hbar, hik, hkj⟩
  · obtain ⟨k, hik, hkj, hbar⟩ := @BarrierWalk.exists_barrier _ _ (ldsStep reachable) 0 program.zipIdx (a, i) (b, j)
      i j (fun action => action = 2) hij (hget ha) (hget hb) (by rw [hstep a _ hi]; simp [nextAction, har, haw])
      (fun action x h hquiet => ldsStep_keeps (.inr rfl) h hquiet)
      (fun action h => by rw [hstep b _ hj, h]; simp [asksBarrier, hbr])
    exact ⟨k, mem_planLdsBarriers ⟨_, hlooked hb hj, hbr⟩ ⟨_, hlooked ha hi, haw⟩ hown hbar, hik, hkj⟩

def dsInst (op pc : ℕ) : Inst := ⟨.kBase, .kDs, op, 0, 0, 2, pc, false, 0, .kNone⟩

/-- A store and a load. -/
theorem barrier_between_two :
    ∃ k ∈ (planLdsBarriers [dsInst 13 0, dsInst 54 2] none true kGcnWave).at_, 0 < k ∧ k ≤ 1 :=
  barrier_between (by decide) Nat.one_pos rfl rfl rfl rfl (.inr (by decide))

/-- Of two stores and a load, no barrier comes between the stores. -/
theorem stores_not_separated : ¬∀ (program : Program) (i j : ℕ) (a b : Inst), hasControlFlow program = false → i < j →
      program[i]? = some a → program[j]? = some b → (isLdsRead a = true ∨ isLdsWrite a = true) →
      (isLdsRead b = true ∨ isLdsWrite b = true) → (isLdsWrite a = true ∨ isLdsWrite b = true) →
      (∃ k c, i < k ∧ k < j ∧ program[k]? = some c ∧ isBarrier c = true) ∨
        ∃ k ∈ (planLdsBarriers program none true kGcnWave).at_, i < k ∧ k ≤ j := by
  intro h
  rcases h [dsInst 13 0, dsInst 13 2, dsInst 54 4] 0 1 (dsInst 13 0) (dsInst 13 2) (by decide) Nat.one_pos rfl rfl
    (by decide) (by decide) (by decide) with ⟨k, c, hik, hkj, -, -⟩ | ⟨k, hk, hik, hkj⟩
  · omega
  · have hat : (planLdsBarriers [dsInst 13 0, dsInst 13 2, dsInst 54 4] none true kGcnWave).at_ = [2] := by decide
    rw [hat, List.mem_singleton] at hk
    omega

end Walk

end Prosperity.Gcn
