import Prosperity.Foundations.Overlays
import Prosperity.Gcn.ScalarEval

/-!
# Versions of descriptors

Which scalar load last filled the registers of a descriptor, by the order of the program. A load that
overlaps an older one retires all of it.
-/

namespace Prosperity.Gcn

/-- For each register the length of its load, zero where it is none, its first register and its pc. -/
structure DescriptorVersions where
  len : ℕ → ℕ := fun _ => 0
  start : ℕ → ℕ := fun _ => 0
  pc : ℕ → ℕ := fun _ => 0

namespace DescriptorVersions

def kInline : ℕ := 0xFFFFFFFF

def kSgprs : ℕ := 128

variable (v : DescriptorVersions)

def of (sgpr dwords : ℕ) : ℕ :=
  if sgpr ≥ kSgprs ∨ v.len sgpr = 0 then kInline
  else if sgpr + dwords ≤ v.start sgpr + v.len sgpr then v.pc sgpr
  else kInline

def retire (s : ℕ) : DescriptorVersions :=
  { v with len := fun t => if v.start s ≤ t ∧ t < v.start s + v.len s then 0 else v.len t }

def note (inst : Inst) : DescriptorVersions :=
  if inst.enc ≠ .kSmrd then v
  else
    match smrdDwords inst.opcode with
    | none => v
    | some n =>
      let sdst := (inst.raw0 >>> 15) &&& 0x7F
      let end_ := min (sdst + n) kSgprs
      let retired := (List.range (end_ - sdst)).foldl (fun v i => v.retire (sdst + i)) v
      { len := fun s => if sdst ≤ s ∧ s < end_ then n else retired.len s
        start := fun s => if sdst ≤ s ∧ s < end_ then sdst else retired.start s
        pc := fun s => if sdst ≤ s ∧ s < end_ then inst.pc else retired.pc s }

/-! ## The loads that are there -/

structure Tracks (live : List (Overlay ℕ)) : Prop where
  apart : ∀ o ∈ live, ∀ o' ∈ live, o.Meets o' → o = o'
  inFile : ∀ o ∈ live, o.first < kSgprs ∧ 0 < o.count
  has : ∀ o ∈ live, ∀ s < kSgprs, o.Has s → v.len s = o.count ∧ v.start s = o.first ∧ v.pc s = o.version
  free : ∀ s < kSgprs, (∀ o ∈ live, ¬o.Has s) → v.len s = 0

variable {v} {live live' : List (Overlay ℕ)}

theorem tracks_nil : Tracks {} [] where
  apart _ ho := absurd ho List.not_mem_nil
  inFile _ ho := absurd ho List.not_mem_nil
  has _ ho := absurd ho List.not_mem_nil
  free _ _ _ := rfl

theorem Tracks.of_mem_iff (h : v.Tracks live) (hmem : ∀ o, o ∈ live' ↔ o ∈ live) : v.Tracks live' where
  apart o ho o' ho' := h.apart o ((hmem o).mp ho) o' ((hmem o').mp ho')
  inFile o ho := h.inFile o ((hmem o).mp ho)
  has o ho := h.has o ((hmem o).mp ho)
  free s hs hfree := h.free s hs fun o ho => hfree o ((hmem o).mpr ho)

theorem Tracks.retire (h : v.Tracks live) {s : ℕ} (hs : s < kSgprs) :
    (v.retire s).Tracks (live.filter fun o => ¬o.Has s) := by
  by_cases hload : ∃ o ∈ live, o.Has s
  · obtain ⟨o, ho, hos⟩ := hload
    obtain ⟨hlen, hstart, -⟩ := h.has o ho s hs hos
    -- the load that has the register goes, all of it
    have hretired : ∀ t, (v.retire s).len t = if o.Has t then 0 else v.len t := by
      intro t
      simp only [DescriptorVersions.retire, hlen, hstart]
      rfl
    refine ⟨?_, ?_, ?_, ?_⟩
    · intro a ha b hb
      exact h.apart a (List.mem_filter.mp ha).1 b (List.mem_filter.mp hb).1
    · intro a ha
      exact h.inFile a (List.mem_filter.mp ha).1
    · intro a ha t ht hat
      obtain ⟨ha, hnot⟩ := List.mem_filter.mp ha
      have hother : ¬o.Has t := by
        intro hot
        obtain rfl := h.apart a ha o ho (hat.meets hot)
        exact of_decide_eq_true hnot hos
      rw [hretired, if_neg hother]
      exact h.has a ha t ht hat
    · intro t ht hfree
      rw [hretired]
      split
      · rfl
      · rename_i hot
        refine h.free t ht fun a ha hat => ?_
        by_cases hsa : a.Has s
        · obtain rfl := h.apart a ha o ho (hsa.meets hos)
          exact hot hat
        · exact hfree a (List.mem_filter.mpr ⟨ha, decide_eq_true hsa⟩) hat
  · have hnone : ∀ o ∈ live, ¬o.Has s := fun o ho hos => hload ⟨o, ho, hos⟩
    have hlen := h.free s hs hnone
    have hsame : v.retire s = v := by
      simp only [DescriptorVersions.retire, hlen]
      congr 1
      funext t
      exact if_neg fun hlt => by omega
    rw [hsame]
    refine h.of_mem_iff fun o => ?_
    simp only [List.mem_filter, decide_eq_true_eq]
    exact ⟨And.left, fun ho => ⟨ho, hnone o ho⟩⟩

theorem Tracks.retires (h : v.Tracks live) (first : ℕ) {n : ℕ} (hn : first + n ≤ kSgprs) :
    ((List.range n).foldl (fun v i => v.retire (first + i)) v).Tracks
      (live.filter fun o => ∀ i < n, ¬o.Has (first + i)) := by
  induction n with
  | zero =>
    refine h.of_mem_iff fun o => ?_
    simp only [List.mem_filter, decide_eq_true_eq]
    exact ⟨And.left, fun ho => ⟨ho, fun i hi => absurd hi (Nat.not_lt_zero i)⟩⟩
  | succ n ih =>
    rw [List.range_succ, List.foldl_concat]
    refine ((ih (by omega)).retire (s := first + n) (by omega)).of_mem_iff fun o => ?_
    simp only [List.mem_filter, decide_eq_true_eq, Nat.forall_lt_succ_right, and_assoc]

theorem smrdDwords_pos {op n : ℕ} (h : smrdDwords op = some n) : 0 < n := by
  unfold smrdDwords at h
  split at h
  · obtain rfl := Option.some.inj h
    exact Nat.shiftLeft_eq 1 op ▸ Nat.mul_pos Nat.one_pos (Nat.two_pow_pos op)
  · split at h
    · obtain rfl := Option.some.inj h
      exact Nat.shiftLeft_eq 1 _ ▸ Nat.mul_pos Nat.one_pos (Nat.two_pow_pos _)
    · cases h

theorem Tracks.fill (h : v.Tracks live) {o : Overlay ℕ} (hapart : ∀ old ∈ live, ¬old.Meets o)
    (hfirst : o.first < kSgprs) (hpos : 0 < o.count) : Tracks
      { len := fun s => if o.first ≤ s ∧ s < min (o.first + o.count) kSgprs then o.count else v.len s
        start := fun s => if o.first ≤ s ∧ s < min (o.first + o.count) kSgprs then o.first else v.start s
        pc := fun s => if o.first ≤ s ∧ s < min (o.first + o.count) kSgprs then o.version else v.pc s }
      (live ++ [o]) := by
  have hiff : ∀ s < kSgprs, (o.first ≤ s ∧ s < min (o.first + o.count) kSgprs) ↔ o.Has s :=
    fun s hs => and_congr_right fun _ => ⟨fun hlt => (Nat.lt_min.mp hlt).1, fun hlt => Nat.lt_min.mpr ⟨hlt, hs⟩⟩
  refine ⟨?_, ?_, ?_, ?_⟩
  · intro a ha b hb hmeets
    obtain hold | hnew := List.mem_append.mp ha <;> obtain hold' | hnew' := List.mem_append.mp hb
    · exact h.apart a hold b hold' hmeets
    · obtain rfl := List.mem_singleton.mp hnew'
      exact absurd hmeets (hapart a hold)
    · obtain rfl := List.mem_singleton.mp hnew
      exact absurd hmeets.symm (hapart b hold')
    · exact (List.mem_singleton.mp hnew).trans (List.mem_singleton.mp hnew').symm
  · intro a ha
    obtain ha | ha := List.mem_append.mp ha
    · exact h.inFile a ha
    · obtain rfl := List.mem_singleton.mp ha
      exact ⟨hfirst, hpos⟩
  · intro a ha s hs has
    simp only [hiff s hs]
    obtain ha | ha := List.mem_append.mp ha
    · have hnot : ¬o.Has s := fun hos => hapart a ha (has.meets hos)
      simp only [if_neg hnot]
      exact h.has a ha s hs has
    · obtain rfl := List.mem_singleton.mp ha
      simp only [if_pos has, and_self]
  · intro s hs hfree
    have hnot := hfree o (List.mem_append_right _ (List.mem_singleton_self o))
    simp only [hiff s hs, if_neg hnot]
    exact h.free s hs fun a ha => hfree a (List.mem_append_left _ ha)

/-- **A load is laid over the others.** -/
theorem Tracks.note (h : v.Tracks live) {inst : Inst} {n : ℕ} (henc : inst.enc = .kSmrd)
    (hn : smrdDwords inst.opcode = some n) :
    (v.note inst).Tracks (lay live ⟨(inst.raw0 >>> 15) &&& 0x7F, n, inst.pc⟩) := by
  have hpos := smrdDwords_pos hn
  have hsdst : (inst.raw0 >>> 15) &&& 0x7F < kSgprs := Nat.lt_succ_of_le Nat.and_le_right
  unfold DescriptorVersions.note
  rw [if_neg (not_not_intro henc), hn]
  dsimp only
  generalize (inst.raw0 >>> 15) &&& 0x7F = sdst at hsdst ⊢
  have hretired := h.retires sdst (n := min (sdst + n) kSgprs - sdst) (by omega)
  refine Tracks.fill (o := ⟨sdst, n, inst.pc⟩) (hretired.of_mem_iff fun o => ?_)
    (fun old hold => of_decide_eq_true (List.mem_filter.mp hold).2) hsdst hpos
  simp only [List.mem_filter, decide_eq_true_eq]
  refine and_congr_right fun ho => ⟨fun hnot i hi hhas => ?_, fun hnot hmeets => ?_⟩
  · refine hnot (hhas.meets ⟨Nat.le_add_right _ _, ?_⟩)
    dsimp only
    omega
  · -- what meets the load has one of its registers below 128, so it is gone
    obtain ⟨hhas, hhas'⟩ := hmeets.has (h.inFile o ho).2 hpos
    have hlt := (h.inFile o ho).1
    have hend := hhas'.2
    dsimp only at hhas hend
    refine hnot (max o.first sdst - sdst) (by omega) ?_
    rwa [Nat.add_sub_cancel' (Nat.le_max_right _ _)]

/-- **The version of some registers** is the load that covers them. -/
theorem Tracks.of {history : List (Overlay ℕ)} (h : v.Tracks (layAll history)) {sgpr dwords : ℕ}
    (hsgpr : sgpr < kSgprs) (hpos : 0 < dwords) :
    v.of sgpr dwords = (versionOf (layAll history) sgpr dwords).getD kInline := by
  unfold DescriptorVersions.of
  by_cases hload : ∃ o ∈ layAll history, o.Has sgpr
  · obtain ⟨o, ho, hhas⟩ := hload
    obtain ⟨hlen, hstart, hpc⟩ := h.has o ho sgpr hsgpr hhas
    have hcount := (h.inFile o ho).2
    rw [if_neg (by omega), hlen, hstart, hpc]
    split
    · rename_i hend
      rw [versionOf_of_mem hpos ho ⟨hhas.1, hend⟩]
      rfl
    · rename_i hend
      cases hversion : versionOf (layAll history) sgpr dwords with
      | none => rfl
      | some version =>
        obtain ⟨o', ho', hcovers, -⟩ := of_versionOf hversion
        obtain rfl := eq_of_meets ho' ho ((hcovers.has hpos).meets hhas)
        exact absurd hcovers.2 hend
  · have hlen := h.free sgpr hsgpr fun o ho hhas => hload ⟨o, ho, hhas⟩
    rw [if_pos (.inr hlen)]
    cases hversion : versionOf (layAll history) sgpr dwords with
    | none => rfl
    | some version =>
      obtain ⟨o, ho, hcovers, -⟩ := of_versionOf hversion
      exact absurd ⟨o, ho, hcovers.has hpos⟩ hload

end DescriptorVersions

end Prosperity.Gcn
