import Prosperity.Gcn.DescriptorVersions

/-!
# The arrays behind the versions of descriptors

`Note` writes the length of each register of a load that it retires, and a load may run past the last register
that is tracked. Here the arrays have their bounds: an access outside of them has no outcome. A sequence of loads
stays inside as long as no load that runs past the last register is met by a later one, and then the version of
some registers is the last load that covers them, unless a later one meets it.
-/

namespace Prosperity.Gcn

/-- The load runs past the last register that is tracked. -/
def Overruns (o : Overlay ℕ) : Prop := DescriptorVersions.kSgprs < o.first + o.count

instance (o : Overlay ℕ) : Decidable (Overruns o) := inferInstanceAs (Decidable (_ < _))

def loadOf (inst : Inst) : Option (Overlay ℕ) :=
  if inst.enc ≠ .kSmrd then none
  else (smrdDwords inst.opcode).map fun n => ⟨(inst.raw0 >>> 15) &&& 0x7F, n, inst.pc⟩

def loads (insts : List Inst) : List (Overlay ℕ) := insts.filterMap loadOf

/-- No load that runs past the last register is met by a later one. -/
def NoneOverrun (history : List (Overlay ℕ)) : Prop := history.Pairwise fun o o' => Overruns o → ¬o.Meets o'

namespace DescriptorVersions

variable (v : DescriptorVersions)

/-- `Of`, with sums of 32 bits. -/
def ofWord (sgpr dwords : UInt32) : ℕ :=
  if sgpr.toNat ≥ kSgprs ∨ v.len sgpr.toNat = 0 then kInline
  else if (sgpr + dwords).toNat ≤ v.start sgpr.toNat + v.len sgpr.toNat then v.pc sgpr.toNat
  else kInline

/-- The inner loop of `Note`, which writes the length of each register of the load. -/
def retire? (s : ℕ) : Option DescriptorVersions :=
  if v.len s ≠ 0 ∧ kSgprs < v.start s + v.len s then none else some (v.retire s)

/-- A load takes its registers. -/
def fill (sdst end_ n pc : ℕ) : DescriptorVersions where
  len s := if sdst ≤ s ∧ s < end_ then n else v.len s
  start s := if sdst ≤ s ∧ s < end_ then sdst else v.start s
  pc s := if sdst ≤ s ∧ s < end_ then pc else v.pc s

/-- `Note` on arrays with bounds. -/
def note? (inst : Inst) : Option DescriptorVersions :=
  if inst.enc ≠ .kSmrd then some v
  else
    match smrdDwords inst.opcode with
    | none => some v
    | some n =>
      let sdst := (inst.raw0 >>> 15) &&& 0x7F
      let end_ := min (sdst + n) kSgprs
      ((List.range (end_ - sdst)).foldlM (fun (v : DescriptorVersions) i => v.retire? (sdst + i)) v).map fun retired =>
        retired.fill sdst end_ n inst.pc

/-- A sequence of instructions is recorded. -/
def noteAll? (insts : List Inst) : Option DescriptorVersions := insts.foldlM note? {}

/-! ## When an access is outside -/

variable {v} {live : List (Overlay ℕ)}

theorem Tracks.retire?_eq (h : v.Tracks live) {s : ℕ} (hs : s < kSgprs) :
    v.retire? s = if ∃ o ∈ live, Overruns o ∧ o.Has s then none else some (v.retire s) := by
  rw [retire?]
  refine if_congr ⟨fun hbad => ?_, fun ⟨o, ho, hover, hhas⟩ => ?_⟩ rfl rfl
  · by_cases hload : ∃ o ∈ live, o.Has s
    · obtain ⟨o, ho, hhas⟩ := hload
      obtain ⟨hlen, hstart, -⟩ := h.has o ho s hs hhas
      rw [hlen, hstart] at hbad
      exact ⟨o, ho, hbad.2, hhas⟩
    · exact absurd (h.free s hs fun o ho hhas => hload ⟨o, ho, hhas⟩) hbad.1
  · obtain ⟨hlen, hstart, -⟩ := h.has o ho s hs hhas
    rw [hlen, hstart]
    exact ⟨Nat.ne_of_gt (h.inFile o ho).2, hover⟩

theorem Tracks.retires?_eq (h : v.Tracks live) (first : ℕ) {n : ℕ} (hn : first + n ≤ kSgprs) :
    (List.range n).foldlM (fun (v : DescriptorVersions) i => v.retire? (first + i)) v =
      if ∃ o ∈ live, Overruns o ∧ ∃ i < n, o.Has (first + i) then none
      else some ((List.range n).foldl (fun v i => v.retire (first + i)) v) := by
  induction n with
  | zero =>
    rw [if_neg]
    · rfl
    · rintro ⟨o, -, -, i, hi, -⟩
      exact absurd hi (Nat.not_lt_zero i)
  | succ n ih =>
    rw [List.range_succ, List.foldlM_append, List.foldl_concat, ih (by omega)]
    -- either an earlier register was outside, or the loads it left are those that have none of them
    by_cases hbefore : ∃ o ∈ live, Overruns o ∧ ∃ i < n, o.Has (first + i)
    · obtain ⟨o, ho, hover, i, hi, hhas⟩ := hbefore
      rw [if_pos ⟨o, ho, hover, i, hi, hhas⟩, if_pos ⟨o, ho, hover, i, Nat.lt_succ_of_lt hi, hhas⟩]
      rfl
    · have hretired := h.retires first (n := n) (by omega)
      have hlast := hretired.retire?_eq (s := first + n) (by omega)
      rw [if_neg hbefore, Option.bind_eq_bind, Option.bind_some, List.foldlM_cons]
      simp only [List.foldlM_nil, bind_pure]
      rw [hlast]
      refine if_congr ⟨fun ⟨o, ho, hover, hhas⟩ => ?_, fun ⟨o, ho, hover, i, hi, hhas⟩ => ?_⟩ rfl rfl
      · exact ⟨o, (List.mem_filter.mp ho).1, hover, n, Nat.lt_succ_self n, hhas⟩
      · rcases Nat.lt_or_eq_of_le (Nat.le_of_lt_succ hi) with hlt | rfl
        · exact absurd ⟨o, ho, hover, i, hlt, hhas⟩ hbefore
        · -- the load is still there, or an access before was outside
          refine ⟨o, List.mem_filter.mpr ⟨ho, decide_eq_true fun j hj hhas' => ?_⟩, hover, hhas⟩
          exact hbefore ⟨o, ho, hover, j, hj, hhas'⟩

theorem note?_of_loadOf_eq_none {inst : Inst} (h : loadOf inst = none) : v.note? inst = some v := by
  rw [loadOf] at h
  rw [note?]
  split
  · rfl
  · rename_i henc
    rw [if_neg henc, Option.map_eq_none_iff] at h
    rw [h]

/-- **A load is recorded**, unless it meets one that runs past the last register. -/
theorem Tracks.note?_eq (h : v.Tracks live) {inst : Inst} {o : Overlay ℕ} (ho : loadOf inst = some o) :
    if ∃ old ∈ live, Overruns old ∧ old.Meets o then v.note? inst = none
    else ∃ v', v.note? inst = some v' ∧ v'.Tracks (lay live o) := by
  rw [loadOf] at ho
  split at ho
  · cases ho
  rename_i henc
  obtain ⟨n, hn, rfl⟩ := Option.map_eq_some_iff.mp ho
  have hnote := h.note (not_not.mp henc) hn
  have hpos := smrdDwords_pos hn
  have hsdst : (inst.raw0 >>> 15) &&& 0x7F < kSgprs := Nat.lt_succ_of_le Nat.and_le_right
  rw [note?, if_neg henc, hn]
  rw [DescriptorVersions.note, if_neg henc, hn] at hnote
  dsimp only at hnote ⊢
  generalize (inst.raw0 >>> 15) &&& 0x7F = sdst at hsdst hnote ⊢
  -- the registers are cut off at the last one, but an old load begins inside the file
  have hiff : (∃ old ∈ live, Overruns old ∧ ∃ i < min (sdst + n) kSgprs - sdst, old.Has (sdst + i)) ↔
      ∃ old ∈ live, Overruns old ∧ old.Meets ⟨sdst, n, inst.pc⟩ := by
    refine exists_congr fun old => and_congr_right fun hold => and_congr_right fun _ => ⟨?_, fun hmeets => ?_⟩
    · rintro ⟨i, hi, hhas⟩
      refine hhas.meets ⟨Nat.le_add_right _ _, ?_⟩
      dsimp only
      omega
    · obtain ⟨hhas, hhas'⟩ := hmeets.has (h.inFile old hold).2 hpos
      have hlt := (h.inFile old hold).1
      have hend := hhas'.2
      dsimp only at hhas hend
      refine ⟨max old.first sdst - sdst, by omega, ?_⟩
      rwa [Nat.add_sub_cancel' (Nat.le_max_right _ _)]
  rw [h.retires?_eq sdst (by omega)]
  by_cases hbad : ∃ old ∈ live, Overruns old ∧ old.Meets ⟨sdst, n, inst.pc⟩
  · rw [if_pos hbad, if_pos (hiff.mpr hbad)]
    rfl
  · rw [if_neg hbad, if_neg (mt hiff.mp hbad)]
    exact ⟨_, rfl, hnote⟩

theorem noneOverrun_snoc {history : List (Overlay ℕ)} {o : Overlay ℕ} :
    NoneOverrun (history ++ [o]) ↔ NoneOverrun history ∧ ∀ old ∈ history, Overruns old → ¬old.Meets o := by
  simp only [NoneOverrun, List.pairwise_append, List.pairwise_singleton, true_and, List.mem_singleton, forall_eq]

theorem mem_layAll_of_noneOverrun {history : List (Overlay ℕ)} (h : NoneOverrun history) {o : Overlay ℕ}
    (ho : o ∈ history) (hover : Overruns o) : o ∈ layAll history := by
  induction history using List.reverseRecOn with
  | nil => exact absurd ho List.not_mem_nil
  | append_singleton history last ih =>
    obtain ⟨hbefore, hlast⟩ := noneOverrun_snoc.mp h
    rw [layAll_snoc, mem_lay]
    rcases List.mem_append.mp ho with hold | hnew
    · exact .inl ⟨ih hbefore hold, hlast o hold hover⟩
    · exact .inr (List.mem_singleton.mp hnew)

/-- **A sequence of loads is recorded** as long as no load past the last register is met. -/
theorem noteAll?_spec (insts : List Inst) :
    (NoneOverrun (loads insts) → ∃ v, noteAll? insts = some v ∧ v.Tracks (layAll (loads insts))) ∧
      (¬NoneOverrun (loads insts) → noteAll? insts = none) := by
  induction insts using List.reverseRecOn with
  | nil => exact ⟨fun _ => ⟨{}, rfl, tracks_nil⟩, fun h => absurd List.Pairwise.nil h⟩
  | append_singleton insts inst ih =>
    have hrun : noteAll? (insts ++ [inst]) = (noteAll? insts).bind fun v => v.note? inst := by
      rw [noteAll?, List.foldlM_append, noteAll?]
      simp only [List.foldlM_cons, List.foldlM_nil, bind_pure]
      rfl
    rw [hrun]
    cases hload : loadOf inst with
    | none =>
      have hsame : loads (insts ++ [inst]) = loads insts := by simp [loads, List.filterMap_append, hload]
      rw [hsame]
      refine ⟨fun h => ?_, fun h => by rw [ih.2 h]; rfl⟩
      obtain ⟨v, hv, htracks⟩ := ih.1 h
      exact ⟨v, by rw [hv]; exact note?_of_loadOf_eq_none hload, htracks⟩
    | some o =>
      have hsnoc : loads (insts ++ [inst]) = loads insts ++ [o] := by
        simp [loads, List.filterMap_append, hload]
      rw [hsnoc, noneOverrun_snoc, layAll_snoc]
      refine ⟨fun ⟨h, hapart⟩ => ?_, fun h => ?_⟩
      · obtain ⟨v, hv, htracks⟩ := ih.1 h
        have hnote := htracks.note?_eq hload
        rw [if_neg] at hnote
        · rw [hv]
          exact hnote
        · rintro ⟨old, hold, hover, hmeets⟩
          exact hapart old (mem_of_mem_layAll hold) hover hmeets
      · -- the first access outside is this one, or an earlier one has stopped the sequence
        by_cases hbefore : NoneOverrun (loads insts)
        · obtain ⟨v, hv, htracks⟩ := ih.1 hbefore
          have hnote := htracks.note?_eq hload
          rw [if_pos] at hnote
          · rw [hv]
            exact hnote
          · by_contra hnone
            refine h ⟨hbefore, fun old hold hover hmeets => hnone ⟨old, ?_, hover, hmeets⟩⟩
            exact mem_layAll_of_noneOverrun hbefore hold hover
        · rw [ih.2 hbefore]
          rfl

/-! ## The last load -/

def IsLast (history : List (Overlay ℕ)) (first count : ℕ) (o : Overlay ℕ) : Prop :=
  ∃ before after, history = before ++ o :: after ∧ o.Covers first count ∧ ∀ o' ∈ after, ¬o.Meets o'

theorem isLast_iff_mem {history : List (Overlay ℕ)} {first count : ℕ} {o : Overlay ℕ} :
    IsLast history first count o ↔ o ∈ layAll history ∧ o.Covers first count := by
  constructor
  · rintro ⟨before, after, rfl, hcovers, hafter⟩
    refine ⟨?_, hcovers⟩
    rw [layAll, List.foldl_append, List.foldl_cons]
    exact mem_foldl_lay_of_mem (mem_lay.mpr (.inr rfl)) hafter
  · rintro ⟨hmem, hcovers⟩
    suffices h : ∃ before after, history = before ++ o :: after ∧ ∀ o' ∈ after, ¬o.Meets o' by
      obtain ⟨before, after, hhistory, hafter⟩ := h
      exact ⟨before, after, hhistory, hcovers, hafter⟩
    induction history using List.reverseRecOn with
    | nil => exact absurd hmem List.not_mem_nil
    | append_singleton history last ih =>
      rw [layAll_snoc, mem_lay] at hmem
      rcases hmem with ⟨hold, hmeets⟩ | rfl
      · obtain ⟨before, after, rfl, hafter⟩ := ih hold
        refine ⟨before, after ++ [last], by rw [List.append_assoc, List.cons_append], fun o' ho' => ?_⟩
        rcases List.mem_append.mp ho' with ho' | ho'
        · exact hafter o' ho'
        · exact List.mem_singleton.mp ho' ▸ hmeets
      · exact ⟨history, [], rfl, fun o' ho' => absurd ho' List.not_mem_nil⟩

theorem Tracks.of_zero (h : v.Tracks live) {sgpr : ℕ} (hsgpr : sgpr < kSgprs) : v.of sgpr 0 = v.of sgpr 1 := by
  rw [DescriptorVersions.of, DescriptorVersions.of]
  by_cases hload : ∃ o ∈ live, o.Has sgpr
  · obtain ⟨o, ho, hhas⟩ := hload
    obtain ⟨hlen, hstart, -⟩ := h.has o ho sgpr hsgpr hhas
    obtain ⟨hle, hlt⟩ := hhas
    rw [hlen, hstart, if_pos (show sgpr + 0 ≤ o.first + o.count by omega),
      if_pos (show sgpr + 1 ≤ o.first + o.count by omega)]
  · rw [if_pos (.inr (h.free sgpr hsgpr fun o ho hhas => hload ⟨o, ho, hhas⟩)),
      if_pos (.inr (h.free sgpr hsgpr fun o ho hhas => hload ⟨o, ho, hhas⟩))]

theorem ofWord_eq {sgpr dwords : UInt32} (h : sgpr.toNat + dwords.toNat < 2 ^ 32) :
    v.ofWord sgpr dwords = v.of sgpr.toNat dwords.toNat := by
  rw [ofWord, DescriptorVersions.of, UInt32.toNat_add, Nat.mod_eq_of_lt h]

/-- **The version of some registers is the last load that covers them**, if no later one meets it, and that of the
user data otherwise; no access is outside of the arrays. -/
theorem of_last_load (insts : List Inst) (h : NoneOverrun (loads insts)) : ∃ v, noteAll? insts = some v ∧
      (∀ sgpr dwords : UInt32, kSgprs ≤ sgpr.toNat → v.ofWord sgpr dwords = kInline) ∧
      ∀ sgpr dwords : UInt32, sgpr.toNat < kSgprs → sgpr.toNat + dwords.toNat < 2 ^ 32 →
        (∀ o, IsLast (loads insts) sgpr.toNat (max dwords.toNat 1) o → v.ofWord sgpr dwords = o.version) ∧
          ((¬∃ o, IsLast (loads insts) sgpr.toNat (max dwords.toNat 1) o) → v.ofWord sgpr dwords = kInline) := by
  obtain ⟨v, hv, htracks⟩ := (noteAll?_spec insts).1 h
  refine ⟨v, hv, fun sgpr dwords hout => if_pos (.inl hout), fun sgpr dwords hsgpr hfits => ?_⟩
  have hpos : 0 < max dwords.toNat 1 := Nat.lt_of_lt_of_le Nat.one_pos (Nat.le_max_right _ _)
  have hof : v.ofWord sgpr dwords = (versionOf (layAll (loads insts)) sgpr.toNat (max dwords.toNat 1)).getD kInline := by
    rw [ofWord_eq hfits, ← htracks.of hsgpr hpos]
    rcases Nat.eq_zero_or_pos dwords.toNat with hzero | hsome
    · rw [hzero, htracks.of_zero hsgpr]
      rfl
    · rw [Nat.max_eq_left hsome]
  constructor
  · intro o ho
    obtain ⟨hmem, hcovers⟩ := isLast_iff_mem.mp ho
    rw [hof, versionOf_of_mem hpos hmem hcovers]
    rfl
  · intro hnone
    rw [hof]
    cases hversion : versionOf (layAll (loads insts)) sgpr.toNat (max dwords.toNat 1) with
    | none => rfl
    | some version =>
      obtain ⟨o, ho, hcovers, -⟩ := of_versionOf hversion
      exact absurd ⟨o, isLast_iff_mem.mpr ⟨ho, hcovers⟩⟩ hnone

/-- An `s_load_dword` of `2 ^ op` dwords. -/
def sLoad (op sdst pc : ℕ) : Inst := ⟨.kBase, .kSmrd, op, sdst <<< 15, 0, 1, pc, false, 0, .kNone⟩

theorem of_last_load_two : ∃ v, noteAll? [sLoad 3 0 0, sLoad 2 12 1] = some v ∧
      (∀ o, IsLast (loads [sLoad 3 0 0, sLoad 2 12 1]) 12 4 o → v.ofWord 12 4 = o.version) := by
  obtain ⟨v, hv, -, hlast⟩ := of_last_load [sLoad 3 0 0, sLoad 2 12 1] (by unfold NoneOverrun; decide)
  exact ⟨v, hv, (hlast 12 4 (by decide) (by decide)).1⟩

/-- A load of `s[4:5]` retires all of the one of `s[0:7]` before it, so that `s[0:3]` is user data again. -/
theorem untouched_part_inline :
    ¬∀ (insts : List Inst) (v : DescriptorVersions) (sgpr dwords : UInt32), noteAll? insts = some v →
      ∀ before o after, loads insts = before ++ o :: after → o.Covers sgpr.toNat dwords.toNat →
        (∀ o' ∈ after, ¬o'.Meets ⟨sgpr.toNat, dwords.toNat, 0⟩) → v.ofWord sgpr dwords = o.version := by
  intro h
  have hinline : (noteAll? [sLoad 3 0 0, sLoad 1 4 1]).map (fun v => v.ofWord 0 4) = some kInline := by decide
  obtain ⟨v, hv, hof⟩ := Option.map_eq_some_iff.mp hinline
  have hpc := h _ v 0 4 hv [] ⟨0, 8, 0⟩ [⟨4, 2, 1⟩] rfl (by decide) (by decide)
  rw [hof] at hpc
  exact absurd hpc (by decide)

end DescriptorVersions

end Prosperity.Gcn
