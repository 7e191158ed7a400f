import Prosperity.Foundations.FiniteDescent
import Prosperity.Formats.PfsTree

/-!
# When the walk of a PFS image ends

The counts of the image bound its loops, and nothing bounds the counts: a table or a directory may claim more blocks
than the image has. The walk keeps no record of where it is, so a directory that holds itself is walked forever.
-/

namespace Prosperity.Formats.PfsTree.Pfs

open Relation

variable {p : Pfs} {ino : List Inode} {files : Files} {pre : List UInt8}

/-! ## The inode table -/

theorem readInodesFrom_reads {n bi reads : ℕ} : (p.readInodesFrom n bi ino reads).2 =
    reads + if p.nd.toNat ≤ ino.length then 0 else if p.per = 0 then n
      else min n ((p.nd.toNat - ino.length + (p.per - 1)) / p.per) := by
  induction n generalizing bi ino reads with
  | zero => simp [readInodesFrom]
  | succ n ih =>
    rw [readInodesFrom]
    by_cases hdone : p.nd.toNat ≤ ino.length
    · rw [if_neg (Nat.not_lt.mpr hdone), if_pos hdone, Nat.add_zero]
    rw [if_pos (Nat.lt_of_not_le hdone), if_neg hdone]
    dsimp only
    rw [ih, List.length_append, List.length_map, List.length_range]
    by_cases h0 : p.per = 0
    · simp only [h0, Nat.zero_min, Nat.add_zero, if_neg hdone, if_true]
      omega
    rw [if_neg h0, if_neg h0]
    set x := p.nd.toNat - ino.length with hx
    rcases Nat.lt_or_ge p.per x with hlt | hge
    · have hceil : (x + (p.per - 1)) / p.per = (x - p.per + (p.per - 1)) / p.per + 1 := by
        rw [← Nat.add_div_right _ (Nat.pos_of_ne_zero h0)]
        congr 1
        omega
      have hsub : p.nd.toNat - (ino.length + p.per) = x - p.per := by omega
      rw [Nat.min_eq_left hlt.le, if_neg (by omega), hceil, hsub]
      omega
    · have hceil : (x + (p.per - 1)) / p.per = 1 := by
        rw [Nat.div_eq_of_lt_le] <;> omega
      rw [Nat.min_eq_right hge, if_pos (by omega), hceil]
      omega

theorem readInodes_reads_le_iff {k : ℕ} : p.readInodes.2 ≤ k ↔
    p.nd = 0 ∨ max p.ndb.toNat 1 ≤ k ∨ (0 < p.per ∧ p.nd.toNat ≤ k * p.per) := by
  have hcount : (if p.ndb < 1 then 1 else p.ndb).toNat = max p.ndb.toNat 1 := by
    split_ifs with h
    · rw [UInt64.lt_iff_toNat_lt, UInt64.toNat_one] at h
      rw [UInt64.toNat_one]
      omega
    · rw [UInt64.lt_iff_toNat_lt, UInt64.toNat_one] at h
      omega
  rw [readInodes, readInodesFrom_reads, hcount, Nat.zero_add, List.length_nil, Nat.sub_zero]
  by_cases hnd : p.nd = 0
  · rw [if_pos (by rw [hnd]; exact Nat.le_refl 0)]
    exact iff_of_true (Nat.zero_le k) (.inl hnd)
  have hpos : 0 < p.nd.toNat := Nat.pos_of_ne_zero fun h => hnd (UInt64.toNat_inj.mp h)
  rw [if_neg (by omega), or_iff_right hnd]
  split_ifs with h0
  · rw [or_iff_left fun h => absurd h0 (Nat.pos_iff_ne_zero.mp h.1)]
  · have hper := Nat.pos_of_ne_zero h0
    rw [and_iff_right hper, min_le_iff, ← Nat.lt_succ_iff (m := _ / _), Nat.div_lt_iff_lt_mul hper, Nat.succ_mul]
    omega

/-! ## A child of a directory -/

theorem findInBlocks_reads_le_iff {n : Inode} {name : List UInt8} {bbs : List ℕ} {reads k : ℕ} :
    (p.findInBlocks ino n name bbs reads).2 ≤ reads + k ↔
      bbs.length ≤ k ∨ ∃ bb ∈ bbs.take k, ∃ e ∈ p.blockEntries n bb, isChild ino name e = true := by
  induction bbs generalizing reads k with
  | nil => simp [findInBlocks]
  | cons bb bbs ih =>
    rw [findInBlocks]
    cases hfind : (p.blockEntries n bb).find? (isChild ino name) with
    | some e =>
      have hmem := List.mem_of_find?_eq_some hfind
      have hchild := List.find?_some hfind
      cases k with
      | zero => simp
      | succ k =>
        refine iff_of_true (by dsimp only; omega) (.inr ⟨bb, ?_, e, hmem, hchild⟩)
        rw [List.take_succ_cons]
        exact List.mem_cons_self
    | none =>
      have hnone : ¬∃ e ∈ p.blockEntries n bb, isChild ino name e = true := fun ⟨e, he, hc⟩ =>
        List.find?_eq_none.mp hfind e he hc
      cases k with
      | zero =>
        have hge : ∀ bbs reads, reads ≤ (p.findInBlocks ino n name bbs reads).2 := fun bbs => by
          induction bbs with
          | nil => exact fun reads => Nat.le_refl reads
          | cons bb bbs ih =>
            intro reads
            rw [findInBlocks]
            split
            · exact Nat.le_succ reads
            · exact (Nat.le_succ reads).trans (ih (reads + 1))
        have hlt := hge bbs (reads + 1)
        simp only [List.length_cons, List.take_zero, List.not_mem_nil, false_and, exists_false, or_false]
        omega
      | succ k =>
        have hstep := @ih (reads + 1) k
        rw [Nat.add_right_comm] at hstep
        rw [← Nat.add_assoc, hstep, List.length_cons, Nat.succ_le_succ_iff, List.take_succ_cons, List.exists_mem_cons_iff,
          or_iff_right hnone]

/-! ## The walk -/

/-- A directory, and a child that the walk goes down to. -/
def Edge (p : Pfs) (ino : List Inode) (i j : ℕ) : Prop :=
  ∃ n, ino[i]? = some n ∧ ∃ e ∈ p.dirEntries n, descends e = true ∧ e.ch.toNat = j

theorem Edge.lt {i j : ℕ} (h : Edge p ino i j) : j < 2 ^ 32 := by
  obtain ⟨_, _, e, _, _, rfl⟩ := h
  exact e.ch.toNat_lt

theorem finite_edge (i : ℕ) : {j | Edge p ino i j}.Finite :=
  (Set.finite_lt_nat (2 ^ 32)).subset fun _ h => Edge.lt h

theorem finite_reached (i : ℕ) : {j | ReflTransGen (Edge p ino) i j}.Finite := by
  refine ((Set.finite_lt_nat (2 ^ 32)).insert i).subset fun j h => ?_
  rcases ReflTransGen.cases_tail h with rfl | ⟨_, _, hedge⟩
  · exact Set.mem_insert _ _
  · exact Set.mem_insert_of_mem _ hedge.lt

theorem foldlM_isSome_iff {α β : Type} {f : β → α → Option β} {P : α → Prop} (h : ∀ b a, (f b a).isSome ↔ P a)
    {l : List α} {b : β} : (l.foldlM f b).isSome ↔ ∀ a ∈ l, P a := by
  induction l generalizing b with
  | nil => exact iff_of_true rfl fun _ h => by cases h
  | cons a l ih =>
    rw [List.foldlM_cons, List.forall_mem_cons, ← h b a]
    cases hb : f b a with
    | none => exact iff_of_false Bool.false_ne_true fun h => Bool.false_ne_true h.1
    | some b' => exact ih.trans (and_iff_right rfl).symm

theorem visit_isSome_iff {walk : ℕ → List UInt8 → Files → Option (Files × ℕ)} {P : ℕ → Prop}
    (h : ∀ i pre files, (walk i pre files).isSome ↔ P i) (acc : Files × ℕ) (e : Entry) :
    (visit ino walk pre acc e).isSome ↔ (descends e = true → P e.ch.toNat) := by
  rw [visit]
  by_cases hdown : descends e = true
  · rw [if_pos hdown, Option.isSome_map, h]
    exact ⟨fun hP _ => hP, fun hP => hP hdown⟩
  · rw [if_neg hdown]
    refine iff_of_true ?_ fun hd => absurd hd hdown
    cases ino[e.ch.toNat]? with
    | none => rfl
    | some n =>
      by_cases hfile : e.named ∧ e.ty = 2
      · exact congrArg Option.isSome (if_pos hfile)
      · exact congrArg Option.isSome (if_neg hfile)

/-- **The walk ends exactly if its descents do.** -/
theorem walk_isSome_iff {depth i : ℕ} : (p.walk ino depth i pre files).isSome ↔ Descends (Edge p ino) depth i := by
  induction depth generalizing i pre files with
  | zero => exact iff_of_false Bool.false_ne_true id
  | succ depth ih =>
    rw [walk, Descends]
    cases hi : ino[i]? with
    | none => exact iff_of_true rfl fun j ⟨n, hn, _⟩ => by rw [hi] at hn; cases hn
    | some n =>
      have hvisit := @visit_isSome_iff ino pre (p.walk ino depth) (Descends (Edge p ino) depth) fun _ _ _ => ih
      refine (foldlM_isSome_iff hvisit).trans ⟨?_, ?_⟩
      · rintro h j ⟨n', hn', e, he, hdown, rfl⟩
        rw [hi] at hn'
        cases hn'
        exact h e he hdown
      · exact fun h e he hdown => h _ ⟨n, hi, e, he, hdown, rfl⟩

/-! ## The paths -/

theorem assign_nodup {path : List UInt8} {node : Node} (h : (files.map Prod.fst).Nodup) :
    ((assign files path node).map Prod.fst).Nodup := by
  rw [assign]
  split_ifs with hmem
  · have hsame : (files.map fun f => if f.1 = path then (path, node) else f).map Prod.fst = files.map Prod.fst := by
      rw [List.map_map]
      refine List.map_congr_left fun f _ => ?_
      rw [Function.comp_apply]
      split_ifs with hf
      · exact hf.symm
      · rfl
    rw [hsame]
    exact h
  · rw [List.map_append, List.map_singleton]
    exact List.nodup_append.mpr ⟨h, List.nodup_singleton _, fun a ha b hb hab => hmem (by
      rw [hab, List.mem_singleton.mp hb] at ha
      exact ha)⟩

theorem foldlM_keeps {α β : Type} {f : β → α → Option β} {I : β → Prop} (h : ∀ b a b', I b → f b a = some b' → I b')
    {l : List α} {b b' : β} (hb : I b) (hl : l.foldlM f b = some b') : I b' := by
  induction l generalizing b with
  | nil =>
    cases hl
    exact hb
  | cons a l ih =>
    rw [List.foldlM_cons] at hl
    obtain ⟨b₁, h₁, hl⟩ := Option.bind_eq_some_iff.mp hl
    exact ih (h b a b₁ hb h₁) hl

/-- **Each path is listed once.** -/
theorem walk_nodup {depth i : ℕ} {r : Files × ℕ} (hfiles : (files.map Prod.fst).Nodup)
    (h : p.walk ino depth i pre files = some r) : (r.1.map Prod.fst).Nodup := by
  induction depth generalizing i pre files r with
  | zero => cases h
  | succ depth ih =>
    rw [walk] at h
    cases hi : ino[i]? with
    | none =>
      rw [hi] at h
      cases h
      exact hfiles
    | some n =>
      rw [hi] at h
      refine foldlM_keeps (I := fun b : Files × ℕ => (b.1.map Prod.fst).Nodup) (fun b e b' hb hvisit => ?_)
        (b := (files, 1 + n.blocks.toNat)) hfiles h
      rw [visit] at hvisit
      by_cases hdown : descends e = true
      · rw [if_pos hdown] at hvisit
        obtain ⟨r', hr', rfl⟩ := Option.map_eq_some_iff.mp hvisit
        exact @ih b.1 (pre ++ 47 :: e.name) e.ch.toNat r' hb hr'
      · rw [if_neg hdown] at hvisit
        cases hch : ino[e.ch.toNat]? with
        | none =>
          rw [hch] at hvisit
          cases hvisit
          exact hb
        | some n' =>
          simp only [hch] at hvisit
          by_cases hfile : e.named ∧ e.ty = 2
          · rw [if_pos hfile] at hvisit
            cases hvisit
            exact assign_nodup hb
          · rw [if_neg hfile] at hvisit
            cases hvisit
            exact hb

/-! ## All images -/

/-- The walk comes to the directory. -/
def Reached (p : Pfs) (i : ℕ) : Prop := p.readInodes.1 ≠ [] ∧ ReflTransGen (Edge p p.readInodes.1) p.root i

structure Ends (p : Pfs) (bound : ℕ) : Prop where
  inodes : p.readInodes.2 ≤ p.img.length
  child : (p.findChildDir p.readInodes.1 0 uroot).2 ≤ p.img.length
  blocks : ∀ i n, Reached p i → p.readInodes.1[i]? = some n → n.blocks.toNat ≤ p.img.length
  ends : ∃ depth r, p.build depth = some r ∧ r.2 ≤ bound ∧ (r.1.map Prod.fst).Nodup

/-- The counts of the image are not above its size, and no directory that is reached holds itself. -/
structure Sane (p : Pfs) : Prop where
  inodes : p.nd = 0 ∨ max p.ndb.toNat 1 ≤ p.img.length ∨ (0 < p.per ∧ p.nd.toNat ≤ p.img.length * p.per)
  child : ∀ n, p.readInodes.1[0]? = some n → n.blocks.toNat ≤ p.img.length ∨
    ∃ bb < n.blocks.toNat, bb < p.img.length ∧ ∃ e ∈ p.blockEntries n bb, isChild p.readInodes.1 uroot e = true
  blocks : ∀ i n, Reached p i → p.readInodes.1[i]? = some n → n.blocks.toNat ≤ p.img.length
  acyclic : p.readInodes.1 ≠ [] → ¬Looped (Edge p p.readInodes.1) p.root

theorem findChildDir_reads_le_iff {k : ℕ} : (p.findChildDir ino 0 uroot).2 ≤ k ↔
    ∀ n, ino[0]? = some n → n.blocks.toNat ≤ k ∨
      ∃ bb < n.blocks.toNat, bb < k ∧ ∃ e ∈ p.blockEntries n bb, isChild ino uroot e = true := by
  rw [findChildDir]
  cases ino[0]? with
  | none => exact iff_of_true (Nat.zero_le k) fun _ h => by cases h
  | some n =>
    have hreads := @findInBlocks_reads_le_iff p ino n uroot (List.range n.blocks.toNat) 0 k
    rw [Nat.zero_add, List.length_range] at hreads
    have htake : ∀ bb, bb ∈ (List.range n.blocks.toNat).take k ↔ bb < n.blocks.toNat ∧ bb < k := fun bb => by
      rw [List.take_range, List.mem_range, lt_min_iff, and_comm]
    simp only [hreads, htake, Option.some.injEq, forall_eq', and_assoc]

theorem build_eq {depth : ℕ} (h : p.readInodes.1 ≠ []) : p.build depth =
    (p.walk p.readInodes.1 depth p.root [] []).map fun r =>
      (r.1, p.readInodes.2 + p.readInodes.1.length + (p.findChildDir p.readInodes.1 0 uroot).2 + r.2) := by
  rw [build]
  exact if_neg h

theorem build_isSome_iff : (∃ depth, (p.build depth).isSome) ↔
    (p.readInodes.1 ≠ [] → ¬Looped (Edge p p.readInodes.1) p.root) := by
  by_cases h : p.readInodes.1 = []
  · refine iff_of_true ⟨0, ?_⟩ fun hne => absurd h hne
    rw [build]
    exact congrArg Option.isSome (if_pos h)
  · rw [← exists_descends_iff finite_edge (finite_reached p.root), forall_prop_of_true h]
    simp only [build_eq h, Option.isSome_map, walk_isSome_iff]

theorem build_nodup {depth : ℕ} {r : Files × ℕ} (h : p.build depth = some r) : (r.1.map Prod.fst).Nodup := by
  by_cases hempty : p.readInodes.1 = []
  · rw [build] at h
    obtain rfl := Option.some.inj ((if_pos hempty).symm.trans h)
    exact List.nodup_nil
  · rw [build_eq hempty] at h
    obtain ⟨r', hr', rfl⟩ := Option.map_eq_some_iff.mp h
    exact @walk_nodup p _ [] [] depth p.root r' List.nodup_nil hr'

theorem exists_steps_bound : ∃ bound : ℕ → ℕ, ∀ p : Pfs, (∃ depth, (p.build depth).isSome) →
    ∃ depth r, p.build depth = some r ∧ r.2 ≤ bound p.img.length := by
  have hsteps : ∀ p : Pfs, ∃ k, (∃ depth, (p.build depth).isSome) → ∃ depth r, p.build depth = some r ∧ r.2 = k := by
    intro p
    by_cases h : ∃ depth, (p.build depth).isSome
    · obtain ⟨depth, hsome⟩ := h
      obtain ⟨r, hr⟩ := Option.isSome_iff_exists.mp hsome
      exact ⟨r.2, fun _ => ⟨depth, r, hr, rfl⟩⟩
    · exact ⟨0, fun h' => absurd h' h⟩
  choose steps hsteps using hsteps
  have : Finite UInt8 := Finite.of_injective UInt8.toFin fun _ _ h => UInt8.toFin_inj.mp h
  have : Finite UInt32 := Finite.of_injective UInt32.toFin fun _ _ h => UInt32.toFin_inj.mp h
  have : Finite UInt64 := Finite.of_injective UInt64.toFin fun _ _ h => UInt64.toFin_inj.mp h
  obtain ⟨bound, hbound⟩ := exists_bound fun (c : UInt32 × Bool × UInt64 × UInt64) (l : List UInt8) =>
    if h : c.1 ≠ 0 then steps ⟨l, c.1, c.2.1, c.2.2.1, c.2.2.2, h⟩ else 0
  refine ⟨bound, fun p hends => ?_⟩
  obtain ⟨depth, r, hr, hk⟩ := hsteps p hends
  refine ⟨depth, r, hr, hk ▸ ?_⟩
  have hle := hbound (p.bs, p.signedFlag, p.nd, p.ndb) p.img
  rwa [dif_pos p.bsNonzero] at hle

noncomputable def stepsBound : ℕ → ℕ := Classical.choose exists_steps_bound

def selfDirectory : Pfs where
  img := List.replicate 256 0 ++ List.replicate 0x60 0 ++ leBytes 4 1 ++ leBytes 4 2 ++ List.replicate 152 0 ++
    leBytes 4 0 ++ leBytes 4 3 ++ leBytes 4 1 ++ leBytes 4 24 ++ [97]
  bs := 256
  signedFlag := false
  nd := 1
  ndb := 1
  bsNonzero := by decide

end Prosperity.Formats.PfsTree.Pfs
