import Mathlib.Data.Nat.Find
import Prosperity.Formats.ArchiveTreeTables

/-!
# One tree

The queries describe one tree where no path has a zero byte or an empty component before its last one, and where names
of one directory that are equal but for case are the same name, of a file or of a directory.
-/

namespace Prosperity.Formats.ArchiveTree

open EmplacedMap SeparatedPaths ArchiveFilesystem

variable {entries : List ArchiveIndex.ArchiveEntry}

/-! ## The wrapper -/

theorem findSlash_eq_some {s : List UInt8} {pos i : ℕ} (h : findSlash s pos = some i) :
    i < s.length ∧ s[i]? = some kSlash := by
  obtain ⟨k, hk, rfl⟩ := Option.map_eq_some_iff.mp h
  obtain ⟨hlt, hget, -⟩ := List.findIdx?_eq_some_iff_getElem.mp hk
  rw [List.length_drop] at hlt
  rw [List.getElem_drop, beq_iff_eq] at hget
  exact ⟨by omega, List.getElem?_eq_some_iff.mpr ⟨by omega, hget⟩⟩

theorem wrapperFrom_spec (first : List UInt8) (n pre : ℕ) (hpre : pre ≤ first.length)
    (hall : ∀ e ∈ entries, e.path.take pre = first.take pre)
    (hslash : pre = 0 ∨ (first.take pre).getLast? = some kSlash) :
    ∃ w, (w = [] ∨ w.getLast? = some kSlash) ∧ wrapperFrom entries first n pre = w.length ∧
      ∀ e ∈ entries, ∃ rest, e.path = w ++ rest := by
  have hstop : ∃ w, (w = [] ∨ w.getLast? = some kSlash) ∧ pre = w.length ∧
      ∀ e ∈ entries, ∃ rest, e.path = w ++ rest := by
    refine ⟨first.take pre, hslash.imp_left fun h => by rw [h, List.take_zero], ?_, fun e he => ?_⟩
    · rw [List.length_take_of_le hpre]
    · exact ⟨e.path.drop pre, by rw [← hall e he, List.take_append_drop]⟩
  induction n generalizing pre with
  | zero => exact hstop
  | succ n ih =>
    rw [wrapperFrom]
    cases hfind : findSlash first pre with
    | none => exact hstop
    | some slash =>
      dsimp only
      split_ifs with hshared
      · obtain ⟨hlt, hget⟩ := findSlash_eq_some hfind
        have hall' : ∀ e ∈ entries, e.path.take (slash + 1) = first.take (slash + 1) := fun e he =>
          (of_decide_eq_true (List.all_eq_true.mp hshared e he)).2
        have hlast : (first.take (slash + 1)).getLast? = some kSlash := by
          rw [List.take_add_one, hget, Option.toList_some, List.getLast?_concat]
        refine ih (slash + 1) hlt hall' (.inr hlast)
          ⟨first.take (slash + 1), .inr hlast, by rw [List.length_take_of_le hlt], fun e he => ?_⟩
        exact ⟨e.path.drop (slash + 1), by rw [← hall' e he, List.take_append_drop]⟩
      · exact hstop

theorem wrapper (entries : List ArchiveIndex.ArchiveEntry) : ∃ w, (w = [] ∨ w.getLast? = some kSlash) ∧
    ∀ e ∈ entries, ∃ rest, e.path = w ++ rest ∧ guest entries e = kSlash :: rest := by
  have hspec : ∃ w, (w = [] ∨ w.getLast? = some kSlash) ∧ commonWrapperPrefix entries = w.length ∧
      ∀ e ∈ entries, ∃ rest, e.path = w ++ rest := by
    cases entries with
    | nil => exact ⟨[], .inl rfl, rfl, fun _ h => (by cases h)⟩
    | cons first rest => exact wrapperFrom_spec first.path 4 0 (Nat.zero_le _) (fun _ _ => rfl) (.inl rfl)
  obtain ⟨w, hw, hlen, hall⟩ := hspec
  refine ⟨w, hw, fun e he => ?_⟩
  obtain ⟨rest, hrest⟩ := hall e he
  refine ⟨rest, hrest, ?_⟩
  rw [guest, guestPath, hlen, hrest, List.drop_left]

/-! ## Files -/

theorem lookup_zipIdx_eq_some_iff (f : ArchiveIndex.ArchiveEntry → List UInt8)
    (l : List ArchiveIndex.ArchiveEntry) (i : ℕ) {k : List UInt8} {node : Node} :
    ((l.zipIdx i).map fun e => (f e.1, (⟨e.1.size, e.2⟩ : Node))).lookup k = some node ↔
      ∃ j e, l[j]? = some e ∧ node = ⟨e.size, i + j⟩ ∧ f e = k ∧ ∀ j' < j, ∀ e', l[j']? = some e' → f e' ≠ k := by
  induction l generalizing i with
  | nil => simp
  | cons a l ih =>
    rw [List.zipIdx_cons, List.map_cons, List.lookup_cons]
    by_cases hk : k = f a
    · rw [beq_iff_eq.mpr hk]
      constructor
      · intro h
        exact ⟨0, a, rfl, (Option.some.inj h).symm, hk.symm, fun j' hj' => absurd hj' j'.not_lt_zero⟩
      · rintro ⟨j, e, hj, hnode, he, hfirst⟩
        cases j with
        | zero =>
          cases hj
          exact congrArg some hnode.symm
        | succ j => exact absurd hk.symm (hfirst 0 j.succ_pos a rfl)
    · rw [beq_eq_false_iff_ne.mpr hk]
      dsimp only
      rw [ih]
      constructor
      · rintro ⟨j, e, hj, hnode, he, hfirst⟩
        refine ⟨j + 1, e, hj, by rw [hnode, Nat.add_assoc, Nat.add_comm 1], he, fun j' hj' e' he' => ?_⟩
        cases j' with
        | zero =>
          cases he'
          exact fun h => hk h.symm
        | succ j' => exact hfirst j' (Nat.lt_of_succ_lt_succ hj') e' he'
      · rintro ⟨j, e, hj, hnode, he, hfirst⟩
        cases j with
        | zero =>
          cases hj
          exact absurd he.symm hk
        | succ j =>
          refine ⟨j, e, hj, by rw [hnode, Nat.add_assoc, Nat.add_comm 1], he, fun j' hj' e' he' => ?_⟩
          exact hfirst (j' + 1) (Nat.succ_lt_succ hj') e' he'

theorem find_eq_some_iff {rel : List UInt8} {node : Node} : (mount entries).find rel = some node ↔
      ∃ e, entries[node.index]? = some e ∧ node.size = e.size ∧ foldCase (guest entries e) = foldCase (cstr rel) ∧
        ∀ j < node.index, ∀ e', entries[j]? = some e' → foldCase (guest entries e') ≠ foldCase (cstr rel) := by
  have hlookup : (mount entries).find rel = ((entries.zipIdx 0).map fun e =>
      (foldCase (guest entries e.1), (⟨e.1.size, e.2⟩ : Node))).lookup (foldCase (cstr rel)) := by
    rw [find, mount]
    cases entries with
    | nil => rfl
    | cons e es => exact (if_pos rfl).trans lookup_foldl_emplace
  rw [hlookup, lookup_zipIdx_eq_some_iff fun e => foldCase (guest entries e)]
  constructor
  · rintro ⟨j, e, hj, rfl, he, hfirst⟩
    rw [Nat.zero_add]
    exact ⟨e, hj, rfl, he, hfirst⟩
  · rintro ⟨e, hj, hsize, he, hfirst⟩
    refine ⟨node.index, e, hj, ?_, he, hfirst⟩
    rw [Nat.zero_add, ← hsize]

theorem find_isSome {e : ArchiveIndex.ArchiveEntry} {rel : List UInt8} (he : e ∈ entries)
    (hpath : foldCase (guest entries e) = foldCase (cstr rel)) : ∃ node, (mount entries).find rel = some node := by
  classical
  obtain ⟨i, hi⟩ := List.mem_iff_getElem?.mp he
  have hex : ∃ j, ∃ e', entries[j]? = some e' ∧ foldCase (guest entries e') = foldCase (cstr rel) := ⟨i, e, hi, hpath⟩
  obtain ⟨e', hj, hsame⟩ := Nat.find_spec hex
  refine ⟨⟨e'.size, Nat.find hex⟩, find_eq_some_iff.mpr ⟨e', hj, rfl, hsame, fun j hlt e'' he'' hbad => ?_⟩⟩
  exact Nat.find_min hex hlt ⟨e'', he'', hbad⟩

/-! ## Listings -/

theorem mem_list_iff {rel n : List UInt8} {d : Bool} :
    (n, d) ∈ (mount entries).list rel ↔ (allItems entries).lookup (dirKey (cstr rel), n) = some d := by
  rw [list]
  cases hok : (mount entries).ok with
  | false =>
    have hnil : entries = [] := by simpa [mount] using hok
    subst hnil
    simp [allItems]
  | true =>
    rw [if_pos rfl, seen_mount, List.mem_map, ← mem_foldl_emplace_iff]
    constructor
    · rintro ⟨c, hc, hname⟩
      obtain ⟨hmem, hkey⟩ := List.mem_filter.mp hc
      cases hname
      rw [← of_decide_eq_true hkey]
      exact hmem
    · intro hmem
      exact ⟨_, List.mem_filter.mpr ⟨hmem, decide_eq_true rfl⟩, rfl⟩

theorem dirKey_of_getLast {s : List UInt8} (hs : s = [] ∨ s.head? = some kSlash ∧ s.getLast? ≠ some kSlash) :
    dirKey s = foldCase (s ++ [kSlash]) := by
  rcases hs with rfl | ⟨hhead, hlast⟩
  · rfl
  · have hself : s.rdropWhile (· == kSlash) = s := by
      rw [List.rdropWhile_eq_self_iff]
      intro hne hsl
      apply hlast
      rw [List.getLast?_eq_some_getLast hne, beq_iff_eq.mp hsl]
    have hhead' : (s ++ [kSlash]).head? = some kSlash := by
      rw [List.head?_append, hhead]
      rfl
    rw [dirKey, hself, if_pos hhead']

theorem dirKey_joinPath {ds : List (List UInt8)} (hd : Plain ds) :
    dirKey (joinPath kSlash ds) = foldCase (joinPath kSlash ds ++ [kSlash]) := by
  apply dirKey_of_getLast
  rcases List.eq_nil_or_concat ds with rfl | ⟨es, c, rfl⟩
  · exact .inl rfl
  · right
    obtain ⟨hslash, -, hne⟩ := hd c (by simp)
    constructor
    · cases es with
      | nil => rfl
      | cons e es => rfl
    · rw [List.concat_eq_append, joinPath_concat, List.getLast?_append, List.getLast?_cons,
        List.getLast?_eq_some_getLast hne]
      intro h
      have hlast : c.getLast hne = kSlash := by simpa using h
      exact hslash (hlast ▸ List.getLast_mem hne)

theorem dirKey_joinPath_concat_nil (ds : List (List UInt8)) :
    dirKey (joinPath kSlash (ds ++ [[]])) = dirKey (joinPath kSlash ds) := by
  rw [dirKey, dirKey, joinPath_concat, List.rdropWhile_concat_pos (· == kSlash) _ _ (beq_self_eq_true kSlash)]

theorem zero_not_mem_joinPath {ds : List (List UInt8)} (hd : ∀ c ∈ ds, (0 : UInt8) ∉ c) : 0 ∉ joinPath kSlash ds := by
  rw [joinPath, List.mem_flatMap]
  rintro ⟨c, hc, h⟩
  rcases List.mem_cons.mp h with h | h
  · exact absurd h (by decide)
  · exact hd c hc h

theorem mem_allItems_iff {key n : List UInt8} {d : Bool} : ((key, n), d) ∈ allItems entries ↔
      ∃ e ∈ entries, ∃ ds rest, comps entries e = ds ++ n :: rest ∧
        key = foldCase (joinPath kSlash ds ++ [kSlash]) ∧ d = !rest.isEmpty := by
  rw [allItems, List.mem_flatMap]
  simp only [mem_items_iff, List.nil_append]

theorem map_foldCase_of_key {ds es : List (List UInt8)} (hd : ∀ c ∈ ds, kSlash ∉ c) (he : ∀ c ∈ es, kSlash ∉ c)
    (h : foldCase (joinPath kSlash ds ++ [kSlash]) = foldCase (joinPath kSlash es ++ [kSlash])) :
    ds.map foldCase = es.map foldCase := by
  rw [foldCase_append, foldCase_append] at h
  exact map_foldCase_of_eq hd he (List.append_cancel_right h)

theorem IsDir.of_comps {e : ArchiveIndex.ArchiveEntry} (he : e ∈ entries) {ds rest : List (List UInt8)} {n : List UInt8}
    (h : comps entries e = ds ++ n :: rest) : IsDir entries ds :=
  .inr ⟨e, he, n :: rest, List.cons_ne_nil _ _, h⟩

theorem zero_not_mem_comps {e : ArchiveIndex.ArchiveEntry} (h : 0 ∉ guest entries e) {c : List UInt8}
    (hc : c ∈ comps entries e) : 0 ∉ c := by
  rw [guest_eq, joinPath, List.mem_flatMap] at h
  exact fun hzero => h ⟨c, hc, List.mem_cons_of_mem _ hzero⟩

theorem IsDir.zero_not_mem {ds : List (List UInt8)} (hz : ∀ e ∈ entries, 0 ∉ guest entries e)
    (hd : IsDir entries ds) : 0 ∉ joinPath kSlash ds := by
  refine zero_not_mem_joinPath fun c hc => ?_
  rcases hd with rfl | ⟨e, he, rest, -, hcomps⟩
  · cases hc
  · exact zero_not_mem_comps (hz e he) (hcomps ▸ List.mem_append_left rest hc)

/-! ## From sane paths to the tree -/

section Sane

variable (hs : Sane entries)
include hs

theorem Sane.plain {ds : List (List UInt8)} (hd : IsDir entries ds) : Plain ds := by
  rcases hd with rfl | ⟨e, he, rest, hrest, hcomps⟩
  · exact fun c hc => (by cases hc)
  · intro c hc
    have hmem : c ∈ comps entries e := hcomps ▸ List.mem_append_left rest hc
    exact ⟨slash_not_mem_comps hmem, zero_not_mem_comps (hs.noZero e he) hmem,
      fun h => hs.noEmpty e he ds rest hcomps hrest (h ▸ hc)⟩

theorem Sane.child_unique {ds : List (List UInt8)} {n n' : List UInt8} {d d' : Bool} (h : IsChild entries ds n d)
    (h' : IsChild entries ds n' d') (hname : foldCase n = foldCase n') : n = n' ∧ d = d' := by
  obtain ⟨e, he, es, rest, hcomps, hes, rfl⟩ := h
  obtain ⟨e', he', es', rest', hcomps', hes', rfl⟩ := h'
  obtain ⟨hn, hrest⟩ := hs.siblings e he e' he' es es' n n' rest rest' hcomps hcomps' (hes.trans hes'.symm) hname
  refine ⟨hn, ?_⟩
  rw [Bool.eq_iff_iff, Bool.not_eq_true', Bool.not_eq_true', List.isEmpty_eq_false_iff, List.isEmpty_eq_false_iff]
  exact not_congr hrest

theorem Sane.dir_unique {ds es : List (List UInt8)} (hd : IsDir entries ds) (he : IsDir entries es)
    (h : ds.map foldCase = es.map foldCase) : ds = es := by
  -- From the last component on: the directories in front are equal by induction, and then the names are siblings.
  induction ds using List.reverseRecOn generalizing es with
  | nil => exact (List.map_eq_nil_iff.mp h.symm).symm
  | append_singleton ds n ih =>
    rcases List.eq_nil_or_concat es with rfl | ⟨es, m, rfl⟩
    · simp at h
    · rw [List.concat_eq_append, List.map_append, List.map_append] at h
      obtain ⟨hinit, hlast⟩ := List.append_inj' h rfl
      rcases hd with hnil | ⟨e, hemem, rest, -, hcomps⟩
      · simp at hnil
      rcases he with hnil | ⟨e', hemem', rest', -, hcomps'⟩
      · simp at hnil
      rw [List.append_assoc, List.singleton_append] at hcomps
      rw [List.concat_eq_append, List.append_assoc, List.singleton_append] at hcomps'
      have hnm := (hs.siblings e hemem e' hemem' ds es n m rest rest' hcomps hcomps' hinit
        (List.cons.inj hlast).1).1
      rw [List.concat_eq_append, ih (IsDir.of_comps hemem hcomps) (IsDir.of_comps hemem' hcomps') hinit, hnm]

theorem Sane.mem_list_joinPath_iff {ds : List (List UInt8)} (hd : Plain ds) {n : List UInt8} {d : Bool} :
    (n, d) ∈ (mount entries).list (joinPath kSlash ds) ↔ IsChild entries ds n d := by
  have hslash : ∀ c ∈ ds, kSlash ∉ c := fun c hc => (hd c hc).1
  have hcomps_slash : ∀ {e : ArchiveIndex.ArchiveEntry} {es rest : List (List UInt8)}, comps entries e = es ++ rest →
      ∀ c ∈ es, kSlash ∉ c :=
    fun h c hc => slash_not_mem_comps (h ▸ List.mem_append_left _ hc)
  rw [mem_list_iff, cstr_of_not_mem (zero_not_mem_joinPath fun c hc => (hd c hc).2.1), dirKey_joinPath hd,
    lookup_eq_some_iff_mem, mem_allItems_iff]
  · constructor
    · rintro ⟨e, he, es, rest, hcomps, hkey, hrest⟩
      exact ⟨e, he, es, rest, hcomps, map_foldCase_of_key (hcomps_slash hcomps) hslash hkey.symm, hrest⟩
    · rintro ⟨e, he, es, rest, hcomps, hes, hrest⟩
      refine ⟨e, he, es, rest, hcomps, ?_, hrest⟩
      rw [foldCase_append, foldCase_append, foldCase_joinPath, foldCase_joinPath, hes]
  · intro d' hmem hmem'
    obtain ⟨e, he, es, rest, hcomps, hkey, hrest⟩ := mem_allItems_iff.mp hmem
    obtain ⟨e', he', es', rest', hcomps', hkey', hrest'⟩ := mem_allItems_iff.mp hmem'
    have hes := map_foldCase_of_key (hcomps_slash hcomps) hslash hkey.symm
    have hes' := map_foldCase_of_key (hcomps_slash hcomps') hslash hkey'.symm
    exact (hs.child_unique ⟨e, he, es, rest, hcomps, hes, hrest⟩ ⟨e', he', es', rest', hcomps', hes', hrest'⟩ rfl).2

theorem Sane.nodup_list {ds : List (List UInt8)} (hd : Plain ds) :
    (((mount entries).list (joinPath kSlash ds)).map fun c => foldCase c.1).Nodup := by
  have hchild := fun n d => @Sane.mem_list_joinPath_iff entries hs ds hd n d
  rw [list] at hchild ⊢
  cases hok : (mount entries).ok with
  | false => exact List.nodup_nil
  | true =>
    simp only [hok, if_pos] at hchild ⊢
    have hkeys : ((mount entries).seen.map Prod.fst).Nodup := by
      rw [seen_mount]
      exact nodup_keys_foldl_emplace (m := []) List.nodup_nil
    rw [List.map_map]
    refine List.Nodup.map_on (fun c hc c' hc' hname => ?_) (hkeys.of_map.filter _)
    have hmem := (hchild c.1.2 c.2).mp (List.mem_map.mpr ⟨c, hc, rfl⟩)
    have hmem' := (hchild c'.1.2 c'.2).mp (List.mem_map.mpr ⟨c', hc', rfl⟩)
    obtain ⟨hn, hkind⟩ := hs.child_unique hmem hmem' hname
    have hparent := of_decide_eq_true (List.mem_filter.mp hc).2
    have hparent' := of_decide_eq_true (List.mem_filter.mp hc').2
    exact Prod.ext (Prod.ext (hparent.trans hparent'.symm) hn) hkind

theorem Sane.walkDir_iff {s : List UInt8} :
    (mount entries).WalkDir s ↔ ∃ ds, IsDir entries ds ∧ s = joinPath kSlash ds := by
  constructor
  · intro h
    induction h with
    | root => exact ⟨[], .inl rfl, rfl⟩
    | @child s n _ hmem ih =>
      obtain ⟨ds, hd, rfl⟩ := ih
      obtain ⟨e, he, es, rest, hcomps, hes, hrest⟩ := (hs.mem_list_joinPath_iff (hs.plain hd)).mp hmem
      have heq : es = ds := hs.dir_unique (IsDir.of_comps he hcomps) hd hes
      have hne : rest ≠ [] := by
        rintro rfl
        cases hrest
      refine ⟨ds ++ [n], .inr ⟨e, he, rest, hne, ?_⟩, (joinPath_concat ds n).symm⟩
      rw [hcomps, heq, List.append_assoc, List.singleton_append]
  · rintro ⟨ds, hd, rfl⟩
    induction ds using List.reverseRecOn with
    | nil => exact .root
    | append_singleton ds n ih =>
      rcases hd with hnil | ⟨e, he, rest, hrest, hcomps⟩
      · simp at hnil
      rw [List.append_assoc, List.singleton_append] at hcomps
      have hdir := IsDir.of_comps he hcomps
      rw [joinPath_concat]
      refine .child (ih hdir) ((hs.mem_list_joinPath_iff (hs.plain hdir)).mpr ⟨e, he, ds, rest, hcomps, rfl, ?_⟩)
      rw [List.isEmpty_eq_false_iff.mpr hrest, Bool.not_false]

theorem Sane.reached_iff {s : List UInt8} : (mount entries).Reached s ↔ s ∈ (mount entries).paths := by
  have hpaths : s ∈ (mount entries).paths ↔ ∃ e ∈ entries, guest entries e = s := List.mem_map
  rw [hpaths]
  constructor
  · rintro ⟨d, n, hwalk, hmem, rfl⟩
    obtain ⟨ds, hd, rfl⟩ := hs.walkDir_iff.mp hwalk
    obtain ⟨e, he, es, rest, hcomps, hes, hrest⟩ := (hs.mem_list_joinPath_iff (hs.plain hd)).mp hmem
    have hnil : rest = [] := by simpa using hrest
    refine ⟨e, he, ?_⟩
    rw [guest_eq, hcomps, hs.dir_unique (IsDir.of_comps he hcomps) hd hes, hnil, joinPath_concat]
  · rintro ⟨e, he, rfl⟩
    obtain ⟨ds, n, hcomps⟩ : ∃ ds n, comps entries e = ds ++ [n] := by
      rcases List.eq_nil_or_concat (comps entries e) with h | ⟨ds, n, h⟩
      · exact absurd h (List.splitOn_ne_nil _ _)
      · exact ⟨ds, n, h.trans List.concat_eq_append⟩
    have hdir := IsDir.of_comps he hcomps
    refine ⟨joinPath kSlash ds, n, hs.walkDir_iff.mpr ⟨ds, hdir, rfl⟩,
      (hs.mem_list_joinPath_iff (hs.plain hdir)).mpr ⟨e, he, ds, [], hcomps, rfl, rfl⟩, ?_⟩
    rw [guest_eq, hcomps, joinPath_concat]

theorem Sane.oneTree : OneTree entries where
  wrapper := wrapper entries
  find_file i e hi := by
    have hmem := List.mem_of_getElem? hi
    have hcstr := cstr_of_not_mem (hs.noZero e hmem)
    obtain ⟨node, hnode⟩ := find_isSome hmem (congrArg foldCase hcstr.symm)
    obtain ⟨e', hj, hsize, hsame, hfirst⟩ := find_eq_some_iff.mp hnode
    rw [hcstr] at hsame hfirst
    refine ⟨node.index, e', ?_, hj, ?_, hsame, hfirst⟩
    · by_contra hlt
      exact hfirst i (Nat.lt_of_not_le hlt) e hi rfl
    · rw [hnode, ← hsize]
  find_only rel node h := by
    obtain ⟨e, hj, -, hsame, -⟩ := find_eq_some_iff.mp h
    exact ⟨e, hj, hsame⟩
  list_iff ds hd n d := hs.mem_list_joinPath_iff (hd.elim hs.plain id)
  once ds hd := hs.nodup_list (hd.elim hs.plain id)
  parent e he ds n rest hcomps hrest := by
    refine (hs.mem_list_joinPath_iff (hs.plain (IsDir.of_comps he hcomps))).mpr ⟨e, he, ds, rest, hcomps, rfl, ?_⟩
    rw [List.isEmpty_eq_false_iff.mpr hrest, Bool.not_false]
  walk _ := hs.reached_iff

end Sane

/-! ## From the tree to sane paths -/

section OneTree

variable (ht : OneTree entries)
include ht

theorem OneTree.noZero {e : ArchiveIndex.ArchiveEntry} (he : e ∈ entries) : 0 ∉ guest entries e := by
  obtain ⟨i, hi⟩ := List.mem_iff_getElem?.mp he
  obtain ⟨j, e', -, hj, hfind, hsame, -⟩ := ht.find_file i e hi
  obtain ⟨e'', hj', hcut⟩ := ht.find_only _ _ hfind
  obtain rfl := Option.some.inj (hj.symm.trans hj')
  have hlen := congrArg List.length (hcut.symm.trans hsame)
  rw [foldCase, foldCase, List.length_map, List.length_map] at hlen
  have hcstr : cstr (guest entries e) = guest entries e := (List.takeWhile_prefix _).eq_of_length hlen
  rw [cstr, List.takeWhile_eq_self_iff] at hcstr
  exact fun hzero => of_decide_eq_true (hcstr 0 hzero) rfl

theorem OneTree.long_dirs {ds : List (List UInt8)} (h : IsChild entries ds [] true) (k : ℕ) :
    ∃ es, k ≤ es.length ∧ IsDir entries es ∧ ([], true) ∈ (mount entries).list (joinPath kSlash es) := by
  have hstep : ∀ {ds : List (List UInt8)}, IsChild entries ds [] true → ∃ es, es.length = ds.length + 1 ∧
      IsDir entries es ∧ ([], true) ∈ (mount entries).list (joinPath kSlash es) := by
    rintro ds ⟨e, he, es, rest, hcomps, hes, hrest⟩
    have hlen : es.length = ds.length := by simpa using congrArg List.length hes
    have hne : rest ≠ [] := by
      rintro rfl
      cases hrest
    have hdir : IsDir entries es := IsDir.of_comps he hcomps
    have hdir' : IsDir entries (es ++ [[]]) := by
      refine .inr ⟨e, he, rest, hne, ?_⟩
      rw [hcomps, List.append_assoc, List.singleton_append]
    refine ⟨es ++ [[]], by simp [hlen], hdir', ?_⟩
    -- The listing of a path with a slash more is the same, so the empty name is in it again.
    have hmem := (ht.list_iff es (.inl hdir) [] true).mpr ⟨e, he, es, rest, hcomps, rfl, hrest⟩
    have hz := fun e he => ht.noZero (e := e) he
    rw [mem_list_iff, cstr_of_not_mem (hdir.zero_not_mem hz)] at hmem
    rw [mem_list_iff, cstr_of_not_mem (hdir'.zero_not_mem hz), dirKey_joinPath_concat_nil]
    exact hmem
  induction k with
  | zero =>
    obtain ⟨es, -, hdir, hmem⟩ := hstep h
    exact ⟨es, Nat.zero_le _, hdir, hmem⟩
  | succ k ih =>
    obtain ⟨es, hlen, hdir, hmem⟩ := ih
    obtain ⟨es', hlen', hdir', hmem'⟩ := hstep ((ht.list_iff es (.inl hdir) [] true).mp hmem)
    exact ⟨es', by omega, hdir', hmem'⟩

omit ht in
theorem exists_length_le (entries : List ArchiveIndex.ArchiveEntry) : ∃ m, ∀ ds, IsDir entries ds → ds.length ≤ m := by
  have hbound : ∀ l : List ArchiveIndex.ArchiveEntry, ∃ m, ∀ e ∈ l, (comps entries e).length ≤ m := by
    intro l
    induction l with
    | nil => exact ⟨0, fun e he => (by cases he)⟩
    | cons a l ih =>
      obtain ⟨m, hm⟩ := ih
      refine ⟨max (comps entries a).length m, fun e he => ?_⟩
      rcases List.mem_cons.mp he with rfl | he
      · exact le_max_left _ _
      · exact (hm e he).trans (le_max_right _ _)
  obtain ⟨m, hm⟩ := hbound entries
  refine ⟨m, fun ds hd => ?_⟩
  rcases hd with rfl | ⟨e, he, rest, -, hcomps⟩
  · exact Nat.zero_le m
  · have := hm e he
    rw [hcomps, List.length_append] at this
    omega

theorem OneTree.noEmpty {e : ArchiveIndex.ArchiveEntry} (he : e ∈ entries) {ds rest : List (List UInt8)}
    (hcomps : comps entries e = ds ++ rest) (hrest : rest ≠ []) : [] ∉ ds := by
  intro hmem
  obtain ⟨as, bs, rfl⟩ := List.append_of_mem hmem
  rw [List.append_assoc, List.cons_append] at hcomps
  have hne : (bs ++ rest).isEmpty = false :=
    List.isEmpty_eq_false_iff.mpr fun h => hrest (List.append_eq_nil_iff.mp h).2
  obtain ⟨m, hm⟩ := exists_length_le entries
  obtain ⟨es, hlen, hdir, -⟩ := ht.long_dirs ⟨e, he, as, bs ++ rest, hcomps, rfl, by rw [hne, Bool.not_false]⟩ (m + 1)
  exact absurd (hm es hdir) (by omega)

theorem OneTree.sane : Sane entries where
  noZero _ he := ht.noZero he
  noEmpty _ he _ _ hcomps hrest := ht.noEmpty he hcomps hrest
  siblings e he e' he' ds ds' n n' rest rest' hcomps hcomps' hds hname := by
    have hdir : IsDir entries ds ∨ Plain ds := .inl (IsDir.of_comps he hcomps)
    have hmem := (ht.list_iff ds hdir n _).mpr ⟨e, he, ds, rest, hcomps, rfl, rfl⟩
    have hmem' := (ht.list_iff ds hdir n' _).mpr ⟨e', he', ds', rest', hcomps', hds.symm, rfl⟩
    have heq := List.inj_on_of_nodup_map (ht.once ds hdir) hmem hmem' hname
    obtain ⟨hn, hkind⟩ := Prod.ext_iff.mp heq
    refine ⟨hn, ?_⟩
    rw [← List.isEmpty_iff, ← List.isEmpty_iff, Bool.not_inj hkind]

end OneTree

theorem oneTree_iff_sane (entries : List ArchiveIndex.ArchiveEntry) : OneTree entries ↔ Sane entries :=
  ⟨OneTree.sane, Sane.oneTree⟩

/-- An archive with a file `a` and a file `a/b`. -/
def fileAndDirectory : List ArchiveIndex.ArchiveEntry :=
  [⟨[97], 0, 0, 0, 0, 0, 0⟩, ⟨[97, 47, 98], 0, 0, 0, 0, 0, 0⟩]

/-- The parent of `a/b` is listed as a file. -/
theorem fileAndDirectory_not_oneTree : ¬OneTree fileAndDirectory := by
  intro h
  have hparent := h.parent ⟨[97, 47, 98], 0, 0, 0, 0, 0, 0⟩ (by decide) [] [97] [[98]] (by decide) (by decide)
  exact absurd hparent (by decide)

end Prosperity.Formats.ArchiveTree
