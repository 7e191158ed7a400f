import Prosperity.Formats.ArchiveTree

/-!
# The tree of the paths

The paths of the entries imply a tree: a directory is what stands in front of a further component. The queries
describe it if each file is found, a listing gives the children of a directory, and a walk over listings comes to the
paths.
-/

namespace Prosperity.Formats.ArchiveTree

open EmplacedMap SeparatedPaths

/-! ## What is meant -/

def comps (entries : List ArchiveIndex.ArchiveEntry) (e : ArchiveIndex.ArchiveEntry) : List (List UInt8) :=
  (e.path.drop (commonWrapperPrefix entries)).splitOn kSlash

def guest (entries : List ArchiveIndex.ArchiveEntry) (e : ArchiveIndex.ArchiveEntry) : List UInt8 :=
  guestPath (commonWrapperPrefix entries) e

/-- A directory is the root, or in front of a component of a path. -/
def IsDir (entries : List ArchiveIndex.ArchiveEntry) (ds : List (List UInt8)) : Prop :=
  ds = [] ∨ ∃ e ∈ entries, ∃ rest, rest ≠ [] ∧ comps entries e = ds ++ rest

/-- The immediate children of a directory: `d` says whether there is more behind the name. -/
def IsChild (entries : List ArchiveIndex.ArchiveEntry) (ds : List (List UInt8)) (n : List UInt8) (d : Bool) : Prop :=
  ∃ e ∈ entries, ∃ ds' rest, comps entries e = ds' ++ n :: rest ∧ ds'.map foldCase = ds.map foldCase ∧ d = !rest.isEmpty

def Plain (ds : List (List UInt8)) : Prop := ∀ c ∈ ds, kSlash ∉ c ∧ 0 ∉ c ∧ c ≠ []

namespace ArchiveFilesystem

/-- The directories that a walk over `List` comes to from the root. -/
inductive WalkDir (fs : ArchiveFilesystem) : List UInt8 → Prop
  | root : WalkDir fs []
  | child {d n : List UInt8} : WalkDir fs d → (n, true) ∈ fs.list d → WalkDir fs (d ++ kSlash :: n)

/-- The files that it comes to. -/
def Reached (fs : ArchiveFilesystem) (p : List UInt8) : Prop :=
  ∃ d n, fs.WalkDir d ∧ (n, false) ∈ fs.list d ∧ p = d ++ kSlash :: n

end ArchiveFilesystem

open ArchiveFilesystem

structure OneTree (entries : List ArchiveIndex.ArchiveEntry) : Prop where
  wrapper : ∃ w, (w = [] ∨ w.getLast? = some kSlash) ∧
    ∀ e ∈ entries, ∃ rest, e.path = w ++ rest ∧ guest entries e = kSlash :: rest
  find_file : ∀ i e, entries[i]? = some e → ∃ j e', j ≤ i ∧ entries[j]? = some e' ∧
    (mount entries).find (guest entries e) = some ⟨e'.size, j⟩ ∧
      foldCase (guest entries e') = foldCase (guest entries e) ∧
        ∀ k < j, ∀ e'', entries[k]? = some e'' → foldCase (guest entries e'') ≠ foldCase (guest entries e)
  /-- Nothing else is found. -/
  find_only : ∀ rel node, (mount entries).find rel = some node →
    ∃ e, entries[node.index]? = some e ∧ foldCase (guest entries e) = foldCase (cstr rel)
  /-- The children of a directory, and none of what is no directory. -/
  list_iff : ∀ ds, IsDir entries ds ∨ Plain ds → ∀ n d,
    (n, d) ∈ (mount entries).list (joinPath kSlash ds) ↔ IsChild entries ds n d
  once : ∀ ds, IsDir entries ds ∨ Plain ds →
    (((mount entries).list (joinPath kSlash ds)).map fun c => foldCase c.1).Nodup
  /-- What is in front of a component is a directory. -/
  parent : ∀ e ∈ entries, ∀ ds n rest, comps entries e = ds ++ n :: rest → rest ≠ [] →
    (n, true) ∈ (mount entries).list (joinPath kSlash ds)
  walk : ∀ p, (mount entries).Reached p ↔ p ∈ (mount entries).paths

/-- The paths imply one tree. -/
structure Sane (entries : List ArchiveIndex.ArchiveEntry) : Prop where
  noZero : ∀ e ∈ entries, 0 ∉ guest entries e
  noEmpty : ∀ e ∈ entries, ∀ ds rest, comps entries e = ds ++ rest → rest ≠ [] → [] ∉ ds
  siblings : ∀ e ∈ entries, ∀ e' ∈ entries, ∀ ds ds' n n' rest rest', comps entries e = ds ++ n :: rest →
    comps entries e' = ds' ++ n' :: rest' → ds.map foldCase = ds'.map foldCase → foldCase n = foldCase n' →
      n = n' ∧ (rest = [] ↔ rest' = [])

/-! ## Characters -/

theorem foldChar_eq_slash_iff {c : UInt8} : foldChar c = kSlash ↔ c = kSlash := by
  have hslash : kSlash.toNat = 47 := rfl
  have h65 : (65 : UInt8).toNat = 65 := rfl
  have h90 : (90 : UInt8).toNat = 90 := rfl
  have h32 : (32 : UInt8).toNat = 32 := rfl
  rw [foldChar, ← UInt8.toNat_inj, ← UInt8.toNat_inj]
  split_ifs with h
  · rw [UInt8.le_iff_toNat_le, UInt8.le_iff_toNat_le] at h
    rw [UInt8.toNat_add]
    omega
  · exact Iff.rfl

theorem slash_mem_foldCase_iff {c : List UInt8} : kSlash ∈ foldCase c ↔ kSlash ∈ c := by
  rw [foldCase, List.mem_map]
  exact ⟨fun ⟨x, hx, h⟩ => foldChar_eq_slash_iff.mp h ▸ hx, fun h => ⟨_, h, foldChar_eq_slash_iff.mpr rfl⟩⟩

theorem foldCase_joinPath (ds : List (List UInt8)) :
    foldCase (joinPath kSlash ds) = joinPath kSlash (ds.map foldCase) :=
  map_joinPath (foldChar_eq_slash_iff.mpr rfl) ds

theorem map_foldCase_of_eq {ds es : List (List UInt8)} (hd : ∀ c ∈ ds, kSlash ∉ c) (he : ∀ c ∈ es, kSlash ∉ c)
    (h : foldCase (joinPath kSlash ds) = foldCase (joinPath kSlash es)) : ds.map foldCase = es.map foldCase := by
  rw [foldCase_joinPath, foldCase_joinPath] at h
  refine joinPath_inj (fun c hc => ?_) (fun c hc => ?_) h
  · obtain ⟨b, hb, rfl⟩ := List.mem_map.mp hc
    exact slash_mem_foldCase_iff.not.mpr (hd b hb)
  · obtain ⟨b, hb, rfl⟩ := List.mem_map.mp hc
    exact slash_mem_foldCase_iff.not.mpr (he b hb)

theorem foldCase_append (s t : List UInt8) : foldCase (s ++ t) = foldCase s ++ foldCase t := List.map_append

theorem cstr_of_not_mem {s : List UInt8} (h : 0 ∉ s) : cstr s = s := by
  rw [cstr, List.takeWhile_eq_self_iff]
  exact fun x hx => decide_eq_true fun hzero => h (hzero ▸ hx)

/-! ## The paths -/

variable {entries : List ArchiveIndex.ArchiveEntry}

theorem guest_eq (e : ArchiveIndex.ArchiveEntry) : guest entries e = joinPath kSlash (comps entries e) :=
  (joinPath_splitOn _).symm

theorem slash_not_mem_comps {e : ArchiveIndex.ArchiveEntry} {c : List UInt8} (hc : c ∈ comps entries e) : kSlash ∉ c :=
  not_mem_of_mem_splitOn hc

theorem findSlash_append {s t : List UInt8} (hs : kSlash ∉ s) (pre : List UInt8) :
    findSlash (pre ++ (s ++ kSlash :: t)) pre.length = some (pre.length + s.length) := by
  have hnone : s.findIdx? (· == kSlash) = none :=
    List.findIdx?_eq_none_iff.mpr fun x hx => beq_eq_false_iff_ne.mpr fun h => hs (h ▸ hx)
  rw [findSlash, List.drop_left, List.findIdx?_append, hnone, List.findIdx?_cons]
  simp

theorem findSlash_of_not_mem {s : List UInt8} (hs : kSlash ∉ s) (pre : List UInt8) :
    findSlash (pre ++ s) pre.length = none := by
  have hnone : s.findIdx? (· == kSlash) = none :=
    List.findIdx?_eq_none_iff.mpr fun x hx => beq_eq_false_iff_ne.mpr fun h => hs (h ▸ hx)
  rw [findSlash, List.drop_left, hnone, Option.map_none]

/-- What is registered for the components of a path behind `pre`. -/
def items (pre : List UInt8) : List (List UInt8) → Seen
  | [] => []
  | c :: cs => ((foldCase (pre ++ [kSlash]), c), !cs.isEmpty) :: items (pre ++ kSlash :: c) cs

theorem mem_items_iff {pre key n : List UInt8} {d : Bool} {cs : List (List UInt8)} : ((key, n), d) ∈ items pre cs ↔
      ∃ ds rest, cs = ds ++ n :: rest ∧ key = foldCase (pre ++ joinPath kSlash ds ++ [kSlash]) ∧ d = !rest.isEmpty := by
  induction cs generalizing pre with
  | nil => simp [items]
  | cons c cs ih =>
    rw [items, List.mem_cons, ih]
    constructor
    · rintro (h | ⟨ds, rest, hcs, hkey, hd⟩)
      · cases h
        exact ⟨[], cs, rfl, by rw [joinPath_nil, List.append_nil], rfl⟩
      · refine ⟨c :: ds, rest, by rw [hcs, List.cons_append], ?_, hd⟩
        rw [hkey, joinPath_cons]
        simp only [List.append_assoc, List.cons_append]
    · rintro ⟨ds, rest, hcs, hkey, hd⟩
      cases ds with
      | nil =>
        obtain ⟨rfl, rfl⟩ := List.cons.inj hcs
        rw [hkey, hd, joinPath_nil, List.append_nil]
        exact .inl rfl
      | cons b ds =>
        obtain ⟨rfl, rfl⟩ := List.cons.inj hcs
        refine .inr ⟨ds, rest, rfl, ?_, hd⟩
        rw [hkey, joinPath_cons]
        simp only [List.append_assoc, List.cons_append]

theorem register_eq (l pre : List UInt8) (fuel : ℕ) (seen : Seen) (hfuel : (l.splitOn kSlash).length ≤ fuel) :
    register (pre ++ kSlash :: l) fuel pre.length seen =
      (items pre (l.splitOn kSlash)).foldl EmplacedMap.emplace seen := by
  -- By the components of what is behind the slash; the turn for one leaves the path up to the next slash as `pre`.
  induction l using induction_on (a := kSlash) generalizing pre fuel seen with
  | single l h =>
    rw [List.splitOn_eq_singleton h] at hfuel ⊢
    obtain ⟨fuel, rfl⟩ := Nat.exists_eq_succ_of_ne_zero (Nat.ne_of_gt hfuel)
    have happ : pre ++ kSlash :: l = (pre ++ [kSlash]) ++ l := by simp
    have hlen : pre.length + 1 = (pre ++ [kSlash]).length := by simp
    rw [register, happ, hlen, findSlash_of_not_mem h, List.take_left, List.drop_left]
    rfl
  | cons c rest hc ih =>
    rw [List.splitOn_append_cons_self_of_not_mem hc] at hfuel ⊢
    obtain ⟨fuel, rfl⟩ := Nat.exists_eq_succ_of_ne_zero (Nat.ne_of_gt (Nat.zero_lt_of_lt hfuel))
    have happ : pre ++ kSlash :: (c ++ kSlash :: rest) = (pre ++ [kSlash]) ++ (c ++ kSlash :: rest) := by simp
    have hlen : pre.length + 1 = (pre ++ [kSlash]).length := by simp
    have hnext := ih (pre ++ kSlash :: c) fuel (EmplacedMap.emplace seen ((foldCase (pre ++ [kSlash]), c), true))
      (Nat.le_of_succ_le_succ hfuel)
    have hpath : pre ++ kSlash :: c ++ kSlash :: rest = (pre ++ [kSlash]) ++ (c ++ kSlash :: rest) := by simp
    have hend : (pre ++ kSlash :: c).length = (pre ++ [kSlash]).length + c.length := by
      rw [List.length_append, List.length_cons, ← hlen]
      omega
    have hpos : (pre ++ [kSlash]).length + c.length - pre.length - 1 = c.length := by omega
    have hne : (rest.splitOn kSlash).isEmpty = false := List.isEmpty_eq_false_iff.mpr (List.splitOn_ne_nil _ _)
    rw [hpath, hend] at hnext
    rw [register, happ, hlen, findSlash_append hc, List.take_left, List.drop_left]
    dsimp only
    rw [hpos, List.take_left, items, List.foldl_cons, hne, Bool.not_false, ← hnext]

/-- What is registered for all paths, in order. -/
def allItems (entries : List ArchiveIndex.ArchiveEntry) : Seen := entries.flatMap fun e => items [] (comps entries e)

theorem seen_mount : (mount entries).seen = (allItems entries).foldl EmplacedMap.emplace [] := by
  rw [allItems, List.foldl_flatMap, seen, mount, List.foldl_map]
  congr 1
  funext seen e
  exact register_eq _ [] _ seen (splitOn_length_le _)

end Prosperity.Formats.ArchiveTree
