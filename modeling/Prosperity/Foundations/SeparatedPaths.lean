import Mathlib.Data.List.Nodup

/-!
# Paths with a separator

A path is a list in which a separator stands in front of each component. A component has no separator in it.
-/

namespace Prosperity

/-! ## Components -/

namespace SeparatedPaths

variable {α : Type} {a : α}

def joinPath (a : α) (ds : List (List α)) : List α := ds.flatMap (a :: ·)

@[simp] theorem joinPath_nil : joinPath a [] = [] := rfl

@[simp] theorem joinPath_cons (c : List α) (ds : List (List α)) : joinPath a (c :: ds) = a :: (c ++ joinPath a ds) :=
  rfl

theorem joinPath_append (ds es : List (List α)) : joinPath a (ds ++ es) = joinPath a ds ++ joinPath a es :=
  List.flatMap_append

theorem joinPath_concat (ds : List (List α)) (c : List α) : joinPath a (ds ++ [c]) = joinPath a ds ++ a :: c := by
  rw [joinPath_append, joinPath_cons, joinPath_nil, List.append_nil]

theorem map_joinPath {f : α → α} (hf : f a = a) (ds : List (List α)) :
    (joinPath a ds).map f = joinPath a (ds.map (·.map f)) := by
  induction ds with
  | nil => rfl
  | cons c ds ih => rw [joinPath_cons, List.map_cons, List.map_append, ih, hf, List.map_cons, joinPath_cons]

variable [DecidableEq α]

theorem induction_on {motive : List α → Prop} (single : ∀ l, a ∉ l → motive l)
    (cons : ∀ c rest, a ∉ c → motive rest → motive (c ++ a :: rest)) (l : List α) : motive l := by
  by_cases h : a ∈ l
  · obtain ⟨c, rest, hl, hc⟩ := List.eq_append_cons_of_mem h
    have hlen : rest.length < l.length := by
      rw [hl, List.length_append, List.length_cons]
      omega
    rw [hl]
    exact cons c rest hc (induction_on single cons rest)
  · exact single l h
termination_by l.length

theorem joinPath_splitOn (l : List α) : joinPath a (l.splitOn a) = a :: l := by
  induction l using induction_on (a := a) with
  | single l h => rw [List.splitOn_eq_singleton h, joinPath_cons, joinPath_nil, List.append_nil]
  | cons c rest hc ih => rw [List.splitOn_append_cons_self_of_not_mem hc, joinPath_cons, ih]

theorem not_mem_of_mem_splitOn {l c : List α} (hc : c ∈ l.splitOn a) : a ∉ c := by
  induction l using induction_on (a := a) with
  | single l h =>
    rw [List.splitOn_eq_singleton h, List.mem_singleton] at hc
    exact hc ▸ h
  | cons b rest hb ih =>
    rw [List.splitOn_append_cons_self_of_not_mem hb, List.mem_cons] at hc
    rcases hc with rfl | hc
    · exact hb
    · exact ih hc

theorem splitOn_length_le (l : List α) : (l.splitOn a).length ≤ l.length + 1 := by
  induction l using induction_on (a := a) with
  | single l h =>
    rw [List.splitOn_eq_singleton h, List.length_singleton]
    omega
  | cons c rest hc ih =>
    rw [List.splitOn_append_cons_self_of_not_mem hc, List.length_cons, List.length_append, List.length_cons]
    omega

theorem joinPath_inj {ds es : List (List α)} (hd : ∀ c ∈ ds, a ∉ c) (he : ∀ c ∈ es, a ∉ c)
    (h : joinPath a ds = joinPath a es) : ds = es := by
  have hsplit : ∀ {ds : List (List α)} (c : List α), (∀ b ∈ c :: ds, a ∉ b) →
      (joinPath a (c :: ds)).tail.splitOn a = c :: ds := by
    intro ds
    induction ds with
    | nil =>
      intro c hc
      rw [joinPath_cons, joinPath_nil, List.append_nil, List.tail_cons]
      exact List.splitOn_eq_singleton (hc c List.mem_cons_self)
    | cons b ds ih =>
      intro c hc
      have hrest := ih b fun e he => hc e (List.mem_cons_of_mem c he)
      rw [joinPath_cons, List.tail_cons] at hrest ⊢
      rw [joinPath_cons, List.splitOn_append_cons_self_of_not_mem (hc c List.mem_cons_self), hrest]
  cases ds with
  | nil =>
    cases es with
    | nil => rfl
    | cons e es => cases h
  | cons d ds =>
    cases es with
    | nil => cases h
    | cons e es => rw [← hsplit d hd, h, hsplit e he]

end SeparatedPaths

/-! ## Maps that keep the first entry -/

namespace EmplacedMap

variable {κ ν : Type} [BEq κ] {m l : List (κ × ν)} {k : κ} {v : ν}

/-- `emplace` of a map: an entry whose key is there already stays. -/
def emplace (m : List (κ × ν)) (kv : κ × ν) : List (κ × ν) := if (m.lookup kv.1).isSome then m else m ++ [kv]

variable [LawfulBEq κ]

theorem lookup_emplace (kv : κ × ν) : (emplace m kv).lookup k = (m ++ [kv]).lookup k := by
  obtain ⟨key, val⟩ := kv
  rw [emplace]
  split_ifs with h
  · rw [List.lookup_append]
    by_cases hk : k = key
    · obtain ⟨w, hw⟩ := Option.isSome_iff_exists.mp h
      rw [hk, hw]
      rfl
    · rw [List.lookup_cons, beq_eq_false_iff_ne.mpr hk]
      exact (Option.or_none).symm
  · rfl

theorem lookup_foldl_emplace : (l.foldl emplace m).lookup k = (m ++ l).lookup k := by
  induction l generalizing m with
  | nil => rw [List.foldl_nil, List.append_nil]
  | cons kv l ih =>
    rw [List.foldl_cons, ih, List.lookup_append, lookup_emplace, ← List.lookup_append, List.append_assoc,
      List.singleton_append]

theorem nodup_keys_foldl_emplace (h : (m.map Prod.fst).Nodup) : ((l.foldl emplace m).map Prod.fst).Nodup := by
  induction l generalizing m with
  | nil => exact h
  | cons kv l ih =>
    rw [List.foldl_cons]
    apply ih
    rw [emplace]
    split_ifs with hkey
    · exact h
    · have hnone := Option.not_isSome_iff_eq_none.mp hkey
      rw [List.map_append, List.map_singleton, List.nodup_append]
      refine ⟨h, List.nodup_singleton _, fun x hx y hy hxy => ?_⟩
      obtain ⟨p, hp, rfl⟩ := List.mem_map.mp hx
      rw [List.mem_singleton] at hy
      have := List.lookup_eq_none_iff.mp hnone p hp
      rw [hxy, hy] at this
      simp at this

theorem mem_iff_lookup (h : (m.map Prod.fst).Nodup) : (k, v) ∈ m ↔ m.lookup k = some v := by
  induction m with
  | nil => simp
  | cons kv m ih =>
    rw [List.map_cons, List.nodup_cons] at h
    rw [List.mem_cons, ih h.2, List.lookup_cons]
    by_cases hk : k = kv.1
    · rw [beq_iff_eq.mpr hk]
      constructor
      · rintro (heq | hlook)
        · rw [← heq]
        · exact absurd (List.mem_map.mpr ⟨(k, v), (ih h.2).mpr hlook, hk⟩) h.1
      · intro hv
        exact .inl (Prod.ext hk (Option.some.inj hv).symm)
    · rw [beq_eq_false_iff_ne.mpr hk]
      exact ⟨fun hor => hor.resolve_left fun heq => hk (congrArg Prod.fst heq), .inr⟩

theorem mem_foldl_emplace_iff : (k, v) ∈ l.foldl emplace [] ↔ l.lookup k = some v := by
  have hkeys : ((l.foldl emplace []).map Prod.fst).Nodup := nodup_keys_foldl_emplace (m := []) List.nodup_nil
  rw [mem_iff_lookup hkeys, lookup_foldl_emplace, List.nil_append]

theorem lookup_eq_some_iff_mem (h : ∀ w, (k, v) ∈ l → (k, w) ∈ l → v = w) : l.lookup k = some v ↔ (k, v) ∈ l := by
  constructor
  · intro hlook
    obtain ⟨l₁, l₂, rfl, -⟩ := List.lookup_eq_some_iff.mp hlook
    exact List.mem_append_right _ List.mem_cons_self
  · intro hmem
    cases hlook : l.lookup k with
    | none => simpa using List.lookup_eq_none_iff.mp hlook _ hmem
    | some w =>
      obtain ⟨l₁, l₂, hl, -⟩ := List.lookup_eq_some_iff.mp hlook
      have hw : (k, w) ∈ l := by
        rw [hl]
        exact List.mem_append_right _ List.mem_cons_self
      rw [h w hmem hw]

end EmplacedMap

end Prosperity
