import Mathlib.Data.List.Basic
import Mathlib.Logic.Function.Basic

/-!
# Numbers given out by key

A table gives numbers to the uses of a program, one number for all uses of a key: a use whose key is new
takes the next number and adds an entry to the table, as long as there is room for it, and a use whose key
has a number takes that one and may change its entry.
-/

namespace Prosperity

/-- What a use puts into the table. -/
structure Request (κ α : Type) where
  key : κ
  entry : ℕ → α
  /-- What the use changes in an entry that is there. -/
  merge : α → α

structure Numbering (κ ι α : Type) where
  byKey : κ → Option ℕ := fun _ => none
  byUse : ι → Option ℕ := fun _ => none
  entries : List α := []

namespace Numbering

variable {κ ι α : Type}

section Put

variable [DecidableEq κ] [DecidableEq ι]

/-- One use, in a table whose numbers begin at `first`; none where it needs a number and `room` has
none. -/
def put (first : ℕ) (room : ℕ → Bool) (n : Numbering κ ι α) (use : ι) (r : Request κ α) : Option (Numbering κ ι α) :=
  match n.byKey r.key with
  | some number =>
    some
      { n with
        byUse := Function.update n.byUse use (some number)
        entries := n.entries.modify (number - first) r.merge }
  | none =>
    let number := first + n.entries.length
    if room number then
      some
        { byKey := Function.update n.byKey r.key (some number)
          byUse := Function.update n.byUse use (some number)
          entries := n.entries ++ [r.entry number] }
    else none

end Put

/-- The table `n` after the uses `done`, each with its key. -/
structure Numbers (first : ℕ) (room : ℕ → Bool) (done : List (ι × κ)) (n : Numbering κ ι α) : Prop where
  use_eq : ∀ p ∈ done, n.byUse p.1 = n.byKey p.2
  mem_done : ∀ use number, n.byUse use = some number →
    ∃ key, (use, key) ∈ done ∧ n.byKey key = some number
  range : ∀ key number, n.byKey key = some number → first ≤ number ∧ number < first + n.entries.length
  injective : ∀ key key' number, n.byKey key = some number → n.byKey key' = some number → key = key'
  onto : ∀ number, first ≤ number → number < first + n.entries.length → ∃ use, n.byUse use = some number
  inRoom : ∀ number, first ≤ number → number < first + n.entries.length → room number = true
  full : ∀ p ∈ done, n.byKey p.2 = none → room (first + n.entries.length) = false

variable {first : ℕ} {room : ℕ → Bool} {done : List (ι × κ)} {n n' : Numbering κ ι α} {use : ι}
  {r : Request κ α}

theorem numbers_empty : Numbers first room ([] : List (ι × κ)) ({} : Numbering κ ι α) where
  use_eq _ hp := absurd hp List.not_mem_nil
  mem_done _ _ h := nomatch h
  range _ _ h := nomatch h
  injective _ _ _ h := nomatch h
  onto _ hle hlt := absurd hlt (Nat.not_lt.mpr hle)
  inRoom _ hle hlt := absurd hlt (Nat.not_lt.mpr hle)
  full _ hp := absurd hp List.not_mem_nil

/-! ## One use -/

variable [DecidableEq κ] [DecidableEq ι]

theorem put_cases (h : n.put first room use r = some n') : (∃ number, n.byKey r.key = some number ∧
      n' = { n with
        byUse := Function.update n.byUse use (some number)
        entries := n.entries.modify (number - first) r.merge }) ∨
    (n.byKey r.key = none ∧ room (first + n.entries.length) = true ∧ n' =
        { byKey := Function.update n.byKey r.key (some (first + n.entries.length))
          byUse := Function.update n.byUse use (some (first + n.entries.length))
          entries := n.entries ++ [r.entry (first + n.entries.length)] }) := by
  unfold put at h
  split at h
  · rename_i number hkey
    exact .inl ⟨number, hkey, (Option.some.inj h).symm⟩
  · rename_i hkey
    dsimp only at h
    split at h
    · rename_i hroom
      exact .inr ⟨hkey, hroom, (Option.some.inj h).symm⟩
    · cases h

theorem put_isSome (hroom : ∀ b, room b = true) : (n.put first room use r).isSome = true := by
  unfold put
  cases n.byKey r.key with
  | some number => rfl
  | none =>
    dsimp only
    rw [if_pos (hroom _)]
    rfl

theorem byKey_put (h : n.put first room use r = some n') {key : κ} {number : ℕ}
    (hkey : n.byKey key = some number) : n'.byKey key = some number := by
  obtain ⟨_, _, rfl⟩ | ⟨hnone, _, rfl⟩ := put_cases h
  · exact hkey
  · have hne : key ≠ r.key := by
      intro heq
      rw [heq, hnone] at hkey
      cases hkey
    exact (Function.update_of_ne hne _ _).trans hkey

theorem put_byUse (h : n.put first room use r = some n') :
    ∃ number, n'.byUse use = some number ∧ n'.byKey r.key = some number := by
  obtain ⟨number, hkey, rfl⟩ | ⟨_, _, rfl⟩ := put_cases h
  · exact ⟨number, Function.update_self _ _ _, hkey⟩
  · exact ⟨_, Function.update_self _ _ _, Function.update_self _ _ _⟩

theorem byUse_put_of_ne (h : n.put first room use r = some n') {other : ι} (hne : other ≠ use) :
    n'.byUse other = n.byUse other := by
  obtain ⟨_, _, rfl⟩ | ⟨_, _, rfl⟩ := put_cases h
  · exact Function.update_of_ne hne _ _
  · exact Function.update_of_ne hne _ _

theorem byKey_put_cases (h : n.put first room use r = some n') {key : κ} {number : ℕ}
    (hkey : n'.byKey key = some number) :
    n.byKey key = some number ∨ (key = r.key ∧ number = first + n.entries.length ∧
        n'.entries.length = n.entries.length + 1) := by
  obtain ⟨_, _, rfl⟩ | ⟨_, _, rfl⟩ := put_cases h
  · exact .inl hkey
  · by_cases heq : key = r.key
    · dsimp only at hkey
      rw [heq, Function.update_self] at hkey
      exact .inr ⟨heq, (Option.some.inj hkey).symm, List.length_append⟩
    · exact .inl ((Function.update_of_ne heq _ _).symm.trans hkey)

theorem length_put (h : n.put first room use r = some n') : n'.entries.length = n.entries.length ∨
      (room (first + n.entries.length) = true ∧ n'.entries.length = n.entries.length + 1) := by
  obtain ⟨_, _, rfl⟩ | ⟨_, hroom, rfl⟩ := put_cases h
  · exact .inl (List.length_modify _ _ _)
  · exact .inr ⟨hroom, List.length_append⟩

theorem Numbers.byKey_put (hn : Numbers first room done n) (h : n.put first room use r = some n')
    {p : ι × κ} (hp : p ∈ done) : n'.byKey p.2 = n.byKey p.2 := by
  cases hlook : n.byKey p.2 with
  | some number => exact Numbering.byKey_put h hlook
  | none =>
    cases hlook' : n'.byKey p.2 with
    | none => rfl
    | some number =>
      have hfull := hn.full p hp hlook
      obtain hold | ⟨_, _, hlen⟩ := byKey_put_cases h hlook'
      · rw [hlook] at hold
        cases hold
      · obtain heq | ⟨hroom, _⟩ := length_put h
        · omega
        · rw [hfull] at hroom
          cases hroom

theorem Numbers.put (hn : Numbers first room done n) (hnew : ∀ p ∈ done, p.1 ≠ use)
    (h : n.put first room use r = some n') : Numbers first room (done ++ [(use, r.key)]) n' := by
  obtain ⟨number, huse, hkey⟩ := put_byUse h
  have hle : n.entries.length ≤ n'.entries.length := by
    obtain heq | ⟨_, heq⟩ := length_put h <;> omega
  refine ⟨?_, ?_, ?_, ?_, ?_, ?_, ?_⟩
  · intro p hp
    obtain hp | hp := List.mem_append.mp hp
    · rw [byUse_put_of_ne h (hnew p hp), hn.use_eq p hp, hn.byKey_put h hp]
    · obtain rfl := List.mem_singleton.mp hp
      exact huse.trans hkey.symm
  · intro other number' hother
    by_cases heq : other = use
    · subst heq
      obtain rfl : number' = number := Option.some.inj (hother.symm.trans huse)
      exact ⟨r.key, List.mem_append_right _ (List.mem_singleton_self _), hkey⟩
    · rw [byUse_put_of_ne h heq] at hother
      obtain ⟨key, hmem, hlook⟩ := hn.mem_done other number' hother
      exact ⟨key, List.mem_append_left _ hmem, Numbering.byKey_put h hlook⟩
  · intro key number' hlook
    obtain hold | ⟨_, rfl, hlen⟩ := byKey_put_cases h hlook
    · obtain ⟨hge, hlt⟩ := hn.range key number' hold
      exact ⟨hge, by omega⟩
    · exact ⟨Nat.le_add_right _ _, by omega⟩
  · intro key key' number' hlook hlook'
    -- the number of the new key is past those of the old ones
    obtain hold | ⟨rfl, heq, _⟩ := byKey_put_cases h hlook
    · obtain hold' | ⟨_, heq, _⟩ := byKey_put_cases h hlook'
      · exact hn.injective key key' number' hold hold'
      · have := (hn.range key number' hold).2
        omega
    · obtain hold' | ⟨rfl, _, _⟩ := byKey_put_cases h hlook'
      · have := (hn.range key' number' hold').2
        omega
      · rfl
  · intro number' hge hlt
    by_cases hold : number' < first + n.entries.length
    · obtain ⟨other, hother⟩ := hn.onto number' hge hold
      by_cases heq : other = use
      · -- a use that is put anew has lost its number: its key has it still
        subst heq
        obtain ⟨key, hmem, _⟩ := hn.mem_done other number' hother
        exact absurd rfl (hnew _ hmem)
      · exact ⟨other, (byUse_put_of_ne h heq).trans hother⟩
    · obtain ⟨_, _, rfl⟩ | ⟨_, _, rfl⟩ := put_cases h
      · rw [List.length_modify] at hlt
        exact absurd hlt hold
      · rw [List.length_append, List.length_singleton] at hlt
        obtain rfl : number' = first + n.entries.length := by omega
        exact ⟨use, Function.update_self _ _ _⟩
  · intro number' hge hlt
    by_cases hold : number' < first + n.entries.length
    · exact hn.inRoom number' hge hold
    · obtain heq | ⟨hroom, heq⟩ := length_put h
      · omega
      · obtain rfl : number' = first + n.entries.length := by omega
        exact hroom
  · intro p hp hnone
    obtain hp | hp := List.mem_append.mp hp
    · have hfull := hn.full p hp ((hn.byKey_put h hp).symm.trans hnone)
      obtain heq | ⟨hroom, _⟩ := length_put h
      · rw [heq]
        exact hfull
      · rw [hfull] at hroom
        cases hroom
    · obtain rfl := List.mem_singleton.mp hp
      rw [hkey] at hnone
      cases hnone

theorem Numbers.skip (hn : Numbers first room done n) (hnew : ∀ p ∈ done, p.1 ≠ use)
    (h : n.put first room use r = none) : Numbers first room (done ++ [(use, r.key)]) n := by
  obtain ⟨hkey, hroom⟩ : n.byKey r.key = none ∧ room (first + n.entries.length) = false := by
    unfold Numbering.put at h
    split at h
    · cases h
    · rename_i hkey
      dsimp only at h
      split at h
      · cases h
      · rename_i hroom
        exact ⟨hkey, (Bool.not_eq_true _).mp hroom⟩
  refine ⟨?_, ?_, hn.range, hn.injective, hn.onto, hn.inRoom, ?_⟩
  · intro p hp
    obtain hp | hp := List.mem_append.mp hp
    · exact hn.use_eq p hp
    · obtain rfl := List.mem_singleton.mp hp
      cases hlook : n.byUse use with
      | none => exact hkey.symm
      | some number =>
        obtain ⟨key, hmem, _⟩ := hn.mem_done use number hlook
        exact absurd rfl (hnew _ hmem)
  · intro other number hother
    obtain ⟨key, hmem, hlook⟩ := hn.mem_done other number hother
    exact ⟨key, List.mem_append_left _ hmem, hlook⟩
  · intro p hp hnone
    obtain hp | hp := List.mem_append.mp hp
    · exact hn.full p hp hnone
    · exact hroom

theorem numbered_put {number : α → ℕ} (hentry : ∀ b, number (r.entry b) = b)
    (hmerge : ∀ e, number (r.merge e) = number e) (h : n.put first room use r = some n')
    (hn : ∀ i e, n.entries[i]? = some e → number e = first + i) :
    ∀ i e, n'.entries[i]? = some e → number e = first + i := by
  obtain ⟨_, _, rfl⟩ | ⟨_, _, rfl⟩ := put_cases h
  · intro i e he
    rw [List.getElem?_modify] at he
    obtain ⟨old, hold, rfl⟩ := Option.map_eq_some_iff.mp he
    split
    · exact (hmerge old).trans (hn i old hold)
    · exact hn i old hold
  · intro i e he
    rw [List.getElem?_append] at he
    split at he
    · exact hn i e he
    · obtain ⟨hi, rfl⟩ := List.getElem?_eq_some_iff.mp he
      simp only [List.length_singleton] at hi
      simp only [List.getElem_singleton, hentry]
      omega

/-! ## Tables filled in step -/

section Enroll

variable {υ β : Type} (number : υ → ℕ)

def enroll (make : υ → β) (merge : υ → β → β) (table : List β) (use : υ) : List β :=
  if number use < table.length then table.modify (number use) (merge use) else table ++ [make use]

def grown (length : ℕ) (uses : List υ) : ℕ :=
  uses.foldl (fun n use => if number use < n then n else n + 1) length

/-- Each use has a number that is given out already, or the next one. -/
def InTurn : ℕ → List υ → Prop
  | _, [] => True
  | n, use :: uses => number use ≤ n ∧ InTurn (if number use < n then n else n + 1) uses

variable {number} {make : υ → β} {merge : υ → β → β} {uses : List υ} {table : List β}

theorem length_enroll (use : υ) : (enroll number make merge table use).length =
    if number use < table.length then table.length else table.length + 1 := by
  rw [enroll]
  split_ifs
  · exact List.length_modify _ _ _
  · exact List.length_append

theorem length_foldl_enroll :
    (uses.foldl (enroll number make merge) table).length = grown number table.length uses := by
  induction uses generalizing table with
  | nil => rfl
  | cons use uses ih => rw [List.foldl_cons, ih, length_enroll, grown, grown, List.foldl_cons]

theorem inTurn_map {τ : Type} (f : τ → υ) {n : ℕ} {l : List τ} :
    InTurn number n (l.map f) ↔ InTurn (fun a => number (f a)) n l := by
  induction l generalizing n with
  | nil => rfl
  | cons a l ih => exact and_congr_right fun _ => ih

theorem exists_first {n k : ℕ} (h : InTurn number n uses) (hle : n ≤ k) (hlt : k < grown number n uses) :
    ∃ before use after, uses = before ++ use :: after ∧ number use = k ∧ ∀ other ∈ before, number other ≠ k := by
  induction uses generalizing n with
  | nil => exact absurd hlt (Nat.not_lt_of_le hle)
  | cons use uses ih =>
    obtain ⟨hturn, hrest⟩ := h
    by_cases hk : number use = k
    · exact ⟨[], use, uses, rfl, hk, fun _ hmem => absurd hmem List.not_mem_nil⟩
    · have hle' : (if number use < n then n else n + 1) ≤ k := by split_ifs <;> omega
      obtain ⟨before, first, after, rfl, hnumber, hbefore⟩ := ih hrest hle' hlt
      exact ⟨use :: before, first, after, rfl, hnumber, List.forall_mem_cons.mpr ⟨hk, hbefore⟩⟩

theorem foldl_enroll_getElem? {k : ℕ} (hk : k < table.length) : (uses.foldl (enroll number make merge) table)[k]? =
      table[k]?.map fun b => (uses.filter fun use => number use = k).foldl (fun b use => merge use b) b := by
  induction uses generalizing table with
  | nil => simp
  | cons use uses ih =>
    have hlen : k < (enroll number make merge table use).length := by
      rw [length_enroll]
      split_ifs <;> omega
    rw [List.foldl_cons, ih hlen, enroll, List.filter_cons]
    by_cases hlt : number use < table.length
    · rw [if_pos hlt, List.getElem?_modify]
      by_cases heq : number use = k
      · cases table[k]? <;> simp [heq]
      · simp [heq]
    · have hne : number use ≠ k := by omega
      rw [if_neg hlt, List.getElem?_append_left hk]
      simp [hne]

theorem foldl_enroll_of_first {k : ℕ} (h : InTurn number table.length uses) (hle : table.length ≤ k)
    {before after : List υ} {use : υ} (huses : uses = before ++ use :: after) (hnumber : number use = k)
    (hbefore : ∀ other ∈ before, number other ≠ k) : (uses.foldl (enroll number make merge) table)[k]? =
      some ((after.filter fun use => number use = k).foldl (fun b use => merge use b) (make use)) := by
  induction before generalizing uses table with
  | nil =>
    subst huses
    have heq : number use = table.length := Nat.le_antisymm h.1 (hnumber ▸ hle)
    have hk : k = table.length := hnumber.symm.trans heq
    rw [List.nil_append, List.foldl_cons, enroll, if_neg (by omega),
      foldl_enroll_getElem? (by rw [List.length_append, List.length_singleton]; omega), hk,
      List.getElem?_concat_length]
    rfl
  | cons other before ih =>
    subst huses
    rw [List.forall_mem_cons] at hbefore
    rw [List.cons_append, List.foldl_cons]
    refine ih ?_ ?_ rfl hbefore.2
    · rw [length_enroll]
      exact h.2
    · rw [length_enroll]
      have hturn := h.1
      have hother := hbefore.1
      split_ifs <;> omega

end Enroll

end Numbering

end Prosperity
