import Mathlib.Algebra.Group.Nat.Defs
import Mathlib.Logic.Function.Basic
import Prosperity.Foundations.CInt
import Prosperity.Foundations.Execution

/-!
# The object table

`ObjectTable`: handles of kernel objects. A handle is four times a slot, and its two lowest bits
are ignored. Every call runs under the table's mutex, so a call is one step.
-/

set_option linter.unusedSectionVars false

namespace Prosperity.Kern

universe u

/-! ## Handles as a map -/

/-- What the table is for: the object of each slot, and how many references keep it there. -/
abbrev HandleMap (α : Type u) := ℕ → Option (α × ℕ)

/-- The calls. `granted` is whether the allocator grants a larger table. -/
inductive ObjectCall (α : Type u) where
  | add (obj : α) (granted : Bool)
  | get (handle : ℕ)
  | keep (handle : ℕ)
  | release (handle : ℕ)
  | remove (handle : ℕ)
  deriving DecidableEq

/-- What a call returns. -/
inductive ObjectReply (α : Type u) where
  /-- `Add`: the handle, where there is one. -/
  | handle (h : Option ℕ)
  | object (o : Option α)
  | done (ok : Bool)
  deriving DecidableEq

def slotOf (handle : ℕ) : ℕ := handle >>> 2

namespace HandleMap

variable {α : Type u}

inductive Step (m : HandleMap α) : ObjectCall α → ObjectReply α → HandleMap α → Prop where
  | added {o : α} {granted : Bool} {slot : ℕ} : slot ≠ 0 → m slot = none →
      Step m (.add o granted) (.handle (some (slot <<< 2))) (Function.update m slot (some (o, 1)))
  /-- Only for want of memory. -/
  | refused {o : α} : Step m (.add o false) (.handle none) m
  | got {h : ℕ} : Step m (.get h) (.object ((m (slotOf h)).map Prod.fst)) m
  | kept {h n : ℕ} {o : α} : m (slotOf h) = some (o, n) →
      Step m (.keep h) (.done true) (Function.update m (slotOf h) (some (o, n + 1)))
  | released {h n : ℕ} {o : α} : m (slotOf h) = some (o, n + 2) →
      Step m (.release h) (.done true) (Function.update m (slotOf h) (some (o, n + 1)))
  | releasedLast {h : ℕ} {o : α} : m (slotOf h) = some (o, 1) →
      Step m (.release h) (.done true) (Function.update m (slotOf h) none)
  | removed {h n : ℕ} {o : α} : m (slotOf h) = some (o, n) →
      Step m (.remove h) (.done true) (Function.update m (slotOf h) none)
  | noKeep {h : ℕ} : m (slotOf h) = none → Step m (.keep h) (.done false) m
  | noRelease {h : ℕ} : m (slotOf h) = none → Step m (.release h) (.done false) m
  | noRemove {h : ℕ} : m (slotOf h) = none → Step m (.remove h) (.done false) m

end HandleMap

/-! ## The table -/

/-- What an object knows of the table: `handle_collection_` and `ref_count_`. -/
structure ObjectState where
  handles : List ℕ
  refCount : ℤ
  deriving DecidableEq

namespace ObjectTable

structure Entry (α : Type u) where
  refCount : CInt
  obj : Option α
  deriving DecidableEq

end ObjectTable

structure ObjectTable (α : Type u) where
  tableCap : ℕ
  lastFreeEntry : ℕ
  table : ℕ → ObjectTable.Entry α
  objects : α → ObjectState
  /-- What the last call returned. -/
  reply : ObjectReply α

namespace ObjectTable

variable {α : Type u}

/-- `sizeof(Entry)`. -/
def entrySize : ℕ := 16

def init (α : Type u) : ObjectTable α where
  tableCap := 0
  lastFreeEntry := 0
  table _ := ⟨0, none⟩
  objects _ := ⟨[], 0⟩
  reply := .done true

/-- `Resize`, with whether it succeeds. Undefined where the size in bytes wraps, which makes the
block smaller than the table. -/
def resize (t : ObjectTable α) (newCap : ℕ) (granted : Bool) : Option (Bool × ObjectTable α) :=
  if newCap * entrySize % 2 ^ 32 < newCap * entrySize then none
  else if granted then
    some (true, { t with
      table := fun slot => if slot < t.tableCap then t.table slot else ⟨0, none⟩
      lastFreeEntry := t.tableCap
      tableCap := newCap })
  else some (false, t)

/-- The loop of `FindSlot`. The first argument bounds its turns. -/
def scan (t : ObjectTable α) : ℕ → ℕ → ℕ → Option ℕ
  | 0, _, _ => none
  | turns + 1, scanCount, slot =>
    if t.tableCap ≤ scanCount then none
    else if (t.table slot).obj.isNone then some slot
    else if (slot + 1) % t.tableCap = 0 then scan t turns (scanCount + 2) 1
    else scan t turns (scanCount + 1) ((slot + 1) % t.tableCap)

/-- `FindSlot`: the slot, `none` where there is none to be had. -/
def findSlot (t : ObjectTable α) (granted : Bool) : Option (Option ℕ × ObjectTable α) :=
  match t.scan t.tableCap 0 t.lastFreeEntry with
  | some slot => some (some slot, t)
  | none =>
    match t.resize (max (16 * 1024) (t.tableCap * 2)) granted with
    | none => none
    | some (false, t) => some (none, t)
    | some (true, t) =>
      some (some (t.lastFreeEntry + 1), { t with lastFreeEntry := t.lastFreeEntry + 1 })

variable [DecidableEq α]

def setEntry (t : ObjectTable α) (slot : ℕ) (entry : Entry α) : ObjectTable α :=
  { t with table := Function.update t.table slot entry }

def setObject (t : ObjectTable α) (o : α) (f : ObjectState → ObjectState) : ObjectTable α :=
  { t with objects := Function.update t.objects o (f (t.objects o)) }

def answer (t : ObjectTable α) (reply : ObjectReply α) : ObjectTable α := { t with reply }

def add (t : ObjectTable α) (obj : α) (granted : Bool) : Option (ObjectTable α) :=
  (t.findSlot granted).map fun
    | (some slot, t) =>
      ((t.setEntry slot ⟨1, some obj⟩).setObject obj
        fun o => ⟨o.handles ++ [slot <<< 2], o.refCount + 1⟩).answer (.handle (some (slot <<< 2)))
    | (none, t) => t.answer (.handle none)

def get (t : ObjectTable α) (handle : ℕ) : ObjectTable α :=
  if slotOf handle < t.tableCap then
    match (t.table (slotOf handle)).obj with
    | some o =>
      (t.setObject o fun s => { s with refCount := s.refCount + 1 }).answer (.object (some o))
    | none => t.answer (.object none)
  else t.answer (.object none)

def keep (t : ObjectTable α) (handle : ℕ) : Option (ObjectTable α) :=
  let slot := slotOf handle
  if slot < t.tableCap then
    ((t.table slot).refCount.add? 1).map fun refs =>
      (t.setEntry slot { t.table slot with refCount := refs }).answer (.done true)
  else some (t.answer (.done false))

def remove (t : ObjectTable α) (handle : ℕ) : ObjectTable α :=
  let slot := slotOf handle
  if slot < t.tableCap then
    match (t.table slot).obj with
    | some o =>
      ((t.setEntry slot ⟨0, none⟩).setObject o
        fun s => ⟨s.handles.erase handle, s.refCount - 1⟩).answer (.done true)
    | none => t.answer (.done false)
  else t.answer (.done false)

def release (t : ObjectTable α) (handle : ℕ) : Option (ObjectTable α) :=
  let slot := slotOf handle
  if slot < t.tableCap then
    ((t.table slot).refCount.sub? 1).map fun refs =>
      let t := t.setEntry slot { t.table slot with refCount := refs }
      if refs = 0 then t.remove handle else t.answer (.done true)
  else some (t.answer (.done false))

def step (t : ObjectTable α) : ObjectCall α → Option (ObjectTable α)
  | .add obj granted => t.add obj granted
  | .get handle => some (t.get handle)
  | .keep handle => t.keep handle
  | .release handle => t.release handle
  | .remove handle => some (t.remove handle)

def system (α : Type u) [DecidableEq α] : LabelledSystem (ObjectTable α) (ObjectCall α) :=
  ⟨step⟩

/-! ## The abstract state -/

def handleMap (t : ObjectTable α) : HandleMap α := fun slot =>
  if slot < t.tableCap then
    (t.table slot).obj.map fun o => (o, ((t.table slot).refCount : ℤ).toNat)
  else none

def Live (t : ObjectTable α) (handle : ℕ) : Prop := (t.handleMap (slotOf handle)).isSome

instance (t : ObjectTable α) (handle : ℕ) : Decidable (t.Live handle) :=
  inferInstanceAs (Decidable (_ = true))

/-- The calls the code handles: `Keep` and `Release` of a handle that is live or out of the table,
within the range of the count, and growth within the range of the size. -/
def Careful (t : ObjectTable α) : ObjectCall α → Prop
  | .add _ _ => t.scan t.tableCap 0 t.lastFreeEntry = none → t.tableCap < 2 ^ 27
  | .keep h => slotOf h < t.tableCap →
      t.Live h ∧ ((t.table (slotOf h)).refCount : ℤ) < CInt.max
  | .release h => slotOf h < t.tableCap → t.Live h
  | .get _ | .remove _ => True

instance (t : ObjectTable α) : ∀ c, Decidable (t.Careful c)
  | .add _ _ => inferInstanceAs (Decidable (_ → _))
  | .keep _ => inferInstanceAs (Decidable (_ → _))
  | .release _ => inferInstanceAs (Decidable (_ → _))
  | .get _ => inferInstanceAs (Decidable True)
  | .remove _ => inferInstanceAs (Decidable True)

/-! ## The search -/

section Search

variable {t : ObjectTable α} {turns scanCount slot : ℕ}

theorem scan_turn (t : ObjectTable α) (turns scanCount slot : ℕ) : t.scan (turns + 1) scanCount slot =
      if t.tableCap ≤ scanCount then none else if (t.table slot).obj.isNone then some slot
      else if (slot + 1) % t.tableCap = 0 then t.scan turns (scanCount + 2) 1
      else t.scan turns (scanCount + 1) ((slot + 1) % t.tableCap) := rfl

theorem scan_succ (h : t.tableCap ≤ scanCount + turns) :
    t.scan (turns + 1) scanCount slot = t.scan turns scanCount slot := by
  induction turns generalizing scanCount slot with
  | zero =>
    rw [scan_turn, if_pos (by omega)]
    rfl
  | succ turns ih =>
    rw [scan_turn t (turns + 1) scanCount slot, scan_turn t turns scanCount slot]
    split
    · rfl
    split
    · rfl
    split
    · exact ih (by omega)
    · exact ih (by omega)

theorem scan_add (extra : ℕ) : t.scan (t.tableCap + extra) 0 slot = t.scan t.tableCap 0 slot := by
  induction extra with
  | zero => rfl
  | succ extra ih => rw [← Nat.add_assoc, scan_succ (by omega), ih]

theorem scan_some (hcap : 2 ≤ t.tableCap) (hslot : slot ≠ 0) (hlt : slot < t.tableCap) {found : ℕ}
    (h : t.scan turns scanCount slot = some found) : found ≠ 0 ∧ found < t.tableCap ∧ (t.table found).obj = none := by
  induction turns generalizing scanCount slot with
  | zero => cases h
  | succ turns ih =>
    rw [scan_turn] at h
    split at h
    · cases h
    split at h
    next hfree =>
      obtain rfl := Option.some.inj h
      exact ⟨hslot, hlt, Option.isNone_iff_eq_none.mp hfree⟩
    split at h
    · exact ih (by decide) (by omega) h
    next hnext => exact ih hnext (Nat.mod_lt _ (by omega)) h

end Search

/-! ## The invariant -/

section Frame

variable (t : ObjectTable α) (o : α) (f : ObjectState → ObjectState) (r : ObjectReply α)

@[simp] theorem handleMap_setObject : (t.setObject o f).handleMap = t.handleMap := rfl

@[simp] theorem handleMap_answer : (t.answer r).handleMap = t.handleMap := rfl

theorem handleMap_setEntry {slot : ℕ} (hlt : slot < t.tableCap) (e : Entry α) : (t.setEntry slot e).handleMap =
      Function.update t.handleMap slot (e.obj.map fun o => (o, (e.refCount : ℤ).toNat)) := by
  ext1 other
  by_cases hother : other = slot
  · subst hother
    simp [handleMap, setEntry, hlt]
  · simp [handleMap, setEntry, hother]

end Frame

structure Inv (t : ObjectTable α) : Prop where
  hint : t.tableCap = 0 ∨ 2 ≤ t.tableCap ∧ t.lastFreeEntry ≠ 0 ∧ t.lastFreeEntry < t.tableCap
  zero : t.handleMap 0 = none
  counted : ∀ slot < t.tableCap, (t.table slot).obj ≠ none → 1 ≤ ((t.table slot).refCount : ℤ)
  listed : ∀ slot o n, t.handleMap slot = some (o, n) → slot <<< 2 ∈ (t.objects o).handles

theorem Inv.init : Inv (ObjectTable.init α) where
  hint := .inl rfl
  zero := rfl
  counted _ hlt := absurd hlt (Nat.not_lt_zero _)
  listed _ _ _ h := by simp [handleMap, ObjectTable.init] at h

section Grow

variable {t t' : ObjectTable α} {granted ok : Bool} {newCap : ℕ}

theorem resize_granted (hfits : ¬newCap * entrySize % 2 ^ 32 < newCap * entrySize) :
    t.resize newCap true = some (true, { t with
      table := fun slot => if slot < t.tableCap then t.table slot else ⟨0, none⟩
      lastFreeEntry := t.tableCap
      tableCap := newCap }) := by
  rw [resize, if_neg hfits, if_pos rfl]

/-- **A larger table has every live entry at the same slot.** -/
theorem handleMap_resize (hcap : t.tableCap ≤ newCap)
    (h : t.resize newCap granted = some (ok, t')) : t'.handleMap = t.handleMap := by
  unfold resize at h
  split at h
  · cases h
  split at h
  · cases h
    ext1 slot
    by_cases hslot : slot < t.tableCap
    · simp [handleMap, hslot, Nat.lt_of_lt_of_le hslot hcap]
    · -- the new entries are zeroed
      simp only [handleMap, hslot, if_false]
      split <;> rfl
  · cases h
    rfl

/-- What `FindSlot` gives: the table as it was but for its size and hint, and a free slot. -/
structure Found (t : ObjectTable α) (granted : Bool) (slot : Option ℕ) (t' : ObjectTable α) : Prop where
  same : t'.handleMap = t.handleMap
  objects : t'.objects = t.objects
  reply : t'.reply = t.reply
  inv : Inv t'
  free : ∀ s, slot = some s → s ≠ 0 ∧ s < t'.tableCap ∧ t'.handleMap s = none
  noMemory : slot = none → granted = false

/-- **The search ends with a free slot**, unless there is no memory for one. -/
theorem findSlot_spec (granted : Bool) (hinv : Inv t)
    (hroom : t.scan t.tableCap 0 t.lastFreeEntry = none → t.tableCap < 2 ^ 27) :
    ∃ slot t', t.findSlot granted = some (slot, t') ∧ Found t granted slot t' := by
  unfold findSlot
  split
  next found hscan =>
    refine ⟨some found, t, rfl, rfl, rfl, rfl, hinv, fun s hs => ?_, nofun⟩
    obtain rfl := Option.some.inj hs
    obtain ⟨hcap, hne, hlt⟩ : 2 ≤ t.tableCap ∧ t.lastFreeEntry ≠ 0 ∧
        t.lastFreeEntry < t.tableCap := by
      rcases hinv.hint with hempty | hhint
      · rw [hempty] at hscan
        cases hscan
      · exact hhint
    obtain ⟨hfound, hfoundLt, hfree⟩ := scan_some hcap hne hlt hscan
    exact ⟨hfound, hfoundLt, by simp [handleMap, hfree]⟩
  next hscan =>
    have hsmall := hroom hscan
    have hgrows : t.tableCap + 2 ≤ max (16 * 1024) (t.tableCap * 2) := by
      have := hinv.hint
      omega
    have hfits : ¬max (16 * 1024) (t.tableCap * 2) * entrySize % 2 ^ 32 <
        max (16 * 1024) (t.tableCap * 2) * entrySize := by
      rw [entrySize]
      omega
    cases hgranted : granted
    · refine ⟨none, t, ?_, rfl, rfl, rfl, hinv, nofun, fun _ => rfl⟩
      have hrefused : t.resize (max (16 * 1024) (t.tableCap * 2)) false = some (false, t) := by
        rw [resize, if_neg hfits, if_neg Bool.false_ne_true]
      rw [hrefused]
    · have hresize := resize_granted (t := t) hfits
      have hsame := handleMap_resize (by omega) hresize
      rw [hresize]
      refine ⟨_, _, rfl, hsame, rfl, rfl, ⟨?_, ?_, ?_, ?_⟩, fun s hs => ?_, nofun⟩
      · exact .inr ⟨by show 2 ≤ max _ _; omega, Nat.succ_ne_zero _, by show t.tableCap + 1 < max _ _; omega⟩
      · exact (congrFun hsame 0).trans hinv.zero
      · intro slot hlt hobj
        by_cases hold : slot < t.tableCap
        · simp only [hold, if_true] at hobj ⊢
          exact hinv.counted slot hold hobj
        · simp only [hold, if_false] at hobj
          exact absurd rfl hobj
      · intro slot o n h
        exact hinv.listed slot o n ((congrFun hsame slot).symm.trans h)
      · obtain rfl := Option.some.inj hs
        refine ⟨Nat.succ_ne_zero _, by show t.tableCap + 1 < max _ _; omega, ?_⟩
        exact (congrFun hsame _).trans (if_neg (Nat.not_lt.mpr (Nat.le_succ _)))

end Grow

/-! ## The calls -/

section Calls

variable {t t' : ObjectTable α} {slot : ℕ} {e : Entry α}

theorem slotOf_handle (slot : ℕ) : slotOf (slot <<< 2) = slot := by
  rw [slotOf, Nat.shiftLeft_shiftRight]

theorem handleMap_of_table (hcap : t'.tableCap = t.tableCap) (hlt : slot < t.tableCap)
    (htable : t'.table = Function.update t.table slot e) : t'.handleMap =
      Function.update t.handleMap slot (e.obj.map fun o => (o, (e.refCount : ℤ).toNat)) := by
  rw [← handleMap_setEntry t hlt e]
  unfold handleMap
  rw [hcap, htable]
  rfl

theorem Inv.of_entry (hinv : Inv t) (hcap : t'.tableCap = t.tableCap)
    (hhint : t'.lastFreeEntry = t.lastFreeEntry) (hlt : slot < t.tableCap)
    (htable : t'.table = Function.update t.table slot e)
    (hzero : slot = 0 → e.obj = none) (hcount : e.obj ≠ none → 1 ≤ (e.refCount : ℤ))
    (hlist : ∀ o, e.obj = some o → slot <<< 2 ∈ (t'.objects o).handles)
    (hkeep : ∀ other o, other ≠ slot → other <<< 2 ∈ (t.objects o).handles →
      other <<< 2 ∈ (t'.objects o).handles) : Inv t' := by
  have hmap := handleMap_of_table hcap hlt htable
  refine ⟨by rw [hcap, hhint]; exact hinv.hint, ?_, fun other hother hobj => ?_,
    fun other o n h => ?_⟩
  · rw [hmap]
    by_cases hslot : slot = 0
    · subst hslot
      rw [Function.update_self, hzero rfl, Option.map_none]
    · rw [Function.update_of_ne (Ne.symm hslot)]
      exact hinv.zero
  · rw [hcap] at hother
    rw [htable] at hobj ⊢
    by_cases hslot : other = slot
    · subst hslot
      rw [Function.update_self] at hobj ⊢
      exact hcount hobj
    · rw [Function.update_of_ne hslot] at hobj ⊢
      exact hinv.counted other hother hobj
  · rw [hmap] at h
    by_cases hslot : other = slot
    · subst hslot
      rw [Function.update_self] at h
      obtain ⟨o', ho', hpair⟩ := Option.map_eq_some_iff.mp h
      cases hpair
      exact hlist o ho'
    · rw [Function.update_of_ne hslot] at h
      exact hkeep other o hslot (hinv.listed other o n h)

theorem Inv.of_same (hinv : Inv t) (hcap : t'.tableCap = t.tableCap)
    (hhint : t'.lastFreeEntry = t.lastFreeEntry) (htable : t'.table = t.table)
    (hobjects : ∀ o, (t'.objects o).handles = (t.objects o).handles) : Inv t' := by
  have hmap : t'.handleMap = t.handleMap := by
    unfold handleMap
    rw [hcap, htable]
  refine ⟨by rw [hcap, hhint]; exact hinv.hint, by rw [hmap]; exact hinv.zero, ?_, ?_⟩
  · rw [hcap, htable]
    exact hinv.counted
  · intro slot o n h
    rw [hobjects]
    exact hinv.listed slot o n (hmap ▸ h)

theorem handleMap_live {o : α} (hlt : slot < t.tableCap) (hobj : (t.table slot).obj = some o) :
    t.handleMap slot = some (o, ((t.table slot).refCount : ℤ).toNat) := by
  rw [handleMap, if_pos hlt, hobj, Option.map_some]

theorem handleMap_dead (hlt : slot < t.tableCap) (hobj : (t.table slot).obj = none) : t.handleMap slot = none := by
  rw [handleMap, if_pos hlt, hobj, Option.map_none]

theorem handleMap_out (hlt : ¬slot < t.tableCap) : t.handleMap slot = none := if_neg hlt

theorem Inv.entry_of_live (hinv : Inv t) {h : ℕ} (hlt : slotOf h < t.tableCap)
    (hlive : t.Live h) : ∃ o, (t.table (slotOf h)).obj = some o ∧ 1 ≤ ((t.table (slotOf h)).refCount : ℤ) := by
  cases hobj : (t.table (slotOf h)).obj with
  | none =>
    rw [Live, handleMap_dead hlt hobj] at hlive
    cases hlive
  | some o => exact ⟨o, rfl, hinv.counted _ hlt (by rw [hobj]; exact nofun)⟩

structure StepSound (t : ObjectTable α) (c : ObjectCall α) (t' : ObjectTable α) : Prop where
  refines : HandleMap.Step t.handleMap c t'.reply t'.handleMap
  fails : ∀ h, c = .keep h ∨ c = .release h ∨ c = .remove h → ¬t.Live h → t' = t.answer (.done false)

def Good (t : ObjectTable α) (c : ObjectCall α) : Prop :=
  ∃ t', t.step c = some t' ∧ Inv t' ∧ StepSound t c t'

theorem add_good (hinv : Inv t) {o : α} {granted : Bool} (hok : t.Careful (.add o granted)) :
    Good t (.add o granted) := by
  obtain ⟨found, u, hfind, hfound⟩ := findSlot_spec granted hinv hok
  cases found with
  | none =>
    refine ⟨u.answer (.handle none), by simp [step, add, hfind], ?_, ?_, ?_⟩
    · exact hfound.inv.of_same rfl rfl rfl fun _ => rfl
    · rw [handleMap_answer, hfound.same, hfound.noMemory rfl]
      exact .refused
    · rintro h (hc | hc | hc) <;> cases hc
  | some slot =>
    obtain ⟨hne, hlt, hfree⟩ := hfound.free slot rfl
    refine ⟨((u.setEntry slot ⟨1, some o⟩).setObject o fun s =>
      ⟨s.handles ++ [slot <<< 2], s.refCount + 1⟩).answer (.handle (some (slot <<< 2))),
      by rw [step, add, hfind]; rfl, ?_, ?_, ?_⟩
    · refine hfound.inv.of_entry ?_ ?_ hlt (e := ⟨1, some o⟩) ?_ ?_ ?_ ?_ ?_
      · rfl
      · rfl
      · rfl
      · exact fun h => absurd h hne
      · exact fun _ => Int.le_refl 1
      · rintro _ ⟨⟩
        simp [setObject, answer]
      · intro other o' _ hmem
        by_cases ho : o' = o
        · subst ho
          simp only [setObject, answer, setEntry, Function.update_self]
          exact List.mem_append_left _ hmem
        · simp only [setObject, answer, setEntry, Function.update_of_ne ho]
          exact hmem
    · rw [handleMap_answer, handleMap_setObject, handleMap_setEntry u hlt, hfound.same]
      exact .added hne (hfound.same ▸ hfree)
    · rintro h (hc | hc | hc) <;> cases hc

theorem get_good (hinv : Inv t) (h : ℕ) : Good t (.get h) := by
  refine ⟨t.get h, rfl, ?_, ?_, ?_⟩
  · unfold get
    split
    · split
      next o _ =>
        refine hinv.of_same rfl rfl rfl fun o' => ?_
        by_cases ho : o' = o
        · subst ho
          simp [setObject, answer]
        · simp [setObject, answer, ho]
      · exact hinv.of_same rfl rfl rfl fun _ => rfl
    · exact hinv.of_same rfl rfl rfl fun _ => rfl
  · have hgot : ∀ o u, o = (t.handleMap (slotOf h)).map Prod.fst → u = t.handleMap →
        HandleMap.Step t.handleMap (.get h) (.object o) u := by
      rintro _ _ rfl rfl
      exact .got
    unfold get
    split
    next hlt =>
      split
      next o hobj => exact hgot _ _ (by rw [handleMap_live hlt hobj]; rfl) rfl
      next hobj => exact hgot _ _ (by rw [handleMap_dead hlt hobj]; rfl) rfl
    next hlt => exact hgot _ _ (by rw [handleMap_out hlt]; rfl) rfl
  · rintro h' (hc | hc | hc) <;> cases hc

theorem keep_good (hinv : Inv t) {h : ℕ} (hok : t.Careful (.keep h)) : Good t (.keep h) := by
  by_cases hlt : slotOf h < t.tableCap
  · obtain ⟨hlive, hroom⟩ := hok hlt
    obtain ⟨o, hobj, hcount⟩ := hinv.entry_of_live hlt hlive
    have hfits : FitsInt (((t.table (slotOf h)).refCount : ℤ) + (1 : CInt)) := by
      rw [CInt.coe_one]
      exact ⟨by omega, by simp only [CInt.max] at hroom; omega⟩
    refine ⟨(t.setEntry (slotOf h) { t.table (slotOf h) with refCount := ⟨_, hfits⟩ }).answer
      (.done true), by simp only [step, keep, if_pos hlt, CInt.add?_of_fits hfits]; rfl,
      ?_, ?_, ?_⟩
    · refine hinv.of_entry ?_ ?_ hlt
        (e := { t.table (slotOf h) with refCount := ⟨_, hfits⟩ }) ?_ ?_ ?_ ?_ ?_
      · rfl
      · rfl
      · rfl
      · intro hzero
        rw [Live, hzero, hinv.zero] at hlive
        cases hlive
      · intro _
        show 1 ≤ ((t.table (slotOf h)).refCount : ℤ) + 1
        omega
      · intro o' ho'
        exact hinv.listed _ o' _ (handleMap_live hlt ho')
      · exact fun _ _ _ hmem => hmem
    · rw [handleMap_answer, handleMap_setEntry t hlt, hobj]
      have hplus : (((t.table (slotOf h)).refCount : ℤ) + (1 : CInt)).toNat =
          ((t.table (slotOf h)).refCount : ℤ).toNat + 1 := by
        rw [CInt.coe_one]
        omega
      show HandleMap.Step _ _ _ (Function.update _ _ (some (o, Int.toNat (_ + _))))
      rw [hplus]
      exact .kept (handleMap_live hlt hobj)
    · rintro h' (hc | hc | hc) hdead <;> cases hc
      exact absurd hlive hdead
  · refine ⟨t.answer (.done false), by simp only [step, keep, if_neg hlt], ?_, ?_, ?_⟩
    · exact hinv.of_same rfl rfl rfl fun _ => rfl
    · exact .noKeep (handleMap_out hlt)
    · rintro h' (hc | hc | hc) _ <;> cases hc
      rfl

theorem remove_spec (hinv : Inv t) {h : ℕ} {o : α} (hlt : slotOf h < t.tableCap)
    (hobj : (t.table (slotOf h)).obj = some o) : Inv (t.remove h) ∧ (t.remove h).reply = .done true ∧
      (t.remove h).handleMap = Function.update t.handleMap (slotOf h) none := by
  have hrun : t.remove h = ((t.setEntry (slotOf h) ⟨0, none⟩).setObject o fun s =>
      ⟨s.handles.erase h, s.refCount - 1⟩).answer (.done true) := by
    simp only [remove, if_pos hlt, hobj]
  rw [hrun]
  refine ⟨?_, rfl, ?_⟩
  · refine hinv.of_entry ?_ ?_ hlt (e := ⟨0, none⟩) ?_ ?_ ?_ ?_ ?_
    · rfl
    · rfl
    · rfl
    · exact fun _ => rfl
    · exact fun hne => absurd rfl hne
    · exact nofun
    · intro other o' hother hmem
      by_cases ho : o' = o
      · subst ho
        have hne : other <<< 2 ≠ h := fun heq => hother (by rw [← heq, slotOf_handle])
        simp only [setObject, answer, setEntry, Function.update_self]
        exact (List.mem_erase_of_ne hne).mpr hmem
      · simp only [setObject, answer, setEntry, Function.update_of_ne ho]
        exact hmem
  · rw [handleMap_answer, handleMap_setObject, handleMap_setEntry t hlt]
    rfl

theorem remove_dead {h : ℕ} (hdead : ¬t.Live h) : t.remove h = t.answer (.done false) := by
  by_cases hlt : slotOf h < t.tableCap
  · cases hobj : (t.table (slotOf h)).obj with
    | none => simp only [remove, if_pos hlt, hobj]
    | some o =>
      refine absurd ?_ hdead
      rw [Live, handleMap_live hlt hobj]
      rfl
  · simp only [remove, if_neg hlt]

theorem handleMap_of_not_live {h : ℕ} (hdead : ¬t.Live h) : t.handleMap (slotOf h) = none :=
  Option.not_isSome_iff_eq_none.mp hdead

theorem remove_good (hinv : Inv t) (h : ℕ) : Good t (.remove h) := by
  refine ⟨t.remove h, rfl, ?_⟩
  by_cases hlive : t.Live h
  · have hlt : slotOf h < t.tableCap := by
      by_contra hout
      rw [Live, handleMap_out hout] at hlive
      cases hlive
    obtain ⟨o, hobj, -⟩ := hinv.entry_of_live hlt hlive
    obtain ⟨hkeeps, hreply, hmap⟩ := remove_spec hinv hlt hobj
    refine ⟨hkeeps, ?_, ?_⟩
    · rw [hreply, hmap]
      exact .removed (handleMap_live hlt hobj)
    · rintro h' (hc | hc | hc) hdead <;> cases hc
      exact absurd hlive hdead
  · rw [remove_dead hlive]
    refine ⟨hinv.of_same rfl rfl rfl fun _ => rfl, .noRemove (handleMap_of_not_live hlive), ?_⟩
    rintro h' (hc | hc | hc) _ <;> cases hc
    rfl

theorem remove_setEntry {h : ℕ} {o : α} (hlt : slotOf h < t.tableCap)
    (hobj : (t.table (slotOf h)).obj = some o) (refs : CInt) :
    (t.setEntry (slotOf h) { t.table (slotOf h) with refCount := refs }).remove h =
      t.remove h := by
  simp only [remove, setEntry, Function.update_self, if_pos hlt, hobj, Function.update_idem]

theorem release_good (hinv : Inv t) {h : ℕ} (hok : t.Careful (.release h)) : Good t (.release h) := by
  by_cases hlt : slotOf h < t.tableCap
  · have hlive := hok hlt
    obtain ⟨o, hobj, hcount⟩ := hinv.entry_of_live hlt hlive
    have hrange := (t.table (slotOf h)).refCount.2
    have hfits : FitsInt (((t.table (slotOf h)).refCount : ℤ) - (1 : CInt)) := by
      rw [CInt.coe_one]
      unfold FitsInt at hrange ⊢
      omega
    let e : Entry α := { t.table (slotOf h) with refCount := ⟨_, hfits⟩ }
    have hrun : t.step (.release h) = some (if e.refCount = 0 then
        (t.setEntry (slotOf h) e).remove h
        else (t.setEntry (slotOf h) e).answer (.done true)) := by
      simp only [step, release, if_pos hlt, CInt.sub?_of_fits hfits]
      rfl
    have hfails : ∀ t', ∀ h', ObjectCall.release (α := α) h = .keep h' ∨
        ObjectCall.release (α := α) h = .release h' ∨ ObjectCall.release (α := α) h = .remove h' →
          ¬t.Live h' → t' = t.answer (.done false) := by
      rintro t' h' (hc | hc | hc) hdead <;> cases hc
      exact absurd hlive hdead
    have hzero : slotOf h ≠ 0 := fun hzero => by
      rw [Live, hzero, hinv.zero] at hlive
      cases hlive
    by_cases hlast : ((t.table (slotOf h)).refCount : ℤ) = 1
    · -- the last reference: the object goes
      have he : e.refCount = 0 := by
        apply Subtype.ext
        show ((t.table (slotOf h)).refCount : ℤ) - 1 = 0
        omega
      obtain ⟨hkeeps, hreply, hmap⟩ := remove_spec hinv hlt hobj
      refine ⟨t.remove h, ?_, hkeeps, ?_, hfails _⟩
      · rw [hrun, if_pos he, remove_setEntry hlt hobj]
      · rw [hreply, hmap]
        apply HandleMap.Step.releasedLast (o := o)
        rw [handleMap_live hlt hobj, hlast]
        rfl
    · have he : e.refCount ≠ 0 := fun he => hlast (by
        have hval : ((t.table (slotOf h)).refCount : ℤ) - 1 = 0 := congrArg Subtype.val he
        omega)
      refine ⟨(t.setEntry (slotOf h) e).answer (.done true), by rw [hrun, if_neg he], ?_, ?_,
        hfails _⟩
      · refine hinv.of_entry ?_ ?_ hlt (e := e) ?_ ?_ ?_ ?_ ?_
        · rfl
        · rfl
        · rfl
        · exact fun h => absurd h hzero
        · intro _
          show 1 ≤ ((t.table (slotOf h)).refCount : ℤ) - 1
          omega
        · intro o' ho'
          exact hinv.listed _ o' _ (handleMap_live hlt ho')
        · exact fun _ _ _ hmem => hmem
      · rw [handleMap_answer, handleMap_setEntry t hlt]
        obtain ⟨n, hn⟩ : ∃ n : ℕ, ((t.table (slotOf h)).refCount : ℤ) = (n + 2 : ℕ) :=
          ⟨((t.table (slotOf h)).refCount : ℤ).toNat - 2, by omega⟩
        have hminus : Int.toNat (((t.table (slotOf h)).refCount : ℤ) - 1) = n + 1 := by
          rw [hn]
          omega
        show HandleMap.Step _ _ _ (Function.update _ _
          ((t.table (slotOf h)).obj.map fun o => (o, Int.toNat (_ - 1))))
        rw [hminus, hobj]
        apply HandleMap.Step.released
        rw [handleMap_live hlt hobj, hn]
        rfl
  · refine ⟨t.answer (.done false), by simp only [step, release, if_neg hlt], ?_, ?_, ?_⟩
    · exact hinv.of_same rfl rfl rfl fun _ => rfl
    · exact .noRelease (handleMap_out hlt)
    · rintro h' (hc | hc | hc) _ <;> cases hc
      rfl

theorem step_good (hinv : Inv t) {c : ObjectCall α} (hok : t.Careful c) : Good t c := by
  cases c with
  | add o granted => exact add_good hinv hok
  | get h => exact get_good hinv h
  | keep h => exact keep_good hinv hok
  | release h => exact release_good hinv hok
  | remove h => exact remove_good hinv h

end Calls

/-! ## The promise -/

structure Sound (t : ObjectTable α) : Prop where
  zero : ¬t.Live 0
  listed : ∀ slot o n, t.handleMap slot = some (o, n) → slot <<< 2 ∈ (t.objects o).handles
  ends : ∀ extra, t.scan (t.tableCap + extra) 0 t.lastFreeEntry = t.scan t.tableCap 0 t.lastFreeEntry
  found : ∀ granted slot t', t.findSlot granted = some (some slot, t') →
    slot ≠ 0 ∧ slot < t'.tableCap ∧ t'.handleMap slot = none ∧ t'.handleMap = t.handleMap

theorem Inv.sound {t : ObjectTable α} (hinv : Inv t) : Sound t where
  zero hlive := by
    rw [Live, show slotOf 0 = 0 from rfl, hinv.zero] at hlive
    cases hlive
  listed := hinv.listed
  ends := scan_add
  found granted slot t' h := by
    by_cases hroom : t.scan t.tableCap 0 t.lastFreeEntry = none → t.tableCap < 2 ^ 27
    · obtain ⟨found, u, hfind, hfound⟩ := findSlot_spec granted hinv hroom
      obtain ⟨rfl, rfl⟩ := Prod.mk.inj (Option.some.inj (hfind.symm.trans h))
      obtain ⟨hne, hlt, hfree⟩ := hfound.free slot rfl
      exact ⟨hne, hlt, hfree, hfound.same⟩
    · -- the size of a table twice as large would wrap
      obtain ⟨hscan, hbig⟩ := Classical.not_imp.mp hroom
      have hwraps : max (16 * 1024) (t.tableCap * 2) * entrySize % 2 ^ 32 <
          max (16 * 1024) (t.tableCap * 2) * entrySize := by
        rw [entrySize]
        omega
      rw [findSlot, hscan] at h
      simp only [resize, if_pos hwraps] at h
      cases h

/-- **A run of careful calls is a run of the map.** -/
theorem refines_of_careful {ls : List (ObjectCall α)} (h : (system α).Meets Careful (ObjectTable.init α) ls) :
    (∃ t, (system α).exec (ObjectTable.init α) ls = some t) ∧ (system α).Always Sound (ObjectTable.init α) ls ∧
      (system α).EveryStep StepSound (ObjectTable.init α) ls := by
  have hstep : ∀ t c t', Inv t → Careful t c → (system α).step t c = some t' → Inv t' := by
    intro t c t' hinv hok hs
    obtain ⟨u, hu, hkeeps, -⟩ := step_good hinv hok
    rwa [← Option.some.inj (hu.symm.trans hs)]
  refine ⟨?_, ?_, ?_⟩
  · apply (system α).exec_of_progress _ Inv.init h
    intro t c hinv hok
    obtain ⟨u, hu, hkeeps, -⟩ := step_good hinv hok
    exact ⟨u, hu, hkeeps⟩
  · exact (system α).always_of_invariant hstep (fun t hinv => hinv.sound) Inv.init h
  · refine (system α).everyStep_of_invariant hstep ?_ Inv.init h
    intro t c t' hinv hok hs
    obtain ⟨u, hu, -, hsound⟩ := step_good hinv hok
    rwa [← Option.some.inj (hu.symm.trans hs)]

def keptOnce : List (ObjectCall ℕ) :=
  [.add 7 true, .keep 4, .release 4, .get 4, .release 4, .get 4, .remove 4, .add 8 true]

theorem refines_keptOnce : (∃ t, (system ℕ).exec (ObjectTable.init ℕ) keptOnce = some t) ∧
      (system ℕ).Always Sound (ObjectTable.init ℕ) keptOnce ∧
      (system ℕ).EveryStep StepSound (ObjectTable.init ℕ) keptOnce :=
  refines_of_careful (by decide)

/-- **A free slot answers to its handle.** After the only object is removed, `Keep` of its handle
succeeds, and leaves a reference behind in the free slot. -/
theorem keep_after_remove : ¬((∃ t, (system ℕ).exec (ObjectTable.init ℕ) [.add 7 true, .remove 4, .keep 4] = some t) ∧
      (system ℕ).Always Sound (ObjectTable.init ℕ) [.add 7 true, .remove 4, .keep 4] ∧
      (system ℕ).EveryStep StepSound (ObjectTable.init ℕ) [.add 7 true, .remove 4, .keep 4]) := by
  rintro ⟨-, -, h⟩
  obtain ⟨-, h⟩ := h _ rfl
  obtain ⟨-, h⟩ := h _ rfl
  obtain ⟨h, -⟩ := h _ rfl
  have hreply := congrArg ObjectTable.reply (h.fails 4 (.inl rfl) (by decide))
  exact absurd hreply (by decide)

end ObjectTable

end Prosperity.Kern
