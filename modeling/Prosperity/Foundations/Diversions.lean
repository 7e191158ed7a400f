import Mathlib.Logic.Function.Basic
import Mathlib.Tactic.SplitIfs

/-!
# Tables with diverted entries

An entry of a table can be diverted: the table then holds another value at it, and the value that it goes back
to is kept aside. What the users of the table count on is the home of each entry, the value it has while it is
not diverted; of the home a diversion changes nothing.
-/

namespace Prosperity

structure Diversions (ι α : Type*) where
  table : ι → α
  saved : ι → α
  diverted : ι → Bool

namespace Diversions

variable {ι α : Type*} [DecidableEq ι] (d : Diversions ι α) (i j : ι) (v w : α)

def home (i : ι) : α := if d.diverted i then d.saved i else d.table i

/-- A new home for the entry: a diverted one stays so. -/
def store : Diversions ι α :=
  if d.diverted i then { d with saved := Function.update d.saved i v }
  else { d with table := Function.update d.table i v }

/-- The entry shows `w` from now on. An entry that was not diverted gets the home `v`. -/
def divert : Diversions ι α :=
  { table := Function.update d.table i w
    saved := if d.diverted i then d.saved else Function.update d.saved i v
    diverted := Function.update d.diverted i true }

/-- A diverted entry goes back. -/
def restore : Diversions ι α :=
  if d.diverted i then
    { d with table := Function.update d.table i (d.saved i), diverted := Function.update d.diverted i false }
  else d

omit [DecidableEq ι] in
theorem table_of_not_diverted {i : ι} (h : d.diverted i = false) : d.table i = d.home i := by
  simp [home, h]

@[simp]
theorem diverted_store : (d.store i v).diverted = d.diverted := by
  unfold store
  split_ifs <;> rfl

@[simp]
theorem diverted_divert : (d.divert i v w).diverted = Function.update d.diverted i true := rfl

theorem home_store : (d.store i v).home = Function.update d.home i v := by
  funext j
  by_cases hij : j = i
  · subst hij
    cases h : d.diverted j <;> simp [home, store, h]
  · cases h : d.diverted i <;> simp [home, store, h, hij]

theorem home_divert : (d.divert i v w).home = if d.diverted i then d.home else Function.update d.home i v := by
  funext j
  by_cases hij : j = i
  · subst hij
    cases h : d.diverted j <;> simp [home, divert, h]
  · cases h : d.diverted i <;> simp [home, divert, h, hij]

@[simp]
theorem home_restore : (d.restore i).home = d.home := by
  funext j
  by_cases hij : j = i
  · subst hij
    cases h : d.diverted j <;> simp [home, restore, h]
  · cases h : d.diverted i <;> simp [home, restore, h, hij]

theorem table_restore : (d.restore i).table i = d.home i := by
  cases h : d.diverted i <;> simp [home, restore, h]

theorem diverted_restore : (d.restore i).diverted = Function.update d.diverted i false := by
  funext j
  by_cases hij : j = i
  · subst hij
    cases h : d.diverted j <;> simp [restore, h]
  · cases h : d.diverted i <;> simp [restore, h, hij]

end Diversions

end Prosperity
