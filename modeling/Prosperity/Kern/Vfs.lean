import Prosperity.Foundations.LastMax

/-!
# Mounts

The mount table of the virtual file system, and the functions that look a guest path up in it. A
path is the characters of a C string.
-/

namespace Prosperity.Kern.Vfs

universe u

abbrev Path := List Char

/-- `MountPoint`; a virtual mount has a provider. -/
structure MountPoint (π : Type u) where
  guest : Path
  host : Path
  provider : Option π
  writable : Bool
  saveQuota : Bool
  deriving DecidableEq

variable {π : Type u}

/-! ## The table -/

inductive MountCall (π : Type u) where
  | mount (guest host : Path) (saveQuota : Bool)
  | mountWritable (guest host : Path) (saveQuota : Bool)
  | mountVirtual (guest : Path) (provider : π)
  | unmount (guest : Path)

/-- `Unmount`, whose loop runs from the newest mount on. -/
def unmount (mounts : List (MountPoint π)) (guest : Path) : List (MountPoint π) :=
  (mounts.reverse.eraseP fun m => m.guest = guest).reverse

def MountCall.added : MountCall π → Option (MountPoint π)
  | .mount guest host saveQuota => some ⟨guest, host, none, false, saveQuota⟩
  | .mountWritable guest host saveQuota => some ⟨guest, host, none, true, saveQuota⟩
  | .mountVirtual guest provider => some ⟨guest, [], some provider, false, false⟩
  | .unmount _ => none

def MountCall.run (mounts : List (MountPoint π)) : MountCall π → List (MountPoint π)
  | .unmount guest => Vfs.unmount mounts guest
  | c => mounts ++ c.added.toList

def mountsAfter (calls : List (MountCall π)) : List (MountPoint π) :=
  calls.foldl MountCall.run []

/-! ## Lookups -/

def normalizePath (path relPrefix : Path) : Path :=
  (if path.head? ≠ some '/' then relPrefix else []) ++
    path.map fun c => if c = '\\' then '/' else c

/-- The loop of `FindMount`: the best mount so far and the length of its guest path. -/
def findMountLoop (path : Path) (hostOnly : Bool) :
    List (MountPoint π) → Option (MountPoint π) → ℕ → Option (MountPoint π) × ℕ
  | [], best, bestLen => (best, bestLen)
  | m :: mounts, best, bestLen =>
    if hostOnly && m.provider.isSome then findMountLoop path hostOnly mounts best bestLen
    else
      let len := m.guest.length
      -- `strncmp(path, m.guest, len) == 0`
      if m.guest.isPrefixOf path && len ≥ bestLen then
        findMountLoop path hostOnly mounts (some m) len
      else findMountLoop path hostOnly mounts best bestLen

def findMount (mounts : List (MountPoint π)) (path : Path) (hostOnly : Bool) : Option (MountPoint π × ℕ) :=
  match findMountLoop path hostOnly mounts none 0 with
  | (some m, len) => some (m, len)
  | (none, _) => none

/-- The functions that look a path up. -/
inductive Lookup where
  /-- `Resolve`. -/
  | resolve
  /-- `OpenRead`, `Stat` and `ListDir`. -/
  | read
  /-- `ResolveWritable` and `SaveQuotaRoot`. -/
  | write
  deriving DecidableEq

/-- Whether virtual mounts are left out. -/
def Lookup.hostOnly : Lookup → Bool
  | .resolve => true
  | .read | .write => false

def Lookup.path : Lookup → Path → Path
  | .resolve, path => path
  | .read, path => normalizePath path "/app0/".toList
  | .write, path => normalizePath path "/download0/".toList

/-- The mount of a path, and `path + len`. -/
def locate (mounts : List (MountPoint π)) (l : Lookup) (path : Path) : Option (MountPoint π × Path) :=
  (findMount mounts (l.path path) l.hostOnly).map fun (m, len) => (m, (l.path path).drop len)

/-! ## By whole components -/

/-- `guest` is a prefix of `path` that ends where a component ends. -/
def componentPrefix (guest path : Path) : Bool :=
  guest.isPrefixOf path && (guest.getLast? = some '/' || (path.drop guest.length).head? = none ||
      (path.drop guest.length).head? = some '/')

def eligible (l : Lookup) (m : MountPoint π) : Bool := !(l.hostOnly && m.provider.isSome)

def specLocate (mounts : List (MountPoint π)) (l : Lookup) (path : Path) : Option (MountPoint π × Path) :=
  (lastMax (fun m => eligible l m && componentPrefix m.guest (l.path path))
    (fun m => m.guest.length) mounts).map fun m => (m, (l.path path).drop m.guest.length)

structure Resolves (mounts : List (MountPoint π)) (l : Lookup) (path : Path) : Prop where
  located : locate mounts l path = specLocate mounts l path
  restored : ∀ (c : MountCall π) (m : MountPoint π), c.added = some m →
    ∀ l' path', locate (unmount (c.run mounts) m.guest) l' path' = locate mounts l' path'

def WholeFirst (mounts : List (MountPoint π)) (l : Lookup) (path : Path) : Prop :=
  ∀ m ∈ mounts, eligible l m = true → m.guest.isPrefixOf (l.path path) = true →
    componentPrefix m.guest (l.path path) = false →
    ∃ m' ∈ mounts, eligible l m' = true ∧ componentPrefix m'.guest (l.path path) = true ∧
      m.guest.length < m'.guest.length

instance (mounts : List (MountPoint π)) (l : Lookup) (path : Path) : Decidable (WholeFirst mounts l path) :=
  inferInstanceAs (Decidable (∀ m ∈ mounts, _ → _ → _ → ∃ m' ∈ mounts, _))

/-! ## Results -/

/-- **Unmounting the newest mount undoes it.** -/
theorem unmount_mount (mounts : List (MountPoint π)) {c : MountCall π} {m : MountPoint π}
    (h : c.added = some m) : unmount (c.run mounts) m.guest = mounts := by
  have hrun : c.run mounts = mounts ++ [m] := by
    cases c with
    | unmount guest => cases h
    | _ =>
      obtain rfl := Option.some.inj h
      rfl
  rw [hrun, unmount, List.reverse_append, List.reverse_singleton, List.singleton_append,
    List.eraseP_cons_of_pos (by simp), List.reverse_reverse]

theorem findMountLoop_eq (l : Lookup) (path : Path) (mounts : List (MountPoint π)) (best : Option (MountPoint π)) :
    findMountLoop path l.hostOnly mounts best (best.elim 0 fun m => m.guest.length) =
      let found := mounts.foldl (lastMaxTurn (fun m => eligible l m && m.guest.isPrefixOf path)
        fun m => m.guest.length) best
      (found, found.elim 0 fun m => m.guest.length) := by
  induction mounts generalizing best with
  | nil => rfl
  | cons m mounts ih =>
    rw [findMountLoop, List.foldl_cons]
    by_cases hout : (l.hostOnly && m.provider.isSome) = true
    · have hturn : lastMaxTurn (fun m => eligible l m && m.guest.isPrefixOf path)
          (fun m => m.guest.length) best m = best := by
        rw [lastMaxTurn, eligible, hout]
        rfl
      rw [if_pos hout, ih, hturn]
    · have hin : eligible l m = true := by
        rw [eligible, Bool.eq_false_iff.mpr hout]
        rfl
      rw [if_neg hout]
      dsimp only
      rw [lastMaxTurn, hin, Bool.true_and]
      split
      · exact ih (some m)
      · exact ih best

theorem findMount_eq (mounts : List (MountPoint π)) (l : Lookup) (path : Path) : findMount mounts path l.hostOnly =
      (lastMax (fun m => eligible l m && m.guest.isPrefixOf path) (fun m => m.guest.length)
        mounts).map fun m => (m, m.guest.length) := by
  have hloop := findMountLoop_eq l path mounts none
  simp only [Option.elim_none] at hloop
  rw [findMount, hloop, lastMax]
  cases mounts.foldl (lastMaxTurn _ _) none <;> rfl

theorem componentPrefix_isPrefixOf {guest path : Path} (h : componentPrefix guest path = true) :
    guest.isPrefixOf path = true := (Bool.and_eq_true_iff.mp h).1

theorem eq_of_isPrefixOf {g g' path : Path} (h : g.isPrefixOf path = true)
    (h' : g'.isPrefixOf path = true) (hlen : g.length = g'.length) : g = g' := by
  rw [List.isPrefixOf_iff_prefix] at h h'
  exact (List.prefix_of_prefix_length_le h h' (Nat.le_of_eq hlen)).eq_of_length hlen

end Prosperity.Kern.Vfs
