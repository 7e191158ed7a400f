import Prosperity.Kern.SaveTrees

/-!
# Copies and removals of a save are atomic

Before the first rename that takes a tree from its name only a staging name has changed. The rename
that puts the new tree in its place is the step that decides; one that fails is rolled back, and
what is left to remove afterwards stands under a staging name.
-/

namespace Prosperity.Kern.SaveTrees

theorem of_bind_ok {α β : Type} {x : Except SaveError α} {f : α → Except SaveError β} {b : β}
    (h : (x >>= f) = .ok b) : ∃ a, x = .ok a ∧ f a = .ok b := by
  cases x with
  | error e => cases h
  | ok a => exact ⟨a, rfl, h⟩

theorem of_failIf_ok {condition : Bool} {e : SaveError} {u : Unit} (h : failIf condition e = .ok u) :
    condition = false := by
  cases condition
  · rfl
  · cases h

namespace Disk

section Checks

variable {h : Host} {d : Disk}

theorem of_symlinkStatus_ok {site : HostCall} {path : String} {onError : Fault → SaveError}
    {status : Option Node} (hok : symlinkStatus h d site path onError = .ok status) : status = d path := by
  obtain ⟨_, -, hret⟩ := of_bind_ok hok
  exact (Except.ok.inj hret).symm

theorem of_checkFree_ok {onError : Fault → SaveError} {paths : List String} {u : Unit}
    (hok : checkFree h d onError paths = .ok u) : ∀ path ∈ paths, d path = none := by
  induction paths with
  | nil => simp
  | cons path rest ih =>
    obtain ⟨status, hstatus, hok⟩ := of_bind_ok hok
    obtain ⟨_, hfree, hok⟩ := of_bind_ok hok
    rw [of_symlinkStatus_ok hstatus] at hfree
    refine List.forall_mem_cons.mpr ⟨?_, ih hok⟩
    simpa using of_failIf_ok hfree

theorem of_validateSave_ok {root : String} {u : Unit} (hok : validateSave h d root = .ok u) :
    ∃ node, d root = some node := by
  obtain ⟨status, hstatus, hok⟩ := of_bind_ok hok
  rw [← of_symlinkStatus_ok hstatus]
  cases status with
  | none => cases hok
  | some node => exact ⟨node, rfl⟩

theorem of_copyChecks_ok {source destination : String} {old : Bool}
    (hok : copyChecks h d source destination = .ok old) :
    (∃ node, d source = some node) ∧ d (destination ++ ".old") = none ∧ old = (d destination).isSome := by
  obtain ⟨_, hvalid, hok⟩ := of_bind_ok hok
  obtain ⟨_, -, hok⟩ := of_bind_ok hok
  obtain ⟨_, -, hok⟩ := of_bind_ok hok
  obtain ⟨_, -, hok⟩ := of_bind_ok hok
  obtain ⟨_, hfree, hok⟩ := of_bind_ok hok
  obtain ⟨status, hstatus, hok⟩ := of_bind_ok hok
  have hnone := of_checkFree_ok hfree
  refine ⟨of_validateSave_ok hvalid, hnone _ (by simp), ?_⟩
  rw [← of_symlinkStatus_ok hstatus]
  split at hok
  · obtain ⟨_, -, hok⟩ := of_bind_ok hok
    exact (Except.ok.inj hok).symm
  · exact (Except.ok.inj hok).symm

theorem of_removeChecks_ok {hasBackup : Bool} (hok : removeChecks h d = .ok hasBackup) : (∃ node, d "" = some node) ∧
      (∀ path ∈ [".delete", ".tmp", ".old", ".backup.tmp", ".backup.old"], d path = none) ∧
      hasBackup = (d ".backup").isSome := by
  obtain ⟨status, hstatus, hok⟩ := of_bind_ok hok
  rw [← of_symlinkStatus_ok hstatus]
  cases status with
  | none => cases hok
  | some node =>
    obtain ⟨_, -, hok⟩ := of_bind_ok hok
    obtain ⟨_, -, hok⟩ := of_bind_ok hok
    obtain ⟨_, -, hok⟩ := of_bind_ok hok
    obtain ⟨_, hfree, hok⟩ := of_bind_ok hok
    obtain ⟨backup, hbackup, hok⟩ := of_bind_ok hok
    refine ⟨⟨node, rfl⟩, of_checkFree_ok hfree, ?_⟩
    rw [← of_symlinkStatus_ok hbackup]
    cases backup with
    | none => exact (Except.ok.inj hok).symm
    | some node =>
      obtain ⟨_, -, hok⟩ := of_bind_ok hok
      obtain ⟨_, -, hok⟩ := of_bind_ok hok
      obtain ⟨_, -, hok⟩ := of_bind_ok hok
      exact (Except.ok.inj hok).symm

end Checks

section Steps

variable {h : Host} {d : Disk} {source target : String}

theorem rename_of_fails {fault : Fault} (hf : h.fails (.rename source target) = some fault) :
    rename h d source target = (d, some fault) := by
  rw [rename, hf]

theorem rename_of_free {node : Node} (hf : h.fails (.rename source target) = none)
    (hs : d source = some node) (ht : d target = none) : rename h d source target =
      (Function.update (Function.update d source none) target (some node), none) := by
  rw [rename, hf]
  simp only [hs, ht]

theorem rename_of_none (hs : d source = none) : (rename h d source target).1 = d := by
  rw [rename]
  cases h.fails (.rename source target)
  · simp only [hs]
  · rfl

theorem removeAll_of_ne {path p : String} (hp : p ≠ path) : removeAll h d path p = d p := by
  rw [removeAll]
  cases h.fails (.removeAll path) <;> exact Function.update_of_ne hp _ _

theorem removeAll_self (path : String) : removeAll h d path path = none ∨ h.fails (.removeAll path) ≠ none := by
  rw [removeAll]
  cases h.fails (.removeAll path) with
  | none => exact .inl (Function.update_self ..)
  | some _ => exact .inr nofun

end Steps

section Copy

variable {h : Host} {d : Disk} {source destination : String}

/-- What holds after `CopySave`, whatever failed. -/
structure Copied (h : Host) (d : Disk) (source destination : String) (r : Disk × Option SaveError) : Prop where
  kept : r.1 source = d source
  failed : r.2 ≠ none → r.1 destination = d destination
  done : r.2 = none → r.1 destination = d source ∧ r.1 (destination ++ ".tmp") = none ∧
    (r.1 (destination ++ ".old") = none ∨ h.fails (.removeAll (destination ++ ".old")) ≠ none)
  other : ∀ p, p ≠ destination → p ≠ destination ++ ".tmp" → p ≠ destination ++ ".old" → r.1 p = d p

/-- The names that `CopySave` uses differ. -/
structure Apart (source destination : String) : Prop where
  ne : source ≠ destination
  source_tmp : source ≠ destination ++ ".tmp"
  source_old : source ≠ destination ++ ".old"
  tmp : destination ≠ destination ++ ".tmp"
  old : destination ≠ destination ++ ".old"
  tmp_old : destination ++ ".tmp" ≠ destination ++ ".old"

theorem copy_abandoned (hn : Apart source destination) (hold : d (destination ++ ".old") = none)
    (x : Option Node) (fault : Fault) : Copied h d source destination
      (removeAll h (if (d destination).isSome && !exists_ h (Function.update d (destination ++ ".tmp") x) destination then
        (rename h (Function.update d (destination ++ ".tmp") x) (destination ++ ".old") destination).1
        else Function.update d (destination ++ ".tmp") x) (destination ++ ".tmp"), some (storageError fault)) := by
  have hnone : Function.update d (destination ++ ".tmp") x (destination ++ ".old") = none := by
    rw [Function.update_of_ne hn.tmp_old.symm, hold]
  rw [rename_of_none hnone, ite_self]
  refine ⟨?_, fun _ => ?_, nofun, fun p hp hp' _ => ?_⟩
  · exact (removeAll_of_ne hn.source_tmp).trans (Function.update_of_ne hn.source_tmp _ _)
  · exact (removeAll_of_ne hn.tmp).trans (Function.update_of_ne hn.tmp _ _)
  · exact (removeAll_of_ne hp').trans (Function.update_of_ne hp' _ _)

theorem copyTree_spec (hn : Apart source destination) {node : Node} (hs : d source = some node)
    (hold : d (destination ++ ".old") = none) (hback : h.fails (.rename (destination ++ ".old") destination) = none) :
    Copied h d source destination (copyTree h d source destination (d destination).isSome) := by
  have hearly := fun x fault => copy_abandoned (h := h) hn hold x fault
  obtain ⟨hne, hst, hso, hdt, hdo, hto⟩ := hn
  generalize hstaging : destination ++ ".tmp" = staging at *
  generalize hprevious : destination ++ ".old" = previous at *
  unfold copyTree copy
  simp only [hstaging, hprevious]
  cases hcopy : h.fails (.copy source staging) with
  | some fault => exact hearly _ fault
  | none =>
    rw [hs]
    have hfree : Function.update d staging (some node) previous = none := by
      rw [Function.update_of_ne hto.symm, hold]
    cases hd : d destination with
    | none =>
      -- there is nothing to put aside
      have hdest : Function.update d staging (some node) destination = none := by
        rw [Function.update_of_ne hdt, hd]
      rw [hd] at hearly
      simp only [Option.isNone_none, Option.isSome_none, Bool.and_false, Bool.false_eq_true, ↓reduceIte]
      cases hin : h.fails (.rename staging destination) with
      | some fault =>
        rw [rename_of_fails hin]
        exact hearly _ fault
      | none =>
        rw [rename_of_free hin (Function.update_self ..) hdest]
        refine ⟨?_, fun hr => absurd rfl hr, fun _ => ⟨?_, ?_, .inl ?_⟩, fun p hp hp' hp'' => ?_⟩ <;> grind
    | some old =>
      have hdest : Function.update d staging (some node) destination = some old := by
        rw [Function.update_of_ne hdt, hd]
      rw [hd] at hearly
      simp only [Option.isNone_none, Option.isSome_some, Bool.and_self, ↓reduceIte]
      cases haside : h.fails (.rename destination previous) with
      | some fault =>
        rw [rename_of_fails haside]
        exact hearly _ fault
      | none =>
        rw [rename_of_free haside hdest hfree]
        simp only [Option.isNone_none, ↓reduceIte]
        -- the destination stands under `previous` until the new tree takes its name
        generalize hd₂ : Function.update (Function.update (Function.update d staging (some node))
          destination none) previous (some old) = d₂
        have hstaged : d₂ staging = some node := by
          rw [← hd₂]
          grind
        have hgone : d₂ destination = none := by
          rw [← hd₂]
          grind
        have hput : d₂ previous = some old := by
          rw [← hd₂]
          grind
        have hkept : d₂ source = some node := by
          rw [← hd₂]
          grind
        have hother : ∀ p, p ≠ destination → p ≠ staging → p ≠ previous → d₂ p = d p := by
          rw [← hd₂]
          grind
        cases hin : h.fails (.rename staging destination) with
        | some fault =>
          -- the destination was put aside and comes back
          rw [rename_of_fails hin]
          have hexists : exists_ h d₂ destination = false := by
            rw [exists_, hgone]
            exact Bool.and_false _
          simp only [hexists, Bool.not_false, Bool.and_self, ↓reduceIte, rename_of_free hback hput hgone]
          refine ⟨?_, fun _ => ?_, nofun, fun p hp hp' hp'' => ?_⟩
          · exact (removeAll_of_ne hst).trans (by grind)
          · exact (removeAll_of_ne hdt).trans (by grind)
          · rw [hstaging] at hp'
            exact (removeAll_of_ne hp').trans (by grind)
        | none =>
          rw [rename_of_free hin hstaged hgone]
          dsimp only
          refine ⟨?_, fun hr => absurd rfl hr, fun _ => ⟨?_, ?_, ?_⟩, fun p hp hp' hp'' => ?_⟩
          · exact (removeAll_of_ne hso).trans (by grind)
          · exact (removeAll_of_ne hdo).trans (by grind)
          · rw [hstaging]
            exact (removeAll_of_ne hto).trans (by grind)
          · rw [hprevious]
            exact removeAll_self previous
          · rw [hprevious] at hp''
            exact (removeAll_of_ne hp'').trans (by grind)

theorem copySave_spec (hn : Apart source destination)
    (hback : h.fails (.rename (destination ++ ".old") destination) = none) :
    Copied h d source destination (copySave h d source destination) := by
  unfold copySave
  cases hchecks : copyChecks h d source destination with
  | error e => exact ⟨rfl, fun _ => rfl, nofun, fun _ _ _ _ => rfl⟩
  | ok old =>
    obtain ⟨⟨node, hs⟩, hold, rfl⟩ := of_copyChecks_ok hchecks
    exact copyTree_spec hn hs hold hback

end Copy

section Remove

variable {h : Host} {d : Disk}

theorem remove_of_ne {path p : String} (hp : p ≠ path) : remove h d path p = d p := by
  rw [remove]
  cases h.fails (.remove path) with
  | some _ => rfl
  | none =>
    cases d path with
    | none => exact Function.update_of_ne hp _ _
    | some node =>
      cases node with
      | directory entries =>
        cases entries with
        | nil => exact Function.update_of_ne hp _ _
        | cons _ _ => rfl
      | _ => exact Function.update_of_ne hp _ _

/-- What holds after `RemoveSave`, whatever failed. -/
structure Removed (h : Host) (d : Disk) (r : Disk × Option SaveError) : Prop where
  failed : r.2 ≠ none → r.1 "" = d "" ∧ r.1 ".backup" = d ".backup"
  done : r.2 = none → r.1 "" = none ∧ r.1 ".backup" = none ∧
    (r.1 ".delete" = none ∨ h.fails (.removeAll ".delete") ≠ none)
  other : ∀ p, p ≠ "" → p ≠ ".backup" → p ≠ ".delete" → r.1 p = d p

theorem retire_spec {node : Node} (hs : d "" = some node) (hfree : d ".delete" = none)
    (hback : h.fails (.rename ".delete/save" "") = none) : Removed h d (retire h d (d ".backup").isSome) := by
  unfold retire createDirectory
  cases hcreate : h.fails (.createDirectory ".delete") with
  | some fault => exact ⟨fun _ => ⟨rfl, rfl⟩, nofun, fun _ _ _ _ => rfl⟩
  | none =>
    simp only [hfree, Option.isSome_none, Bool.false_eq_true, ↓reduceIte]
    generalize hd₁ : Function.update d ".delete" (some (.directory [])) = d₁
    have hempty : d₁ ".delete" = some (.directory []) := by
      rw [← hd₁]
      exact Function.update_self ..
    have hkept : ∀ p, p ≠ ".delete" → d₁ p = d p := by
      rw [← hd₁]
      exact fun p hp => Function.update_of_ne hp _ _
    have hsave : d₁ "" = some node := (hkept "" (by decide)).trans hs
    unfold moveInto
    cases hmove : h.fails (.rename "" (".delete" ++ "/" ++ "save")) with
    | some fault =>
      -- nothing has moved
      have hsame : ∀ p, p ≠ ".delete" → remove h d₁ ".delete" p = d p := fun p hp =>
        (remove_of_ne hp).trans (hkept p hp)
      exact ⟨fun _ => ⟨hsame _ (by decide), hsame _ (by decide)⟩, nofun, fun p _ _ hp => hsame p hp⟩
    | none =>
      simp only [hsave, hempty, List.lookup_nil, Option.isSome_none, Bool.false_eq_true, ↓reduceIte]
      generalize hd₂ : Function.update (Function.update d₁ "" none) ".delete"
        (some (.directory [("save", node)])) = d₂
      have hretired : d₂ ".delete" = some (.directory [("save", node)]) := by
        rw [← hd₂]
        exact Function.update_self ..
      have hgone : d₂ "" = none := by
        rw [← hd₂, Function.update_of_ne (by decide), Function.update_self]
      have hrest : ∀ p, p ≠ "" → p ≠ ".delete" → d₂ p = d p := by
        intro p hp hp'
        rw [← hd₂, Function.update_of_ne hp', Function.update_of_ne hp, hkept p hp']
      cases hd : d ".backup" with
      | none =>
        refine ⟨fun hr => absurd rfl hr, fun _ => ⟨?_, ?_, removeAll_self _⟩, fun p hp _ hp' => ?_⟩
        · exact (removeAll_of_ne (by decide)).trans hgone
        · exact (removeAll_of_ne (by decide)).trans ((hrest _ (by decide) (by decide)).trans hd)
        · exact (removeAll_of_ne hp').trans (hrest p hp hp')
      | some old =>
        have hbackup : d₂ ".backup" = some old := (hrest _ (by decide) (by decide)).trans hd
        simp only [Option.isSome_some, ↓reduceIte]
        cases hmove' : h.fails (.rename ".backup" (".delete" ++ "/" ++ "backup")) with
        | some fault =>
          -- the save comes back out of the retired directory
          have hout : (moveOutOf h d₂ ".delete" "save" "").1 =
              Function.update (Function.update d₂ ".delete" (some (.directory []))) "" (some node) := by
            have hback' : h.fails (.rename (".delete" ++ "/" ++ "save") "") = none := hback
            rw [moveOutOf, hback']
            simp only [hretired, hgone]
            rfl
          have hsame : ∀ p, p ≠ ".delete" →
              remove h (moveOutOf h d₂ ".delete" "save" "").1 ".delete" p = d p := by
            intro p hp
            rw [remove_of_ne hp, hout]
            by_cases hroot : p = ""
            · rw [hroot, Function.update_self, hs]
            · rw [Function.update_of_ne hroot, Function.update_of_ne hp, hrest p hroot hp]
          exact ⟨fun _ => ⟨hsame _ (by decide), hsame _ (by decide)⟩, nofun, fun p _ _ hp => hsame p hp⟩
        | none =>
          have hfree' : (List.lookup "backup" [("save", node)]).isSome = false := rfl
          simp only [hbackup, hretired, hfree', Bool.false_eq_true, ↓reduceIte]
          refine ⟨fun hr => absurd rfl hr, fun _ => ⟨?_, ?_, removeAll_self _⟩, fun p hp hp' hp'' => ?_⟩
          · refine (removeAll_of_ne (by decide)).trans ?_
            rw [Function.update_of_ne (by decide), Function.update_of_ne (by decide), hgone]
          · refine (removeAll_of_ne (by decide)).trans ?_
            rw [Function.update_of_ne (by decide), Function.update_self]
          · refine (removeAll_of_ne hp'').trans ?_
            rw [Function.update_of_ne hp'', Function.update_of_ne hp', hrest p hp hp'']

theorem removeSave_spec (hback : h.fails (.rename ".delete/save" "") = none) : Removed h d (removeSave h d) := by
  unfold removeSave
  cases hchecks : removeChecks h d with
  | error e => exact ⟨fun _ => ⟨rfl, rfl⟩, nofun, fun _ _ _ _ => rfl⟩
  | ok hasBackup =>
    obtain ⟨⟨node, hs⟩, hfree, rfl⟩ := of_removeChecks_ok hchecks
    exact retire_spec hs (hfree _ (by simp)) hback

theorem removeSave_free (hok : (removeSave h d).2 = none) :
    ∀ p ∈ [".delete", ".tmp", ".old", ".backup.tmp", ".backup.old"], d p = none := by
  unfold removeSave at hok
  cases hchecks : removeChecks h d with
  | error e =>
    rw [hchecks] at hok
    cases hok
  | ok hasBackup => exact (of_removeChecks_ok hchecks).2.1

end Remove

end Disk

/-! ## The calls -/

inductive SaveOp where
  | backup
  | restoreBackup
  | removeSave
  deriving DecidableEq

namespace SaveOp

variable (h : Host) (d : Disk)

def run : SaveOp → Disk × Option SaveError
  | backup => d.backup h
  | restoreBackup => d.restoreBackup h
  | removeSave => d.removeSave h

def result : SaveOp → Option Node × Option Node
  | backup => (d "", d "")
  | restoreBackup => (d ".backup", d ".backup")
  | removeSave => (none, none)

def staging : SaveOp → List String
  | backup => [".backup.tmp", ".backup.old"]
  | restoreBackup => [".tmp", ".old"]
  | removeSave => [".delete", ".tmp", ".old", ".backup.tmp", ".backup.old"]

/-- The name of what the call removes last. -/
def retired : SaveOp → String
  | backup => ".backup.old"
  | restoreBackup => ".old"
  | removeSave => ".delete"

structure Atomic (op : SaveOp) : Prop where
  failed : (op.run h d).2 ≠ none →
    (op.run h d).1 "" = d "" ∧ (op.run h d).1 ".backup" = d ".backup"
  done : (op.run h d).2 = none →
    ((op.run h d).1 "", (op.run h d).1 ".backup") = op.result d ∧
      ∀ p ∈ op.staging, (op.run h d).1 p = none ∨ p = op.retired ∧ h.fails (.removeAll p) ≠ none
  other : ∀ p, p ≠ "" → p ≠ ".backup" → p ∉ op.staging → (op.run h d).1 p = d p

end SaveOp

/-- The renames that undo a step succeed. -/
structure RollsBack (h : Host) : Prop where
  backup : h.fails (.rename ".backup.old" ".backup") = none
  restoreBackup : h.fails (.rename ".old" "") = none
  removeSave : h.fails (.rename ".delete/save" "") = none

def keepingHost : Host :=
  ⟨fun site => if site = .removeAll ".delete" then some .other else none,
    fun _ => some (.directory []), id, []⟩

end Prosperity.Kern.SaveTrees
