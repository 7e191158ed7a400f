import Mathlib.Data.List.Basic
import Mathlib.Logic.Function.Basic
import Mathlib.Tactic.Common

/-!
# Backup, restore and removal of a save

`kern::save_storage` copies a save over its backup, or the backup over the save, through a
directory beside the destination, and retires what it replaces under another name before it is
removed. A save is removed with its backup by moving both into one retired directory. Every call
of the host may fail, in any combination; a failed copy or removal leaves whatever it leaves.
-/

namespace Prosperity.Kern.SaveTrees

/-- What stands under a name. `other` is a symbolic link, a device or the like. -/
inductive Node where
  | file (bytes : List UInt8)
  | directory (entries : List (String × Node))
  | other

mutual

/-- Nothing but directories and regular files. -/
def Node.plain : Node → Bool
  | .file _ => true
  | .directory entries => plainEntries entries
  | .other => false

def plainEntries : List (String × Node) → Bool
  | [] => true
  | entry :: rest => plainEntry entry && plainEntries rest

def plainEntry : String × Node → Bool
  | (_, node) => node.plain

end

def Node.isDirectory : Node → Bool
  | .directory _ => true
  | _ => false

/-- What stands beside the save. A name is given by what follows the save's own name in it: the
save is `""` and its backup is `".backup"`. -/
abbrev Disk : Type := String → Option Node

/-- The kind of an error code. -/
inductive Fault where
  | noSpaceOnDevice
  | other
  deriving DecidableEq

/-- The calls of the host by where they stand: `status` is the call's own `symlink_status` of a name,
and `validateStatus`, `walk` and `info` are the steps of `ValidateSave`. -/
inductive HostCall where
  | status (path : String)
  | validateStatus (path : String)
  | walk (path : String)
  | info (path : String)
  | canonical (path : String)
  | weaklyCanonical (path : String)
  | copy (source target : String)
  | rename (source target : String)
  | exists_ (path : String)
  | createDirectory (path : String)
  | remove (path : String)
  | removeAll (path : String)
  deriving DecidableEq

/-- The host, and the roots that `g_open_files` has. -/
structure Host where
  fails : HostCall → Option Fault
  leaves : HostCall → Option Node
  canonical : String → String
  openRoots : List String

inductive SaveError where
  | eNOENT
  | eIO
  | eACCES
  | eINVAL
  | eBUSY
  | eNOSPC
  deriving DecidableEq

def storageError : Fault → SaveError
  | .noSpaceOnDevice => .eNOSPC
  | .other => SaveError.eIO

/-- A call whose errors are answered by `onError`. -/
def Host.call (h : Host) (site : HostCall) (onError : Fault → SaveError) : Except SaveError Unit :=
  match h.fails site with
  | some fault => .error (onError fault)
  | none => .ok ()

def failIf (condition : Bool) (e : SaveError) : Except SaveError Unit :=
  if condition then .error e else .ok ()

namespace Disk

variable (h : Host) (d : Disk)

def symlinkStatus (site : HostCall) (path : String) (onError : Fault → SaveError) :
    Except SaveError (Option Node) := do
  h.call site onError
  return d path

def isOpen (path : String) : Bool := h.openRoots.contains (h.canonical path)

/-- Nothing stands under any of the names. -/
def checkFree (onError : Fault → SaveError) : List String → Except SaveError Unit
  | [] => .ok ()
  | path :: rest => do
    let status ← symlinkStatus h d (.status path) path onError
    failIf status.isSome .eBUSY
    checkFree onError rest

/-! ### The calls of the host that change the disk -/

/-- `copy` of a tree. -/
def copy (source target : String) : Disk × Option Fault :=
  match h.fails (.copy source target) with
  | some fault => (Function.update d target (h.leaves (.copy source target)), some fault)
  | none => (Function.update d target (d source), none)

/-- `rename` of a directory: it takes a free name, or the place of an empty directory. -/
def rename (source target : String) : Disk × Option Fault :=
  match h.fails (.rename source target) with
  | some fault => (d, some fault)
  | none =>
    match d source, d target with
    | some node, none | some node, some (.directory []) =>
      (Function.update (Function.update d source none) target (some node), none)
    | _, _ => (d, some .other)

/-- `exists`, false also where it cannot tell. -/
def exists_ (path : String) : Bool := (h.fails (.exists_ path)).isNone && (d path).isSome

def removeAll (path : String) : Disk :=
  match h.fails (.removeAll path) with
  | some _ => Function.update d path (h.leaves (.removeAll path))
  | none => Function.update d path none

/-- `create_directory`: whether it was created. -/
def createDirectory (path : String) : Disk × Except SaveError Unit :=
  match h.fails (.createDirectory path) with
  | some _ => (d, .error SaveError.eIO)
  | none =>
    if (d path).isSome then (d, .error .eBUSY)
    else (Function.update d path (some (.directory [])), .ok ())

/-- `rename` to a free name in a directory. -/
def moveInto (source directory name : String) : Disk × Option Fault :=
  match h.fails (.rename source (directory ++ "/" ++ name)) with
  | some fault => (d, some fault)
  | none =>
    match d source, d directory with
    | some node, some (.directory entries) =>
      if (entries.lookup name).isSome then (d, some .other)
      else
        (Function.update (Function.update d source none) directory
          (some (.directory ((name, node) :: entries))), none)
    | _, _ => (d, some .other)

/-- `rename` of an entry of a directory to a free name. -/
def moveOutOf (directory name target : String) : Disk × Option Fault :=
  match h.fails (.rename (directory ++ "/" ++ name) target) with
  | some fault => (d, some fault)
  | none =>
    match d directory, d target with
    | some (.directory entries), none =>
      match entries.lookup name with
      | some node =>
        (Function.update (Function.update d directory
          (some (.directory (entries.filter fun entry => entry.1 ≠ name)))) target (some node), none)
      | none => (d, some .other)
    | _, _ => (d, some .other)

/-- `remove`, which removes no directory that has entries. -/
def remove (path : String) : Disk :=
  match h.fails (.remove path) with
  | some _ => d
  | none =>
    match d path with
    | some (.directory (_ :: _)) => d
    | _ => Function.update d path none

/-! ### Backup and restore -/

def validateSave (root : String) : Except SaveError Unit := do
  match ← symlinkStatus h d (.validateStatus root) root storageError with
  | none => .error .eNOENT
  | some node =>
    failIf (!node.isDirectory) .eACCES
    h.call (.walk root) storageError
    failIf (!node.plain) .eACCES
    h.call (.info root) fun _ => SaveError.eIO

/-- What `CopySave` checks before it copies: whether the destination exists. -/
def copyChecks (source destination : String) : Except SaveError Bool := do
  validateSave h d source
  h.call (.weaklyCanonical destination) storageError
  h.call (.canonical source) storageError
  failIf (isOpen h destination || isOpen h source) .eBUSY
  checkFree h d storageError [destination ++ ".tmp", destination ++ ".old"]
  let status ← symlinkStatus h d (.status destination) destination storageError
  if status.isSome then validateSave h d destination
  return status.isSome

/-- What `CopySave` does then. -/
def copyTree (source destination : String) (exists' : Bool) : Disk × Option SaveError :=
  let staging := destination ++ ".tmp"
  let previous := destination ++ ".old"
  let copied := copy h d source staging
  let retired :=
    if copied.2.isNone && exists' then rename h copied.1 destination previous else copied
  let renamed := if retired.2.isNone then rename h retired.1 staging destination else retired
  match renamed.2 with
  | some fault =>
    let restored :=
      if exists' && !exists_ h renamed.1 destination then (rename h renamed.1 previous destination).1
      else renamed.1
    (removeAll h restored staging, some (storageError fault))
  | none => (if exists' then removeAll h renamed.1 previous else renamed.1, none)

def copySave (source destination : String) : Disk × Option SaveError :=
  match copyChecks h d source destination with
  | .error e => (d, some e)
  | .ok exists' => copyTree h d source destination exists'

def backup : Disk × Option SaveError := copySave h d "" ".backup"

def restoreBackup : Disk × Option SaveError := copySave h d ".backup" ""

/-! ### Removal -/

/-- What `RemoveSave` checks first: whether there is a backup. -/
def removeChecks : Except SaveError Bool := do
  match ← symlinkStatus h d (.status "") "" fun _ => SaveError.eIO with
  | none => .error .eNOENT
  | some node =>
    failIf (!node.isDirectory) .eINVAL
    h.call (.canonical "") fun _ => SaveError.eIO
    failIf (isOpen h "") .eBUSY
    checkFree h d (fun _ => SaveError.eIO) [".delete", ".tmp", ".old", ".backup.tmp", ".backup.old"]
    match ← symlinkStatus h d (.status ".backup") ".backup" fun _ => SaveError.eIO with
    | none => return false
    | some node =>
      failIf (!node.isDirectory) .eACCES
      h.call (.canonical ".backup") fun _ => SaveError.eIO
      failIf (isOpen h ".backup") .eBUSY
      return true

/-- What `RemoveSave` does then. -/
def retire (hasBackup : Bool) : Disk × Option SaveError :=
  match createDirectory h d ".delete" with
  | (d₁, .error e) => (d₁, some e)
  | (d₁, .ok ()) =>
    match moveInto h d₁ "" ".delete" "save" with
    | (d₂, some _) => (remove h d₂ ".delete", some SaveError.eIO)
    | (d₂, none) =>
      if hasBackup then
        match moveInto h d₂ ".backup" ".delete" "backup" with
        | (d₃, some _) =>
          (remove h (moveOutOf h d₃ ".delete" "save" "").1 ".delete", some SaveError.eIO)
        | (d₃, none) => (removeAll h d₃ ".delete", none)
      else (removeAll h d₂ ".delete", none)

def removeSave : Disk × Option SaveError :=
  match removeChecks h d with
  | .error e => (d, some e)
  | .ok hasBackup => retire h d hasBackup

end Disk

end Prosperity.Kern.SaveTrees
