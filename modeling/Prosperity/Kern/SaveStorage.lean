import Mathlib.Data.Int.Notation
import Mathlib.Logic.Function.Basic
import Prosperity.Foundations.Accounting
import Prosperity.Foundations.Execution

/-!
# The quota of save data

`kern::save_storage`: the files under one quota root, the handles open in it, and the calls that
open, write, truncate, replace, rename and remove files. Files are inodes with a size and any
number of names. Every call runs under one mutex, and the host's own calls succeed.
-/

namespace Prosperity.Kern

/-- An entry of `g_open_files`: the inode of the file and its position. -/
structure OpenFile where
  inode : ℕ
  position : ℕ
  deriving DecidableEq

inductive StorageError where
  | eNOENT
  | eIO
  | eACCES
  | eINVAL
  | eFBIG
  | eNOSPC
  deriving DecidableEq

/-- What a call returns. -/
inductive StorageReply where
  | none
  | opened (ok : Bool)
  | written (bytes : ℕ)
  | done
  | error (e : StorageError)
  deriving DecidableEq

/-- The files by their names under the root, the size of every inode, the open handles, and the
reply to the last call. -/
structure Storage where
  files : List (String × ℕ)
  size : ℕ → ℕ
  opens : List (ℕ × OpenFile)
  reply : StorageReply

/-- The calls. `fresh` is the inode that the host gives a new file. -/
inductive StorageCall where
  | openWritable (handle : ℕ) (path : String) (create truncate : Bool) (fresh : ℕ)
  | openRead (handle : ℕ) (path : String)
  | close (handle : ℕ)
  | seek (handle : ℕ) (position : ℕ)
  | write (handle : ℕ) (size : ℕ)
  | truncate (handle : ℕ) (length : ℤ)
  | truncatePath (path : String) (length : ℤ)
  | replace (path : String) (size : ℕ) (fresh : ℕ)
  | rename (source target : String)
  | remove (path : String)

def kBlockSize : ℕ := 32768

def blocks (size : ℕ) : ℕ := size / kBlockSize + if size % kBlockSize ≠ 0 then 1 else 0

/-- The largest value of an `i64`. -/
def maxSize : ℕ := 2 ^ 63 - 1

def quotaName (path : String) : Bool :=
  path = ".sce_quota.bin" || path = ".sce_quota.bin.tmp"

namespace Storage

section Calls

variable (total : ℕ) (elsewhere : ℕ → Bool)

/-- The inodes that `InfoUnlocked` meets: of the names, then of the handles. -/
def counted (s : Storage) : List ℕ :=
  (s.files.filter fun file => !quotaName file.1).map Prod.snd ++ s.opens.map fun file => file.2.inode

/-- `InfoUnlocked`: the free blocks. -/
def info (s : Storage) : ℕ :=
  total - (s.counted.foldl (account (fun inode => blocks (s.size inode)) total) (0, [])).1

/-- `Limit` for a file of `size` bytes. -/
def limit (s : Storage) (size : ℕ) : ℕ :=
  let free := s.info total
  let current := blocks size
  if current ≥ maxSize / kBlockSize ∨ free > maxSize / kBlockSize - current then maxSize
  else (current + free) * kBlockSize

def links (s : Storage) (inode : ℕ) : ℕ := s.files.countP fun file => file.2 = inode

def isOpen (s : Storage) (inode : ℕ) : Bool := s.opens.any fun file => file.2.inode = inode

/-- The file outlives its name: by another link, or by a handle. `elsewhere` is those outside of
the root. -/
def retained (s : Storage) (inode : ℕ) : Bool :=
  1 < s.links inode || elsewhere inode || s.isOpen inode

/-- The size that `ReplaceLimit` counts for the file that is replaced. -/
def replacedSize (s : Storage) (path : String) : ℕ :=
  match s.files.lookup path with
  | none => 0
  | some inode => if s.retained elsewhere inode then 0 else s.size inode

def fail (s : Storage) (e : StorageError) : Storage := { s with reply := .error e }

def setSize (s : Storage) (inode size : ℕ) : Storage :=
  { s with size := Function.update s.size inode size }

def truncateUnlocked (s : Storage) (inode : ℕ) (length : ℤ) : Storage :=
  if length < 0 then s.fail .eINVAL
  else if length.toNat > s.size inode ∧ length.toNat > s.limit total (s.size inode) then
    s.fail .eNOSPC
  else { s.setSize inode length.toNat with reply := .done }

/-- `Track`, at the start of the file. -/
def track (s : Storage) (handle inode : ℕ) : Storage :=
  { s with
    opens := (handle, ⟨inode, 0⟩) :: s.opens.filter fun file => file.1 ≠ handle
    reply := .opened true }

def unused (s : Storage) (inode : ℕ) : Bool :=
  s.links inode = 0 && !s.isOpen inode && !elsewhere inode

/-- A new and empty file. -/
def create (s : Storage) (path : String) (fresh : ℕ) : Storage :=
  { s.setSize fresh 0 with files := (path, fresh) :: s.files }

def openWritable (s : Storage) (handle : ℕ) (path : String) (create truncate : Bool)
    (fresh : ℕ) : Storage :=
  if quotaName path then { s with reply := .opened false }
  else
    match s.files.lookup path with
    | some inode =>
      let s := if truncate then s.truncateUnlocked total inode 0 else s
      s.track handle inode
    | none =>
      if create then (s.create path fresh).track handle fresh
      else { s with reply := .opened false }

def openRead (s : Storage) (handle : ℕ) (path : String) : Storage :=
  if quotaName path then { s with reply := .opened false }
  else
    match s.files.lookup path with
    | some inode => s.track handle inode
    | none => { s with reply := .opened false }

def close (s : Storage) (handle : ℕ) : Storage :=
  { s with opens := s.opens.filter fun file => file.1 ≠ handle, reply := .done }

def moveTo (s : Storage) (handle inode position : ℕ) : Storage :=
  { s with
    opens := (handle, ⟨inode, position⟩) :: s.opens.filter fun file => file.1 ≠ handle
    reply := .done }

def write (s : Storage) (handle : ℕ) (file : OpenFile) (size : ℕ) : Storage :=
  if size = 0 then { s with reply := .written 0 }
  else if file.position > maxSize ∨ size > maxSize - file.position then s.fail .eFBIG
  else
    let limit := s.limit total (s.size file.inode)
    if file.position + size > limit ∧ file.position ≥ limit then s.fail .eNOSPC
    else
      let size := if file.position + size > limit then min size (limit - file.position) else size
      { (s.setSize file.inode (max (s.size file.inode) (file.position + size))).moveTo handle
          file.inode (file.position + size) with reply := .written size }

def truncatePath (s : Storage) (path : String) (length : ℤ) : Storage :=
  if length < 0 then s.fail .eINVAL
  else if quotaName path then s.fail .eACCES
  else
    match s.files.lookup path with
    | none => s.fail .eNOENT
    | some inode => s.truncateUnlocked total inode length

/-- The host's `rename`, which leaves two names of one file alone. -/
def renameFile (files : List (String × ℕ)) (source target : String) (inode : ℕ) : List (String × ℕ) :=
  if files.lookup target = some inode then files
  else (target, inode) :: files.filter fun file => file.1 ≠ source && file.1 ≠ target

/-- `Replace`: the data is written to a temporary file, which takes the name. -/
def replace (s : Storage) (path : String) (size fresh : ℕ) : Storage :=
  if size > s.limit total (s.replacedSize elsewhere path) then s.fail .eNOSPC
  else
    let temporary := path ++ ".tmp"
    let inode := (s.files.lookup temporary).getD fresh
    let s := if (s.files.lookup temporary).isSome then s else s.create temporary fresh
    let s := s.setSize inode size
    { s with files := renameFile s.files temporary path inode, reply := .done }

def rename (s : Storage) (source target : String) : Storage :=
  if quotaName source || quotaName target then s.fail .eACCES
  else
    match s.files.lookup source with
    | none => s.fail .eNOENT
    | some inode => { s with files := renameFile s.files source target inode, reply := .done }

def remove (s : Storage) (path : String) : Storage :=
  if quotaName path then s.fail .eACCES
  else
    match s.files.lookup path with
    | none => s.fail .eNOENT
    | some _ => { s with files := s.files.filter fun file => file.1 ≠ path, reply := .done }

/-- A call, `none` where it cannot be made: a handle that is not open is written, or the host
gives a new file an inode in use. The service replaces no file of the quota's own. -/
def step (s : Storage) : StorageCall → Option Storage
  | .openWritable handle path create truncate fresh =>
    if s.unused elsewhere fresh then some (s.openWritable total handle path create truncate fresh)
    else none
  | .openRead handle path => some (s.openRead handle path)
  | .close handle => some (s.close handle)
  | .seek handle position =>
    (s.opens.lookup handle).map fun file => s.moveTo handle file.inode position
  | .write handle size => (s.opens.lookup handle).map fun file => s.write total handle file size
  | .truncate handle length =>
    (s.opens.lookup handle).map fun file => s.truncateUnlocked total file.inode length
  | .truncatePath path length => some (s.truncatePath total path length)
  | .replace path size fresh =>
    if s.unused elsewhere fresh && !quotaName path then
      some (s.replace total elsewhere path size fresh)
    else none
  | .rename source target => some (s.rename source target)
  | .remove path => some (s.remove path)

def system : LabelledSystem Storage StorageCall := ⟨step total elsewhere⟩

/-! ## The quota -/

def usedBlocks (s : Storage) : ℕ := ∑ inode ∈ s.counted.toFinset, blocks (s.size inode)

/-- A file of as many whole blocks as an `i64` counts bytes of grows into one more, though none is
free. -/
def PastLimit (s : Storage) (size newSize : ℕ) : Prop :=
  blocks size = maxSize / kBlockSize ∧ s.info total = 0 ∧
    newSize > maxSize / kBlockSize * kBlockSize ∧ newSize ≤ maxSize

def Careful (s : Storage) : StorageCall → Prop
  | .write handle size => size ≠ 0 → ∀ file ∈ s.opens.lookup handle,
      ¬s.PastLimit total (s.size file.inode) (file.position + size)
  | .truncate handle length => ∀ file ∈ s.opens.lookup handle,
      ¬s.PastLimit total (s.size file.inode) length.toNat
  | .truncatePath path length => ∀ inode ∈ s.files.lookup path,
      ¬s.PastLimit total (s.size inode) length.toNat
  | .replace path size _ => ¬s.PastLimit total (s.replacedSize elsewhere path) size
  | _ => True

instance (s : Storage) (size newSize : ℕ) : Decidable (s.PastLimit total size newSize) :=
  inferInstanceAs (Decidable (_ ∧ _ ∧ _ ∧ _))

instance (s : Storage) : DecidablePred (s.Careful total elsewhere)
  | .write _ _ => inferInstanceAs (Decidable (_ → ∀ file ∈ s.opens.lookup _, ¬_))
  | .truncate _ _ => inferInstanceAs (Decidable (∀ file ∈ s.opens.lookup _, ¬_))
  | .truncatePath _ _ => inferInstanceAs (Decidable (∀ inode ∈ s.files.lookup _, ¬_))
  | .replace _ _ _ => inferInstanceAs (Decidable ¬_)
  | .openWritable _ _ _ _ _ | .openRead _ _ | .close _ | .seek _ _ | .rename _ _ | .remove _ =>
    isTrue trivial

structure WithinQuota (s : Storage) : Prop where
  used : s.usedBlocks ≤ total
  info : s.info total = total - s.usedBlocks

def RefusedSound (s : Storage) (_ : StorageCall) (s' : Storage) : Prop :=
  s'.reply = .error .eNOSPC → s'.files = s.files ∧ s'.size = s.size ∧ s'.opens = s.opens ∧ s'.info total = s.info total

end Calls

section Quota

variable {total : ℕ} {elsewhere : ℕ → Bool} {s s' : Storage} {inode : ℕ}

theorem blocks_le_iff {size n : ℕ} : blocks size ≤ n ↔ size ≤ n * kBlockSize := by
  unfold blocks kBlockSize
  split <;> omega

theorem info_eq (h : s.usedBlocks ≤ total) : s.info total = total - s.usedBlocks := by
  have hsum := accounted (fun inode => blocks (s.size inode)) total (0, []) s.counted rfl
  simp only [List.toFinset_nil, Finset.empty_union] at hsum
  rw [info, hsum h, usedBlocks]

/-- **The limit keeps to the free blocks**, but for a file at the end of what an `i64` counts. -/
theorem blocks_le_of_limit {size newSize : ℕ} (hle : newSize ≤ s.limit total size)
    (hok : ¬s.PastLimit total size newSize) : blocks newSize ≤ blocks size + s.info total := by
  unfold limit at hle
  dsimp only at hle
  split at hle
  · rename_i hlong
    have hmax : blocks newSize ≤ maxSize / kBlockSize + 1 := by
      rw [blocks_le_iff]
      refine Nat.le_trans hle ?_
      decide
    rcases hlong with hlong | hlong
    · by_cases hfree : s.info total = 0
      · rcases Nat.eq_or_lt_of_le hlong with heq | hlt
        · -- one block more is one too many
          have hfits : newSize ≤ maxSize / kBlockSize * kBlockSize := by
            by_contra hpast
            exact hok ⟨heq.symm, hfree, Nat.lt_of_not_le hpast, hle⟩
          have := blocks_le_iff.mpr hfits
          omega
        · omega
      · omega
    · omega
  · exact blocks_le_iff.mpr hle

theorem mem_counted_of_file {path : String} (hfile : (path, inode) ∈ s.files)
    (hname : quotaName path = false) : inode ∈ s.counted.toFinset := by
  rw [List.mem_toFinset, counted]
  refine List.mem_append_left _ (List.mem_map.mpr ⟨(path, inode), ?_, rfl⟩)
  exact List.mem_filter.mpr ⟨hfile, by rw [hname]; rfl⟩

theorem mem_counted_of_open {handle : ℕ} {file : OpenFile} (hopen : (handle, file) ∈ s.opens) :
    file.inode ∈ s.counted.toFinset := by
  rw [List.mem_toFinset, counted]
  exact List.mem_append_right _ (List.mem_map.mpr ⟨(handle, file), hopen, rfl⟩)

theorem mem_counted : inode ∈ s.counted.toFinset ↔ (∃ path, (path, inode) ∈ s.files ∧ quotaName path = false) ∨
      ∃ handle file, (handle, file) ∈ s.opens ∧ file.inode = inode := by
  rw [List.mem_toFinset, counted, List.mem_append, List.mem_map, List.mem_map]
  constructor
  · rintro (⟨⟨path, i⟩, hfile, rfl⟩ | ⟨⟨handle, file⟩, hopen, rfl⟩)
    · obtain ⟨hfile, hname⟩ := List.mem_filter.mp hfile
      exact .inl ⟨path, hfile, by simpa using hname⟩
    · exact .inr ⟨handle, file, hopen, rfl⟩
  · rintro (⟨path, hfile, hname⟩ | ⟨handle, file, hopen, rfl⟩)
    · exact .inl ⟨(path, inode), List.mem_filter.mpr ⟨hfile, by rw [hname]; rfl⟩, rfl⟩
    · exact .inr ⟨(handle, file), hopen, rfl⟩

theorem mem_of_lookup {α β : Type} [BEq α] [LawfulBEq α] {l : List (α × β)} {k : α} {v : β}
    (h : l.lookup k = some v) : (k, v) ∈ l := by
  obtain ⟨before, after, rfl, -⟩ := List.lookup_eq_some_iff.mp h
  exact List.mem_append_right _ List.mem_cons_self

theorem usedBlocks_le (hsub : s'.counted.toFinset ⊆ s.counted.toFinset) (hsize : s'.size = s.size) :
    s'.usedBlocks ≤ s.usedBlocks := by
  unfold usedBlocks
  rw [hsize]
  exact Finset.sum_le_sum_of_subset hsub

theorem usedBlocks_insert {keys : Finset ℕ} (hsub : s'.counted.toFinset ⊆ insert inode keys)
    (hsize : ∀ i ≠ inode, s'.size i = s.size i) :
    s'.usedBlocks ≤ ∑ i ∈ keys.erase inode, blocks (s.size i) + blocks (s'.size inode) := by
  apply sum_le_of_subset (fun i => blocks (s.size i)) (fun i => blocks (s'.size i)) inode hsub
  intro i _ hne
  rw [hsize i hne]

theorem usedBlocks_grow {newSize : ℕ} (hq : s.usedBlocks ≤ total)
    (hcounted : inode ∈ s.counted.toFinset) (hsub : s'.counted.toFinset ⊆ s.counted.toFinset)
    (hsize : s'.size = Function.update s.size inode newSize)
    (hle : newSize ≤ s.size inode ∨ newSize ≤ s.limit total (s.size inode) ∧
      ¬s.PastLimit total (s.size inode) newSize) : s'.usedBlocks ≤ total := by
  have hused := usedBlocks_insert (s := s)
    (Finset.Subset.trans hsub (Finset.subset_insert inode _))
    (fun i hne => by rw [hsize, Function.update_of_ne hne])
  rw [hsize, Function.update_self] at hused
  have herase : _ = s.usedBlocks := sum_erase_add (fun i => blocks (s.size i)) hcounted
  rcases hle with hle | ⟨hle, hok⟩
  · have : blocks newSize ≤ blocks (s.size inode) := by
      rw [blocks_le_iff]
      exact Nat.le_trans hle (blocks_le_iff.mp (Nat.le_refl _))
    omega
  · have := blocks_le_of_limit hle hok
    rw [info_eq hq] at this
    omega

/-! ## The calls keep the quota -/

theorem truncateUnlocked_quota (hq : s.usedBlocks ≤ total) (hcounted : inode ∈ s.counted.toFinset)
    {length : ℤ} (hok : ¬s.PastLimit total (s.size inode) length.toNat) :
    (s.truncateUnlocked total inode length).usedBlocks ≤ total := by
  unfold truncateUnlocked
  split
  · exact hq
  · split
    · exact hq
    · rename_i hfits
      refine usedBlocks_grow hq hcounted (Finset.Subset.refl _) rfl ?_
      by_cases hgrows : length.toNat > s.size inode
      · exact .inr ⟨Nat.not_lt.mp fun hlt => hfits ⟨hgrows, hlt⟩, hok⟩
      · exact .inl (Nat.not_lt.mp hgrows)

theorem truncateUnlocked_counted (length : ℤ) : (s.truncateUnlocked total inode length).counted = s.counted := by
  unfold truncateUnlocked
  split
  · rfl
  · split <;> rfl

theorem moveTo_counted {handle position : ℕ} (hcounted : inode ∈ s.counted.toFinset) :
    (s.moveTo handle inode position).counted.toFinset ⊆ s.counted.toFinset := by
  intro i hi
  rcases mem_counted.mp hi with hfile | ⟨h, file, hopen, rfl⟩
  · exact mem_counted.mpr (.inl hfile)
  · rcases List.mem_cons.mp hopen with heq | hopen
    · obtain ⟨rfl, rfl⟩ := Prod.mk.inj heq
      exact hcounted
    · exact mem_counted_of_open (List.mem_of_mem_filter hopen)

theorem track_counted {handle : ℕ} (hcounted : inode ∈ s.counted.toFinset) :
    (s.track handle inode).counted.toFinset ⊆ s.counted.toFinset :=
  (moveTo_counted hcounted : (s.moveTo handle inode 0).counted.toFinset ⊆ _)

theorem openWritable_quota (hq : s.usedBlocks ≤ total) (handle : ℕ) (path : String)
    (create truncate : Bool) (fresh : ℕ) :
    (s.openWritable total handle path create truncate fresh).usedBlocks ≤ total := by
  unfold openWritable
  split
  · exact hq
  · rename_i hname
    rw [Bool.not_eq_true] at hname
    split
    · rename_i inode hlookup
      have hcounted := mem_counted_of_file (mem_of_lookup hlookup) hname
      dsimp only
      split
      · -- an empty file is within every limit
        have hzero : ¬s.PastLimit total (s.size inode) (0 : ℤ).toNat := fun h => absurd h.2.2.1 (by simp)
        refine Nat.le_trans (usedBlocks_le (s := s.truncateUnlocked total inode 0)
          (track_counted ?_) rfl) (truncateUnlocked_quota hq hcounted hzero)
        rw [truncateUnlocked_counted]
        exact hcounted
      · exact Nat.le_trans (usedBlocks_le (s := s) (track_counted hcounted) rfl) hq
    · split
      · have hsub : ((s.create path fresh).track handle fresh).counted.toFinset ⊆
            insert fresh s.counted.toFinset := by
          intro i hi
          rw [Finset.mem_insert]
          rcases mem_counted.mp hi with ⟨p, hfile, hp⟩ | ⟨h, file, hopen, rfl⟩
          · rcases List.mem_cons.mp hfile with heq | hfile
            · exact .inl (Prod.mk.inj heq).2
            · exact .inr (mem_counted_of_file hfile hp)
          · rcases List.mem_cons.mp hopen with heq | hopen
            · exact .inl (congrArg OpenFile.inode (Prod.mk.inj heq).2)
            · exact .inr (mem_counted_of_open (List.mem_of_mem_filter hopen))
        have hsize : ((s.create path fresh).track handle fresh).size = Function.update s.size fresh 0 := rfl
        have hused := usedBlocks_insert (s := s) hsub
          (fun i hne => by rw [hsize, Function.update_of_ne hne])
        rw [hsize, Function.update_self, show blocks 0 = 0 from rfl, Nat.add_zero] at hused
        exact Nat.le_trans hused
          (Nat.le_trans (sum_erase_le (fun i => blocks (s.size i)) _ _) hq)
      · exact hq

theorem openRead_quota (hq : s.usedBlocks ≤ total) (handle : ℕ) (path : String) :
    (s.openRead handle path).usedBlocks ≤ total := by
  unfold openRead
  split
  · exact hq
  · rename_i hname
    rw [Bool.not_eq_true] at hname
    split
    · rename_i inode hlookup
      have hcounted := mem_counted_of_file (mem_of_lookup hlookup) hname
      exact Nat.le_trans (usedBlocks_le (s := s) (track_counted hcounted) rfl) hq
    · exact hq

theorem close_quota (hq : s.usedBlocks ≤ total) (handle : ℕ) : (s.close handle).usedBlocks ≤ total := by
  refine Nat.le_trans (usedBlocks_le (s := s) ?_ rfl) hq
  intro i hi
  rcases mem_counted.mp hi with hfile | ⟨h, file, hopen, rfl⟩
  · exact mem_counted.mpr (.inl hfile)
  · exact mem_counted_of_open (List.mem_of_mem_filter hopen)

theorem write_quota (hq : s.usedBlocks ≤ total) {handle : ℕ} {file : OpenFile}
    (hopen : (handle, file) ∈ s.opens) {size : ℕ}
    (hok : size ≠ 0 → ¬s.PastLimit total (s.size file.inode) (file.position + size)) :
    (s.write total handle file size).usedBlocks ≤ total := by
  have hcounted := mem_counted_of_open hopen
  have hmax : s.limit total (s.size file.inode) ≤ maxSize := by
    unfold limit
    dsimp only
    split
    · exact Nat.le_refl _
    · rename_i hfits
      have : (blocks (s.size file.inode) + s.info total) * kBlockSize ≤
          maxSize / kBlockSize * kBlockSize := Nat.mul_le_mul_right _ (by omega)
      exact Nat.le_trans this (Nat.div_mul_le_self _ _)
  unfold write
  split
  · exact hq
  · rename_i hsize
    split
    · exact hq
    · rename_i hbig
      dsimp only
      split
      · exact hq
      · rename_i hroom
        -- what is written ends within the limit
        have hend : file.position + (if file.position + size > s.limit total (s.size file.inode)
            then min size (s.limit total (s.size file.inode) - file.position) else size) ≤
              s.limit total (s.size file.inode) := by
          split <;> omega
        generalize hwritten : (if file.position + size > s.limit total (s.size file.inode) then
          min size (s.limit total (s.size file.inode) - file.position) else size) = written at hend ⊢
        refine usedBlocks_grow hq hcounted (moveTo_counted hcounted) rfl ?_
        rcases Nat.le_total (file.position + written) (s.size file.inode) with hle | hle
        · left
          omega
        · right
          rw [Nat.max_eq_right hle]
          refine ⟨hend, fun hpast => hok hsize ?_⟩
          have hlong : file.position + written ≤ file.position + size := by
            rw [← hwritten]
            split <;> omega
          exact ⟨hpast.1, hpast.2.1, Nat.lt_of_lt_of_le hpast.2.2.1 hlong, by omega⟩

theorem mem_renameFile {files : List (String × ℕ)} {source target p : String} {i : ℕ}
    (h : (p, i) ∈ renameFile files source target inode) :
    (files.lookup target = some inode ∧ (p, i) ∈ files) ∨ i = inode ∨ p ≠ source ∧ p ≠ target ∧ (p, i) ∈ files := by
  unfold renameFile at h
  split at h
  · rename_i hsame
    exact .inl ⟨hsame, h⟩
  · rcases List.mem_cons.mp h with heq | h
    · exact .inr (.inl (Prod.mk.inj heq).2)
    · obtain ⟨hfile, hne⟩ := List.mem_filter.mp h
      simp only [Bool.and_eq_true, decide_eq_true_eq] at hne
      exact .inr (.inr ⟨hne.1, hne.2, hfile⟩)

theorem rename_quota (hq : s.usedBlocks ≤ total) (source target : String) :
    (s.rename source target).usedBlocks ≤ total := by
  unfold rename
  split
  · exact hq
  · rename_i hnames
    simp only [Bool.or_eq_true, not_or, Bool.not_eq_true] at hnames
    split
    · exact hq
    · rename_i inode hlookup
      refine Nat.le_trans (usedBlocks_le (s := s) ?_ rfl) hq
      intro i hi
      rcases mem_counted.mp hi with ⟨p, hfile, hp⟩ | ⟨h, file, hopen, rfl⟩
      · rcases mem_renameFile hfile with ⟨-, hfile⟩ | rfl | ⟨-, -, hfile⟩
        · exact mem_counted_of_file hfile hp
        · exact mem_counted_of_file (mem_of_lookup hlookup) hnames.1
        · exact mem_counted_of_file hfile hp
      · exact mem_counted_of_open hopen

theorem remove_quota (hq : s.usedBlocks ≤ total) (path : String) : (s.remove path).usedBlocks ≤ total := by
  unfold remove
  split
  · exact hq
  · split
    · exact hq
    · refine Nat.le_trans (usedBlocks_le (s := s) ?_ rfl) hq
      intro i hi
      rcases mem_counted.mp hi with ⟨p, hfile, hp⟩ | ⟨h, file, hopen, rfl⟩
      · exact mem_counted_of_file (List.mem_of_mem_filter hfile) hp
      · exact mem_counted_of_open hopen

theorem links_of_names {p q : String} (hp : (p, inode) ∈ s.files) (hq : (q, inode) ∈ s.files)
    (hne : p ≠ q) : 1 < s.links inode := by
  rw [links, List.countP_eq_length_filter]
  have hp' : (p, inode) ∈ s.files.filter fun file => file.2 = inode :=
    List.mem_filter.mpr ⟨hp, by simp⟩
  have hq' : (q, inode) ∈ s.files.filter fun file => file.2 = inode :=
    List.mem_filter.mpr ⟨hq, by simp⟩
  by_contra hle
  obtain ⟨a, ha⟩ := List.length_eq_one_iff.mp
    (Nat.le_antisymm (Nat.not_lt.mp hle) (List.length_pos_of_mem hp'))
  rw [ha, List.mem_singleton] at hp' hq'
  exact hne (Prod.mk.inj (hp'.trans hq'.symm)).1

theorem temporary_ne (path : String) : path ++ ".tmp" ≠ path := by
  intro h
  have hlen := congrArg String.length h
  rw [String.length_append] at hlen
  have : ".tmp".length = 4 := rfl
  omega

structure Replaced (s s' : Storage) (path : String) (inode size : ℕ) : Prop where
  opens : s'.opens = s.opens
  size_eq : s'.size inode = size
  others : ∀ i ≠ inode, s'.size i = s.size i
  files : ∀ p i, (p, i) ∈ s'.files → i = inode ∨
    (p, i) ∈ s.files ∧ (p ≠ path ∨ s.files.lookup path = some inode ∧ 1 < s.links inode)

theorem replaced {path : String} {size fresh : ℕ} (hfresh : s.unused elsewhere fresh = true)
    (hle : ¬size > s.limit total (s.replacedSize elsewhere path)) :
    ∃ inode, Replaced s (s.replace total elsewhere path size fresh) path inode size := by
  have hunlinked : ∀ p, (p, fresh) ∉ s.files := by
    intro p hp
    have hpos : 0 < s.links fresh := List.countP_pos_iff.mpr ⟨(p, fresh), hp, by simp⟩
    unfold unused at hfresh
    simp only [Bool.and_eq_true, decide_eq_true_eq] at hfresh
    omega
  cases htmp : s.files.lookup (path ++ ".tmp") with
  | none =>
    have hresult : s.replace total elsewhere path size fresh =
        ⟨renameFile ((path ++ ".tmp", fresh) :: s.files) (path ++ ".tmp") path fresh,
          Function.update (Function.update s.size fresh 0) fresh size, s.opens, .done⟩ := by
      simp only [replace, if_neg hle, htmp]
      rfl
    rw [hresult]
    refine ⟨fresh, rfl, Function.update_self _ _ _, ?_, ?_⟩
    · intro i hne
      show Function.update (Function.update s.size fresh 0) fresh size i = s.size i
      rw [Function.update_of_ne hne, Function.update_of_ne hne]
    · intro p i hfile
      rcases mem_renameFile hfile with ⟨hsame, -⟩ | rfl | ⟨hsource, htarget, hfile⟩
      · -- the new file has no other name
        rcases List.mem_cons.mp (mem_of_lookup hsame) with heq | hmem
        · exact absurd (Prod.mk.inj heq).1.symm (temporary_ne path)
        · exact absurd hmem (hunlinked path)
      · exact .inl rfl
      · rcases List.mem_cons.mp hfile with heq | hfile
        · exact .inl (Prod.mk.inj heq).2
        · exact .inr ⟨hfile, .inl htarget⟩
  | some inode =>
    have hresult : s.replace total elsewhere path size fresh =
        ⟨renameFile s.files (path ++ ".tmp") path inode, Function.update s.size inode size,
          s.opens, .done⟩ := by
      simp only [replace, if_neg hle, htmp]
      rfl
    rw [hresult]
    refine ⟨inode, rfl, Function.update_self _ _ _, fun i hne => Function.update_of_ne hne _ _, ?_⟩
    intro p i hfile
    rcases mem_renameFile hfile with ⟨hsame, hfile⟩ | rfl | ⟨hsource, htarget, hfile⟩
    · exact .inr ⟨hfile, .inr ⟨hsame, links_of_names (mem_of_lookup htmp) (mem_of_lookup hsame) (temporary_ne path)⟩⟩
    · exact .inl rfl
    · exact .inr ⟨hfile, .inl htarget⟩

theorem replace_quota (hq : s.usedBlocks ≤ total) {path : String} {size fresh : ℕ}
    (hfresh : s.unused elsewhere fresh = true) (hname : quotaName path = false)
    (hok : ¬s.PastLimit total (s.replacedSize elsewhere path) size) :
    (s.replace total elsewhere path size fresh).usedBlocks ≤ total := by
  by_cases hle : size > s.limit total (s.replacedSize elsewhere path)
  · rw [replace, if_pos hle]
    exact hq
  obtain ⟨inode, hreplaced⟩ := replaced hfresh hle
  have hblocks := blocks_le_of_limit (Nat.not_lt.mp hle) hok
  rw [info_eq hq] at hblocks
  have hnew := hreplaced.size_eq
  -- whatever is freed, nothing but the new inode is counted that was not
  have hkept : (s.replace total elsewhere path size fresh).counted.toFinset ⊆
      insert inode s.counted.toFinset := by
    intro i hi
    rw [Finset.mem_insert]
    rcases mem_counted.mp hi with ⟨p, hfile, hp⟩ | ⟨h, file, hopen, rfl⟩
    · rcases hreplaced.files p i hfile with rfl | ⟨hfile, -⟩
      · exact .inl rfl
      · exact .inr (mem_counted_of_file hfile hp)
    · exact .inr (mem_counted_of_open (hreplaced.opens ▸ hopen))
  by_cases hgone : ∃ old, s.files.lookup path = some old ∧ s.retained elsewhere old = false
  · -- the old file is freed
    obtain ⟨old, hold, hretained⟩ := hgone
    have hfile := mem_of_lookup hold
    simp only [retained, Bool.or_eq_false_iff, decide_eq_false_iff_not] at hretained
    have hsub : (s.replace total elsewhere path size fresh).counted.toFinset ⊆
        insert inode (s.counted.toFinset.erase old) := by
      intro i hi
      by_cases hne : i = inode
      · exact hne ▸ Finset.mem_insert_self _ _
      · refine Finset.mem_insert_of_mem (Finset.mem_erase.mpr ⟨?_, ?_⟩)
        · rintro rfl
          rcases mem_counted.mp hi with ⟨p, hp, -⟩ | ⟨h, file, hopen, rfl⟩
          · rcases hreplaced.files p i hp with hsame | ⟨hp, hpath | ⟨hsame, -⟩⟩
            · exact hne hsame
            · exact hretained.1.1 (links_of_names hp hfile hpath)
            · exact hne (Option.some.inj (hold.symm.trans hsame))
          · have : s.isOpen file.inode = true :=
              List.any_eq_true.mpr ⟨(h, file), hreplaced.opens ▸ hopen, by simp⟩
            rw [this] at hretained
            exact Bool.noConfusion hretained.2
        · exact (Finset.mem_insert.mp (hkept hi)).resolve_left hne
    have hused := usedBlocks_insert (s := s) hsub hreplaced.others
    have hsize : s.replacedSize elsewhere path = s.size old := by
      simp only [replacedSize, hold, retained, hretained, decide_false, Bool.or_self, Bool.false_eq_true, if_false]
    have herase : _ = s.usedBlocks :=
      sum_erase_add (fun i => blocks (s.size i)) (mem_counted_of_file hfile hname)
    have hsmaller := sum_erase_le (fun i => blocks (s.size i)) (s.counted.toFinset.erase old) inode
    rw [hnew] at hused
    rw [hsize] at hblocks
    omega
  · -- there is no old file, or it stays and is not charged against the limit
    have hzero : s.replacedSize elsewhere path = 0 := by
      unfold replacedSize
      split
      · rfl
      · rename_i old hold
        rw [if_pos]
        by_contra hretained
        exact hgone ⟨old, hold, Bool.not_eq_true _ ▸ hretained⟩
    have hused := usedBlocks_insert (s := s) hkept hreplaced.others
    have hsmaller : _ ≤ s.usedBlocks := sum_erase_le (fun i => blocks (s.size i)) _ inode
    rw [hzero, show blocks 0 = 0 from rfl] at hblocks
    rw [hnew] at hused
    omega

theorem step_quota (hq : s.usedBlocks ≤ total) {c : StorageCall}
    (hok : s.Careful total elsewhere c) (hs : s.step total elsewhere c = some s') : s'.usedBlocks ≤ total := by
  have hopened : ∀ {handle : ℕ} {f : OpenFile → Storage}, (s.opens.lookup handle).map f = some s' →
        ∃ file, s.opens.lookup handle = some file ∧ f file = s' := fun h => Option.map_eq_some_iff.mp h
  cases c with
  | openWritable handle path create truncate fresh =>
    simp only [step] at hs
    split at hs
    · obtain rfl := Option.some.inj hs
      exact openWritable_quota hq _ _ _ _ _
    · cases hs
  | openRead handle path =>
    obtain rfl := Option.some.inj hs
    exact openRead_quota hq _ _
  | close handle =>
    obtain rfl := Option.some.inj hs
    exact close_quota hq _
  | seek handle position =>
    obtain ⟨file, hlookup, rfl⟩ := hopened hs
    have hcounted := mem_counted_of_open (mem_of_lookup hlookup)
    exact Nat.le_trans (usedBlocks_le (s := s) (moveTo_counted hcounted) rfl) hq
  | write handle size =>
    obtain ⟨file, hlookup, rfl⟩ := hopened hs
    exact write_quota hq (mem_of_lookup hlookup) fun hsize => hok hsize file hlookup
  | truncate handle length =>
    obtain ⟨file, hlookup, rfl⟩ := hopened hs
    exact truncateUnlocked_quota hq (mem_counted_of_open (mem_of_lookup hlookup)) (hok file hlookup)
  | truncatePath path length =>
    obtain rfl := Option.some.inj hs
    unfold truncatePath
    split
    · exact hq
    · split
      · exact hq
      · rename_i hname
        split
        · exact hq
        · rename_i inode hlookup
          exact truncateUnlocked_quota hq
            (mem_counted_of_file (mem_of_lookup hlookup) (Bool.not_eq_true _ ▸ hname))
            (hok inode hlookup)
  | replace path size fresh =>
    simp only [step] at hs
    split at hs
    · rename_i hguard
      simp only [Bool.and_eq_true, Bool.not_eq_true'] at hguard
      obtain rfl := Option.some.inj hs
      exact replace_quota hq hguard.1 hguard.2 hok
    · cases hs
  | rename source target =>
    obtain rfl := Option.some.inj hs
    exact rename_quota hq _ _
  | remove path =>
    obtain rfl := Option.some.inj hs
    exact remove_quota hq _

/-! ## Refusals -/

theorem truncateUnlocked_refused {length : ℤ} (h : (s.truncateUnlocked total inode length).reply = .error .eNOSPC) :
    s.truncateUnlocked total inode length = s.fail .eNOSPC := by
  unfold truncateUnlocked at h ⊢
  split at h
  · cases h
  · split at h
    · rename_i hneg hfull
      rw [if_neg hneg, if_pos hfull]
    · cases h

theorem refusedSound_fail (c : StorageCall) (e : StorageError) :
    s.RefusedSound total c (s.fail e) := fun _ => ⟨rfl, rfl, rfl, rfl⟩

theorem step_refused {c : StorageCall} (hs : s.step total elsewhere c = some s') : s.RefusedSound total c s' := by
  have hopened : ∀ {handle : ℕ} {f : OpenFile → Storage}, (s.opens.lookup handle).map f = some s' →
        ∃ file, s.opens.lookup handle = some file ∧ f file = s' := fun h => Option.map_eq_some_iff.mp h
  intro hreply
  suffices hfail : s' = s.fail .eNOSPC by
    rw [hfail]
    exact refusedSound_fail c .eNOSPC rfl
  cases c with
  | openWritable handle path create truncate fresh =>
    simp only [step] at hs
    split at hs
    · obtain rfl := Option.some.inj hs
      unfold openWritable at hreply
      split at hreply
      · cases hreply
      · split at hreply
        · cases hreply
        · split at hreply <;> cases hreply
    · cases hs
  | openRead handle path =>
    obtain rfl := Option.some.inj hs
    unfold openRead at hreply
    split at hreply
    · cases hreply
    · split at hreply <;> cases hreply
  | close handle =>
    obtain rfl := Option.some.inj hs
    cases hreply
  | seek handle position =>
    obtain ⟨file, -, rfl⟩ := hopened hs
    cases hreply
  | write handle size =>
    obtain ⟨file, -, rfl⟩ := hopened hs
    unfold write at hreply ⊢
    split at hreply
    · cases hreply
    · split at hreply
      · cases hreply
      · dsimp only at hreply
        split at hreply
        · rename_i hsize hbig hfull
          rw [if_neg hsize, if_neg hbig, if_pos hfull]
        · cases hreply
  | truncate handle length =>
    obtain ⟨file, -, rfl⟩ := hopened hs
    exact truncateUnlocked_refused hreply
  | truncatePath path length =>
    obtain rfl := Option.some.inj hs
    unfold truncatePath at hreply ⊢
    split at hreply
    · cases hreply
    · split at hreply
      · cases hreply
      · rename_i hneg hname
        rw [if_neg hneg, if_neg hname]
        split at hreply
        · cases hreply
        · exact truncateUnlocked_refused hreply
  | replace path size fresh =>
    simp only [step] at hs
    split at hs
    · obtain rfl := Option.some.inj hs
      unfold replace at hreply ⊢
      split at hreply
      · rename_i hfull
        rw [if_pos hfull]
      · cases hreply
    · cases hs
  | rename source target =>
    obtain rfl := Option.some.inj hs
    unfold rename at hreply
    split at hreply
    · cases hreply
    · split at hreply <;> cases hreply
  | remove path =>
    obtain rfl := Option.some.inj hs
    unfold remove at hreply
    split at hreply
    · cases hreply
    · split at hreply <;> cases hreply

end Quota

end Storage

/-! ## Runs -/

/-- No files. -/
def emptyStorage : Storage := ⟨[], fun _ => 0, [], .none⟩

/-- A file is written, replaced while it is open, renamed over and removed; the last block is
refused. -/
def fullRun : List StorageCall :=
  [.openWritable 1 "a" true false 0, .write 1 32768, .replace "a" 32769 1, .write 1 1,
    .openWritable 2 "b" true false 2, .rename "b" "a", .close 1, .write 2 40000, .remove "a",
    .write 2 60000]

end Prosperity.Kern
