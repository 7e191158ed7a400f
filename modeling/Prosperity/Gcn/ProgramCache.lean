import Mathlib.Logic.Function.Basic
import Prosperity.Foundations.Execution
import Prosperity.Gcn.Decode

/-!
# The program cache

`CachedProgram` and `CachedCodeHash`: decoded shaders and code hashes by guest address, read
anew once in a generation. The guest rewrites its code at any time.
-/

set_option linter.unusedSectionVars false

namespace Prosperity.Gcn

universe u

/-! ## The lookups -/

/-- The guest's memory by bytes, and which ranges of it `IsReadableRange` accepts. -/
structure GuestMemory where
  byte : ℕ → UInt8
  readable : ℕ → ℕ → Bool

namespace GuestMemory

/-- The dwords at an address. -/
def code (m : GuestMemory) (addr : ℕ) : Code := fun d =>
  let a := addr + 4 * d
  (m.byte a).toNat + 2 ^ 8 * (m.byte (a + 1)).toNat + 2 ^ 16 * (m.byte (a + 2)).toNat + 2 ^ 24 * (m.byte (a + 3)).toNat

/-- The first dwords at an address, all that `HashCode` reads. -/
def span (m : GuestMemory) (addr dwords : ℕ) : List ℕ := (List.range dwords).map (m.code addr)

end GuestMemory

/-- `Entry` of `CachedProgram`. -/
structure ProgramEntry (κ : Type u) where
  hash : κ
  hashedDwords : ℕ
  generation : ℕ
  mode : IsaMode
  program : Program

/-- `Entry` of `CachedCodeHash`. -/
structure HashEntry (κ : Type u) where
  hash : κ
  generation : ℕ

structure ProgramCache (κ : Type u) where
  generation : ℕ
  programs : List (ℕ × ProgramEntry κ)
  hashes : List (ℕ × HashEntry κ)

def assign {α : Type u} (addr : ℕ) (entry : α) (cache : List (ℕ × α)) : List (ℕ × α) :=
  (addr, entry) :: cache.filter fun kv => kv.1 ≠ addr

section Lookups

variable {κ : Type u} [DecidableEq κ] [Inhabited κ] (hash : List ℕ → κ) (mode : IsaMode)

def ProgramCache.init : ProgramCache κ := ⟨1, [], []⟩

def nextProgramCacheGeneration (c : ProgramCache κ) : ProgramCache κ :=
  { c with generation := c.generation + 1 }

/-- `CodeLength` of the code at an address. -/
def lengthAt (m : GuestMemory) (addr maxDwords : ℕ) : ℕ :=
  codeLength (m.readable addr) (m.code addr) maxDwords

/-- `DecodeShader` of the code at an address, none at the null pointer. -/
def decodeAt (m : GuestMemory) (addr maxDwords : ℕ) : Program :=
  if addr = 0 then [] else decodeShader (m.readable addr) (m.code addr) maxDwords mode

/-- `hashed`: how many dwords validate a program. -/
def windowLength (m : GuestMemory) (addr maxDwords : ℕ) : ℕ :=
  let len := lengthAt m addr maxDwords
  if len ≠ 0 then len else if maxDwords < 64 then maxDwords else 64

def window (m : GuestMemory) (addr maxDwords : ℕ) : List ℕ :=
  m.span addr (windowLength m addr maxDwords)

def freshProgram (c : ProgramCache κ) (addr : ℕ) : Option (ProgramEntry κ) :=
  (c.programs.lookup addr).filter fun e => e.generation = c.generation && e.mode = mode

/-- The unbounded-growth backstop. -/
def trim (c : ProgramCache κ) : List (ℕ × ProgramEntry κ) :=
  if 4096 < c.programs.length then
    let kept := c.programs.filter fun kv => ¬kv.2.generation + 60 < c.generation
    if 16384 < kept.length then [] else kept
  else c.programs

def cachedProgram (m : GuestMemory) (c : ProgramCache κ) (addr maxDwords : ℕ) : Program × ProgramCache κ :=
  if addr = 0 then ([], c)
  else
    match freshProgram mode c addr with
    | some e => (e.program, c)
    | none =>
      let hashed := windowLength m addr maxDwords
      let h := hash (m.span addr hashed)
      match (c.programs.lookup addr).filter fun e =>
        e.mode = mode && e.hash = h && e.hashedDwords = hashed with
      | some e =>
        (e.program,
          { c with programs := assign addr { e with generation := c.generation } c.programs })
      | none =>
        let program := decodeAt mode m addr maxDwords
        (program,
          { c with programs := assign addr ⟨h, hashed, c.generation, mode, program⟩ (trim c) })

/-- `s_endpgm`, or a jump by `s_setpc` or `s_swappc`. -/
def endsHash (inst : Inst) : Bool :=
  isEndpgm inst || inst.enc = .kSop1 && (inst.opcode = 0x20 || inst.opcode = 0x21)

def hashLength (program : Program) (maxDwords : ℕ) : ℕ :=
  match program.find? endsHash with
  | some inst => inst.pc + inst.size
  | none => maxDwords

/-- The entry that the fast path of `CachedCodeHash` returns. -/
def freshHash (c : ProgramCache κ) (addr : ℕ) : Option (HashEntry κ) :=
  (c.hashes.lookup addr).filter fun e => e.generation = c.generation

/-- `CachedCodeHash`; `default` is its 0 for the null pointer. -/
def cachedCodeHash (m : GuestMemory) (c : ProgramCache κ) (addr maxDwords : ℕ) : κ × ProgramCache κ :=
  if addr = 0 then (default, c)
  else
    match freshHash c addr with
    | some e => (e.hash, c)
    | none =>
      let len := lengthAt m addr maxDwords
      let (len, c) :=
        if len ≠ 0 then (len, c)
        else
          let (program, c) := cachedProgram hash mode m c addr maxDwords
          (hashLength program maxDwords, c)
      let h := hash (m.span addr len)
      let kept := if 4096 < c.hashes.length then [] else c.hashes
      (h, { c with hashes := assign addr ⟨h, c.generation⟩ kept })

end Lookups

/-! ## Histories -/

/-- What the guest and the renderer do: the guest rewrites its memory, a generation begins, and
the lookups. -/
inductive CacheEvent where
  | rewrite (m : GuestMemory)
  | nextGeneration
  | program (addr maxDwords : ℕ)
  | codeHash (addr maxDwords : ℕ)

inductive CacheReply (κ : Type u) where
  | none
  | program (program : Program)
  | hash (h : κ)
  deriving DecidableEq

structure Reading where
  mem : GuestMemory
  programMem : GuestMemory
  maxDwords : ℕ

/-- The answer of `CachedCodeHash` to the first lookup of an address in a generation. -/
structure HashRecord (κ : Type u) where
  mem : GuestMemory
  addr : ℕ
  maxDwords : ℕ
  answer : κ

/-- A cache, and beside it what has been looked up. -/
structure History (κ : Type u) where
  mem : GuestMemory
  cache : ProgramCache κ
  reply : CacheReply κ
  seen : List (ℕ × GuestMemory)
  /-- The last time `CachedProgram` read the code of an address. -/
  programRead : ℕ → Option Reading
  /-- The last time `CachedCodeHash` read the code of an address. -/
  hashRead : ℕ → Option Reading
  hashed : List (HashRecord κ)

section Text

variable (mode : IsaMode)

def text (m : GuestMemory) (addr maxDwords : ℕ) : List ℕ :=
  textOf (m.code addr) (decodeAt mode m addr maxDwords)

/-- The dwords that `CachedCodeHash` hashes in `m`, their number from the program in `m'`. -/
def hashSpan (m m' : GuestMemory) (addr maxDwords : ℕ) : List ℕ :=
  let len := lengthAt m addr maxDwords
  m.span addr (if len ≠ 0 then len else hashLength (decodeAt mode m' addr maxDwords) maxDwords)

end Text

namespace History

variable {κ : Type u} [DecidableEq κ] [Inhabited κ] (hash : List ℕ → κ) (mode : IsaMode)

def init (m : GuestMemory) : History κ :=
  ⟨m, ProgramCache.init, .none, [], fun _ => none, fun _ => none, []⟩

/-- Nothing has looked the address up in this generation. -/
def First (h : History κ) (addr : ℕ) : Prop := addr ∉ h.seen.map Prod.fst

instance (h : History κ) (addr : ℕ) : Decidable (h.First addr) :=
  inferInstanceAs (Decidable (addr ∉ h.seen.map Prod.fst))

/-- The bookkeeping of `CachedProgram`. -/
def readProgram (h : History κ) (addr maxDwords : ℕ) : ℕ → Option Reading :=
  if (freshProgram mode h.cache addr).isSome then h.programRead
  else Function.update h.programRead addr (some ⟨h.mem, h.mem, maxDwords⟩)

def programMem (h : History κ) (read : ℕ → Option Reading) (addr : ℕ) : GuestMemory :=
  match read addr with
  | some r => r.mem
  | none => h.mem

def lookProgram (h : History κ) (addr maxDwords : ℕ) : History κ :=
  let (program, cache) := cachedProgram hash mode h.mem h.cache addr maxDwords
  { h with
    cache
    reply := .program program
    seen := (addr, h.mem) :: h.seen
    programRead := h.readProgram mode addr maxDwords }

def readForHash (h : History κ) (addr maxDwords : ℕ) : GuestMemory × (ℕ → Option Reading) :=
  if lengthAt h.mem addr maxDwords ≠ 0 then (h.mem, h.programRead)
  else
    (h.programMem (h.readProgram mode addr maxDwords) addr, h.readProgram mode addr maxDwords)

def lookHash (h : History κ) (addr maxDwords : ℕ) : History κ :=
  let (answer, cache) := cachedCodeHash hash mode h.mem h.cache addr maxDwords
  if addr = 0 ∨ (freshHash h.cache addr).isSome then
    { h with cache, reply := .hash answer, seen := (addr, h.mem) :: h.seen }
  else
    let (programMem, programRead) := h.readForHash mode addr maxDwords
    { h with
      cache
      reply := .hash answer
      seen := (addr, h.mem) :: h.seen
      programRead
      hashRead := Function.update h.hashRead addr (some ⟨h.mem, programMem, maxDwords⟩)
      hashed := if h.First addr then ⟨h.mem, addr, maxDwords, answer⟩ :: h.hashed else h.hashed }

def step (h : History κ) : CacheEvent → History κ
  | .rewrite m => { h with mem := m, reply := .none }
  | .nextGeneration =>
    { h with cache := nextProgramCacheGeneration h.cache, reply := .none, seen := [] }
  | .program addr maxDwords => h.lookProgram hash mode addr maxDwords
  | .codeHash addr maxDwords => h.lookHash hash mode addr maxDwords

def system : LabelledSystem (History κ) CacheEvent where
  step h e := some (h.step hash mode e)

def CarefulProgram (h : History κ) (addr maxDwords : ℕ) : Prop :=
  ∀ r ∈ h.programRead addr, if (freshProgram mode h.cache addr).isSome then
      text mode r.mem addr maxDwords = text mode r.mem addr r.maxDwords
    else
      window h.mem addr maxDwords = window r.mem addr r.maxDwords →
        text mode h.mem addr maxDwords = text mode r.mem addr r.maxDwords

def CarefulHash (h : History κ) (addr maxDwords : ℕ) : Prop :=
  if (freshHash h.cache addr).isSome then
    ∀ r ∈ h.hashRead addr, hashSpan mode r.mem r.programMem addr maxDwords =
        hashSpan mode r.mem r.programMem addr r.maxDwords
  else
    (lengthAt h.mem addr maxDwords = 0 → h.CarefulProgram mode addr maxDwords) ∧
    (h.First addr → ∀ x ∈ h.hashed,
      hashSpan mode h.mem h.mem addr maxDwords = hashSpan mode x.mem x.mem x.addr x.maxDwords →
        text mode h.mem addr maxDwords = text mode x.mem x.addr x.maxDwords)

def Careful (h : History κ) : CacheEvent → Prop
  | .program addr maxDwords => h.CarefulProgram mode addr maxDwords
  | .codeHash addr maxDwords => addr ≠ 0 → h.CarefulHash mode addr maxDwords
  | _ => True

def LookupSound (h : History κ) : CacheEvent → History κ → Prop
  | .program addr maxDwords, h' =>
    (h.First addr → h'.reply = .program (decodeAt mode h.mem addr maxDwords)) ∧
      ∃ m, (addr, m) ∈ h'.seen ∧ h'.reply = .program (decodeAt mode m addr maxDwords)
  | .codeHash addr maxDwords, h' =>
    if addr = 0 then h'.reply = .hash default
    else
      (h.First addr → ∀ x ∈ h.hashed, h'.reply = .hash x.answer →
        decodeAt mode h.mem addr maxDwords = decodeAt mode x.mem x.addr x.maxDwords) ∧
        ∃ m m', (addr, m) ∈ h'.seen ∧ (addr, m') ∈ h'.seen ∧ h'.reply = .hash (hash (hashSpan mode m m' addr maxDwords))
  | _, _ => True

end History

/-! ## Soundness -/

section Soundness

variable {κ : Type u} [DecidableEq κ] [Inhabited κ] {hash : List ℕ → κ} {mode : IsaMode}
  {c : ProgramCache κ} {addr maxDwords : ℕ} {m : GuestMemory} {h : History κ}

theorem mem_of_lookup {α : Type u} {cache : List (ℕ × α)} {e : α}
    (h : cache.lookup addr = some e) : (addr, e) ∈ cache := by
  obtain ⟨before, after, rfl, -⟩ := List.lookup_eq_some_iff.mp h
  exact List.mem_append_right _ List.mem_cons_self

theorem mem_assign {α : Type u} {cache : List (ℕ × α)} {e : α} {x : ℕ × α}
    (h : x ∈ assign addr e cache) : x = (addr, e) ∨ x.1 ≠ addr ∧ x ∈ cache := by
  rcases List.mem_cons.mp h with h | h
  · exact .inl h
  · obtain ⟨hmem, hne⟩ := List.mem_filter.mp h
    exact .inr ⟨of_decide_eq_true hne, hmem⟩

theorem mem_trim {x : ℕ × ProgramEntry κ} (h : x ∈ trim c) : x ∈ c.programs := by
  unfold trim at h
  dsimp only at h
  split at h
  · split at h
    · cases h
    · exact List.mem_of_mem_filter h
  · exact h

theorem decodeAt_eq_of_text {m' : GuestMemory} {addr' maxDwords' : ℕ} (haddr : addr ≠ 0)
    (haddr' : addr' ≠ 0) (h : text mode m addr maxDwords = text mode m' addr' maxDwords') :
    decodeAt mode m addr maxDwords = decodeAt mode m' addr' maxDwords' := by
  simp only [text, decodeAt, if_neg haddr, if_neg haddr'] at h ⊢
  exact decodeShader_eq_of_text h

structure EntryOk (hash : List ℕ → κ) (mode : IsaMode) (generation : ℕ)
    (seen : List (ℕ × GuestMemory)) (read : ℕ → Option Reading) (addr : ℕ)
    (e : ProgramEntry κ) : Prop where
  addr_ne : addr ≠ 0
  mode_eq : e.mode = mode
  generation_le : e.generation ≤ generation
  reading : ∃ r, read addr = some r ∧ e.program = decodeAt mode r.mem addr r.maxDwords ∧
    e.hash = hash (window r.mem addr r.maxDwords) ∧
    e.hashedDwords = windowLength r.mem addr r.maxDwords ∧
    (e.generation = generation → (addr, r.mem) ∈ seen)

structure HashOk (hash : List ℕ → κ) (mode : IsaMode) (generation : ℕ)
    (seen : List (ℕ × GuestMemory)) (read : ℕ → Option Reading) (addr : ℕ)
    (e : HashEntry κ) : Prop where
  generation_le : e.generation ≤ generation
  reading : ∃ r, read addr = some r ∧ e.hash = hash (hashSpan mode r.mem r.programMem addr r.maxDwords) ∧
    (e.generation = generation → (addr, r.mem) ∈ seen ∧ (addr, r.programMem) ∈ seen)

def ProgramsOk (hash : List ℕ → κ) (mode : IsaMode) (c : ProgramCache κ)
    (seen : List (ℕ × GuestMemory)) (read : ℕ → Option Reading) : Prop :=
  ∀ x ∈ c.programs, EntryOk hash mode c.generation seen read x.1 x.2

def HashesOk (hash : List ℕ → κ) (mode : IsaMode) (c : ProgramCache κ)
    (seen : List (ℕ × GuestMemory)) (read : ℕ → Option Reading) : Prop :=
  ∀ x ∈ c.hashes, HashOk hash mode c.generation seen read x.1 x.2

theorem EntryOk.mono {generation : ℕ} {seen seen' : List (ℕ × GuestMemory)}
    {read : ℕ → Option Reading} {e : ProgramEntry κ} (hsub : seen ⊆ seen')
    (h : EntryOk hash mode generation seen read addr e) : EntryOk hash mode generation seen' read addr e := by
  obtain ⟨r, hr, hprogram, hhash, hlen, hseen⟩ := h.reading
  exact ⟨h.addr_ne, h.mode_eq, h.generation_le, r, hr, hprogram, hhash, hlen, fun hg => hsub (hseen hg)⟩

theorem EntryOk.of_read {generation : ℕ} {seen : List (ℕ × GuestMemory)}
    {read read' : ℕ → Option Reading} {e : ProgramEntry κ} (hread : read' addr = read addr)
    (h : EntryOk hash mode generation seen read addr e) : EntryOk hash mode generation seen read' addr e := by
  obtain ⟨r, hr, hrest⟩ := h.reading
  exact ⟨h.addr_ne, h.mode_eq, h.generation_le, r, hread.trans hr, hrest⟩

theorem freshProgram_some {e : ProgramEntry κ} (h : freshProgram mode c addr = some e) :
    (addr, e) ∈ c.programs ∧ e.generation = c.generation := by
  obtain ⟨hlookup, hfresh⟩ := Option.filter_eq_some_iff.mp h
  simp only [Bool.and_eq_true, decide_eq_true_eq] at hfresh
  exact ⟨mem_of_lookup hlookup, hfresh.1⟩

/-- What `CachedProgram` gives, and what it leaves in the cache. -/
structure ProgramSpec (hash : List ℕ → κ) (mode : IsaMode) (h : History κ) (addr maxDwords : ℕ) : Prop where
  program : (cachedProgram hash mode h.mem h.cache addr maxDwords).1 =
    decodeAt mode (h.programMem (h.readProgram mode addr maxDwords) addr) addr maxDwords
  seen : (addr, h.programMem (h.readProgram mode addr maxDwords) addr) ∈ (addr, h.mem) :: h.seen
  first : h.First addr → h.programMem (h.readProgram mode addr maxDwords) addr = h.mem
  programs : ProgramsOk hash mode (cachedProgram hash mode h.mem h.cache addr maxDwords).2
    ((addr, h.mem) :: h.seen) (h.readProgram mode addr maxDwords)
  generation : (cachedProgram hash mode h.mem h.cache addr maxDwords).2.generation = h.cache.generation
  hashes : (cachedProgram hash mode h.mem h.cache addr maxDwords).2.hashes = h.cache.hashes

theorem programSpec (hinj : Function.Injective hash)
    (hok : ProgramsOk hash mode h.cache h.seen h.programRead) (haddr : addr ≠ 0)
    (hcareful : h.CarefulProgram mode addr maxDwords) : ProgramSpec hash mode h addr maxDwords := by
  cases hfresh : freshProgram mode h.cache addr with
  | some e =>
    -- the code has been read in this generation
    obtain ⟨hmem, hgen⟩ := freshProgram_some hfresh
    obtain ⟨r, hr, hprogram, -, -, hseen⟩ := (hok _ hmem).reading
    have hresult : cachedProgram hash mode h.mem h.cache addr maxDwords = (e.program, h.cache) := by
      rw [cachedProgram, if_neg haddr, hfresh]
    have hread : h.readProgram mode addr maxDwords = h.programRead := by
      rw [History.readProgram, hfresh]
      rfl
    have hprogramMem : h.programMem h.programRead addr = r.mem := by
      rw [History.programMem, hr]
    have htext := hcareful r hr
    rw [hfresh, Option.isSome_some, if_pos rfl] at htext
    constructor
    · rw [hresult, hread, hprogramMem, hprogram]
      exact (decodeAt_eq_of_text haddr haddr htext).symm
    · rw [hread, hprogramMem]
      exact List.mem_cons_of_mem _ (hseen hgen)
    · intro hfirst
      exact absurd (List.mem_map_of_mem (hseen hgen)) hfirst
    · rw [hresult, hread]
      exact fun x hx => (hok x hx).mono (List.subset_cons_self _ _)
    · rw [hresult]
    · rw [hresult]
  | none =>
    have hread : h.readProgram mode addr maxDwords =
        Function.update h.programRead addr (some ⟨h.mem, h.mem, maxDwords⟩) := by
      rw [History.readProgram, hfresh]
      rfl
    have hprogramMem : h.programMem (Function.update h.programRead addr (some ⟨h.mem, h.mem, maxDwords⟩)) addr =
          h.mem := by
      rw [History.programMem, Function.update_self]
    have hother : ∀ x ∈ h.cache.programs, x.1 ≠ addr → EntryOk hash mode h.cache.generation ((addr, h.mem) :: h.seen)
          (Function.update h.programRead addr (some ⟨h.mem, h.mem, maxDwords⟩)) x.1 x.2 := by
      intro x hx hne
      exact ((hok x hx).mono (List.subset_cons_self _ _)).of_read (Function.update_of_ne hne _ _)
    have hresult : ∃ e entries, cachedProgram hash mode h.mem h.cache addr maxDwords =
          (decodeAt mode h.mem addr maxDwords,
            { h.cache with programs := assign addr e entries }) ∧
        (∀ x ∈ entries, x ∈ h.cache.programs) ∧ e.mode = mode ∧
        e.generation = h.cache.generation ∧ e.program = decodeAt mode h.mem addr maxDwords ∧
        e.hash = hash (window h.mem addr maxDwords) ∧
        e.hashedDwords = windowLength h.mem addr maxDwords := by
      rw [cachedProgram, if_neg haddr, hfresh]
      dsimp only
      split
      · -- the entry is validated by its hash
        rename_i e he
        obtain ⟨hlookup, hvalid⟩ := Option.filter_eq_some_iff.mp he
        simp only [Bool.and_eq_true, decide_eq_true_eq] at hvalid
        obtain ⟨⟨hmode, hhash⟩, hlen⟩ := hvalid
        obtain ⟨r, hr, hprogram, hentry, -, -⟩ := (hok _ (mem_of_lookup hlookup)).reading
        have htext := hcareful r hr
        rw [hfresh] at htext
        have hsame := htext (hinj (hhash.symm.trans hentry))
        have hdecode : e.program = decodeAt mode h.mem addr maxDwords :=
          hprogram.trans (decodeAt_eq_of_text haddr haddr hsame).symm
        refine ⟨{ e with generation := h.cache.generation }, h.cache.programs, ?_, fun x hx => hx,
          hmode, rfl, hdecode, hhash, hlen⟩
        rw [hdecode]
      · exact ⟨⟨_, _, _, _, _⟩, trim h.cache, rfl, fun x hx => mem_trim hx, rfl, rfl, rfl, rfl, rfl⟩
    obtain ⟨e, entries, hresult, hsub, hmode, hgen, hprogram, hhash, hlen⟩ := hresult
    constructor
    · rw [hresult, hread, hprogramMem]
    · rw [hread, hprogramMem]
      exact List.mem_cons_self
    · intro _
      rw [hread, hprogramMem]
    · rw [hresult, hread]
      intro x hx
      rcases mem_assign hx with rfl | ⟨hne, hx⟩
      · exact ⟨haddr, hmode, Nat.le_of_eq hgen, ⟨h.mem, h.mem, maxDwords⟩,
          Function.update_self _ _ _, hprogram, hhash, hlen, fun _ => List.mem_cons_self⟩
      · exact hother x (hsub x hx) hne
    · rw [hresult]
    · rw [hresult]

theorem HashOk.mono {generation : ℕ} {seen seen' : List (ℕ × GuestMemory)}
    {read : ℕ → Option Reading} {e : HashEntry κ} (hsub : seen ⊆ seen')
    (h : HashOk hash mode generation seen read addr e) : HashOk hash mode generation seen' read addr e := by
  obtain ⟨r, hr, hhash, hseen⟩ := h.reading
  exact ⟨h.generation_le, r, hr, hhash, fun hg => ⟨hsub (hseen hg).1, hsub (hseen hg).2⟩⟩

theorem HashOk.of_read {generation : ℕ} {seen : List (ℕ × GuestMemory)}
    {read read' : ℕ → Option Reading} {e : HashEntry κ} (hread : read' addr = read addr)
    (h : HashOk hash mode generation seen read addr e) : HashOk hash mode generation seen read' addr e := by
  obtain ⟨r, hr, hrest⟩ := h.reading
  exact ⟨h.generation_le, r, hread.trans hr, hrest⟩

theorem freshHash_some {e : HashEntry κ} (h : freshHash c addr = some e) :
    (addr, e) ∈ c.hashes ∧ e.generation = c.generation := by
  obtain ⟨hlookup, hfresh⟩ := Option.filter_eq_some_iff.mp h
  exact ⟨mem_of_lookup hlookup, of_decide_eq_true hfresh⟩

structure Inv (hash : List ℕ → κ) (mode : IsaMode) (h : History κ) : Prop where
  programs : ProgramsOk hash mode h.cache h.seen h.programRead
  hashes : HashesOk hash mode h.cache h.seen h.hashRead
  hashed : ∀ x ∈ h.hashed, x.addr ≠ 0 ∧ x.answer = hash (hashSpan mode x.mem x.mem x.addr x.maxDwords)

theorem cachedCodeHash_spec (hinj : Function.Injective hash) (hinv : Inv hash mode h)
    (haddr : addr ≠ 0) (hfresh : freshHash h.cache addr = none)
    (hcareful : lengthAt h.mem addr maxDwords = 0 → h.CarefulProgram mode addr maxDwords) :
    ∃ c' kept, cachedCodeHash hash mode h.mem h.cache addr maxDwords =
        (hash (hashSpan mode h.mem (h.readForHash mode addr maxDwords).1 addr maxDwords),
          { c' with hashes := assign addr ⟨hash (hashSpan mode h.mem
            (h.readForHash mode addr maxDwords).1 addr maxDwords), h.cache.generation⟩ kept }) ∧
      (∀ x ∈ kept, x ∈ h.cache.hashes) ∧ c'.generation = h.cache.generation ∧
      ProgramsOk hash mode c' ((addr, h.mem) :: h.seen) (h.readForHash mode addr maxDwords).2 ∧
      (addr, (h.readForHash mode addr maxDwords).1) ∈ (addr, h.mem) :: h.seen ∧
      (h.First addr → (h.readForHash mode addr maxDwords).1 = h.mem) := by
  have hkept : ∀ c' : ProgramCache κ, c'.hashes = h.cache.hashes →
      ∀ x ∈ (if 4096 < c'.hashes.length then [] else c'.hashes), x ∈ h.cache.hashes := by
    intro c' hc' x hx
    split at hx
    · cases hx
    · exact hc' ▸ hx
  by_cases hlen : lengthAt h.mem addr maxDwords = 0
  · -- without a footer the program says where the code ends
    have hspec := programSpec hinj hinv.programs haddr (hcareful hlen)
    have hread : h.readForHash mode addr maxDwords = (h.programMem (h.readProgram mode addr maxDwords) addr,
          h.readProgram mode addr maxDwords) := by
      rw [History.readForHash, if_neg (not_not.mpr hlen)]
    refine ⟨(cachedProgram hash mode h.mem h.cache addr maxDwords).2, _, ?_, hkept _ hspec.hashes,
      hspec.generation, ?_, ?_, ?_⟩
    · simp only [cachedCodeHash, if_neg haddr, hfresh, hlen, ne_eq, not_true_eq_false, if_false,
        hspec.generation, hspec.program, hashSpan, hread]
    · rw [hread]
      exact hspec.programs
    · rw [hread]
      exact hspec.seen
    · intro hfirst
      rw [hread]
      exact hspec.first hfirst
  · have hread : h.readForHash mode addr maxDwords = (h.mem, h.programRead) := by
      rw [History.readForHash, if_pos hlen]
    refine ⟨h.cache, _, ?_, hkept _ rfl, rfl, ?_, ?_, ?_⟩
    · simp only [cachedCodeHash, if_neg haddr, hfresh, hlen, ne_eq, not_false_eq_true, if_true, hashSpan]
    · rw [hread]
      exact fun x hx => (hinv.programs x hx).mono (List.subset_cons_self _ _)
    · rw [hread]
      exact List.mem_cons_self
    · intro _
      rw [hread]

theorem look_hash_good (hinj : Function.Injective hash) (hinv : Inv hash mode h)
    (hok : History.Careful mode h (.codeHash addr maxDwords)) :
    Inv hash mode (h.lookHash hash mode addr maxDwords) ∧ History.LookupSound hash mode h (.codeHash addr maxDwords)
        (h.lookHash hash mode addr maxDwords) := by
  have hsub : h.seen ⊆ (addr, h.mem) :: h.seen := List.subset_cons_self _ _
  by_cases haddr : addr = 0
  · have hlook : h.lookHash hash mode addr maxDwords =
        { h with reply := .hash default, seen := (addr, h.mem) :: h.seen } := by
      simp only [History.lookHash, cachedCodeHash, true_or, haddr, if_true]
    rw [hlook]
    refine ⟨⟨fun x hx => (hinv.programs x hx).mono hsub,
      fun x hx => (hinv.hashes x hx).mono hsub, hinv.hashed⟩, ?_⟩
    simp only [History.LookupSound, if_pos haddr]
  have hcareful := hok haddr
  unfold History.CarefulHash at hcareful
  cases hfresh : freshHash h.cache addr with
  | some e =>
    -- the code has been hashed in this generation
    obtain ⟨hmem, hgen⟩ := freshHash_some hfresh
    obtain ⟨r, hr, hhash, hseen⟩ := (hinv.hashes _ hmem).reading
    have hlook : h.lookHash hash mode addr maxDwords =
        { h with reply := .hash e.hash, seen := (addr, h.mem) :: h.seen } := by
      simp only [History.lookHash, cachedCodeHash, if_neg haddr, hfresh, Option.isSome_some, or_true, if_true]
    rw [hfresh, Option.isSome_some, if_pos rfl] at hcareful
    rw [hlook]
    refine ⟨⟨fun x hx => (hinv.programs x hx).mono hsub,
      fun x hx => (hinv.hashes x hx).mono hsub, hinv.hashed⟩, ?_⟩
    simp only [History.LookupSound, if_neg haddr]
    constructor
    · intro hfirst
      exact absurd (List.mem_map_of_mem (hseen hgen).1) hfirst
    · refine ⟨r.mem, r.programMem, hsub (hseen hgen).1, hsub (hseen hgen).2, ?_⟩
      rw [hcareful r hr, ← hhash]
  | none =>
    rw [hfresh, Option.isSome_none, if_neg Bool.false_ne_true] at hcareful
    obtain ⟨c', kept, hresult, hkept, hgen, hprograms, hseen, hfirst⟩ :=
      cachedCodeHash_spec hinj hinv haddr hfresh hcareful.1
    have hlook : h.lookHash hash mode addr maxDwords =
        { h with
          cache := { c' with hashes := assign addr ⟨hash (hashSpan mode h.mem
            (h.readForHash mode addr maxDwords).1 addr maxDwords), h.cache.generation⟩ kept }
          reply := .hash (hash (hashSpan mode h.mem (h.readForHash mode addr maxDwords).1 addr
            maxDwords))
          seen := (addr, h.mem) :: h.seen
          programRead := (h.readForHash mode addr maxDwords).2
          hashRead := Function.update h.hashRead addr
            (some ⟨h.mem, (h.readForHash mode addr maxDwords).1, maxDwords⟩)
          hashed := if h.First addr then ⟨h.mem, addr, maxDwords, hash (hashSpan mode h.mem
            (h.readForHash mode addr maxDwords).1 addr maxDwords)⟩ :: h.hashed else h.hashed } := by
      simp only [History.lookHash, hresult, hfresh, haddr, Option.isSome_none, Bool.false_eq_true, or_self, if_false]
    rw [hlook]
    refine ⟨⟨hprograms, ?_, ?_⟩, ?_⟩
    · intro x hx
      rcases mem_assign hx with rfl | ⟨hne, hx⟩
      · exact ⟨Nat.le_of_eq hgen.symm, _, Function.update_self _ _ _, rfl, fun _ => ⟨List.mem_cons_self, hseen⟩⟩
      · have hold := ((hinv.hashes x (hkept x hx)).mono hsub).of_read
          (Function.update_of_ne hne (some ⟨h.mem, (h.readForHash mode addr maxDwords).1, maxDwords⟩) h.hashRead)
        rw [← hgen] at hold
        exact hold
    · intro x hx
      dsimp only at hx
      split at hx
      · rename_i hf
        rcases List.mem_cons.mp hx with rfl | hx
        · refine ⟨haddr, ?_⟩
          rw [hfirst hf]
        · exact hinv.hashed x hx
      · exact hinv.hashed x hx
    · simp only [History.LookupSound, if_neg haddr]
      refine ⟨fun hf x hx hreply => ?_, h.mem, _, List.mem_cons_self, hseen, rfl⟩
      obtain ⟨hx0, hanswer⟩ := hinv.hashed x hx
      have hspans := hinj ((CacheReply.hash.inj hreply).trans hanswer)
      rw [hfirst hf] at hspans
      exact decodeAt_eq_of_text haddr hx0 (hcareful.2 hf x hx hspans)

theorem look_program_good (hinj : Function.Injective hash) (hinv : Inv hash mode h)
    (hok : History.Careful mode h (.program addr maxDwords)) :
    Inv hash mode (h.lookProgram hash mode addr maxDwords) ∧ History.LookupSound hash mode h (.program addr maxDwords)
        (h.lookProgram hash mode addr maxDwords) := by
  have hsub : h.seen ⊆ (addr, h.mem) :: h.seen := List.subset_cons_self _ _
  by_cases haddr : addr = 0
  · have hresult : cachedProgram hash mode h.mem h.cache addr maxDwords = ([], h.cache) := by
      rw [cachedProgram, if_pos haddr]
    have hempty : ∀ m, decodeAt mode m addr maxDwords = [] := by
      intro m
      rw [decodeAt, if_pos haddr]
    refine ⟨⟨?_, ?_, hinv.hashed⟩, ?_⟩
    · simp only [History.lookProgram, hresult]
      intro x hx
      refine ((hinv.programs x hx).mono hsub).of_read ?_
      have hne : x.1 ≠ addr := haddr ▸ (hinv.programs x hx).addr_ne
      unfold History.readProgram
      split
      · rfl
      · exact Function.update_of_ne hne _ _
    · simp only [History.lookProgram, hresult]
      exact fun x hx => (hinv.hashes x hx).mono hsub
    · simp only [History.LookupSound, History.lookProgram, hresult, hempty]
      exact ⟨fun _ => trivial, h.mem, List.mem_cons_self, trivial⟩
  · have hspec := programSpec hinj hinv.programs haddr hok
    refine ⟨⟨hspec.programs, ?_, hinv.hashed⟩, ?_, ?_⟩
    · intro x hx
      have hx' : x ∈ h.cache.hashes := hspec.hashes ▸ hx
      have := (hinv.hashes x hx').mono hsub
      rw [← hspec.generation] at this
      exact this
    · intro hfirst
      have := hspec.program
      rw [hspec.first hfirst] at this
      exact congrArg _ this
    · exact ⟨_, hspec.seen, congrArg _ hspec.program⟩

theorem Inv.init (m : GuestMemory) : Inv hash mode (History.init m : History κ) where
  programs _ hx := absurd hx List.not_mem_nil
  hashes _ hx := absurd hx List.not_mem_nil
  hashed _ hx := absurd hx List.not_mem_nil

theorem step_good (hinj : Function.Injective hash) (hinv : Inv hash mode h) {e : CacheEvent}
    (hok : History.Careful mode h e) :
    Inv hash mode (h.step hash mode e) ∧ History.LookupSound hash mode h e (h.step hash mode e) := by
  cases e with
  | rewrite m => exact ⟨⟨hinv.programs, hinv.hashes, hinv.hashed⟩, trivial⟩
  | nextGeneration =>
    refine ⟨⟨?_, ?_, hinv.hashed⟩, trivial⟩
    · intro x hx
      obtain ⟨r, hr, hprogram, hhash, hlen, -⟩ := (hinv.programs x hx).reading
      have hle := (hinv.programs x hx).generation_le
      refine ⟨(hinv.programs x hx).addr_ne, (hinv.programs x hx).mode_eq, Nat.le_succ_of_le hle,
        r, hr, hprogram, hhash, hlen, fun hg => ?_⟩
      -- no entry is of the generation that begins
      exact absurd (hg ▸ hle) (Nat.not_succ_le_self _)
    · intro x hx
      obtain ⟨r, hr, hhash, -⟩ := (hinv.hashes x hx).reading
      have hle := (hinv.hashes x hx).generation_le
      refine ⟨Nat.le_succ_of_le hle, r, hr, hhash, fun hg => ?_⟩
      exact absurd (hg ▸ hle) (Nat.not_succ_le_self _)
  | program addr maxDwords => exact look_program_good hinj hinv hok
  | codeHash addr maxDwords => exact look_hash_good hinj hinv hok

/-- **In a run of careful lookups every answer is sound**, for a hash without collisions. -/
theorem lookups_sound (hinj : Function.Injective hash) {m : GuestMemory} {ls : List CacheEvent}
    (hok : (History.system hash mode).Meets (History.Careful mode) (History.init m) ls) :
    (History.system hash mode).EveryStep (History.LookupSound hash mode) (History.init m) ls := by
  have hinit : Inv hash mode (History.init m) := Inv.init m
  refine (History.system hash mode).everyStep_of_invariant ?_ ?_ hinit hok
  · intro h e h' hinv hok hs
    obtain rfl := Option.some.inj hs
    exact (step_good hinj hinv hok).1
  · intro h e h' hinv hok hs
    obtain rfl := Option.some.inj hs
    exact (step_good hinj hinv hok).2

end Soundness

section Runs

instance {κ : Type u} (mode : IsaMode) (h : History κ) (addr maxDwords : ℕ) :
    Decidable (h.CarefulProgram mode addr maxDwords) :=
  inferInstanceAs (Decidable (∀ r ∈ h.programRead addr, ite _ _ _))

instance {κ : Type u} (mode : IsaMode) (h : History κ) (addr maxDwords : ℕ) :
    Decidable (h.CarefulHash mode addr maxDwords) :=
  inferInstanceAs (Decidable (ite _ (∀ r ∈ h.hashRead addr, _ = _)
    ((_ → h.CarefulProgram mode addr maxDwords) ∧ (_ → ∀ x ∈ h.hashed, _ → _))))

instance {κ : Type u} (mode : IsaMode) (h : History κ) : DecidablePred (History.Careful mode h)
  | .rewrite _ | .nextGeneration => isTrue trivial
  | .program addr maxDwords => inferInstanceAs (Decidable (h.CarefulProgram mode addr maxDwords))
  | .codeHash addr maxDwords => inferInstanceAs (Decidable (_ → h.CarefulHash mode addr maxDwords))

/-- A guest that wrote `bytes` from the address 4 on, and nothing else. -/
def guestWith (bytes : List UInt8) : GuestMemory :=
  ⟨fun a => if a < 4 then 0 else bytes.getD (a - 4) 0, fun _ _ => true⟩

def shortShader : List CacheEvent :=
  [.codeHash 4 6, .program 4 5, .rewrite (guestWith [1, 0, 0, 0, 0, 0, 0x81, 0xBF]),
    .nextGeneration, .codeHash 4 6, .program 4 6]

theorem sound_shortShader : (History.system Option.some .kBase).EveryStep (History.LookupSound Option.some .kBase)
      (History.init (guestWith [2, 0, 0, 0, 0, 0, 0x81, 0xBF])) shortShader :=
  lookups_sound (Option.some_injective _) (by decide +kernel)

/-- Dwords of `v_cndmask_b32`, the 65th of which can be another. -/
def longShader (b : UInt8) : GuestMemory := ⟨fun a => if a = 260 then b else 0, fun _ _ => true⟩

def lastDword : CacheReply (Option (List ℕ)) → Option ℕ
  | .program program => program[64]?.map Inst.raw0
  | _ => none

/-- **The window of 64 dwords hides a rewrite.** A shader without a footer is looked up, rewritten
behind its 64th dword, and looked up in the next generation. -/
theorem stale_after_rewrite : ¬(History.system Option.some .kBase).EveryStep (History.LookupSound Option.some .kBase)
      (History.init (longShader 0)) [.program 4 65, .rewrite (longShader 1), .nextGeneration, .program 4 65] := by
  intro h
  obtain ⟨-, h⟩ := h _ rfl
  obtain ⟨-, h⟩ := h _ rfl
  obtain ⟨-, h⟩ := h _ rfl
  obtain ⟨⟨hfirst, -⟩, -⟩ := h _ rfl
  have hlast := congrArg lastDword (hfirst (by decide))
  exact absurd hlast (by decide +kernel)

end Runs

end Prosperity.Gcn
