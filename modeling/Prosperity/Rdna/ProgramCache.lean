import Prosperity.Gcn.ProgramCache
import Prosperity.Rdna.Reachability

/-!
# The RDNA program cache

`CachedReachableProgram` and `CachedCodeHash`: reachable programs and code hashes by guest address.
An entry of an earlier generation is still good where the dwords that it hashed are unchanged. The
guest rewrites its code at any time.
-/

namespace Prosperity.Rdna

open Gcn (GuestMemory assign mem_assign mem_of_lookup guestWith)

universe u

/-! ## The lookups -/

/-- `Entry` of `CachedReachableProgram`. -/
structure ProgramEntry (κ : Type u) where
  hash : κ
  hashedDwords : ℕ
  generation : ℕ
  program : Program

/-- `Entry` of `CachedCodeHash`. -/
structure HashEntry (κ : Type u) where
  hash : κ
  len : ℕ
  generation : ℕ

structure ProgramCache (κ : Type u) where
  generation : ℕ
  programs : List (ℕ × ProgramEntry κ)
  hashes : List (ℕ × HashEntry κ)

/-- `s_endpgm`, where the hash of code without a footer ends. -/
def isEndpgm (inst : Inst) : Bool := inst.enc = .kSopp && inst.opcode = 0x01

def hashedLength (m : GuestMemory) (addr maxDwords : ℕ) : ℕ :=
  let len := codeLength (m.code addr) maxDwords
  if len ≠ 0 then len
  else
    match (decode (m.code addr) maxDwords true).find? isEndpgm with
    | some inst => inst.pc + inst.size
    | none => maxDwords

/-- `DecodeShader` of the code at an address. -/
def decodeAt (m : GuestMemory) (addr maxDwords : ℕ) : Program :=
  decodeShader (m.code addr) maxDwords

def text (m : GuestMemory) (addr maxDwords : ℕ) : List ℕ :=
  textOf (m.code addr) (decodeAt m addr maxDwords)

section Lookups

variable {κ : Type u} [DecidableEq κ] [Inhabited κ] (hash : List ℕ → κ)

def ProgramCache.init : ProgramCache κ := ⟨1, [], []⟩

def nextProgramGeneration (c : ProgramCache κ) : ProgramCache κ :=
  { c with generation := c.generation + 1 }

def validProgram (m : GuestMemory) (c : ProgramCache κ) (addr : ℕ) : Option (ProgramEntry κ) :=
  (c.programs.lookup addr).filter fun e => e.hash = hash (m.span addr e.hashedDwords)

def freshProgram (c : ProgramCache κ) (addr : ℕ) : Option (ProgramEntry κ) :=
  (c.programs.lookup addr).filter fun e => e.generation = c.generation

def cachedReachableProgram (m : GuestMemory) (c : ProgramCache κ) (addr maxDwords : ℕ) : Program × ProgramCache κ :=
  if addr = 0 then ([], c)
  else
    match freshProgram c addr with
    | some e => (e.program, c)
    | none =>
      match validProgram hash m c addr with
      | some e =>
        (e.program,
          { c with programs := assign addr { e with generation := c.generation } c.programs })
      | none =>
        let hashed := hashedLength m addr maxDwords
        let h := hash (m.span addr hashed)
        match (c.programs.lookup addr).filter fun e =>
          e.hash = h && e.hashedDwords = hashed with
        | some e =>
          (e.program,
            { c with programs := assign addr { e with generation := c.generation } c.programs })
        | none =>
          let kept := if 16384 < c.programs.length then [] else c.programs
          let program := reachableProgram (decodeAt m addr maxDwords)
          (program, { c with programs := assign addr ⟨h, hashed, c.generation, program⟩ kept })

/-- The entry of `CachedCodeHash` whose dwords are unchanged. -/
def validHash (m : GuestMemory) (c : ProgramCache κ) (addr : ℕ) : Option (HashEntry κ) :=
  (c.hashes.lookup addr).filter fun e => e.hash = hash (m.span addr e.len)

def freshHash (c : ProgramCache κ) (addr : ℕ) : Option (HashEntry κ) :=
  (c.hashes.lookup addr).filter fun e => e.generation = c.generation

/-- `CachedCodeHash`; `default` is its 0 for the null pointer. -/
def cachedCodeHash (m : GuestMemory) (c : ProgramCache κ) (addr maxDwords : ℕ) : κ × ProgramCache κ :=
  if addr = 0 then (default, c)
  else
    match freshHash c addr with
    | some e => (e.hash, c)
    | none =>
      match validHash hash m c addr with
      | some e =>
        (e.hash, { c with hashes := assign addr { e with generation := c.generation } c.hashes })
      | none =>
        let len := hashedLength m addr maxDwords
        let h := hash (m.span addr len)
        let kept := if 16384 < c.hashes.length then [] else c.hashes
        (h, { c with hashes := assign addr ⟨h, len, c.generation⟩ kept })

end Lookups

/-! ## Histories -/

/-- What the guest and the renderer do: the guest rewrites its memory, a generation begins, and
the lookups. -/
inductive CacheEvent where
  | rewrite (m : GuestMemory)
  | nextGeneration
  | program (addr maxDwords : ℕ)
  | codeHash (addr maxDwords : ℕ)

inductive CacheReply (κ : Type u) where
  | none
  | program (program : Program)
  | hash (h : κ)
  deriving DecidableEq

/-- The memory and the bound that the entry of an address was made with. -/
structure Reading where
  mem : GuestMemory
  maxDwords : ℕ

/-- The answer of `CachedCodeHash` to the first lookup of an address in a generation, and the dwords
that it is the hash of. -/
structure HashRecord (κ : Type u) where
  mem : GuestMemory
  addr : ℕ
  maxDwords : ℕ
  span : List ℕ
  answer : κ

/-- The caches, and beside them what has been looked up. -/
structure History (κ : Type u) where
  mem : GuestMemory
  cache : ProgramCache κ
  reply : CacheReply κ
  programSeen : List ℕ
  hashSeen : List ℕ
  programRead : ℕ → Option Reading
  hashed : List (HashRecord κ)

namespace History

variable {κ : Type u} [DecidableEq κ] [Inhabited κ] (hash : List ℕ → κ)

def init (m : GuestMemory) : History κ :=
  ⟨m, ProgramCache.init, .none, [], [], fun _ => none, []⟩

/-- The bookkeeping of `CachedReachableProgram`: what an entry that it makes was made from. -/
def readProgram (h : History κ) (addr maxDwords : ℕ) : ℕ → Option Reading :=
  if addr = 0 ∨ (freshProgram h.cache addr).isSome ∨
      (validProgram hash h.mem h.cache addr).isSome then h.programRead
  else Function.update h.programRead addr (some ⟨h.mem, maxDwords⟩)

def answerSpan (h : History κ) (addr maxDwords : ℕ) : List ℕ :=
  h.mem.span addr <|
    match validHash hash h.mem h.cache addr with
    | some e => e.len
    | none => hashedLength h.mem addr maxDwords

def step (h : History κ) : CacheEvent → History κ
  | .rewrite m => { h with mem := m, reply := .none }
  | .nextGeneration =>
    { h with
      cache := nextProgramGeneration h.cache
      reply := .none
      programSeen := []
      hashSeen := [] }
  | .program addr maxDwords =>
    let (program, cache) := cachedReachableProgram hash h.mem h.cache addr maxDwords
    { h with
      cache
      reply := .program program
      programSeen := addr :: h.programSeen
      programRead := h.readProgram hash addr maxDwords }
  | .codeHash addr maxDwords =>
    let (answer, cache) := cachedCodeHash hash h.mem h.cache addr maxDwords
    { h with
      cache
      reply := .hash answer
      hashSeen := addr :: h.hashSeen
      hashed :=
        if addr = 0 ∨ addr ∈ h.hashSeen then h.hashed
        else ⟨h.mem, addr, maxDwords, h.answerSpan hash addr maxDwords, answer⟩ :: h.hashed }

def system : LabelledSystem (History κ) CacheEvent where
  step h e := some (h.step hash e)

/-- A lookup of the program that finds the dwords unchanged which the entry of the address hashed
finds all the dwords unchanged that the entry's program was decoded from. A lookup of the hash of
code that agrees with code hashed before, in the hashed dwords, agrees with it to its end. Of
several lookups of an address in a generation this is asked of the first. -/
def Careful (h : History κ) : CacheEvent → Prop
  | .program addr maxDwords =>
    addr ∉ h.programSeen → ∀ r ∈ h.programRead addr, ∀ e ∈ h.cache.programs.lookup addr,
      h.mem.span addr e.hashedDwords = r.mem.span addr e.hashedDwords →
        text h.mem addr maxDwords = text r.mem addr r.maxDwords
  | .codeHash addr maxDwords =>
    addr ∉ h.hashSeen → ∀ x ∈ h.hashed, h.answerSpan hash addr maxDwords = x.span →
      text h.mem addr maxDwords = text x.mem x.addr x.maxDwords
  | _ => True

def LookupSound (h : History κ) : CacheEvent → History κ → Prop
  | .program addr maxDwords, h' =>
    addr ≠ 0 → addr ∉ h.programSeen → h'.reply = .program (reachableProgram (decodeAt h.mem addr maxDwords))
  | .codeHash addr maxDwords, h' =>
    addr ≠ 0 → addr ∉ h.hashSeen → ∀ x ∈ h.hashed, decodeAt h.mem addr maxDwords ≠ decodeAt x.mem x.addr x.maxDwords →
        h'.reply ≠ .hash x.answer
  | _, _ => True

end History

/-! ## Soundness -/

section Soundness

variable {κ : Type u} [DecidableEq κ] [Inhabited κ] {hash : List ℕ → κ} {m : GuestMemory}
  {c : ProgramCache κ} {addr maxDwords : ℕ} {h : History κ}

omit [Inhabited κ] in
theorem cachedReachableProgram_cases (hash : List ℕ → κ) (m : GuestMemory) (c : ProgramCache κ)
    (maxDwords : ℕ) (haddr : addr ≠ 0) :
    (∃ e, freshProgram c addr = some e ∧ cachedReachableProgram hash m c addr maxDwords = (e.program, c)) ∨
    (∃ e, freshProgram c addr = none ∧ validProgram hash m c addr = some e ∧
      cachedReachableProgram hash m c addr maxDwords = (e.program,
        { c with programs := assign addr { e with generation := c.generation } c.programs })) ∨
    (∃ kept, freshProgram c addr = none ∧ validProgram hash m c addr = none ∧ (∀ x ∈ kept, x ∈ c.programs) ∧
      cachedReachableProgram hash m c addr maxDwords = (reachableProgram (decodeAt m addr maxDwords),
          { c with programs := assign addr ⟨hash (m.span addr (hashedLength m addr maxDwords)),
            hashedLength m addr maxDwords, c.generation,
            reachableProgram (decodeAt m addr maxDwords)⟩ kept })) := by
  rw [cachedReachableProgram, if_neg haddr]
  cases hfresh : freshProgram c addr with
  | some e => exact .inl ⟨e, rfl, rfl⟩
  | none =>
    cases hvalid : validProgram hash m c addr with
    | some e => exact .inr (.inl ⟨e, rfl, rfl, rfl⟩)
    | none =>
      refine .inr (.inr ⟨if 16384 < c.programs.length then [] else c.programs, rfl, rfl, ?_, ?_⟩)
      · intro x hx
        split at hx
        · cases hx
        · exact hx
      · dsimp only
        split
        · -- an entry that hashed as many dwords to the same hash would be valid
          rename_i e he
          obtain ⟨hlookup, hsame⟩ := Option.filter_eq_some_iff.mp he
          simp only [Bool.and_eq_true, decide_eq_true_eq] at hsame
          refine absurd (decide_eq_true ?_) (Option.filter_eq_none_iff.mp hvalid e hlookup)
          rw [hsame.1, hsame.2]
        · rfl

theorem cachedCodeHash_cases (hash : List ℕ → κ) (m : GuestMemory) (c : ProgramCache κ)
    (maxDwords : ℕ) (haddr : addr ≠ 0) :
    (∃ e, freshHash c addr = some e ∧ cachedCodeHash hash m c addr maxDwords = (e.hash, c)) ∨
    (∃ e, freshHash c addr = none ∧ validHash hash m c addr = some e ∧ cachedCodeHash hash m c addr maxDwords = (e.hash,
        { c with hashes := assign addr { e with generation := c.generation } c.hashes })) ∨
    (∃ kept, freshHash c addr = none ∧ validHash hash m c addr = none ∧ (∀ x ∈ kept, x ∈ c.hashes) ∧
      cachedCodeHash hash m c addr maxDwords = (hash (m.span addr (hashedLength m addr maxDwords)),
          { c with hashes := assign addr ⟨hash (m.span addr (hashedLength m addr maxDwords)),
            hashedLength m addr maxDwords, c.generation⟩ kept })) := by
  rw [cachedCodeHash, if_neg haddr]
  cases hfresh : freshHash c addr with
  | some e => exact .inl ⟨e, rfl, rfl⟩
  | none =>
    cases hvalid : validHash hash m c addr with
    | some e => exact .inr (.inl ⟨e, rfl, rfl, rfl⟩)
    | none =>
      refine .inr (.inr ⟨if 16384 < c.hashes.length then [] else c.hashes, rfl, rfl, ?_, rfl⟩)
      intro x hx
      split at hx
      · cases hx
      · exact hx

structure EntryOk (hash : List ℕ → κ) (generation : ℕ) (seen : List ℕ)
    (read : ℕ → Option Reading) (addr : ℕ) (e : ProgramEntry κ) : Prop where
  addr_ne : addr ≠ 0
  generation_le : e.generation ≤ generation
  seen_of_eq : e.generation = generation → addr ∈ seen
  reading : ∃ r, read addr = some r ∧ e.program = reachableProgram (decodeAt r.mem addr r.maxDwords) ∧
    e.hash = hash (r.mem.span addr e.hashedDwords)

structure HashOk (generation : ℕ) (seen : List ℕ) (addr : ℕ) (e : HashEntry κ) : Prop where
  generation_le : e.generation ≤ generation
  seen_of_eq : e.generation = generation → addr ∈ seen

structure Inv (hash : List ℕ → κ) (h : History κ) : Prop where
  programs : ∀ x ∈ h.cache.programs, EntryOk hash h.cache.generation h.programSeen h.programRead x.1 x.2
  hashes : ∀ x ∈ h.cache.hashes, HashOk h.cache.generation h.hashSeen x.1 x.2
  hashed : ∀ x ∈ h.hashed, x.answer = hash x.span

omit [DecidableEq κ] [Inhabited κ] in
theorem EntryOk.of_read {generation : ℕ} {seen seen' : List ℕ} {read read' : ℕ → Option Reading}
    {e : ProgramEntry κ} (hok : EntryOk hash generation seen read addr e) (hsub : seen ⊆ seen')
    (hread : read' addr = read addr) : EntryOk hash generation seen' read' addr e :=
  ⟨hok.addr_ne, hok.generation_le, fun he => hsub (hok.seen_of_eq he), hread ▸ hok.reading⟩

omit [DecidableEq κ] [Inhabited κ] in
theorem HashOk.of_seen {generation : ℕ} {seen seen' : List ℕ} {e : HashEntry κ}
    (hok : HashOk generation seen addr e) (hsub : seen ⊆ seen') : HashOk generation seen' addr e :=
  ⟨hok.generation_le, fun he => hsub (hok.seen_of_eq he)⟩

omit [DecidableEq κ] [Inhabited κ] in
theorem freshProgram_eq_none (hinv : Inv hash h) (hfirst : addr ∉ h.programSeen) :
    freshProgram h.cache addr = none := by
  refine Option.filter_eq_none_iff.mpr fun e he hgen => hfirst ?_
  exact (hinv.programs _ (mem_of_lookup he)).seen_of_eq (of_decide_eq_true hgen)

omit [DecidableEq κ] [Inhabited κ] in
theorem freshHash_eq_none (hinv : Inv hash h) (hfirst : addr ∉ h.hashSeen) : freshHash h.cache addr = none := by
  refine Option.filter_eq_none_iff.mpr fun e he hgen => hfirst ?_
  exact (hinv.hashes _ (mem_of_lookup he)).seen_of_eq (of_decide_eq_true hgen)

theorem step_program_inv (hinv : Inv hash h) : Inv hash (h.step hash (.program addr maxDwords)) := by
  have hsub : h.programSeen ⊆ addr :: h.programSeen := List.subset_cons_self _ _
  by_cases haddr : addr = 0
  · have hresult : cachedReachableProgram hash h.mem h.cache addr maxDwords = ([], h.cache) := by
      rw [cachedReachableProgram, if_pos haddr]
    have hread : h.readProgram hash addr maxDwords = h.programRead := by
      rw [History.readProgram, if_pos (.inl haddr)]
    simp only [History.step, hresult, hread]
    exact ⟨fun x hx => (hinv.programs x hx).of_read hsub rfl, hinv.hashes, hinv.hashed⟩
  rcases cachedReachableProgram_cases hash h.mem h.cache maxDwords haddr with
    ⟨e, hfresh, hresult⟩ | ⟨e, hfresh, hvalid, hresult⟩ | ⟨kept, hfresh, hvalid, hkept, hresult⟩
  -- an entry of this generation, an entry whose hash still fits, a new reading
  · have hread : h.readProgram hash addr maxDwords = h.programRead := by
      simp [History.readProgram, hfresh]
    simp only [History.step, hresult, hread]
    exact ⟨fun x hx => (hinv.programs x hx).of_read hsub rfl, hinv.hashes, hinv.hashed⟩
  · have hread : h.readProgram hash addr maxDwords = h.programRead := by
      simp [History.readProgram, hvalid]
    have hold := hinv.programs _ (mem_of_lookup (Option.filter_eq_some_iff.mp hvalid).1)
    simp only [History.step, hresult, hread]
    refine ⟨fun x hx => ?_, hinv.hashes, hinv.hashed⟩
    rcases mem_assign hx with rfl | ⟨-, hx⟩
    · exact ⟨haddr, Nat.le_refl _, fun _ => List.mem_cons_self, hold.reading⟩
    · exact (hinv.programs x hx).of_read hsub rfl
  · have hread : h.readProgram hash addr maxDwords =
        Function.update h.programRead addr (some ⟨h.mem, maxDwords⟩) := by
      simp [History.readProgram, haddr, hfresh, hvalid]
    simp only [History.step, hresult, hread]
    refine ⟨fun x hx => ?_, hinv.hashes, hinv.hashed⟩
    rcases mem_assign hx with rfl | ⟨hne, hx⟩
    · exact ⟨haddr, Nat.le_refl _, fun _ => List.mem_cons_self, _, Function.update_self _ _ _,
        rfl, rfl⟩
    · exact (hinv.programs x (hkept x hx)).of_read hsub (Function.update_of_ne hne _ _)

theorem look_program_sound (hinj : Function.Injective hash) (hinv : Inv hash h)
    (hok : History.Careful hash h (.program addr maxDwords)) :
    History.LookupSound h (.program addr maxDwords) (h.step hash (.program addr maxDwords)) := by
  intro haddr hfirst
  have hnone := freshProgram_eq_none hinv hfirst
  rcases cachedReachableProgram_cases hash h.mem h.cache maxDwords haddr with
    ⟨e, hfresh, -⟩ | ⟨e, -, hvalid, hresult⟩ | ⟨kept, -, -, -, hresult⟩
  · cases hnone.symm.trans hfresh
  · -- the hashed dwords are those that the entry was made from
    obtain ⟨hlookup, hsame⟩ := Option.filter_eq_some_iff.mp hvalid
    obtain ⟨r, hr, hprogram, hhash⟩ := (hinv.programs _ (mem_of_lookup hlookup)).reading
    have hspan := hinj ((of_decide_eq_true hsame).symm.trans hhash)
    have htext := hok hfirst r hr e hlookup hspan
    have hdecode : decodeAt h.mem addr maxDwords = decodeAt r.mem addr r.maxDwords :=
      decodeShader_eq_of_text htext
    rw [hdecode, ← hprogram]
    simp only [History.step, hresult]
  · simp only [History.step, hresult]

theorem look_hash_good (hinj : Function.Injective hash) (hinv : Inv hash h)
    (hok : History.Careful hash h (.codeHash addr maxDwords)) :
    Inv hash (h.step hash (.codeHash addr maxDwords)) ∧ History.LookupSound h (.codeHash addr maxDwords)
        (h.step hash (.codeHash addr maxDwords)) := by
  have hsub : h.hashSeen ⊆ addr :: h.hashSeen := List.subset_cons_self _ _
  by_cases haddr : addr = 0
  · have hresult : cachedCodeHash hash h.mem h.cache addr maxDwords = (default, h.cache) := by
      rw [cachedCodeHash, if_pos haddr]
    refine ⟨?_, fun hne => absurd haddr hne⟩
    simp only [History.step, hresult]
    rw [if_pos (.inl haddr)]
    exact ⟨hinv.programs, fun x hx => (hinv.hashes x hx).of_seen hsub, hinv.hashed⟩
  -- the caches that the three ways leave, with the answer to a first lookup
  obtain ⟨answer, hashes, hresult, hhashes, hanswer⟩ : ∃ answer hashes,
      cachedCodeHash hash h.mem h.cache addr maxDwords =
        (answer, { h.cache with hashes }) ∧
      (∀ x ∈ hashes, HashOk h.cache.generation (addr :: h.hashSeen) x.1 x.2) ∧
      (addr ∉ h.hashSeen → answer = hash (h.answerSpan hash addr maxDwords)) := by
    rcases cachedCodeHash_cases hash h.mem h.cache maxDwords haddr with
      ⟨e, hfresh, hresult⟩ | ⟨e, -, hvalid, hresult⟩ | ⟨kept, -, hvalid, hkept, hresult⟩
    · refine ⟨_, _, hresult, fun x hx => (hinv.hashes x hx).of_seen hsub, fun hfirst => ?_⟩
      cases (freshHash_eq_none hinv hfirst).symm.trans hfresh
    · refine ⟨_, _, hresult, fun x hx => ?_, fun _ => ?_⟩
      · rcases mem_assign hx with rfl | ⟨-, hx⟩
        · exact ⟨Nat.le_refl _, fun _ => List.mem_cons_self⟩
        · exact (hinv.hashes x hx).of_seen hsub
      · rw [History.answerSpan, hvalid]
        exact of_decide_eq_true (Option.filter_eq_some_iff.mp hvalid).2
    · refine ⟨_, _, hresult, fun x hx => ?_, fun _ => ?_⟩
      · rcases mem_assign hx with rfl | ⟨-, hx⟩
        · exact ⟨Nat.le_refl _, fun _ => List.mem_cons_self⟩
        · exact (hinv.hashes x (hkept x hx)).of_seen hsub
      · rw [History.answerSpan, hvalid]
  constructor
  · simp only [History.step, hresult]
    refine ⟨hinv.programs, hhashes, fun x hx => ?_⟩
    dsimp only at hx
    split at hx
    · exact hinv.hashed x hx
    · rename_i hfirst
      rcases List.mem_cons.mp hx with rfl | hx
      · exact hanswer fun hseen => hfirst (.inr hseen)
      · exact hinv.hashed x hx
  · intro _ hfirst x hx hne hreply
    simp only [History.step, hresult] at hreply
    have hhash := (CacheReply.hash.inj hreply).symm.trans (hanswer hfirst)
    have hspan := hinj ((hinv.hashed x hx).symm.trans hhash)
    exact hne (decodeShader_eq_of_text (hok hfirst x hx hspan.symm))

omit [DecidableEq κ] [Inhabited κ] in
theorem Inv.init (m : GuestMemory) : Inv hash (History.init m : History κ) where
  programs _ hx := absurd hx List.not_mem_nil
  hashes _ hx := absurd hx List.not_mem_nil
  hashed _ hx := absurd hx List.not_mem_nil

theorem step_nextGeneration_inv (hinv : Inv hash h) : Inv hash (h.step hash .nextGeneration) := by
  refine ⟨fun x hx => ?_, fun x hx => ?_, hinv.hashed⟩
  · have hok := hinv.programs x hx
    refine ⟨hok.addr_ne, Nat.le_succ_of_le hok.generation_le, fun he => ?_, hok.reading⟩
    exact absurd (he ▸ hok.generation_le) (Nat.not_succ_le_self _)
  · have hok := hinv.hashes x hx
    refine ⟨Nat.le_succ_of_le hok.generation_le, fun he => ?_⟩
    exact absurd (he ▸ hok.generation_le) (Nat.not_succ_le_self _)

theorem step_good (hinj : Function.Injective hash) (hinv : Inv hash h) {e : CacheEvent}
    (hok : History.Careful hash h e) : Inv hash (h.step hash e) ∧ History.LookupSound h e (h.step hash e) := by
  cases e with
  | rewrite m => exact ⟨⟨hinv.programs, hinv.hashes, hinv.hashed⟩, trivial⟩
  | nextGeneration => exact ⟨step_nextGeneration_inv hinv, trivial⟩
  | program addr maxDwords => exact ⟨step_program_inv hinv, look_program_sound hinj hinv hok⟩
  | codeHash addr maxDwords => exact look_hash_good hinj hinv hok

/-- **In a run of careful lookups every answer is sound**, for a hash without collisions. -/
theorem cached_programs_sound (hinj : Function.Injective hash) {ls : List CacheEvent}
    (hok : (History.system hash).Meets (History.Careful hash) (History.init m) ls) :
    (History.system hash).EveryStep History.LookupSound (History.init m) ls := by
  have hinit : Inv hash (History.init m) := Inv.init m
  refine (History.system hash).everyStep_of_invariant ?_ ?_ hinit hok
  · intro h e h' hinv hok hs
    obtain rfl := Option.some.inj hs
    exact (step_good hinj hinv hok).1
  · intro h e h' hinv hok hs
    obtain rfl := Option.some.inj hs
    exact (step_good hinj hinv hok).2

end Soundness

section Runs

instance {κ : Type u} [DecidableEq κ] [Inhabited κ] (hash : List ℕ → κ) (h : History κ) :
    DecidablePred (History.Careful hash h)
  | .rewrite _ | .nextGeneration => isTrue trivial
  | .program addr maxDwords =>
    inferInstanceAs (Decidable (addr ∉ h.programSeen → ∀ r ∈ h.programRead addr, ∀ e ∈ h.cache.programs.lookup addr,
        h.mem.span addr e.hashedDwords = r.mem.span addr e.hashedDwords →
          text h.mem addr maxDwords = text r.mem addr r.maxDwords))
  | .codeHash addr maxDwords =>
    inferInstanceAs (Decidable (addr ∉ h.hashSeen → ∀ x ∈ h.hashed, h.answerSpan hash addr maxDwords = x.span →
        text h.mem addr maxDwords = text x.mem x.addr x.maxDwords))

/-- An `s_nop` and an `s_endpgm`, hashed and decoded, rewritten, and looked up again. -/
def nopRun : List CacheEvent :=
  [.codeHash 4 6, .program 4 6, .rewrite (guestWith [1, 0, 0x80, 0xBF, 0, 0, 0x81, 0xBF]),
    .nextGeneration, .codeHash 4 6, .program 4 6]

theorem cached_programs_sound_nop : (History.system Option.some).EveryStep History.LookupSound
      (History.init (guestWith [0, 0, 0x80, 0xBF, 0, 0, 0x81, 0xBF])) nopRun :=
  cached_programs_sound (Option.some_injective _) (by decide +kernel)

/-- A conditional branch over an `s_endpgm` to an `s_nop` with the operand `b`, and its end. -/
def earlyOut (b : UInt8) : GuestMemory :=
  guestWith [1, 0, 0x84, 0xBF, 0, 0, 0x81, 0xBF, b, 0, 0x80, 0xBF, 0, 0, 0x81, 0xBF]

/-- The `s_nop` of `earlyOut`, which a run gets to by the branch. -/
def nopInst (b : ℕ) : Inst := ⟨.kSopp, 0, [0xBF800000 + b], 1, 2, false, 0, .kNone⟩

theorem nopInst_mem : nopInst 1 ∈ reachableProgram (decodeAt (earlyOut 1) 4 4) := by
  have hdecode : decodeAt (earlyOut 1) 4 4 = decode ((earlyOut 1).code 4) 4 true := by
    rw [decodeAt, decodeShader]
    exact if_neg (by decide +kernel)
  rw [hdecode]
  apply mem_reachableProgram
  have hfetch : fetch (decode ((earlyOut 1).code 4) 4 true) 0 =
      some ⟨.kSopp, 4, [0xBF840001], 1, 0, false, 0, .kNone⟩ := by decide +kernel
  have hgoes := Step.other (s := ⟨0, []⟩) hfetch rfl (.taken rfl)
  exact ⟨_, .single hgoes, by decide +kernel⟩

theorem reply_of_rewrite {κ : Type u} [DecidableEq κ] [Inhabited κ] (hash : List ℕ → κ)
    {m m' : GuestMemory} {addr maxDwords : ℕ} (haddr : addr ≠ 0)
    (hspan : m'.span addr (hashedLength m addr maxDwords) = m.span addr (hashedLength m addr maxDwords)) :
    (((((History.init m).step hash (.program addr maxDwords)).step hash (.rewrite m')).step hash
      .nextGeneration).step hash (.program addr maxDwords)).reply =
        .program (reachableProgram (decodeAt m addr maxDwords)) := by
  simp [History.step, History.init, ProgramCache.init, cachedReachableProgram, freshProgram,
    validProgram, nextProgramGeneration, assign, haddr, hspan, Option.filter_some]

/-- **The hash ends at the first `s_endpgm`, the program goes on behind it.** A shader without a
footer is looked up, rewritten behind the `s_endpgm` that its branch jumps over, and looked up in
the next generation. -/
theorem stale_behind_endpgm : ¬(History.system Option.some).EveryStep History.LookupSound (History.init (earlyOut 0))
      [.program 4 4, .rewrite (earlyOut 1), .nextGeneration, .program 4 4] := by
  intro h
  obtain ⟨-, h⟩ := h _ rfl
  obtain ⟨-, h⟩ := h _ rfl
  obtain ⟨-, h⟩ := h _ rfl
  obtain ⟨hsound, -⟩ := h _ rfl
  -- the answer is the program of the first lookup, without the rewritten instruction
  have hreply := hsound (by decide : 4 ≠ 0) List.not_mem_nil
  have hspan : (earlyOut 1).span 4 (hashedLength (earlyOut 0) 4 4) =
      (earlyOut 0).span 4 (hashedLength (earlyOut 0) 4 4) := by decide +kernel
  have hstale := (reply_of_rewrite some (by decide : 4 ≠ 0) hspan).symm.trans hreply
  have heq := CacheReply.program.inj hstale
  have hmem : nopInst 1 ∈ reachableProgram (decodeAt (earlyOut 0) 4 4) := by
    rw [heq]
    exact nopInst_mem
  have hmem' := mem_of_mem_reachableProgram hmem
  exact absurd hmem' (by decide +kernel)

end Runs

end Prosperity.Rdna
