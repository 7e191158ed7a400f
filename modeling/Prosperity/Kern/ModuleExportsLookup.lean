import Prosperity.Kern.ModuleExports

/-!
# When the lookups of exports agree

The scan gives up at the first defined symbol whose name does not decode, and the index leaves such a symbol out. So
they agree on an id unless the first symbol that has it stands behind such a name. The walk follows the links of the
table with a bound that admits one index too many, and compares 11 characters.
-/

namespace Prosperity.Kern.ModuleExports

open Module

/-- The strings that begin there are equal. -/
def SameName (p q : ℕ → UInt8) : Prop := ∃ k, p k = 0 ∧ ∀ j ≤ k, p j = q j

section Exports

variable {m : Module} {nid : UInt64} {l : List ElfSym} {s : ElfSym}

def Module.id? (m : Module) (s : ElfSym) : Option UInt64 := if s.stValue = 0 then none else decode (m.name s) 11

def Module.firstDefined (m : Module) (nid : UInt64) (l : List ElfSym) : Option ElfSym :=
  l.find? fun s => m.id? s == some nid

/-- The names in front of the first defined symbol with the id decode, where it has an address. -/
def Scanned (m : Module) (nid : UInt64) : Prop :=
  ∀ l s r, m.symbols = l ++ s :: r → m.id? s = some nid → (∀ t ∈ l, m.id? t ≠ some nid) →
    (∀ t ∈ l, t.stValue ≠ 0 → (m.id? t).isSome) ∨ m.getAddressNptr s.stValue = 0

def Module.loaded (m : Module) : Module := { m with exportIndex := none }

def Module.exportAfter (m : Module) (calls : List UInt64) (nid : UInt64) : UInt64 :=
  ((calls.foldl (fun m' n => (getExport m' n).2) m.loaded).getExport nid).1

/-- The index finds what the scan finds. -/
def Agree (m : Module) (nid : UInt64) : Prop := ∀ calls, m.exportAfter calls nid = m.getSymbol nid

theorem firstDefined_append (hs : m.id? s = some nid) (hl : ∀ t ∈ l, m.id? t ≠ some nid) (r : List ElfSym) :
    m.firstDefined nid (l ++ s :: r) = some s := by
  rw [firstDefined, List.find?_eq_some_iff_append]
  exact ⟨beq_iff_eq.mpr hs, l, r, rfl, fun t ht => by simpa using hl t ht⟩

/-! ## The index -/

theorem lookup_emplace (index : List (UInt64 × UInt64)) (hid value k : UInt64) :
    (Module.emplace index hid value).lookup k = (index.lookup k).or (if k = hid then some value else none) := by
  rw [Module.emplace]
  split
  · rename_i v hv
    split_ifs with hk
    · rw [hk, hv, Option.or_some]
      rfl
    · rw [Option.or_none]
  · rename_i hnone
    rw [List.lookup_append]
    congr 1
    split_ifs with hk
    · rw [hk, List.lookup_cons_self]
    · rw [List.lookup_cons, beq_false_of_ne hk, List.lookup_nil]

theorem lookup_indexSymbol (index : List (UInt64 × UInt64)) : (m.indexSymbol index s).lookup nid =
      (index.lookup nid).or (if m.id? s = some nid then some s.stValue else none) := by
  rw [indexSymbol, id?]
  split_ifs with h0 hid hid
  · cases hid
  · rw [Option.or_none]
  · rw [hid, lookup_emplace, if_pos rfl]
  · split
    · rw [Option.or_none]
    · rename_i v hv
      rw [lookup_emplace, if_neg fun h => hid (by rw [hv, h])]

theorem lookup_foldl_indexSymbol (index : List (UInt64 × UInt64)) : (l.foldl m.indexSymbol index).lookup nid =
      (index.lookup nid).or ((m.firstDefined nid l).map ElfSym.stValue) := by
  induction l generalizing index with
  | nil => exact (Option.or_none).symm
  | cons s l ih =>
    rw [List.foldl_cons, ih, lookup_indexSymbol, Option.or_assoc]
    congr 1
    unfold firstDefined
    rw [List.find?_cons]
    split_ifs with hs
    · rw [hs, beq_self_eq_true]
      rfl
    · rw [beq_false_of_ne hs, Option.none_or]

def Indexed (m : Module) : Prop :=
  ∀ index, m.exportIndex = some index → index = m.symbols.foldl m.indexSymbol []

def Module.indexed (m : Module) (nid : UInt64) : UInt64 :=
  match m.firstDefined nid m.symbols with
  | none => 0
  | some s => m.getAddressNptr s.stValue

theorem withIndex_spec (hm : Indexed m) : Indexed m.withIndex ∧ m.withIndex.loaded = m.loaded ∧
    m.withIndex.exportIndex.getD [] = m.symbols.foldl m.indexSymbol [] := by
  rw [withIndex]
  split
  · rename_i index hindex
    exact ⟨hm, rfl, by rw [hindex]; exact hm index hindex⟩
  · rename_i hnone
    split_ifs with hempty
    · exact ⟨hm, rfl, by rw [hnone, hempty]; rfl⟩
    · exact ⟨fun index h => by cases h; rfl, rfl, rfl⟩

theorem getExport_spec (hm : Indexed m) : (m.getExport nid).1 = m.loaded.indexed nid ∧ Indexed (m.getExport nid).2 ∧
      (m.getExport nid).2.loaded = m.loaded := by
  obtain ⟨hindexed, hloaded, hindex⟩ := withIndex_spec hm
  have hlookup := @lookup_foldl_indexSymbol m nid m.symbols []
  rw [List.lookup_nil, Option.none_or] at hlookup
  rw [getExport, hindex, hlookup]
  cases hfirst : m.firstDefined nid m.symbols with
  | none =>
    have hnone : m.loaded.firstDefined nid m.loaded.symbols = none := hfirst
    exact ⟨by rw [Module.indexed, hnone]; rfl, hindexed, hloaded⟩
  | some s =>
    have hsome : m.loaded.firstDefined nid m.loaded.symbols = some s := hfirst
    exact ⟨by rw [Module.indexed, hsome]; rfl, hindexed, hloaded⟩

theorem exportAfter_eq (calls : List UInt64) : m.exportAfter calls nid = m.indexed nid := by
  have hrun : ∀ m', Indexed m' → m'.loaded = m.loaded → Indexed (calls.foldl (fun m' n => (getExport m' n).2) m') ∧
        (calls.foldl (fun m' n => (getExport m' n).2) m').loaded = m.loaded := by
    induction calls with
    | nil => exact fun _ h hsame => ⟨h, hsame⟩
    | cons n calls ih =>
      intro m' h hsame
      obtain ⟨-, hindexed, hsame'⟩ := @getExport_spec m' n h
      exact ih _ hindexed (hsame'.trans hsame)
  obtain ⟨hindexed, hsame⟩ := hrun m.loaded (fun _ h => by cases h) rfl
  rw [exportAfter, (getExport_spec hindexed).1, hsame]
  rfl

/-! ## The scan -/

theorem getSymbolFrom_cons_of_ne (hs : m.id? s ≠ some nid) : m.getSymbolFrom nid (s :: l) =
    if s.stValue ≠ 0 → (m.id? s).isSome then m.getSymbolFrom nid l else 0 := by
  rw [getSymbolFrom]
  by_cases h0 : s.stValue = 0
  · rw [if_pos h0, if_pos fun h => absurd h0 h]
  have hid : m.id? s = decode (m.name s) 11 := if_neg h0
  rw [if_neg h0, ← hid]
  cases hdec : m.id? s with
  | none => exact (if_neg fun h => Bool.noConfusion (h h0)).symm
  | some hid' =>
    have hcond : s.stValue ≠ 0 → (some hid').isSome := fun _ => rfl
    rw [if_pos hcond]
    exact if_neg fun h => hs (by rw [hdec, h])

theorem getSymbolFrom_cons_of_eq (hs : m.id? s = some nid) :
    m.getSymbolFrom nid (s :: l) = m.getAddressNptr s.stValue := by
  have h0 : ¬s.stValue = 0 := fun h => by
    rw [id?, if_pos h] at hs
    cases hs
  have hid : m.id? s = decode (m.name s) 11 := if_neg h0
  rw [getSymbolFrom, if_neg h0, ← hid, hs]
  exact if_pos rfl

theorem getSymbolFrom_of_none (h : ∀ t ∈ l, m.id? t ≠ some nid) : m.getSymbolFrom nid l = 0 := by
  induction l with
  | nil => rfl
  | cons s l ih =>
    rw [getSymbolFrom_cons_of_ne (h s List.mem_cons_self), ih fun t ht => h t (List.mem_cons_of_mem _ ht), ite_self]

theorem getSymbolFrom_append (hs : m.id? s = some nid) (hl : ∀ t ∈ l, m.id? t ≠ some nid) (r : List ElfSym) :
    m.getSymbolFrom nid (l ++ s :: r) =
      if ∀ t ∈ l, t.stValue ≠ 0 → (m.id? t).isSome then m.getAddressNptr s.stValue else 0 := by
  induction l with
  | nil => rw [List.nil_append, getSymbolFrom_cons_of_eq hs, if_pos fun _ h => by cases h]
  | cons t l ih =>
    rw [List.cons_append, getSymbolFrom_cons_of_ne (hl t List.mem_cons_self),
      ih fun u hu => hl u (List.mem_cons_of_mem _ hu)]
    simp only [List.forall_mem_cons, ite_and]

/-- **The index finds what the scan finds** exactly where no undecodable name is in front. -/
theorem agree_iff : Agree m nid ↔ Scanned m nid := by
  simp only [Agree, exportAfter_eq, forall_const]
  cases hfirst : m.firstDefined nid m.symbols with
  | none =>
    have hnot : ∀ t ∈ m.symbols, m.id? t ≠ some nid := fun t ht h =>
      List.find?_eq_none.mp hfirst t ht (beq_iff_eq.mpr h)
    refine iff_of_true ?_ fun l s r hsym hs _ => absurd hs (hnot s (by rw [hsym]; simp))
    rw [Module.indexed, hfirst, getSymbol, getSymbolFrom_of_none hnot]
  | some s =>
    obtain ⟨hs, l, r, hsym, hl⟩ := List.find?_eq_some_iff_append.mp hfirst
    have hs : m.id? s = some nid := beq_iff_eq.mp hs
    have hl : ∀ t ∈ l, m.id? t ≠ some nid := fun t ht h => by simpa [h] using hl t ht
    have hscan : ∀ {l s r}, m.symbols = l ++ s :: r → m.id? s = some nid → (∀ t ∈ l, m.id? t ≠ some nid) →
        (m.indexed nid = m.getSymbol nid ↔
          (∀ t ∈ l, t.stValue ≠ 0 → (m.id? t).isSome) ∨ m.getAddressNptr s.stValue = 0) := by
      intro l s r hsym hs hl
      rw [Module.indexed, getSymbol, hsym, firstDefined_append hs hl, getSymbolFrom_append hs hl]
      dsimp only
      split_ifs with hdec
      · exact iff_of_true rfl (.inl hdec)
      · exact (or_iff_right hdec).symm
    exact ⟨fun h l s r hsym hs hl => (hscan hsym hs hl).mp h, fun h => (hscan hsym hs hl).mpr (h l s r hsym hs hl)⟩

end Exports

/-! ## The walk -/

section Walk

variable {m : Module} {t : HashTable} {name : CString} {i j : UInt32} {r : UInt64} {s : ElfSym}

/-- The indices along the links from one on, `none` behind a link that is not in the table. -/
def HashTable.chainAt (t : HashTable) : UInt32 → ℕ → Option UInt32
  | i, 0 => some i
  | i, k + 1 => (t.chain[i.toNat]?).bind fun j => t.chainAt j k

def Passed (m : Module) (t : HashTable) (name : CString) (i : UInt32) : Prop :=
  i ≠ 0 ∧ i ≤ t.nchain ∧ ∃ s, m.symbols[i.toNat]? = some s ∧ m.hit name s = false

def Ended (t : HashTable) (i : UInt32) : Prop := i = 0 ∨ t.nchain < i

def Matched (m : Module) (t : HashTable) (name : CString) (i : UInt32) (s : ElfSym) : Prop :=
  i ≠ 0 ∧ i ≤ t.nchain ∧ m.symbols[i.toNat]? = some s ∧ m.hit name s = true

/-- From `i` on, the chain stays in the tables and passes to `j`. -/
def Reaches (m : Module) (t : HashTable) (name : CString) (i j : UInt32) : Prop :=
  ∃ n, t.chainAt i n = some j ∧ ∀ k < n, ∃ i', t.chainAt i k = some i' ∧ Passed m t name i'

theorem reaches_refl : Reaches m t name i i := ⟨0, rfl, fun _ h => absurd h (Nat.not_lt_zero _)⟩

theorem Passed.reaches {i' : UInt32} (hi : Passed m t name i) (hlink : t.chain[i.toNat]? = some i')
    (h : Reaches m t name i' j) : Reaches m t name i j := by
  obtain ⟨n, hn, hpassed⟩ := h
  refine ⟨n + 1, by rw [HashTable.chainAt, hlink]; exact hn, fun k hk => ?_⟩
  cases k with
  | zero => exact ⟨i, rfl, hi⟩
  | succ k =>
    rw [HashTable.chainAt, hlink]
    exact hpassed k (Nat.lt_of_succ_lt_succ hk)

theorem Reaches.induct {P : UInt32 → Prop} (hstep : ∀ i i', Passed m t name i → t.chain[i.toNat]? = some i' → P i' → P i)
    (hend : P j) (h : Reaches m t name i j) : P i := by
  obtain ⟨n, hn, hpassed⟩ := h
  induction n generalizing i with
  | zero =>
    cases hn
    exact hend
  | succ n ih =>
    obtain ⟨i', hlink, hn⟩ := Option.bind_eq_some_iff.mp hn
    obtain ⟨_, hi, hpass⟩ := hpassed 0 (Nat.succ_pos n)
    cases hi
    refine hstep i i' hpass hlink (ih hn fun k hk => ?_)
    obtain ⟨i'', hk', hp⟩ := hpassed (k + 1) (Nat.succ_lt_succ hk)
    rw [HashTable.chainAt, hlink] at hk'
    exact ⟨i'', hk', hp⟩

theorem walk_passed {i' : UInt32} (hi : Passed m t name i) (hlink : t.chain[i.toNat]? = some i') (fuel : ℕ) :
    m.walk t name (fuel + 1) i = m.walk t name fuel i' := by
  obtain ⟨hne, hle, s, hs, hhit⟩ := hi
  rw [walk, if_neg hne, if_neg (UInt32.not_lt.mpr hle), hs]
  simp only [hhit, hlink, Bool.false_eq_true, if_false]

theorem walk_ended (hi : Ended t i) (fuel : ℕ) : m.walk t name (fuel + 1) i = some (.ok 0) := by
  rw [walk]
  split_ifs with h0 hlt
  · rfl
  · rfl
  · exact absurd hi (not_or.mpr ⟨h0, hlt⟩)

theorem walk_matched (hi : Matched m t name i s) (fuel : ℕ) :
    m.walk t name (fuel + 1) i = some (.ok (m.getAddressNptr s.stValue)) := by
  obtain ⟨hne, hle, hs, hhit⟩ := hi
  rw [walk, if_neg hne, if_neg (UInt32.not_lt.mpr hle), hs]
  simp only [hhit, if_true]

theorem walk_cases {fuel : ℕ} (h : m.walk t name (fuel + 1) i = some (.ok r)) :
    Ended t i ∨ (∃ s, Matched m t name i s) ∨ Passed m t name i ∧ ∃ i', t.chain[i.toNat]? = some i' := by
  rw [walk] at h
  split_ifs at h with h0 hlt
  · exact .inl (.inl h0)
  · exact .inl (.inr hlt)
  have hle := UInt32.not_lt.mp hlt
  cases hs : m.symbols[i.toNat]? with
  | none =>
    rw [hs] at h
    cases h
  | some s =>
    simp only [hs] at h
    cases hhit : m.hit name s with
    | true => exact .inr (.inl ⟨s, h0, hle, hs, hhit⟩)
    | false =>
      refine .inr (.inr ⟨⟨h0, hle, s, hs, hhit⟩, ?_⟩)
      cases hlink : t.chain[i.toNat]? with
      | none =>
        rw [hhit, hlink] at h
        cases h
      | some i' => exact ⟨i', rfl⟩

/-- **When the walk returns**, and what. -/
theorem walk_eq_ok_iff : (∃ fuel, m.walk t name fuel i = some (.ok r)) ↔ ∃ j, Reaches m t name i j ∧
      ((Ended t j ∧ r = 0) ∨ ∃ s, Matched m t name j s ∧ r = m.getAddressNptr s.stValue) := by
  constructor
  · rintro ⟨fuel, h⟩
    induction fuel generalizing i with
    | zero => cases h
    | succ fuel ih =>
      rcases walk_cases h with hend | ⟨s, hmatch⟩ | ⟨hpass, i', hlink⟩
      · rw [walk_ended hend] at h
        cases h
        exact ⟨i, reaches_refl, .inl ⟨hend, rfl⟩⟩
      · rw [walk_matched hmatch] at h
        cases h
        exact ⟨i, reaches_refl, .inr ⟨s, hmatch, rfl⟩⟩
      · rw [walk_passed hpass hlink] at h
        obtain ⟨j, hj, hout⟩ := ih h
        exact ⟨j, hpass.reaches hlink hj, hout⟩
  · rintro ⟨j, hj, hout⟩
    refine @Reaches.induct m t name i j (fun i => ∃ fuel, m.walk t name fuel i = some (.ok r)) ?_ ?_ hj
    · rintro i i' hpass hlink ⟨fuel, hfuel⟩
      exact ⟨fuel + 1, by rw [walk_passed hpass hlink, hfuel]⟩
    · rcases hout with ⟨hend, rfl⟩ | ⟨s, hmatch, rfl⟩
      · exact ⟨1, walk_ended hend 0⟩
      · exact ⟨1, walk_matched hmatch 0⟩

def Named (m : Module) (name : CString) (s : ElfSym) : Prop :=
  s ∈ m.symbols ∧ s.stValue ≠ 0 ∧ SameName (m.name s) name.chars

def Answers (m : Module) (name : CString) (r : UInt64) : Prop :=
  (r ≠ 0 ∧ ∃ s, Named m name s ∧ r = m.getAddressNptr s.stValue) ∨ (r = 0 ∧ ∀ s, ¬Named m name s)

/-- The lookup ends, reads inside its tables, and answers. -/
def Found (m : Module) (name : CString) : Prop :=
  ∃ r, (∃ fuel, m.getSymbolFullName name fuel = some (.ok r)) ∧ Answers m name r

def Leads (m : Module) (t : HashTable) (name : CString) (i : UInt32) : Prop :=
  ∃ j, Reaches m t name i j ∧ ((Ended t j ∧ ∀ s, ¬Named m name s) ∨ ∃ s, Matched m t name j s ∧
        ((m.getAddressNptr s.stValue = 0 ∧ ∀ s', ¬Named m name s') ∨
          (m.getAddressNptr s.stValue ≠ 0 ∧ ∃ s', Named m name s' ∧ m.getAddressNptr s.stValue = m.getAddressNptr s'.stValue)))

def Chained (m : Module) (name : CString) : Prop :=
  (m.hashes = none → ∀ s, ¬Named m name s) ∧ ∀ t, m.hashes = some t → t.nbucket ≠ 0 ∧
      ∃ i, t.bucket[(elfHash name % t.nbucket).toNat]? = some i ∧ Leads m t name i

theorem answers_zero : Answers m name 0 ↔ ∀ s, ¬Named m name s :=
  (or_iff_right fun h => h.1 rfl).trans (and_iff_right rfl)

theorem walk_answers_iff :
    (∃ r, (∃ fuel, m.walk t name fuel i = some (.ok r)) ∧ Answers m name r) ↔ Leads m t name i := by
  constructor
  · rintro ⟨r, hr, hanswers⟩
    obtain ⟨j, hj, ⟨hend, rfl⟩ | ⟨s, hmatch, rfl⟩⟩ := walk_eq_ok_iff.mp hr
    · exact ⟨j, hj, .inl ⟨hend, answers_zero.mp hanswers⟩⟩
    · exact ⟨j, hj, .inr ⟨s, hmatch, hanswers.symm⟩⟩
  · rintro ⟨j, hj, ⟨hend, hnone⟩ | ⟨s, hmatch, hanswers⟩⟩
    · exact ⟨0, walk_eq_ok_iff.mpr ⟨j, hj, .inl ⟨hend, rfl⟩⟩, answers_zero.mpr hnone⟩
    · exact ⟨_, walk_eq_ok_iff.mpr ⟨j, hj, .inr ⟨s, hmatch, rfl⟩⟩, hanswers.symm⟩

/-- **The walk ends, stays in the tables and answers** exactly on these chains. -/
theorem found_iff : Found m name ↔ Chained m name := by
  unfold Found Chained getSymbolFullName
  cases m.hashes with
  | none =>
    have hret : (∃ r, (∃ _ : ℕ, some (.ok 0) = some (Except.ok r : Except Fault UInt64)) ∧ Answers m name r) ↔
        Answers m name 0 :=
      ⟨fun ⟨r, ⟨_, hr⟩, h⟩ => by cases hr; exact h, fun h => ⟨0, ⟨0, rfl⟩, h⟩⟩
    exact hret.trans (answers_zero.trans ⟨fun h => ⟨fun _ => h, fun _ ht => by cases ht⟩, fun h => h.1 rfl⟩)
  | some t =>
    have hsome : (∀ t', some t = some t' → t'.nbucket ≠ 0 ∧
        ∃ i, t'.bucket[(elfHash name % t'.nbucket).toNat]? = some i ∧ Leads m t' name i) ↔
        t.nbucket ≠ 0 ∧ ∃ i, t.bucket[(elfHash name % t.nbucket).toNat]? = some i ∧ Leads m t name i :=
      ⟨fun h => h t rfl, fun h t' ht' => by cases ht'; exact h⟩
    rw [hsome, and_iff_right fun h => by cases h]
    by_cases h0 : t.nbucket = 0
    · simp only [h0, ne_eq, not_true_eq_false, false_and, iff_false]
      rintro ⟨r, ⟨fuel, hr⟩, -⟩
      cases hr
    · rw [and_iff_right h0]
      simp only [if_neg h0]
      cases t.bucket[(elfHash name % t.nbucket).toNat]? with
      | none => exact iff_of_false (fun ⟨r, ⟨fuel, hr⟩, _⟩ => by cases hr) fun ⟨i, h, _⟩ => by cases h
      | some i => exact walk_answers_iff.trans ⟨fun h => ⟨i, rfl, h⟩, fun ⟨i', hi', h⟩ => by cases hi'; exact h⟩

end Walk

/-- **When the lookups are right**: by an id, and by a full name. -/
theorem lookups_iff (m : Module) (nid : UInt64) (name : CString) :
    (Agree m nid ↔ Scanned m nid) ∧ (Found m name ↔ Chained m name) := ⟨agree_iff, found_iff⟩

/-! ## A name that does not decode, and a link behind the table -/

/-- Two defined symbols: the name of the first is empty. The chain of the only bucket begins at the second, which
has no link. -/
def crafted : Module where
  base := 0x400000
  symbols := [⟨11, 0x10⟩, ⟨0, 0x20⟩]
  strtab := fun k => if k < 11 then 65 else 0
  hashes := some ⟨[1], [0], by decide, by decide⟩
  exportIndex := none

theorem crafted_disagrees : ¬Agree crafted 0 ∧ ¬Found crafted ⟨[66], by decide⟩ := by
  constructor
  · intro h
    have hindex : crafted.exportAfter [] 0 = 0x400020 := by decide +kernel
    have hscan : crafted.getSymbol 0 = 0 := by decide +kernel
    have hsame := h []
    rw [hindex, hscan] at hsame
    exact absurd hsame (by decide)
  · rintro ⟨r, ⟨fuel, hr⟩, -⟩
    have hfault : ∀ n, crafted.getSymbolFullName ⟨[66], by decide⟩ (n + 1) = some (.error .read) := fun n => rfl
    cases fuel with
    | zero => cases hr
    | succ n =>
      rw [hfault] at hr
      cases hr

end Prosperity.Kern.ModuleExports
