import Prosperity.Kern.VmMapRefinement

/-!
# Protecting and naming ranges of the map

`sys_mprotect` and `sys_mname` change what the map reports of a range. The map has no entry split for it: an entry
that meets the range takes the new protection or name as a whole.
-/

namespace Prosperity.Kern

/-! ## The operations -/

def PageInfo.Meets (e : PageInfo) (ptr size : ℕ) : Prop := ptr < e.stop ∧ e.ptr < u64 (ptr + size)

instance (e : PageInfo) (ptr size : ℕ) : Decidable (e.Meets ptr size) := inferInstanceAs (Decidable (_ ∧ _))

namespace VmMap

def protectRange (m : VmMap) (ptr size : ℕ) (prot : Mprot) (sceProt : BitVec 32) : VmMap :=
  { m with rtPages := m.rtPages.map fun page =>
      if page.Meets ptr size then { page with prot := prot, sceProt := sceProt } else page }

def setRangeName (m : VmMap) (ptr size : ℕ) (name : Option String) : VmMap :=
  match name with
  | none => m
  | some name =>
    { m with rtPages := m.rtPages.map fun page =>
        if page.Meets ptr size then { page with name := some name } else page }

end VmMap

/-- `sys_mprotect`: the base is rounded down and the span up, and a range that wraps is an error. -/
def sysMprotect (m : VmMap) (addr len : ℕ) (prot : BitVec 32) : Option VmMap :=
  let base := addr - addr % 0x4000
  let span := u64 (len + addr % 0x4000 + 0x3FFF) - u64 (len + addr % 0x4000 + 0x3FFF) % 0x4000
  if base + span ≥ 2 ^ 64 then none
  else
    let sceProt := prot &&& 0x37#32
    some (m.protectRange base span (sceProt &&& 7#32) sceProt)

/-- `sys_mname`: the range lies in the user's address space, and the name is shorter than 32 bytes. -/
def sysMname (m : VmMap) (ptr len : ℕ) (name : String) : Option VmMap :=
  if ptr ≥ 0x10000000000 ∨ len > 0x10000000000 - ptr then none
  else if name.utf8ByteSize ≥ 32 then none
  else some (m.setRangeName ptr len (some name))

/-- What an operation sets. -/
inductive Setting
  | prot (mprot : Mprot) (sceProt : BitVec 32)
  | name (tag : String)

def Setting.set : Setting → PageInfo → PageInfo
  | .prot mprot sceProt, e => { e with prot := mprot, sceProt := sceProt }
  | .name tag, e => { e with name := some tag }

structure RangeOp where
  ptr : ℕ
  size : ℕ
  setting : Setting
  fits : ptr + size < 2 ^ 64

namespace RangeOp

def apply (op : RangeOp) (m : VmMap) : VmMap :=
  match op.setting with
  | .prot mprot sceProt => m.protectRange op.ptr op.size mprot sceProt
  | .name tag => m.setRangeName op.ptr op.size (some tag)

def Has (op : RangeOp) (a : ℕ) : Prop := op.ptr ≤ a ∧ a < op.ptr + op.size

theorem apply_rtPages (op : RangeOp) (m : VmMap) :
    (op.apply m).rtPages = m.rtPages.map fun e => if e.Meets op.ptr op.size then op.setting.set e else e := by
  unfold apply
  cases op.setting <;> rfl

end RangeOp

/-- **Each call is an operation on a range**, if it is not an error. -/
theorem sysMprotect_eq {m m' : VmMap} {addr len : ℕ} {prot : BitVec 32} (h : sysMprotect m addr len prot = some m') :
    ∃ op : RangeOp, m' = op.apply m := by
  unfold sysMprotect at h
  dsimp only at h
  split at h
  · cases h
  · next hfits =>
    exact ⟨⟨_, _, .prot _ _, Nat.not_le.mp hfits⟩, (Option.some.inj h).symm⟩

theorem sysMname_eq {m m' : VmMap} {ptr len : ℕ} {name : String} (h : sysMname m ptr len name = some m') :
    ∃ op : RangeOp, m' = op.apply m := by
  unfold sysMname at h
  split at h
  · cases h
  · next hspace =>
    split at h
    · cases h
    · have hfits : ptr + len < 2 ^ 64 := by omega
      exact ⟨⟨ptr, len, .name name, hfits⟩, (Option.some.inj h).symm⟩

/-! ## The maps that can be reached -/

inductive MapOp
  | vm (op : VmOp)
  | range (op : RangeOp)

def MapOp.Good : MapOp → Prop
  | vm op => op.Good
  | range _ => True

def mapSystem : LabelledSystem VmMap MapOp where
  step m
    | .vm op => m.step op
    | .range op => some (op.apply m)

def VmMap.Reachable (m : VmMap) : Prop :=
  ∃ ops, (∀ op ∈ ops, MapOp.Good op) ∧ mapSystem.exec VmMap.empty ops = some m

namespace PageInfo

variable {e : PageInfo} {t : Setting}

@[simp] theorem set_ptr : (t.set e).ptr = e.ptr := by cases t <;> rfl
@[simp] theorem set_size : (t.set e).size = e.size := by cases t <;> rfl
@[simp] theorem set_physOffset : (t.set e).physOffset = e.physOffset := by cases t <;> rfl
@[simp] theorem set_hasPhys : (t.set e).hasPhys = e.hasPhys := by cases t <;> rfl
end PageInfo

def Setting.setByte : Setting → ByteInfo → ByteInfo
  | .prot mprot sceProt, b => { b with prot := mprot, sceProt := sceProt }
  | .name tag, b => { b with name := some tag }

theorem Setting.info_set (t : Setting) (e : PageInfo) (n a : ℕ) : (t.set e).info n a = t.setByte (e.info n a) := by
  cases t <;> rfl

theorem Setting.setByte_stamp (t : Setting) (b : ByteInfo) : (t.setByte b).stamp = b.stamp := by
  cases t <;> rfl

open Classical in
noncomputable def setBytes (pages : List PageInfo) (chosen : PageInfo → Prop) (t : Setting)
    (bytes : ℕ → Option ByteInfo) : ℕ → Option ByteInfo :=
  fun a => (bytes a).map fun b => if ∃ e ∈ pages, chosen e ∧ e.Has a then t.setByte b else b

theorem setBytes_eq_some {pages : List PageInfo} {chosen : PageInfo → Prop} {t : Setting}
    {bytes : ℕ → Option ByteInfo} {a : ℕ} {b : ByteInfo} (h : setBytes pages chosen t bytes a = some b) :
    ∃ b', bytes a = some b' ∧ b'.stamp = b.stamp := by
  obtain ⟨b', hb', hb⟩ := Option.map_eq_some_iff.mp h
  refine ⟨b', hb', ?_⟩
  split at hb
  · rw [← hb, t.setByte_stamp]
  · rw [hb]

/-- **Entries that take a setting as a whole** still stand for runs of their table. -/
theorem Represents.set {pages : List PageInfo} {bytes : ℕ → Option ByteInfo} (h : Represents pages bytes)
    (chosen : PageInfo → Prop) [DecidablePred chosen] (t : Setting) :
    Represents (pages.map fun e => if chosen e then t.set e else e) (setBytes pages chosen t bytes) := by
  have hhas : ∀ (e : PageInfo) (a : ℕ), (if chosen e then t.set e else e).Has a ↔ e.Has a := fun e a => by
    split <;> simp [PageInfo.Has]
  -- an entry is the only one with its bytes
  have honly : ∀ e ∈ pages, ∀ a, e.Has a → ((∃ e' ∈ pages, chosen e' ∧ e'.Has a) ↔ chosen e) := by
    intro e he a ha
    constructor
    · rintro ⟨e', he', hchosen, ha'⟩
      by_cases heq : e = e'
      · exact heq ▸ hchosen
      · exact absurd ha' ((h.apart.forall he he' heq : e.Apart e').not_has ha)
    · exact fun hchosen => ⟨e, he, hchosen, ha⟩
  refine ⟨fun x hx => ?_, ?_, fun a b hab => ?_⟩
  · obtain ⟨e, he, rfl⟩ := List.mem_map.mp hx
    obtain ⟨hgood, hphys, hroom, n, hrun, hedge⟩ := h.stands e he
    refine ⟨?_, ?_, ?_, n, fun a ha => ?_, fun a b ha hb => ?_⟩
    · split <;> simpa using hgood
    · split <;> simpa using hphys
    · split <;> simpa using hroom
    · rw [hhas] at ha
      by_cases hchosen : chosen e
      · rw [setBytes, hrun a ha, Option.map_some, if_pos ((honly e he a ha).mpr hchosen), if_pos hchosen, t.info_set]
      · rw [setBytes, hrun a ha, Option.map_some, if_neg (mt (honly e he a ha).mp hchosen), if_neg hchosen]
    · obtain ⟨b', hb', hstamp⟩ := setBytes_eq_some hb
      rw [← hstamp]
      refine hedge a b' ?_ hb'
      split at ha <;> simpa using ha
  · refine List.pairwise_map.mpr (h.apart.imp fun {e e'} hapart => ?_)
    unfold PageInfo.Apart at hapart ⊢
    split <;> split <;> simpa using hapart
  · obtain ⟨b', hb', -⟩ := setBytes_eq_some hab
    obtain ⟨e, he, ha⟩ := h.covered a b' hb'
    exact ⟨_, List.mem_map_of_mem he, (hhas e a).mpr ha⟩

namespace VmMap

def Tabled (m : VmMap) : Prop := ∃ b, Inv (m, b)

theorem Tabled.step {m m' : VmMap} {op : MapOp} (h : m.Tabled) (hgood : op.Good)
    (hstep : mapSystem.step m op = some m') : m'.Tabled := by
  obtain ⟨b, hinv⟩ := h
  cases op with
  | vm op =>
    have hstep' : m.step op = some m' := hstep
    have hnames : NamesEntry (m, b) op := by
      cases op with
      | unmapRtMemory ptr =>
        simp only [VmMap.step, VmMap.unmapRtMemory] at hstep'
        split at hstep'
        · next hany =>
          obtain ⟨e, he, hep⟩ := List.any_eq_true.mp hany
          exact ⟨e, he, by simpa using hep⟩
        · cases hstep'
      | _ => trivial
    obtain ⟨s', hs', hinv'⟩ := hinv.step hgood hnames
    obtain ⟨m'', hm'', rfl⟩ := vmSystem_step hs'
    obtain rfl := Option.some.inj (hm''.symm.trans hstep')
    exact ⟨_, hinv'⟩
  | range op =>
    obtain rfl : op.apply m = m' := Option.some.inj hstep
    refine ⟨⟨setBytes m.rtPages (fun e => e.Meets op.ptr op.size) op.setting b.bytes, b.clock⟩, ?_, fun a i hi => ?_⟩
    · rw [op.apply_rtPages]
      exact hinv.represents.set _ _
    · obtain ⟨i', hi', hstamp⟩ := setBytes_eq_some hi
      rw [← hstamp]
      exact hinv.clock a i' hi'

theorem Reachable.tabled {m : VmMap} (h : m.Reachable) : m.Tabled := by
  obtain ⟨ops, hgood, hexec⟩ := h
  have hempty : VmMap.empty.Tabled := ⟨_, Inv.empty⟩
  generalize VmMap.empty = start at hexec hempty
  induction ops generalizing start with
  | nil =>
    obtain rfl := Option.some.inj hexec
    exact hempty
  | cons op ops ih =>
    obtain ⟨next, hstep, hrest⟩ := Option.bind_eq_some_iff.mp hexec
    exact ih (fun o ho => hgood o (List.mem_cons_of_mem _ ho)) next hrest
      (hempty.step (hgood op List.mem_cons_self) hstep)

/-! ## What the map reports -/

structure Report where
  prot : Mprot
  sceProt : BitVec 32
  name : Option String
  reserved : Bool
  phys : Option ℕ
deriving DecidableEq

def report (m : VmMap) (a : ℕ) : Option Report :=
  (m.get a).map fun e =>
    ⟨e.prot, e.sceProt, e.name, e.reserved, if e.hasPhys then some (e.physOffset + (a - e.ptr)) else none⟩

def setReport : Setting → Report → Report
  | .prot mprot sceProt, r => { r with prot := mprot, sceProt := sceProt }
  | .name tag, r => { r with name := some tag }

/-- **The change is what the range says**: its bytes take the setting, and no other byte reports anything new. -/
def PerByte (op : RangeOp) (m : VmMap) : Prop :=
  (∀ a, op.Has a → (op.apply m).report a = (m.report a).map (setReport op.setting)) ∧
    ∀ a, ¬op.Has a → (op.apply m).report a = m.report a

theorem meets_iff {m : VmMap} (h : m.Tabled) {e : PageInfo} (he : e ∈ m.rtPages) (op : RangeOp) :
    e.Meets op.ptr op.size ↔ op.ptr < e.ptr + e.size ∧ e.ptr < op.ptr + op.size := by
  obtain ⟨b, hinv⟩ := h
  rw [PageInfo.Meets, PageInfo.stop_eq (hinv.represents.stands e he).good, u64_of_lt op.fits]

theorem get_eq_some_iff {m : VmMap} (h : m.Tabled) {a : ℕ} {e : PageInfo} :
    m.get a = some e ↔ e ∈ m.rtPages ∧ e.Has a := by
  obtain ⟨_, hinv⟩ := h
  exact get_eq_some_iff_of_represents hinv.represents

theorem Tabled.apply {m : VmMap} (h : m.Tabled) (op : RangeOp) : (op.apply m).Tabled := by
  have hgood : (MapOp.range op).Good := trivial
  have hstep : mapSystem.step m (.range op) = some (op.apply m) := rfl
  exact h.step hgood hstep

/-- **What the map reports** after the operation: an entry that meets the range takes the setting as a whole. -/
theorem get_apply {m : VmMap} (h : m.Tabled) (op : RangeOp) (a : ℕ) :
    (op.apply m).get a = (m.get a).map fun e => if e.Meets op.ptr op.size then op.setting.set e else e := by
  cases hget : m.get a with
  | none =>
    rw [Option.map_none, Option.eq_none_iff_forall_ne_some]
    intro e' he'
    rw [get_eq_some_iff (h.apply op), op.apply_rtPages] at he'
    obtain ⟨hmem, ha⟩ := he'
    obtain ⟨e, he, rfl⟩ := List.mem_map.mp hmem
    have hhas : e.Has a := by
      split at ha <;> simpa [PageInfo.Has] using ha
    rw [(get_eq_some_iff h).mpr ⟨he, hhas⟩] at hget
    cases hget
  | some e =>
    obtain ⟨he, ha⟩ := (get_eq_some_iff h).mp hget
    rw [Option.map_some, get_eq_some_iff (h.apply op), op.apply_rtPages]
    refine ⟨List.mem_map_of_mem he, ?_⟩
    split <;> simpa [PageInfo.Has] using ha

theorem report_of_mem {m : VmMap} (h : m.Tabled) {e : PageInfo} (he : e ∈ m.rtPages) {a : ℕ} (ha : e.Has a) :
    m.report a = some ⟨e.prot, e.sceProt, e.name, e.reserved,
      if e.hasPhys then some (e.physOffset + (a - e.ptr)) else none⟩ := by
  rw [report, (get_eq_some_iff h).mpr ⟨he, ha⟩, Option.map_some]

theorem report_apply_of_meets {m : VmMap} (h : m.Tabled) (op : RangeOp) {e : PageInfo} (he : e ∈ m.rtPages) {a : ℕ}
    (ha : e.Has a) (hmeets : e.Meets op.ptr op.size) :
    (op.apply m).report a = (m.report a).map (setReport op.setting) := by
  rw [report, get_apply h, report, (get_eq_some_iff h).mpr ⟨he, ha⟩, Option.map_some, Option.map_some,
    Option.map_some, Option.map_some, if_pos hmeets]
  cases op.setting <;> rfl

def Inside (op : RangeOp) (e : PageInfo) : Prop := op.ptr ≤ e.ptr ∧ e.ptr + e.size ≤ op.ptr + op.size

theorem set_eq_of_report {m : VmMap} (h : m.Tabled) {op : RangeOp} {e : PageInfo} (he : e ∈ m.rtPages) {a : ℕ}
    (ha : e.Has a) (heq : (m.report a).map (setReport op.setting) = m.report a) : op.setting.set e = e := by
  rw [report_of_mem h he ha, Option.map_some] at heq
  have heq' := Option.some.inj heq
  cases hset : op.setting with
  | prot mprot sceProt =>
    rw [hset] at heq'
    have hprot : mprot = e.prot := congrArg Report.prot heq'
    have hsce : sceProt = e.sceProt := congrArg Report.sceProt heq'
    rw [Setting.set, hprot, hsce]
  | name tag =>
    rw [hset] at heq'
    have hname : some tag = e.name := congrArg Report.name heq'
    rw [Setting.set, hname]

/-- **Protecting and naming** in a map that can be reached. A byte of the range that is tracked reports the setting.
A byte reports anything new only if its entry meets the range. The change is what the range says, byte by byte,
exactly if every entry that meets the range lies in it or has the setting already. -/
theorem range_change {m : VmMap} (h : m.Reachable) (op : RangeOp) :
    (∀ a, op.Has a → (op.apply m).get a = (m.get a).map op.setting.set) ∧
      (∀ a, (∀ e, m.get a = some e → ¬e.Meets op.ptr op.size) → (op.apply m).get a = m.get a) ∧
      (∀ a e, m.get a = some e → e.Meets op.ptr op.size → (op.apply m).get a = some (op.setting.set e)) ∧
      (PerByte op m ↔ ∀ e ∈ m.rtPages, e.Meets op.ptr op.size → Inside op e ∨ op.setting.set e = e) := by
  have htabled := h.tabled
  have hmeets : ∀ e ∈ m.rtPages, ∀ a, e.Has a → op.Has a → e.Meets op.ptr op.size := fun e he a ha hin => by
    rw [meets_iff htabled he]
    unfold PageInfo.Has at ha
    unfold RangeOp.Has at hin
    omega
  refine ⟨fun a hin => ?_, fun a hapart => ?_, fun a e hget hmeet => ?_, ?_⟩
  · rw [get_apply htabled]
    cases hget : m.get a with
    | none => rfl
    | some e =>
      obtain ⟨he, ha⟩ := (get_eq_some_iff htabled).mp hget
      rw [Option.map_some, Option.map_some, if_pos (hmeets e he a ha hin)]
  · rw [get_apply htabled]
    cases hget : m.get a with
    | none => rfl
    | some e => rw [Option.map_some, if_neg (hapart e hget)]
  · rw [get_apply htabled, hget, Option.map_some, if_pos hmeet]
  constructor
  · rintro ⟨-, hout⟩ e he hmeet
    by_cases hinside : Inside op e
    · exact .inl hinside
    -- a byte of the entry lies outside the range
    have hgood : 0 < e.size := by
      obtain ⟨b, hinv⟩ := htabled
      exact (hinv.represents.stands e he).good.1
    obtain ⟨a, ha, hnot⟩ : ∃ a, e.Has a ∧ ¬op.Has a := by
      unfold Inside at hinside
      by_cases hlow : e.ptr < op.ptr
      · exact ⟨e.ptr, ⟨Nat.le_refl _, by omega⟩, fun hin => by have := hin.1; omega⟩
      · exact ⟨e.ptr + e.size - 1, ⟨by omega, by omega⟩, fun hin => by have := hin.2; omega⟩
    refine .inr (set_eq_of_report htabled he ha ?_)
    rw [← report_apply_of_meets htabled op he ha hmeet]
    exact hout a hnot
  · intro hall
    refine ⟨fun a hin => ?_, fun a hout => ?_⟩
    · cases hget : m.get a with
      | none => rw [report, get_apply htabled, report, hget, Option.map_none, Option.map_none, Option.map_none]
      | some e =>
        obtain ⟨he, ha⟩ := (get_eq_some_iff htabled).mp hget
        exact report_apply_of_meets htabled op he ha (hmeets e he a ha hin)
    · cases hget : m.get a with
      | none => rw [report, get_apply htabled, report, hget, Option.map_none]
      | some e =>
        obtain ⟨he, ha⟩ := (get_eq_some_iff htabled).mp hget
        by_cases hmeet : e.Meets op.ptr op.size
        · rcases hall e he hmeet with hinside | hset
          · refine absurd ?_ hout
            unfold Inside at hinside
            unfold PageInfo.Has at ha
            unfold RangeOp.Has
            omega
          · rw [report, get_apply htabled, report, hget, Option.map_some, if_pos hmeet, hset]
        · rw [report, get_apply htabled, report, hget, Option.map_some, if_neg hmeet]

/-! ## A page out of two -/

def twoPages : VmMap := ⟨[PageInfo.make 0x10000 0x8000 3#32 3#32 false], [.changed 0x10000 0x8000, .track 0x10000 0x8000]⟩

theorem twoPages_reachable : twoPages.Reachable := by
  refine ⟨[.vm (.add 0x10000 0x8000 3#32 3#32 false)], ?_, by decide⟩
  intro op hop
  rw [List.mem_singleton.mp hop]
  exact ⟨by decide, by decide⟩

theorem protectFirst_fits : 0x10000 + 0x4000 < 2 ^ 64 := by decide

def protectFirst : RangeOp := ⟨0x10000, 0x4000, .prot 1#32 1#32, protectFirst_fits⟩

theorem range_change_twoPages :
    twoPages.Reachable ∧ (protectFirst.apply twoPages).get 0x14000 = (twoPages.get 0x14000).map protectFirst.setting.set := by
  have hmeets : (PageInfo.make 0x10000 0x8000 3#32 3#32 false).Meets protectFirst.ptr protectFirst.size := by decide
  refine ⟨twoPages_reachable, ?_⟩
  rw [(range_change twoPages_reachable protectFirst).2.2.1 0x14000 _ (by decide) hmeets]
  decide

/-- The second page reports the protection of the first. -/
theorem protectRange_spills : ¬∀ m : VmMap, m.Reachable → ∀ op : RangeOp, PerByte op m := by
  intro h
  have hsecond := (h twoPages twoPages_reachable protectFirst).2 0x14000 (by unfold RangeOp.Has; decide)
  revert hsecond
  decide

end VmMap

end Prosperity.Kern
