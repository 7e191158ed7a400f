import Mathlib.Algebra.Order.Group.Nat
import Mathlib.Data.List.TakeWhile
import Prosperity.Gpu.RegState

/-!
# The bounds of the register decoders

A decoder stays inside its packet and the image that the packet declares, and writes the registers of the space
that it addresses. Two decoders count with 32-bit words that can wrap. The one that joins a blend object out of two
blocks looks one entry too far in the first, if the second has 23 pairs.
-/

namespace Prosperity.Gpu.RegState

open Logged

inductive RegPacket
  | setRegs (base : RegBase)
  | loadRegImage (base : RegBase)
  | loadRegBlock (base : RegBase)
  | writeDataRegs

/-! ## What a packet says -/

/-- A range of a `LOAD_*_REG` packet. -/
def rangeAt (body : ℕ → UInt32) (i : ℕ) : ℕ × ℕ :=
  ((body i &&& 0xFFFF).toNat, min (body (i + 1) &&& 0xFFFF).toNat 0x2000)

/-- The register that the `i`-th dword of a `WRITE_DATA` packet is for. -/
def dataReg (body : ℕ → UInt32) (i : ℕ) : UInt32 :=
  if body 0 >>> 16 &&& 1 != 0 then plainOffset (body 1) else plainOffset (body 1) + UInt32.ofNat i

def joinedEntry (g : Guest) (s : CpState) (address k : ℕ) : UInt32 × UInt32 :=
  if k < s.prevPairs then (g.at s.prevAddr (k * 2), g.at s.prevAddr (k * 2 + 1))
  else (g.at address ((k - s.prevPairs) * 2), g.at address ((k - s.prevPairs) * 2 + 1))

def hasBlendArray (p : ℕ → UInt32) (numPairs : ℕ) : Bool :=
  (List.range 15).all fun k => isBlendTag (p ((numPairs - 20 + k) * 2)) k

def imageDwords (base limit : ℕ) (body : ℕ → UInt32) (is : List ℕ) (n : ℕ) : ℕ :=
  is.foldl (fun n i =>
    if base + (rangeAt body i).1 < limit then
      max n ((rangeAt body i).1 + min (rangeAt body i).2 (limit - base - (rangeAt body i).1))
    else n) n

namespace RegPacket

def space : RegPacket → ℕ × ℕ
  | setRegs base | loadRegImage base | loadRegBlock base => (base.value.toNat, (regSpaceLimit base.value).toNat)
  | writeDataRegs => (0, kRegFileSize.toNat)

section

variable (g : Guest) (body : ℕ → UInt32) (count : UInt32) (s : CpState)

def decode : RegPacket → Decode PUnit
  | setRegs base => RegState.setRegs base body count
  | loadRegImage base => RegState.loadRegImage g base body count
  | loadRegBlock base => RegState.loadRegBlock g base body count
  | writeDataRegs => RegState.writeDataRegs body count

inductive Declared : RegPacket → Source → ℕ → Prop
  | body {p k} : k < count.toNat → Declared p .body k
  | shadow {base i k} : i ∈ rangeIndices count.toNat → (rangeAt body i).1 ≤ k →
      k < (rangeAt body i).1 + (rangeAt body i).2 → Declared (loadRegImage base) .image k
  | block {base k} : k < blockPairs body * 2 → Declared (loadRegBlock base) .image k
  | previous {base k} : k < s.prevPairs * 2 → Declared (loadRegBlock base) .previous k

inductive Names : RegPacket → ℕ → UInt32 → Prop
  | value {base i} : i + 1 < count.toNat →
      Names (setRegs base) (base.value.toNat + (plainOffset (body 0)).toNat + i) (body (i + 1))
  | shadow {base i j} : i ∈ rangeIndices count.toNat → j < (rangeAt body i).2 →
      Names (loadRegImage base) (base.value.toNat + (rangeAt body i).1 + j)
        (g.at (imageAddress body) ((rangeAt body i).1 + j))
  | entry {base i} : i < blockPairs body → ¬(base = .context ∧ typeOne (g.at (blockAddress body) (i * 2)) = true) →
      Names (loadRegBlock base) (base.value + plainOffset (g.at (blockAddress body) (i * 2))).toNat
        (g.at (blockAddress body) (i * 2 + 1))
  | data {i} : i + 3 < count.toNat → Names writeDataRegs (dataReg body i).toNat (body (3 + i))

def EndsWithBlend : Prop := hasBlendArray (g.at (blockAddress body)) (blockPairs body) = true

/-- What a context block means without naming the register: the blend object at its end, which may have begun in the
block before it, and a colour target. -/
inductive Implies : ℕ → UInt32 → Prop
  | control : EndsWithBlend g body → 24 ≤ s.prevPairs + blockPairs body → Implies mmCB_BLEND0_CONTROL
        (if typeOne (joinedEntry g s (blockAddress body) (s.prevPairs + blockPairs body - 24)).1 then
          (joinedEntry g s (blockAddress body) (s.prevPairs + blockPairs body - 24)).2
        else 0)
  | mask : EndsWithBlend g body → 24 ≤ s.prevPairs + blockPairs body →
      typeOne (joinedEntry g s (blockAddress body) (s.prevPairs + blockPairs body - 23)).1 = true →
      Implies mmCB_TARGET_MASK (joinedEntry g s (blockAddress body) (s.prevPairs + blockPairs body - 23)).2
  | closed {reg} : EndsWithBlend g body → 24 ≤ blockPairs body →
      typeOne (g.at (blockAddress body) ((blockPairs body - 23) * 2)) = false →
      reg = mmCB_BLEND0_CONTROL ∨ reg = mmCB_TARGET_MASK → Implies reg 0
  | color {k} : k + 14 < blockPairs body → Implies mmCB_COLOR0_BASE (g.at (blockAddress body) (k * 2 + 1))
  | info {k} : k + 14 < blockPairs body → Implies mmCB_COLOR0_INFO (g.at (blockAddress body) ((k + 2) * 2 + 1))
  | attrib2 {k} : k + 14 < blockPairs body → Implies mmCB_COLOR0_ATTRIB2 (g.at (blockAddress body) ((k + 14) * 2 + 1))
  | forced : Implies mmCB_TARGET_MASK (s.regs mmCB_TARGET_MASK ||| 0xF)

def Assigns (p : RegPacket) (reg : ℕ) (value : UInt32) : Prop :=
  Names g body count p reg value ∨ p = loadRegBlock .context ∧ Implies g body s reg value

def Applies : RegPacket → Prop
  | setRegs _ | writeDataRegs => True
  | loadRegImage base =>
    let first := base.value.toNat
    let limit := (regSpaceLimit base.value).toNat
    let dwords := imageDwords first limit body (rangeIndices count.toNat) g.traceRegImagePrefixDwords
    4 ≤ count ∧ g.isGpuAddress (imageAddress body) = true ∧ dwords ≠ 0 ∧
      g.isReadableRangeCached (imageAddress body) (dwords * 4) = true ∧
      ∃ i ∈ rangeIndices count.toNat, ∃ j < (rangeAt body i).2, first + (rangeAt body i).1 + j < limit ∧
        g.at (imageAddress body) ((rangeAt body i).1 + j) ≠ 0
  | loadRegBlock _ =>
    4 ≤ count ∧ isGuestAddress (blockAddress body) = true ∧ blockPairs body ≠ 0 ∧
      g.isReadableRangeCached (blockAddress body) (blockPairs body * 2 * 4) = true

structure Sound (p : RegPacket) : Prop where
  reads : ∀ source k, .read source k ∈ ((p.decode g body count).run s).log → p.Declared body count s source k
  writes : ∀ reg value, .write reg value ∈ ((p.decode g body count).run s).log →
    p.space.1 ≤ reg ∧ reg < p.space.2 ∧ p.Assigns g body count s reg value
  complete : p.Applies g body count → ∀ reg value, p.Names g body count reg value → p.space.1 ≤ reg →
    reg < p.space.2 → .write reg value ∈ ((p.decode g body count).run s).log

structure JoinsPastEnd (base : RegBase) : Prop where
  applies : (loadRegBlock base).Applies g body count
  context : base = .context
  blendState : g.noBlendState = false
  pairs : blockPairs body = 23
  previous : s.prevPairs ≠ 0
  tags : EndsWithBlend g body
  readable : g.isReadableRangeCached s.prevAddr (s.prevPairs * 2 * 4) = true

def Fits : RegPacket → Prop
  | setRegs base => base.value.toNat + (plainOffset (body 0)).toNat + count.toNat < 2 ^ 32 + 2
  | loadRegImage _ => True
  | loadRegBlock base => ¬JoinsPastEnd g body count s base
  | writeDataRegs =>
    3 ≤ count ∨ count = 2 ∧ body 0 >>> 16 &&& 1 ≠ 0 ∧ kRegFileSize ≤ plainOffset (body 1)

end

end RegPacket

/-! ## Rules -/

section Rules

variable {P : RegAccess → Prop} {s : CpState} {source : Source} {d : ℕ → UInt32} {k reg : ℕ} {value : UInt32}

@[simp] theorem safe_fetch {Q : UInt32 → CpState → Prop} :
    Safe P (fetch source d k) s Q ↔ P (.read source k) ∧ Q (d k) s := safe_access

@[simp] theorem safe_store {Q : PUnit → CpState → Prop} : Safe P (store reg value) s Q ↔
      P (.write reg value) ∧ Q ⟨⟩ { s with regs := Function.update s.regs reg value } := safe_access

theorem mem_log_store : .write reg value ∈ ((store reg value).run s).log := List.mem_singleton_self _

theorem mem_log_fetch_bind {α : Type} {f : UInt32 → Decode α} {e : RegAccess} :
    e ∈ ((fetch source d k >>= f).run s).log ↔ e = .read source k ∨ e ∈ ((f (d k)).run s).log := by
  rw [mem_log_bind]
  exact or_congr_left List.mem_singleton

end Rules

section Values

theorem RegBase.value_pos (base : RegBase) : 0 < base.value.toNat := by
  cases base <;> decide

theorem RegBase.value_le (base : RegBase) : base.value.toNat ≤ 0xC000 := by
  cases base <;> decide

theorem plainOffset_le (tag : UInt32) : (plainOffset tag).toNat ≤ 0x8FFFFFFF := by
  unfold plainOffset
  rw [UInt32.toNat_and]
  exact Nat.and_le_right

theorem toNat_base_add (base : RegBase) (tag : UInt32) :
    (base.value + plainOffset tag).toNat = base.value.toNat + (plainOffset tag).toNat := by
  have hbase := base.value_le
  have hoff := plainOffset_le tag
  rw [UInt32.toNat_add]
  exact Nat.mod_eq_of_lt (by omega)

theorem mem_rangeIndices {count i : ℕ} (h : i ∈ rangeIndices count) : i + 1 < count := by
  obtain ⟨t, ht, rfl⟩ := List.mem_map.mp h
  have hlt := List.mem_range.mp ht
  omega

end Values

def RegPacket.Allowed (g : Guest) (body : ℕ → UInt32) (count : UInt32) (s : CpState) (p : RegPacket) : RegAccess → Prop
  | .read source k => p.Declared body count s source k
  | .write reg value => p.space.1 ≤ reg ∧ reg < p.space.2 ∧ p.Assigns g body count s reg value

section Decoders

variable {g : Guest} {body : ℕ → UInt32} {count : UInt32} {s : CpState} {base : RegBase}

/-! ## Values in the packet -/

theorem toNat_first_add {i : ℕ} (h : base.value.toNat + (plainOffset (body 0)).toNat + i < 2 ^ 32) :
    (base.value + plainOffset (body 0) + UInt32.ofNat i).toNat =
      base.value.toNat + (plainOffset (body 0)).toNat + i := by
  rw [UInt32.toNat_add, toNat_base_add, UInt32.toNat_ofNat_of_lt' (Nat.lt_of_le_of_lt (Nat.le_add_left _ _) h)]
  exact Nat.mod_eq_of_lt h

/-- **The accesses of `SetRegs`**, if the register numbers do not wrap. -/
theorem safe_setRegs (hfits : (RegPacket.setRegs base).Fits g body count s) :
    Safe ((RegPacket.setRegs base).Allowed g body count s) (setRegs base body count) s fun _ _ => True := by
  simp only [RegPacket.Fits] at hfits
  unfold setRegs
  split
  · exact safe_pure.mpr trivial
  · next hcount =>
    rw [UInt32.lt_iff_toNat_lt, UInt32.toNat_one] at hcount
    rw [safe_bind, safe_fetch]
    refine ⟨.body (by omega), Safe.forM (I := fun _ => True) (fun i hi s' _ => ?_) trivial⟩
    have hlt := List.mem_range.mp hi
    rw [safe_bind, safe_fetch]
    refine ⟨.body (by omega), ?_⟩
    have hreg := toNat_first_add (show base.value.toNat + (plainOffset (body 0)).toNat + i < 2 ^ 32 by omega)
    dsimp only
    split
    · next hin =>
      rw [UInt32.lt_iff_toNat_lt, hreg] at hin
      rw [safe_store, hreg]
      simp only [RegPacket.Allowed, RegPacket.space, and_true]
      exact ⟨by omega, hin, .inl (.value (by omega))⟩
    · exact safe_pure.mpr trivial

theorem complete_setRegs (hfits : (RegPacket.setRegs base).Fits g body count s) {reg : ℕ} {value : UInt32}
    (h : (RegPacket.setRegs base).Names g body count reg value) (hreg : reg < (regSpaceLimit base.value).toNat) :
    .write reg value ∈ ((setRegs base body count).run s).log := by
  simp only [RegPacket.Fits] at hfits
  cases h with
  | @value _ i hi =>
    have heq := toNat_first_add (show base.value.toNat + (plainOffset (body 0)).toNat + i < 2 ^ 32 by omega)
    have hcount : ¬count < 1 := by
      rw [UInt32.lt_iff_toNat_lt, UInt32.toNat_one]
      omega
    have hin : base.value + plainOffset (body 0) + UInt32.ofNat i < regSpaceLimit base.value := by
      rw [UInt32.lt_iff_toNat_lt, heq]
      exact hreg
    rw [setRegs, if_neg hcount, mem_log_fetch_bind]
    refine .inr (mem_log_forM (List.mem_range.mpr (by omega : i < count.toNat - 1)) fun s' => ?_)
    rw [mem_log_fetch_bind, if_pos hin, heq]
    exact .inr mem_log_store

theorem wraps_setRegs (h : ¬(RegPacket.setRegs base).Fits g body count s) :
    ∃ value, .write 0 value ∈ ((setRegs base body count).run s).log := by
  simp only [RegPacket.Fits] at h
  have hbase := base.value_le
  have hoff := plainOffset_le (body 0)
  have hcount : ¬count < 1 := by
    rw [UInt32.lt_iff_toNat_lt, UInt32.toNat_one]
    omega
  obtain ⟨i, hi⟩ : ∃ i, base.value.toNat + (plainOffset (body 0)).toNat + i = 2 ^ 32 :=
    ⟨2 ^ 32 - (base.value.toNat + (plainOffset (body 0)).toNat), by omega⟩
  have hreg : base.value + plainOffset (body 0) + UInt32.ofNat i = 0 := by
    have hpos := base.value_pos
    rw [← UInt32.toNat_inj, UInt32.toNat_add, toNat_base_add, UInt32.toNat_ofNat_of_lt' (by
      change i < 2 ^ 32
      omega), hi]
    rfl
  have hin : (0 : UInt32) < regSpaceLimit base.value := by cases base <;> decide
  refine ⟨body (i + 1), ?_⟩
  rw [setRegs, if_neg hcount, mem_log_fetch_bind]
  refine .inr (mem_log_forM (List.mem_range.mpr (by omega : i < count.toNat - 1)) fun s' => ?_)
  rw [mem_log_fetch_bind, hreg, if_pos hin]
  exact .inr mem_log_store

theorem toNat_sub_three (h : 3 ≤ count.toNat) : (count - 3).toNat = count.toNat - 3 :=
  UInt32.toNat_sub_of_le _ _ (UInt32.le_iff_toNat_le.mpr h)

theorem toNat_three_add {i : ℕ} (h : 3 + i < 2 ^ 32) : (3 + UInt32.ofNat i).toNat = 3 + i := by
  rw [UInt32.toNat_add, UInt32.toNat_ofNat_of_lt' (show i < 2 ^ 32 by omega)]
  exact Nat.mod_eq_of_lt h

theorem mem_log_writeDataRegs {i : ℕ} {e : RegAccess} (hi : i < (count - 3).toNat)
    (hin : dataReg body i < kRegFileSize)
    (he : ∀ s, e ∈ ((fetch .body body (3 + UInt32.ofNat i).toNat >>= fun value =>
      store (dataReg body i).toNat value).run s).log) : e ∈ ((writeDataRegs body count).run s).log := by
  rw [writeDataRegs, mem_log_fetch_bind, mem_log_fetch_bind]
  refine .inr (.inr (mem_log_forM (List.mem_range.mpr hi) fun s' => ?_))
  change e ∈ (Logged.run (if dataReg body i ≥ kRegFileSize then pure ⟨⟩
    else fetch .body body (3 + UInt32.ofNat i).toNat >>= fun value => store (dataReg body i).toNat value) s').log
  rw [if_neg (UInt32.not_le.mpr hin)]
  exact he s'

/-- **The accesses of `WriteDataRegs`**, if the count less three does not wrap or no register is meant. -/
theorem safe_writeDataRegs (hfits : RegPacket.writeDataRegs.Fits g body count s) :
    Safe (RegPacket.writeDataRegs.Allowed g body count s) (writeDataRegs body count) s fun _ _ => True := by
  simp only [RegPacket.Fits, UInt32.le_iff_toNat_le, ← UInt32.toNat_inj] at hfits
  have htwo : 2 ≤ count.toNat := by
    rcases hfits with h | ⟨h, -⟩
    · exact Nat.le_of_succ_le h
    · exact Nat.le_of_eq h.symm
  unfold writeDataRegs
  simp only [safe_bind, safe_fetch]
  refine ⟨.body (by omega), .body (by omega), Safe.forM (I := fun _ => True) (fun i hi s' _ => ?_) trivial⟩
  have hlt := List.mem_range.mp hi
  change Safe _ (if dataReg body i ≥ kRegFileSize then pure ⟨⟩
    else fetch .body body (3 + UInt32.ofNat i).toNat >>= fun value => store (dataReg body i).toNat value) s' _
  split
  · exact safe_pure.mpr trivial
  · next hin =>
    rw [ge_iff_le, UInt32.le_iff_toNat_le, Nat.not_le] at hin
    -- a packet of two dwords writes no register, so there are three
    have hthree : 3 ≤ count.toNat := by
      rcases hfits with h | ⟨-, hone, hout⟩
      · exact h
      · rw [dataReg, if_pos (bne_iff_ne.mpr hone)] at hin
        omega
    rw [toNat_sub_three hthree] at hlt
    have hindex : (3 + UInt32.ofNat i).toNat = 3 + i := by
      have hcount := count.toNat_lt
      exact toNat_three_add (by omega)
    simp only [safe_bind, safe_fetch, safe_store, hindex, RegPacket.Allowed, RegPacket.space, and_true]
    exact ⟨.body (by omega), Nat.zero_le _, hin, .inl (.data (by omega))⟩

theorem complete_writeDataRegs {reg : ℕ} {value : UInt32}
    (h : RegPacket.writeDataRegs.Names g body count reg value) (hreg : reg < kRegFileSize.toNat) :
    .write reg value ∈ ((writeDataRegs body count).run s).log := by
  cases h with
  | @data i hi =>
    have hcount := count.toNat_lt
    refine mem_log_writeDataRegs (i := i) ?_ (UInt32.lt_iff_toNat_lt.mpr hreg) fun s' => ?_
    · rw [toNat_sub_three (by omega)]
      omega
    · rw [mem_log_fetch_bind, toNat_three_add (by omega)]
      exact .inr mem_log_store

theorem exists_dataReg_lt (h : ¬(body 0 >>> 16 &&& 1 ≠ 0 ∧ kRegFileSize ≤ plainOffset (body 1))) :
    ∃ i, i < 0xFFFFFFFC ∧ dataReg body i < kRegFileSize := by
  have hoff := plainOffset_le (body 1)
  by_cases hin : plainOffset (body 1) < kRegFileSize
  · refine ⟨0, by decide, ?_⟩
    unfold dataReg
    split
    · exact hin
    · simpa using hin
  · rw [UInt32.not_lt] at hin
    have hone : ¬(body 0 >>> 16 &&& 1 != 0) = true := fun hone => h ⟨bne_iff_ne.mp hone, hin⟩
    rw [UInt32.le_iff_toNat_le] at hin
    change 0xD000 ≤ _ at hin
    refine ⟨2 ^ 32 - (plainOffset (body 1)).toNat, by omega, ?_⟩
    rw [dataReg, if_neg hone, UInt32.lt_iff_toNat_lt, UInt32.toNat_add,
      UInt32.toNat_ofNat_of_lt' (show 2 ^ 32 - (plainOffset (body 1)).toNat < 2 ^ 32 by omega),
      show (plainOffset (body 1)).toNat + (2 ^ 32 - (plainOffset (body 1)).toNat) = 2 ^ 32 by omega]
    decide

theorem outside_writeDataRegs (h : ¬RegPacket.writeDataRegs.Fits g body count s) :
    ∃ k, ¬k < count.toNat ∧ .read .body k ∈ ((writeDataRegs body count).run s).log := by
  simp only [RegPacket.Fits, not_or, not_and, UInt32.le_iff_toNat_le] at h
  obtain ⟨hthree, htwo⟩ := h
  change ¬3 ≤ count.toNat at hthree
  by_cases hcount : count = 2
  · have hout : ¬(body 0 >>> 16 &&& 1 ≠ 0 ∧ kRegFileSize ≤ plainOffset (body 1)) := fun hout =>
      htwo hcount hout.1 (UInt32.le_iff_toNat_le.mp hout.2)
    obtain ⟨i, hi, hin⟩ := exists_dataReg_lt hout
    refine ⟨3 + i, by omega, mem_log_writeDataRegs (i := i) ?_ hin fun s' => ?_⟩
    · rw [hcount]
      exact Nat.lt_trans hi (by decide)
    · rw [mem_log_fetch_bind, toNat_three_add (by omega)]
      exact .inl rfl
  · refine ⟨1, ?_, ?_⟩
    · intro hone
      refine hcount (UInt32.toNat_inj.mp ?_)
      change count.toNat = 2
      omega
    · rw [writeDataRegs, mem_log_fetch_bind]
      exact .inl rfl

/-! ## A register shadow -/

section Shadow

variable {P : RegAccess → Prop} {first limit : ℕ} {src : ℕ → UInt32} {is : List ℕ}

theorem safe_fetchRange {i : ℕ} {Q : ℕ × ℕ → CpState → Prop} (hread : P (.read .body i) ∧ P (.read .body (i + 1)))
    (hQ : Q (rangeAt body i) s) : Safe P (fetchRange body i) s Q := by
  simp only [fetchRange, safe_bind, safe_fetch, safe_pure]
  exact ⟨hread.1, hread.2, hQ⟩

theorem safe_sourceDwords (hread : ∀ i ∈ is, P (.read .body i) ∧ P (.read .body (i + 1))) (n : ℕ) :
    Safe P (sourceDwords first limit body is n) s fun v s' => v = imageDwords first limit body is n ∧ s' = s := by
  induction is generalizing n with
  | nil => exact safe_pure.mpr ⟨rfl, rfl⟩
  | cons i is ih =>
    rw [sourceDwords, safe_bind]
    refine safe_fetchRange (hread i List.mem_cons_self) ?_
    exact ih (fun j hj => hread j (List.mem_cons_of_mem _ hj)) _

def hasShadowValue (first limit : ℕ) (body src : ℕ → UInt32) (is : List ℕ) : Bool :=
  is.any fun i => (List.range (rangeAt body i).2).any fun j =>
    first + (rangeAt body i).1 + j < limit && src ((rangeAt body i).1 + j) != 0

theorem safe_anyShadowValue (hread : ∀ i ∈ is, P (.read .body i) ∧ P (.read .body (i + 1)))
    (himage : ∀ i ∈ is, ∀ j < (rangeAt body i).2, P (.read .image ((rangeAt body i).1 + j))) :
    Safe P (anyShadowValue first limit body src is) s fun b s' =>
      b = hasShadowValue first limit body src is ∧ s' = s := by
  refine Safe.anyM fun i hi => ?_
  rw [safe_bind]
  refine safe_fetchRange (hread i hi) (Safe.anyM fun j hj => ?_)
  split
  · next hin =>
    rw [safe_bind, safe_fetch, safe_pure]
    refine ⟨himage i hi j (List.mem_range.mp hj), ?_, rfl⟩
    rw [show decide (first + (rangeAt body i).1 + j < limit) = true from decide_eq_true hin, Bool.true_and]
    rfl
  · next hout =>
    rw [safe_pure]
    refine ⟨?_, rfl⟩
    rw [show decide (first + (rangeAt body i).1 + j < limit) = false from decide_eq_false hout, Bool.false_and]

theorem mem_range_takeWhile {p : ℕ → Bool} {n j : ℕ} (h : j ∈ (List.range n).takeWhile p) : j < n ∧ p j = true :=
  ⟨List.mem_range.mp ((List.takeWhile_prefix p).subset h), List.mem_takeWhile_imp h⟩

theorem safe_storeRanges (hread : ∀ i ∈ is, P (.read .body i) ∧ P (.read .body (i + 1)))
    (himage : ∀ i ∈ is, ∀ j < (rangeAt body i).2, P (.read .image ((rangeAt body i).1 + j)))
    (hstore : ∀ i ∈ is, ∀ j < (rangeAt body i).2, first + (rangeAt body i).1 + j < limit →
      P (.write (first + (rangeAt body i).1 + j) (src ((rangeAt body i).1 + j)))) :
    Safe P (storeRanges first limit body src is) s fun _ _ => True := by
  refine Safe.forM (I := fun _ => True) (fun i hi s' _ => ?_) trivial
  rw [safe_bind]
  refine safe_fetchRange (hread i hi) (Safe.forM (I := fun _ => True) (fun j hj s'' _ => ?_) trivial)
  obtain ⟨hlt, hin⟩ := mem_range_takeWhile hj
  rw [safe_bind, safe_fetch, safe_store]
  exact ⟨himage i hi j hlt, hstore i hi j hlt (of_decide_eq_true hin), trivial⟩

theorem mem_takeWhile_range {first limit n j : ℕ} (hj : j < n) (hin : first + j < limit) :
    j ∈ (List.range n).takeWhile fun j => first + j < limit := by
  have hsplit := List.takeWhile_append_dropWhile (p := fun j => decide (first + j < limit)) (l := List.range n)
  have hmem := List.mem_range.mpr hj
  rw [← hsplit] at hmem
  refine (List.mem_append.mp hmem).resolve_right fun hdrop => ?_
  have hsorted := List.pairwise_lt_range (n := n)
  rw [← hsplit] at hsorted
  have hback := (List.pairwise_append.mp hsorted).2.1
  have hnot := List.head?_dropWhile_not (p := fun j => decide (first + j < limit)) (l := List.range n)
  generalize (List.range n).dropWhile (fun j => decide (first + j < limit)) = back at hdrop hback hnot
  cases back with
  | nil => cases hdrop
  | cons next back =>
    have hnext : ¬first + next < limit := by simpa using hnot
    rcases List.mem_cons.mp hdrop with rfl | hdrop
    · exact hnext hin
    · have hlt := (List.pairwise_cons.mp hback).1 j hdrop
      omega

theorem mem_log_storeRanges {i j : ℕ} (hi : i ∈ is) (hj : j < (rangeAt body i).2)
    (hin : first + (rangeAt body i).1 + j < limit) :
    .write (first + (rangeAt body i).1 + j) (src ((rangeAt body i).1 + j)) ∈
      ((storeRanges first limit body src is).run s).log := by
  refine mem_log_forM hi fun s' => ?_
  refine mem_log_bind_of_value (P := fun _ => True) (safe_fetchRange ⟨trivial, trivial⟩ ⟨rfl, rfl⟩) ?_
  refine mem_log_forM (mem_takeWhile_range hj hin) fun s'' => ?_
  rw [mem_log_fetch_bind]
  exact .inr mem_log_store

end Shadow

/-- **The accesses of `LoadRegImage`.** -/
theorem safe_loadRegImage :
    Safe ((RegPacket.loadRegImage base).Allowed g body count s) (loadRegImage g base body count) s
      fun _ _ => True := by
  have hread : ∀ i ∈ rangeIndices count.toNat, (RegPacket.loadRegImage base).Allowed g body count s (.read .body i) ∧
        (RegPacket.loadRegImage base).Allowed g body count s (.read .body (i + 1)) := fun i hi => by
    have hlt := mem_rangeIndices hi
    exact ⟨.body (by omega), .body hlt⟩
  have himage : ∀ i ∈ rangeIndices count.toNat, ∀ j < (rangeAt body i).2,
      (RegPacket.loadRegImage base).Allowed g body count s (.read .image ((rangeAt body i).1 + j)) :=
    fun i hi j hj => .shadow hi (Nat.le_add_right _ _) (Nat.add_lt_add_left hj _)
  unfold loadRegImage
  split
  · exact safe_pure.mpr trivial
  · next hcount =>
    rw [UInt32.not_lt, UInt32.le_iff_toNat_le] at hcount
    change 4 ≤ count.toNat at hcount
    simp only [safe_bind, safe_fetch]
    refine ⟨.body (by omega), .body (by omega), ?_⟩
    split
    · exact safe_pure.mpr trivial
    · rw [safe_bind]
      refine (safe_sourceDwords hread _).mono fun n s' _ => ?_
      split
      · exact safe_pure.mpr trivial
      · rw [safe_bind]
        refine (safe_anyShadowValue hread himage).mono fun b s'' _ => ?_
        split
        · exact safe_pure.mpr trivial
        · refine safe_storeRanges hread himage fun i hi j hj hin => ?_
          simp only [RegPacket.Allowed, RegPacket.space]
          exact ⟨by omega, hin, .inl (.shadow hi hj)⟩

theorem complete_loadRegImage (happlies : (RegPacket.loadRegImage base).Applies g body count) {reg : ℕ}
    {value : UInt32} (h : (RegPacket.loadRegImage base).Names g body count reg value)
    (hreg : reg < (regSpaceLimit base.value).toNat) :
    .write reg value ∈ ((loadRegImage g base body count).run s).log := by
  obtain ⟨hcount, hgpu, hdwords, hreadable, i', hi', j', hj', hin', hne⟩ := happlies
  cases h with
  | @shadow _ i j hi hj =>
    rw [loadRegImage, if_neg (UInt32.not_lt.mpr hcount), mem_log_fetch_bind, mem_log_fetch_bind]
    refine .inr (.inr ?_)
    dsimp only
    rw [if_neg (by rw [hgpu]; decide)]
    refine mem_log_bind_of_value (P := fun _ => True) (safe_sourceDwords (fun _ _ => ⟨trivial, trivial⟩) _) ?_
    rw [if_neg (not_or.mpr ⟨hdwords, by rw [hreadable]; decide⟩)]
    refine mem_log_bind_of_value (P := fun _ => True)
      (safe_anyShadowValue (fun _ _ => ⟨trivial, trivial⟩) fun _ _ _ _ => trivial) ?_
    have hvalue : hasShadowValue base.value.toNat (regSpaceLimit base.value).toNat body
        (g.at (imageAddress body)) (rangeIndices count.toNat) = true := by
      refine List.any_eq_true.mpr ⟨i', hi', List.any_eq_true.mpr ⟨j', List.mem_range.mpr hj', ?_⟩⟩
      rw [decide_eq_true hin', Bool.true_and]
      exact bne_iff_ne.mpr hne
    rw [if_neg (by rw [hvalue]; decide)]
    exact mem_log_storeRanges hi hj hreg

/-! ## A block of pairs -/

section Block

variable {P : RegAccess → Prop} {p : ℕ → UInt32} {numPairs : ℕ}

theorem pure_bind_decode {α β : Type} (a : α) (f : α → Decode β) : (pure a >>= f) = f a := rfl

theorem safe_endsWithBlendArray (hread : ∀ k < 15, P (.read .image ((numPairs - 20 + k) * 2))) :
    Safe P (endsWithBlendArray p numPairs) s fun b s' => b = hasBlendArray p numPairs ∧ s' = s := by
  refine Safe.allM fun k hk => ?_
  rw [safe_bind, safe_fetch, safe_pure]
  exact ⟨hread k (List.mem_range.mp hk), rfl, rfl⟩

theorem safe_applyBlend {source : Source} {q : ℕ → UInt32} {pairs : ℕ} {Q : PUnit → CpState → Prop}
    (htag : P (.read source ((pairs - 24) * 2))) (hcontrol : P (.read source ((pairs - 24) * 2 + 1)))
    (hmask : P (.read source ((pairs - 23) * 2 + 1))) (hstore : P (.write mmCB_BLEND0_CONTROL
      (if typeOne (q ((pairs - 24) * 2)) then q ((pairs - 24) * 2 + 1) else 0)))
    (hstore' : P (.write mmCB_TARGET_MASK (q ((pairs - 23) * 2 + 1)))) (hQ : ∀ s, Q ⟨⟩ s) :
    Safe P (applyBlend source q pairs) s Q := by
  simp only [applyBlend, safe_bind, safe_fetch]
  refine ⟨htag, ?_⟩
  split
  · next hone =>
    rw [if_pos hone] at hstore
    simp only [safe_bind, safe_fetch, safe_store]
    exact ⟨hcontrol, hstore, hmask, hstore', hQ _⟩
  · next hone =>
    rw [if_neg hone] at hstore
    simp only [pure_bind_decode, safe_bind, safe_store, safe_fetch]
    exact ⟨hstore, hmask, hstore', hQ _⟩

end Block

section Block

variable {p : RegPacket}

theorem mem_contextSpace {reg : ℕ} (h : reg ∈ [mmCB_TARGET_MASK, mmCB_BLEND0_CONTROL, mmCB_COLOR0_BASE,
    mmCB_COLOR0_INFO, mmCB_COLOR0_ATTRIB2]) :
    (RegPacket.loadRegBlock .context).space.1 ≤ reg ∧ reg < (RegPacket.loadRegBlock .context).space.2 := by
  revert h reg
  decide

theorem joinedEntry_before {address k : ℕ} (h : k < s.prevPairs) :
    joinedEntry g s address k = (g.at s.prevAddr (k * 2), g.at s.prevAddr (k * 2 + 1)) := if_pos h

theorem joinedEntry_after {address : ℕ} (k : ℕ) :
    joinedEntry g s address (s.prevPairs + k) = (g.at address (k * 2), g.at address (k * 2 + 1)) := by
  rw [joinedEntry, if_neg (Nat.not_lt.mpr (Nat.le_add_right _ _)), Nat.add_sub_cancel_left]

theorem allowed_implied {reg : ℕ} {value : UInt32} (h : RegPacket.Implies g body s reg value) :
    (RegPacket.loadRegBlock .context).Allowed g body count s (.write reg value) := by
  have hspace : reg ∈ [mmCB_TARGET_MASK, mmCB_BLEND0_CONTROL, mmCB_COLOR0_BASE, mmCB_COLOR0_INFO,
      mmCB_COLOR0_ATTRIB2] := by
    cases h with
    | closed _ _ _ hreg => rcases hreg with rfl | rfl <;> simp
    | _ => simp
  obtain ⟨hfirst, hlimit⟩ := mem_contextSpace hspace
  exact ⟨hfirst, hlimit, .inr ⟨rfl, h⟩⟩

theorem implies_of_block (hblend : RegPacket.EndsWithBlend g body) (hpairs : 24 ≤ blockPairs body)
    (hmask : typeOne (g.at (blockAddress body) ((blockPairs body - 23) * 2)) = true) :
    RegPacket.Implies g body s mmCB_BLEND0_CONTROL
        (if typeOne (g.at (blockAddress body) ((blockPairs body - 24) * 2)) then
          g.at (blockAddress body) ((blockPairs body - 24) * 2 + 1) else 0) ∧
      RegPacket.Implies g body s mmCB_TARGET_MASK (g.at (blockAddress body) ((blockPairs body - 23) * 2 + 1)) := by
  have hcontrol := RegPacket.Implies.control (s := s) hblend (by omega)
  have hmask' := RegPacket.Implies.mask (s := s) hblend (by omega)
  rw [Nat.add_sub_assoc hpairs, joinedEntry_after] at hcontrol
  rw [Nat.add_sub_assoc (Nat.le_trans (by decide) hpairs), joinedEntry_after] at hmask'
  exact ⟨hcontrol, hmask' hmask⟩

theorem safe_joinBlend (hblend : RegPacket.EndsWithBlend g body) (hpairs : 21 ≤ blockPairs body)
    (hshort : g.isReadableRangeCached s.prevAddr (s.prevPairs * 2 * 4) = true → blockPairs body < 23) {s' : CpState} :
    Safe ((RegPacket.loadRegBlock .context).Allowed g body count s)
      (joinBlend g s.prevAddr s.prevPairs (blockPairs body)) s' fun b s'' => b = false → s'' = s' := by
  have hread : ∀ k < s.prevPairs * 2,
      (RegPacket.loadRegBlock .context).Allowed g body count s (.read .previous k) := fun k hk => .previous hk
  unfold joinBlend
  dsimp only
  split
  · next hjoined =>
    obtain ⟨hlong, hbefore, hreadable⟩ := hjoined
    have hlt := hshort hreadable
    have hmask : s.prevPairs + blockPairs body - 23 < s.prevPairs := by omega
    rw [safe_bind, safe_fetch]
    refine ⟨hread _ (by omega), ?_⟩
    rw [safe_bind]
    refine safe_runIf (fun hone => safe_applyBlend (hread _ (by omega)) (hread _ (by omega)) (hread _ (by omega))
      ?_ ?_ fun s'' => ?_) fun hone => ?_
    · have himplies := RegPacket.Implies.control (s := s) hblend hlong
      rw [joinedEntry_before hbefore] at himplies
      exact allowed_implied himplies
    · have himplies := RegPacket.Implies.mask (s := s) hblend hlong
      rw [joinedEntry_before hmask] at himplies
      exact allowed_implied (himplies hone)
    · rw [safe_pure]
      intro hnot
      rw [hone] at hnot
      cases hnot
    · rw [safe_pure]
      exact fun _ => rfl
  · exact safe_pure.mpr fun _ => rfl

/-- **The blend object** of a block. A mask that it does not write leaves the registers as they are. -/
theorem safe_readBlendObject (happlies : (RegPacket.loadRegBlock base).Applies g body count)
    (hfits : (RegPacket.loadRegBlock base).Fits g body count s) :
    Safe ((RegPacket.loadRegBlock base).Allowed g body count s)
      (readBlendObject g base (blockAddress body) (blockPairs body)) s fun blend s' =>
        (blend.applied = false → s'.regs = s.regs) ∧
          (blend.present = true → blend.hasMask = false → base = .context ∧ RegPacket.EndsWithBlend g body ∧
            24 ≤ blockPairs body ∧ typeOne (g.at (blockAddress body) ((blockPairs body - 23) * 2)) = false) := by
  have hread : ∀ k < blockPairs body * 2,
      (RegPacket.loadRegBlock base).Allowed g body count s (.read .image k) := fun k hk => .block hk
  unfold readBlendObject
  simp only [safe_bind, safe_look, safe_pure]
  refine (safe_guarded fun hc => safe_endsWithBlendArray fun k hk => hread _ ?_).mono fun arrayOnly s1 h1 => ?_
  · simp only [Bool.and_eq_true, decide_eq_true_eq] at hc
    omega
  obtain ⟨harrayOnly, rfl⟩ := h1
  refine (safe_guarded fun hc => safe_endsWithBlendArray fun k hk => hread _ ?_).mono fun present s1 h1 => ?_
  · simp only [Bool.and_eq_true, decide_eq_true_eq] at hc
    omega
  obtain ⟨hpresent, rfl⟩ := h1
  refine (safe_guarded (v := typeOne (g.at (blockAddress body) ((blockPairs body - 23) * 2))) fun hc => ?_).mono
    fun hasMask s1 h1 => ?_
  · rw [safe_bind, safe_fetch, safe_pure]
    rw [hpresent, Bool.and_eq_true, Bool.and_eq_true, decide_eq_true_eq] at hc
    exact ⟨hread _ (by omega), rfl, rfl⟩
  obtain ⟨hhasMask, rfl⟩ := h1
  -- what the three tests mean
  have hpresent' : present = true → base = .context ∧ 24 ≤ blockPairs body ∧ RegPacket.EndsWithBlend g body := by
    intro h
    rw [hpresent] at h
    simp only [Bool.and_eq_true, beq_iff_eq, decide_eq_true_eq] at h
    exact ⟨h.1.1.2, h.1.2, h.2⟩
  have harrayOnly' : arrayOnly = true → g.noBlendState = false ∧ base = .context ∧ 21 ≤ blockPairs body ∧
      blockPairs body < 24 ∧ s1.prevPairs ≠ 0 ∧ RegPacket.EndsWithBlend g body := by
    intro h
    rw [harrayOnly] at h
    simp only [Bool.and_eq_true, Bool.not_eq_true', beq_iff_eq, decide_eq_true_eq, bne_iff_ne] at h
    obtain ⟨⟨⟨⟨⟨hoption, hbase⟩, hge⟩, hlt⟩, hprev⟩, hblend⟩ := h
    exact ⟨hoption, hbase, hge, hlt, hprev, hblend⟩
  have htruncated : present = true → hasMask = false → base = .context ∧ RegPacket.EndsWithBlend g body ∧
      24 ≤ blockPairs body ∧ typeOne (g.at (blockAddress body) ((blockPairs body - 23) * 2)) = false := by
    intro hp hm
    obtain ⟨hbase, hpairs, hblend⟩ := hpresent' hp
    rw [hhasMask, hp, Bool.true_and] at hm
    exact ⟨hbase, hblend, hpairs, hm⟩
  have hfinish : ∀ (b : Bool) (s' : CpState), ((hasMask || b) = false → s'.regs = s1.regs) →
      Safe ((RegPacket.loadRegBlock base).Allowed g body count s1) (runIf (base == .context)
        (change fun s => { s with prevAddr := blockAddress body, prevPairs := blockPairs body })) s' fun _ s'' =>
          ((hasMask || b) = false → s''.regs = s1.regs) ∧ (present = true → hasMask = false →
            base = .context ∧ RegPacket.EndsWithBlend g body ∧ 24 ≤ blockPairs body ∧
              typeOne (g.at (blockAddress body) ((blockPairs body - 23) * 2)) = false) :=
    fun b s' h => safe_runIf (fun _ => safe_change.mpr ⟨h, htruncated⟩) fun _ => ⟨h, htruncated⟩
  cases hasMask with
  | true =>
    obtain ⟨hp, hm⟩ := Bool.and_eq_true_iff.mp hhasMask.symm
    obtain ⟨rfl, hpairs, hblend⟩ := hpresent' hp
    obtain ⟨hcontrol, hmask⟩ := implies_of_block (s := s1) hblend hpairs hm
    -- a block with its own mask is no array alone
    have harray : arrayOnly = false := by
      cases arrayOnly with
      | false => rfl
      | true => exact absurd (harrayOnly' rfl).2.2.2.1 (by omega)
    subst harray
    refine safe_runIf (fun _ => safe_applyBlend (hread _ (by omega)) (hread _ (by omega)) (hread _ (by omega))
      (allowed_implied hcontrol) (allowed_implied hmask) fun s' => ?_) fun hnot => by cases hnot
    exact safe_pure.mpr (hfinish false s' fun hnot => by cases hnot)
  | false =>
    refine safe_runIf (fun hnot => by cases hnot) fun _ => ?_
    cases arrayOnly with
    | false => exact safe_pure.mpr (hfinish false s1 fun _ => rfl)
    | true =>
      obtain ⟨hoption, rfl, hge, hlt, hprev, hblend⟩ := harrayOnly' rfl
      refine (safe_joinBlend hblend hge fun hreadable => ?_).mono fun b s' hs' => ?_
      · refine Nat.lt_of_le_of_ne (Nat.le_of_lt_succ hlt) fun hpairs => ?_
        exact hfits ⟨happlies, rfl, hoption, hpairs, hprev, hblend, hreadable⟩
      · exact hfinish b s' fun hb => congrArg CpState.regs (hs' hb)

/-- **The colour target** of a block. The mask is forced open only if no blend object was applied. -/
theorem safe_anchorFrom {blendApplied : Bool} {ks : List ℕ} (hks : ∀ k ∈ ks, k + 14 < blockPairs body)
    {s' : CpState} (hregs : blendApplied = false → s'.regs = s.regs) :
    Safe ((RegPacket.loadRegBlock .context).Allowed g body count s)
      (anchorFrom g (g.at (blockAddress body)) blendApplied ks) s' fun _ _ => True := by
  have hread : ∀ k < blockPairs body * 2,
      (RegPacket.loadRegBlock .context).Allowed g body count s (.read .image k) := fun k hk => .block hk
  induction ks with
  | nil => exact safe_pure.mpr trivial
  | cons k ks ih =>
    have hk := hks k List.mem_cons_self
    simp only [anchorFrom, safe_bind, safe_fetch]
    refine ⟨hread _ (by omega), hread _ (by omega), hread _ (by omega), ?_⟩
    split
    · exact ih fun j hj => hks j (List.mem_cons_of_mem _ hj)
    · simp only [safe_bind, safe_store, safe_look, safe_pure]
      refine ⟨allowed_implied (.color hk), allowed_implied (.info hk), allowed_implied (.attrib2 hk), ?_⟩
      refine safe_runIf (fun hopen => ?_) fun _ => trivial
      rw [Bool.and_eq_true, Bool.not_eq_true'] at hopen
      rw [safe_store, Function.update_of_ne (by decide), Function.update_of_ne (by decide),
        Function.update_of_ne (by decide), hregs hopen.1]
      exact ⟨allowed_implied .forced, trivial⟩

theorem safe_anchorColorTarget {blendApplied : Bool} {s' : CpState}
    (hregs : blendApplied = false → s'.regs = s.regs) : Safe ((RegPacket.loadRegBlock base).Allowed g body count s)
      (anchorColorTarget g base (g.at (blockAddress body)) (blockPairs body) blendApplied) s' fun _ _ => True := by
  unfold anchorColorTarget
  split
  · exact safe_pure.mpr trivial
  · next hcontext =>
    rw [not_or, not_not, Nat.not_lt] at hcontext
    obtain ⟨rfl, hpairs⟩ := hcontext
    rw [safe_bind, safe_fetch]
    refine ⟨.block (by omega), ?_⟩
    split
    · exact safe_pure.mpr trivial
    · refine safe_anchorFrom (fun k hk => ?_) hregs
      have hlt := List.mem_range.mp hk
      omega

/-- **The accesses of `LoadRegBlock`**, if no blend object is joined past the end of the block before. -/
theorem safe_loadRegBlock (hfits : (RegPacket.loadRegBlock base).Fits g body count s) :
    Safe ((RegPacket.loadRegBlock base).Allowed g body count s) (loadRegBlock g base body count) s
      fun _ _ => True := by
  unfold loadRegBlock
  split
  · exact safe_pure.mpr trivial
  · next hcount =>
    rw [UInt32.not_lt] at hcount
    have hfour : 4 ≤ count.toNat := UInt32.le_iff_toNat_le.mp hcount
    simp only [safe_bind, safe_fetch]
    refine ⟨.body (by omega), .body (by omega), ?_⟩
    split
    · exact safe_pure.mpr trivial
    · next haddress =>
      rw [Bool.not_eq_true', Bool.not_eq_false] at haddress
      rw [safe_bind, safe_fetch]
      refine ⟨.body (by omega), ?_⟩
      split
      · exact safe_pure.mpr trivial
      · next hpairs =>
        split
        · exact safe_pure.mpr trivial
        · next hreadable =>
          rw [Bool.not_eq_true', Bool.not_eq_false] at hreadable
          unfold applyBlock
          rw [safe_bind]
          refine (safe_readBlendObject ⟨hcount, haddress, hpairs, hreadable⟩ hfits).mono fun blend s1 hblend => ?_
          obtain ⟨hregs, htruncated⟩ := hblend
          rw [safe_bind]
          refine (safe_anchorColorTarget hregs).mono fun boundRt s2 _ => ?_
          rw [safe_bind]
          refine (safe_runIf (Q := fun _ _ => True) (fun hclosed => ?_) fun _ => trivial).mono fun _ s3 _ => ?_
          · simp only [Bool.and_eq_true, Bool.not_eq_true'] at hclosed
            obtain ⟨rfl, hend, hlong, hmask⟩ := htruncated hclosed.1.1 hclosed.1.2
            simp only [safe_bind, safe_store]
            exact ⟨allowed_implied (.closed hend hlong hmask (.inl rfl)),
              allowed_implied (.closed hend hlong hmask (.inr rfl)), trivial⟩
          · refine Safe.forM (I := fun _ => True) (fun i hi s' _ => ?_) trivial
            have hlt := List.mem_range.mp hi
            rw [safe_bind, safe_fetch]
            refine ⟨.block (by omega), ?_⟩
            split
            · exact safe_pure.mpr trivial
            · next hplain =>
              rw [safe_bind, safe_fetch]
              refine ⟨.block (by omega), ?_⟩
              dsimp only
              split
              · next hin =>
                rw [UInt32.lt_iff_toNat_lt] at hin
                rw [safe_store]
                simp only [RegPacket.Allowed, RegPacket.space, and_true]
                refine ⟨?_, hin, .inl (.entry hlt hplain)⟩
                rw [toNat_base_add]
                exact Nat.le_add_right _ _
              · exact safe_pure.mpr trivial

theorem complete_loadRegBlock (happlies : (RegPacket.loadRegBlock base).Applies g body count) {reg : ℕ}
    {value : UInt32} (h : (RegPacket.loadRegBlock base).Names g body count reg value)
    (hreg : reg < (regSpaceLimit base.value).toNat) :
    .write reg value ∈ ((loadRegBlock g base body count).run s).log := by
  obtain ⟨hcount, haddress, hpairs, hreadable⟩ := happlies
  cases h with
  | @entry _ i hi hplain =>
    rw [loadRegBlock, if_neg (UInt32.not_lt.mpr hcount), mem_log_fetch_bind, mem_log_fetch_bind,
      if_neg (by rw [haddress]; decide), mem_log_fetch_bind, if_neg hpairs, if_neg (by rw [hreadable]; decide),
      applyBlock, mem_log_bind, mem_log_bind, mem_log_bind]
    refine .inr (.inr (.inr (.inr (.inr (.inr (mem_log_forM (List.mem_range.mpr hi) fun s' => ?_))))))
    rw [mem_log_fetch_bind, if_neg hplain, mem_log_fetch_bind]
    refine .inr (.inr ?_)
    dsimp only
    rw [if_pos (UInt32.lt_iff_toNat_lt.mpr hreg)]
    exact mem_log_store

theorem past_loadRegBlock (h : RegPacket.JoinsPastEnd g body count s base) :
    .read .previous (s.prevPairs * 2) ∈ ((loadRegBlock g base body count).run s).log := by
  obtain ⟨⟨hcount, haddress, hnonzero, hreadable⟩, rfl, hoption, hpairs, hprev, hblend, hprevReadable⟩ := h
  rw [loadRegBlock, if_neg (UInt32.not_lt.mpr hcount), mem_log_fetch_bind, mem_log_fetch_bind,
    if_neg (by rw [haddress]; decide), mem_log_fetch_bind, if_neg hnonzero, if_neg (by rw [hreadable]; decide),
    applyBlock, mem_log_bind]
  refine .inr (.inr (.inr (.inl ?_)))
  unfold readBlendObject
  refine mem_log_bind_of_value (P := fun _ => True) (safe_look.mpr ⟨rfl, rfl⟩) ?_
  refine mem_log_bind_of_value (P := fun _ => True) (safe_look.mpr ⟨rfl, rfl⟩) ?_
  refine mem_log_bind_of_value (P := fun _ => True)
    (safe_guarded fun _ => safe_endsWithBlendArray fun _ _ => trivial) ?_
  refine mem_log_bind_of_value (P := fun _ => True)
    (safe_guarded fun _ => safe_endsWithBlendArray fun _ _ => trivial) ?_
  have hlong : (!g.noBlendState && RegBase.context == RegBase.context && decide (24 ≤ blockPairs body)) = false := by
    rw [hpairs]
    exact Bool.and_false _
  have harray : (!g.noBlendState && RegBase.context == RegBase.context && decide (21 ≤ blockPairs body) &&
      decide (blockPairs body < 24) && s.prevPairs != 0) = true := by
    rw [hoption, hpairs, bne_iff_ne.mpr hprev]
    rfl
  have hend : hasBlendArray (g.at (blockAddress body)) (blockPairs body) = true := hblend
  rw [hlong, harray, hend, Bool.false_and, Bool.true_and]
  -- neither mask nor control word are in a block of 23 pairs
  refine mem_log_bind_of_value (P := fun _ => True) (a := false) ⟨fun _ h => (by cases h), rfl, rfl⟩ ?_
  refine mem_log_bind_of_value (P := fun _ => True) (a := ⟨⟩) ⟨fun _ h => (by cases h), rfl, rfl⟩ ?_
  rw [mem_log_bind]
  refine .inl ?_
  have hjoined : 24 ≤ s.prevPairs + blockPairs body ∧ s.prevPairs + blockPairs body - 24 < s.prevPairs ∧
      g.isReadableRangeCached s.prevAddr (s.prevPairs * 2 * 4) = true := by
    rw [hpairs]
    exact ⟨by omega, by omega, hprevReadable⟩
  change _ ∈ ((joinBlend g s.prevAddr s.prevPairs (blockPairs body)).run s).log
  unfold joinBlend
  dsimp only
  rw [if_pos hjoined, mem_log_fetch_bind, hpairs, Nat.add_sub_cancel]
  exact .inl rfl

end Block

end Decoders

/-! ## The packets that fit -/

section Sound

variable (g : Guest) (body : ℕ → UInt32) (count : UInt32) (s : CpState) (p : RegPacket)

theorem RegPacket.safe_decode (hfits : p.Fits g body count s) :
    Safe (p.Allowed g body count s) (p.decode g body count) s fun _ _ => True := by
  cases p with
  | setRegs base => exact safe_setRegs hfits
  | loadRegImage base => exact safe_loadRegImage
  | loadRegBlock base => exact safe_loadRegBlock hfits
  | writeDataRegs => exact safe_writeDataRegs hfits

/-- **The register decoders.** What the decoder of a packet reads and writes is what the packet says, exactly if the
packet fits. -/
theorem RegPacket.sound_iff_fits : p.Sound g body count s ↔ p.Fits g body count s := by
  constructor
  · intro h
    by_contra hnot
    cases p with
    | setRegs base =>
      obtain ⟨value, hwrite⟩ := wraps_setRegs hnot
      exact Nat.not_le.mpr base.value_pos (h.writes 0 value hwrite).1
    | loadRegImage base => exact hnot trivial
    | loadRegBlock base =>
      cases h.reads _ _ (past_loadRegBlock (not_not.mp hnot)) with
      | previous hlt => exact Nat.lt_irrefl _ hlt
    | writeDataRegs =>
      obtain ⟨k, hout, hread⟩ := outside_writeDataRegs hnot
      cases h.reads _ _ hread with
      | body hlt => exact hout hlt
  · intro hfits
    have hsafe := (p.safe_decode g body count s hfits).1
    refine ⟨fun source k h => hsafe _ h, fun reg value h => hsafe _ h, fun happlies reg value hnames _ hlimit => ?_⟩
    cases p with
    | setRegs base =>
      simp only [space] at hlimit
      exact complete_setRegs hfits hnames hlimit
    | loadRegImage base =>
      simp only [space] at hlimit
      exact complete_loadRegImage happlies hnames hlimit
    | loadRegBlock base =>
      simp only [space] at hlimit
      exact complete_loadRegBlock happlies hnames hlimit
    | writeDataRegs => exact complete_writeDataRegs hnames hlimit

end Sound

/-! ## An array of 23 pairs -/

/-- The tags of a blend object in the block at `0x20000`, and nothing anywhere else. -/
def arrayGuest : Guest where
  mem address := if 0x20000 ≤ address then 0x10000000 + UInt32.ofNat ((address - 0x20000) / 8 - 2) else 0
  isReadableRangeCached _ _ := true
  pools := []
  noBlendState := false
  traceRegImagePrefixDwords := 0

/-- A packet that names the block at `0x20000`. -/
def arrayBody (i : ℕ) : UInt32 := [0x20000, 0, 0, 23].getD i 0

/-- A context block of 57 pairs went before. -/
def arrayState : CpState where
  regs _ := 0
  prevAddr := 0x10000
  prevPairs := 57

theorem arrayPacket_joinsPastEnd : RegPacket.JoinsPastEnd arrayGuest arrayBody 4 arrayState .context where
  applies := ⟨by decide, by decide, by decide, rfl⟩
  context := rfl
  blendState := rfl
  pairs := by decide
  previous := by decide
  tags := by
    unfold RegPacket.EndsWithBlend
    decide
  readable := rfl

/-- The decoder reads the 58th pair of the 57 that the block before has. -/
theorem arrayPacket_not_sound :
    ¬∀ (g : Guest) (body : ℕ → UInt32) (count : UInt32) (s : CpState) (p : RegPacket), p.Sound g body count s := by
  intro h
  have hread := (h arrayGuest arrayBody 4 arrayState (.loadRegBlock .context)).reads _ _
    (past_loadRegBlock arrayPacket_joinsPastEnd)
  cases hread with
  | previous hlt => exact Nat.lt_irrefl _ hlt

end Prosperity.Gpu.RegState
