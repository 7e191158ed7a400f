import Mathlib.Algebra.Group.Nat.Defs
import Prosperity.Foundations.RangeSweep

/-!
# Guest memory ranges

`GuestMemoryRanges` computes which parts of the process a dispatch may reach through pointers. A mapping the
shader names is taken whole; of the other mappings the parts inside the pools are taken. The parts are sorted and
made disjoint.
-/

namespace Prosperity.Gpu

/-- The permissions of a line of `/proc/self/maps`. -/
structure Perm where
  read : Bool
  write : Bool
  exec : Bool
  shared : Bool
deriving DecidableEq

/-- A line of `/proc/self/maps`. One that ends where it begins, or before, is not accepted. -/
structure HostMapping where
  start : ℕ
  stop : ℕ
  offset : UInt64
  inode : UInt64
  major : UInt32
  minor : UInt32
  perm : Perm
  start_lt : start < stop
  stop_lt : stop < 2 ^ 64

/-- The lines that `HostMappings` keeps. -/
def hostMappings (lines : List HostMapping) : List HostMapping := lines.filter (·.perm.read)

structure GuestMemoryRange where
  base : ℕ
  size : ℕ
  identity : UInt64
  writable : Bool
deriving DecidableEq

namespace GuestMemoryRange

def range (r : GuestMemoryRange) : Stretch := (r.base, r.base + r.size)

def Le (a b : GuestMemoryRange) : Prop := a.base ≤ b.base

end GuestMemoryRange

namespace HostMapping

def range (m : HostMapping) : Stretch := (m.start, m.stop)

def Has (m : HostMapping) (x : ℕ) : Prop := m.range.Has x

def explicitAddress (m : HostMapping) (addresses : List ℕ) : Bool :=
  addresses.any fun address => address ≥ m.start && address < m.stop

def writable (m : HostMapping) : Bool := m.perm.write || (m.inode != 0 && m.perm.shared)

def identity (m : HostMapping) : UInt64 :=
  if m.inode = 0 then 0
  else
    let identity := [m.major.toUInt64, m.minor.toUInt64, m.offset - UInt64.ofNat m.start].foldl
      (fun identity word => (identity ^^^ word) * 1099511628211) m.inode
    if identity = 0 then 1 else identity

/-- `add_range`. `backing` is the identity of anonymous memory. -/
def addRange (backing : ℕ → ℕ → UInt64) (m : HostMapping) (lo hi : ℕ) : GuestMemoryRange :=
  let backing := if m.inode ≠ 0 then m.identity else backing lo (hi - lo)
  let key :=
    if backing ≠ 0 then
      ((backing ^^^ if m.inode ≠ 0 then 1 else 2) * 1099511628211) ^^^ if m.writable then 1 else 0
    else 0
  ⟨lo, hi - lo, if key ≠ 0 then key else if backing ≠ 0 then 1 else 0, m.writable⟩

def gather (backing : ℕ → ℕ → UInt64) (addresses : List ℕ) (pools : List Stretch) (m : HostMapping) :
    List GuestMemoryRange :=
  if m.explicitAddress addresses then [m.addRange backing m.start m.stop]
  else
    pools.filterMap fun pool =>
      let lo := max m.start pool.1
      let hi := min m.stop pool.2
      if lo < hi then some (m.addRange backing lo hi) else none

end HostMapping

def keepUnique (unique : List GuestMemoryRange) (range : GuestMemoryRange) : List GuestMemoryRange :=
  match unique.getLast? with
  | none => unique ++ [range]
  | some back =>
    let priorEnd := back.base + back.size
    if priorEnd ≥ range.base ∧ back.identity = range.identity ∧ back.writable = range.writable then
      unique.dropLast ++ [{ back with size := max priorEnd (range.base + range.size) - back.base }]
    else if priorEnd ≥ range.base + range.size then unique
    else if priorEnd > range.base then
      unique ++ [{ range with base := priorEnd, size := range.size - (priorEnd - range.base) }]
    else unique ++ [range]

/-- `GuestMemoryRanges`, with the lines of the last time the mappings were parsed. -/
def guestMemoryRanges (sorter : Sorter GuestMemoryRange.Le) (backing : ℕ → ℕ → UInt64) (pools : List Stretch)
    (lines : List HostMapping) (addresses : List ℕ) : List GuestMemoryRange :=
  (sorter.sort ((hostMappings lines).flatMap (HostMapping.gather backing addresses pools))).foldl keepUnique []

/-! ## What is gathered -/

section Gather

variable {backing : ℕ → ℕ → UInt64} {addresses : List ℕ} {pools : List Stretch} {m : HostMapping}

theorem HostMapping.explicitAddress_iff :
    m.explicitAddress addresses = true ↔ ∃ address ∈ addresses, m.Has address := by
  simp [explicitAddress, Has, HostMapping.range, Stretch.Has]

theorem HostMapping.range_addRange {lo hi : ℕ} (h : lo < hi) : (m.addRange backing lo hi).range = (lo, hi) := by
  simp only [addRange, GuestMemoryRange.range, Nat.add_sub_cancel' h.le]

/-- **What a mapping adds** is the mapping, or its parts in the pools. -/
theorem HostMapping.mem_gather {r : GuestMemoryRange} (h : r ∈ m.gather backing addresses pools) :
    (∃ lo hi, lo < hi ∧ hi ≤ m.stop ∧ r = m.addRange backing lo hi) := by
  unfold gather at h
  split at h
  · exact ⟨m.start, m.stop, m.start_lt, Nat.le_refl _, List.mem_singleton.mp h⟩
  · obtain ⟨pool, -, hpool⟩ := List.mem_filterMap.mp h
    dsimp only at hpool
    split at hpool
    · next hlt => exact ⟨_, _, hlt, Nat.min_le_left _ _, (Option.some.inj hpool).symm⟩
    · cases hpool

theorem HostMapping.covers_gather (x : ℕ) : Spans ((m.gather backing addresses pools).map GuestMemoryRange.range) x ↔
      m.Has x ∧ ((∃ address ∈ addresses, m.Has address) ∨ Spans pools x) := by
  rw [← explicitAddress_iff]
  unfold gather
  split
  · next hnamed => simp [spans_singleton, range_addRange m.start_lt, hnamed, Has, HostMapping.range]
  · next hnamed =>
    rw [or_iff_right hnamed]
    simp only [Spans, List.mem_map, List.mem_filterMap]
    constructor
    · rintro ⟨-, ⟨r, ⟨pool, hpool, hr⟩, rfl⟩, hx⟩
      split at hr
      · next hlt =>
        rw [← Option.some.inj hr, range_addRange hlt] at hx
        obtain ⟨hle, hlt'⟩ := hx
        exact ⟨⟨(Nat.le_max_left _ _).trans hle, hlt'.trans_le (Nat.min_le_left _ _)⟩, pool, hpool,
          (Nat.le_max_right _ _).trans hle, hlt'.trans_le (Nat.min_le_right _ _)⟩
      · cases hr
    · rintro ⟨hm, pool, hpool, hx⟩
      have hin : max m.start pool.1 ≤ x ∧ x < min m.stop pool.2 :=
        ⟨Nat.max_le.mpr ⟨hm.1, hx.1⟩, Nat.lt_min.mpr ⟨hm.2, hx.2⟩⟩
      have hlt := hin.1.trans_lt hin.2
      exact ⟨_, ⟨_, ⟨pool, hpool, if_pos hlt⟩, rfl⟩, by rw [range_addRange hlt]; exact hin⟩

end Gather

/-! ## The loop -/

/-- **One turn** of the loop is one of a sweep. -/
theorem sweeps_keepUnique (unique : List GuestMemoryRange) (r : GuestMemoryRange) (_ : r.range.1 < r.range.2) :
    Sweeps r.range (unique.map GuestMemoryRange.range) ((keepUnique unique r).map GuestMemoryRange.range) := by
  rcases List.eq_nil_or_concat' unique with rfl | ⟨front, back, rfl⟩
  · exact .push fun last hlast => by cases hlast
  · simp only [keepUnique, List.getLast?_concat, List.dropLast_concat, List.map_append, List.map_singleton]
    split
    · next hjoin =>
      have hend : back.base + (max (back.base + back.size) (r.base + r.size) - back.base) =
          max (back.base + back.size) (r.base + r.size) := by omega
      simp only [List.map_append, List.map_singleton, GuestMemoryRange.range, hend]
      exact .extend hjoin.1
    · split
      · next hinside =>
        rw [List.map_append, List.map_singleton]
        exact .skip hinside
      · next hover =>
        split
        · next hstart =>
          have hcut : GuestMemoryRange.range { r with
              base := back.base + back.size, size := r.size - (back.base + back.size - r.base) } =
                (back.range.2, r.range.2) := by
            simp only [GuestMemoryRange.range, Prod.mk.injEq, true_and]
            omega
          simp only [List.append_assoc, List.singleton_append, List.map_append, List.map_cons, List.map_nil, hcut]
          exact .trim hstart (Nat.not_le.mp hover)
        · next hstart =>
          simp only [List.map_append, List.map_singleton]
          refine .push fun last hlast => ?_
          rw [List.getLast?_concat, Option.mem_some_iff] at hlast
          rw [← hlast]
          exact Nat.not_lt.mp hstart

/-- **The ranges of a dispatch** are in order, not empty and disjoint. They cover the mappings that the shader
names and the readable parts of the pools, and nothing else. -/
theorem guestMemoryRanges_spec (sorter : Sorter GuestMemoryRange.Le) (backing : ℕ → ℕ → UInt64)
    (pools : List Stretch) (lines : List HostMapping) (addresses : List ℕ) :
    Laid ((guestMemoryRanges sorter backing pools lines addresses).map GuestMemoryRange.range) ∧
      ∀ x, Spans ((guestMemoryRanges sorter backing pools lines addresses).map GuestMemoryRange.range) x ↔
        ∃ m ∈ hostMappings lines, m.Has x ∧ ((∃ address ∈ addresses, m.Has address) ∨ Spans pools x) := by
  have hperm := sorter.perm ((hostMappings lines).flatMap (HostMapping.gather backing addresses pools))
  have hsorted := sorter.sorted ((hostMappings lines).flatMap (HostMapping.gather backing addresses pools))
  have hne : ∀ r ∈ sorter.sort ((hostMappings lines).flatMap (HostMapping.gather backing addresses pools)),
      r.range.1 < r.range.2 := fun r hr => by
    obtain ⟨m, -, hm⟩ := List.mem_flatMap.mp (hperm.mem_iff.mp hr)
    obtain ⟨lo, hi, hlt, -, rfl⟩ := HostMapping.mem_gather hm
    rw [HostMapping.range_addRange hlt]
    exact hlt
  have hnil : Swept [] 0 (List.map GuestMemoryRange.range []) := Swept.nil
  obtain ⟨lo, hswept⟩ := Swept.run GuestMemoryRange.range (List.map GuestMemoryRange.range) keepUnique
    sweeps_keepUnique _ hsorted hne hnil fun _ _ => Nat.zero_le _
  refine ⟨hswept.laid, fun x => ?_⟩
  rw [guestMemoryRanges, hswept.covers, List.nil_append, spans_perm (hperm.map _)]
  simp only [Spans, List.mem_map, List.mem_flatMap]
  constructor
  · rintro ⟨-, ⟨r, ⟨m, hm, hr⟩, rfl⟩, hx⟩
    exact ⟨m, hm, (HostMapping.covers_gather x).mp ⟨_, List.mem_map_of_mem hr, hx⟩⟩
  · rintro ⟨m, hm, hx⟩
    have hcovers : Spans ((m.gather backing addresses pools).map GuestMemoryRange.range) x :=
      (HostMapping.covers_gather x).mpr hx
    obtain ⟨_, hr, hx⟩ := hcovers
    obtain ⟨r, hmem, rfl⟩ := List.mem_map.mp hr
    exact ⟨_, ⟨r, ⟨m, hm, hmem⟩, rfl⟩, hx⟩

end Prosperity.Gpu
