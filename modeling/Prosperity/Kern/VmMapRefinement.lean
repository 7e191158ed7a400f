import Mathlib.Data.List.Flatten
import Mathlib.Data.List.Perm.Basic
import Mathlib.Data.List.Pairwise
import Mathlib.Order.Defs.PartialOrder
import Prosperity.Kern.VmMap

/-!
# The map of a guest's address space means its bytes

The tracked entries are the maximal runs of bytes that one operation has mapped: punching a hole
leaves the pieces on both sides of it, and these never touch. Each operation keeps this relation,
so `Get` reports of every byte what the newest operation covering it says.

The one operation that is not total is `UnmapRtMemory`, which erases past the end where no entry
starts at the address it is given.
-/

namespace Prosperity.Kern

open ByteMap

/-! ## Entries and bytes -/

namespace PageInfo

/-- The entry contains the address. -/
def Has (e : PageInfo) (a : ℕ) : Prop := e.ptr ≤ a ∧ a < e.ptr + e.size

/-- The entries have no byte in common. -/
def Apart (e e' : PageInfo) : Prop := e.ptr + e.size ≤ e'.ptr ∨ e'.ptr + e'.size ≤ e.ptr

theorem Apart.symm {e e' : PageInfo} (h : e.Apart e') : e'.Apart e := Or.symm h

instance : Std.Symm Apart := ⟨fun _ _ h => h.symm⟩

theorem Apart.not_has {e e' : PageInfo} (h : e.Apart e') {a : ℕ} (he : e.Has a) : ¬e'.Has a := by
  unfold Apart at h
  unfold Has at *
  omega

/-- What the entry says of its byte `a`, as the work of operation `n`. -/
def info (e : PageInfo) (n a : ℕ) : ByteInfo :=
  ⟨n, e.prot, e.sceProt, e.name, e.reserved, if e.hasPhys then some (e.physOffset + (a - e.ptr)) else none⟩

/-- The part `[lo, hi)` of an entry, its physical offset moved along. -/
def slice (e : PageInfo) (lo hi : ℕ) : PageInfo :=
  { e with ptr := lo, size := hi - lo, physOffset := u64 (e.physOffset + (lo - e.ptr)) }

/-- What is left of an entry around the hole `[p, stop)`. -/
def pieces (p stop : ℕ) (e : PageInfo) : List PageInfo :=
  (if e.ptr < p then [e.slice e.ptr (min (e.ptr + e.size) p)] else []) ++
    if stop < e.ptr + e.size then [e.slice (max e.ptr stop) (e.ptr + e.size)] else []

structure Stands (e : PageInfo) (bytes : ℕ → Option ByteInfo) : Prop where
  good : GoodRange e.ptr e.size
  phys_lt : e.physOffset < 2 ^ 64
  phys_room : e.hasPhys = true → e.physOffset + e.size < 2 ^ 64
  run : ∃ n, (∀ a, e.Has a → bytes a = some (e.info n a)) ∧
    ∀ a b, a + 1 = e.ptr ∨ a = e.ptr + e.size → bytes a = some b → b.stamp ≠ n

theorem stop_eq {e : PageInfo} (h : GoodRange e.ptr e.size) : e.stop = e.ptr + e.size :=
  u64_of_lt h.2

theorem slice_ptr {e : PageInfo} (h : e.physOffset < 2 ^ 64) (hi : ℕ) :
    e.slice e.ptr hi = { e with size := hi - e.ptr } := by
  rw [slice, Nat.sub_self, Nat.add_zero, u64_of_lt h]

theorem slice_self {e : PageInfo} (h : e.physOffset < 2 ^ 64) : e.slice e.ptr (e.ptr + e.size) = e := by
  rw [slice_ptr h, Nat.add_sub_cancel_left]

theorem mem_pieces {p stop : ℕ} {e x : PageInfo} (h : x ∈ e.pieces p stop) (hgood : GoodRange e.ptr e.size) :
    ∃ lo hi, x = e.slice lo hi ∧ e.ptr ≤ lo ∧ lo < hi ∧ hi ≤ e.ptr + e.size ∧
      (hi ≤ p ∨ stop ≤ lo) ∧ (lo = e.ptr ∨ lo = stop) ∧ (hi = e.ptr + e.size ∨ hi = p) := by
  have hpos := hgood.1
  rcases List.mem_append.mp h with h | h
  · split at h
    · obtain rfl := List.mem_singleton.mp h
      exact ⟨_, _, rfl, by omega, by omega, by omega, by omega, by omega, by omega⟩
    · cases h
  · split at h
    · obtain rfl := List.mem_singleton.mp h
      exact ⟨_, _, rfl, by omega, by omega, by omega, by omega, by omega, by omega⟩
    · cases h

theorem exists_piece {p stop a : ℕ} {e : PageInfo} (ha : e.Has a) (hout : ¬(p ≤ a ∧ a < stop)) :
    ∃ x ∈ e.pieces p stop, x.Has a := by
  unfold Has at ha
  by_cases hlow : a < p
  · refine ⟨_, List.mem_append_left _ (by rw [if_pos (by omega)]; exact List.mem_singleton_self _),
      ?_⟩
    simp only [Has, slice]
    omega
  · refine ⟨_, List.mem_append_right _ (by rw [if_pos (by omega)]; exact List.mem_singleton_self _),
      ?_⟩
    simp only [Has, slice]
    omega

theorem pieces_apart {p stop : ℕ} {e e' x y : PageInfo} (hx : x ∈ e.pieces p stop)
    (hy : y ∈ e'.pieces p stop) (hgood : GoodRange e.ptr e.size)
    (hgood' : GoodRange e'.ptr e'.size) (h : e.Apart e') : x.Apart y := by
  obtain ⟨lo, hi, rfl, hlo, hlohi, hhi, -⟩ := mem_pieces hx hgood
  obtain ⟨lo', hi', rfl, hlo', hlohi', hhi', -⟩ := mem_pieces hy hgood'
  simp only [Apart, slice] at *
  omega

theorem pieces_pairwise {p stop : ℕ} (e : PageInfo) (hlt : p < stop) : (e.pieces p stop).Pairwise Apart := by
  unfold pieces
  split <;> split <;> simp only [List.nil_append, List.append_nil, List.singleton_append]
  · refine List.pairwise_cons.mpr ⟨fun y hy => ?_, List.pairwise_singleton _ _⟩
    obtain rfl := List.mem_singleton.mp hy
    simp only [Apart, slice]
    omega
  · exact List.pairwise_singleton _ _
  · exact List.pairwise_singleton _ _
  · exact List.Pairwise.nil

/-- **A piece stands for its run** once the bytes of the hole are gone: where it ends at the
hole, the byte it ends at is not mapped. -/
theorem Stands.piece {p stop : ℕ} {e x : PageInfo} {bytes : ℕ → Option ByteInfo}
    (h : e.Stands bytes) (hlt : p < stop) (hx : x ∈ e.pieces p stop) :
    x.Stands (without bytes fun a => p ≤ a ∧ a < stop) := by
  obtain ⟨lo, hi, rfl, hlo, hlohi, hhi, hside, hlo', hhi'⟩ := mem_pieces hx h.good
  obtain ⟨n, hrun, hedge⟩ := h.run
  have hroom := h.good.2
  refine ⟨⟨?_, ?_⟩, u64_lt _, fun hp => ?_, n, fun a ha => ?_, fun a b ha hb => ?_⟩
  · show 0 < hi - lo
    omega
  · show lo + (hi - lo) < 2 ^ 64
    omega
  · have := h.phys_room hp
    show u64 (e.physOffset + (lo - e.ptr)) + (hi - lo) < 2 ^ 64
    rw [u64_of_lt (by omega)]
    omega
  · have ha' : lo ≤ a ∧ a < lo + (hi - lo) := ha
    have hkeep : without bytes (fun a => p ≤ a ∧ a < stop) a = bytes a := if_neg (by omega)
    rw [hkeep, hrun a ⟨by omega, by omega⟩]
    -- the offset of the piece has moved by as much as its start
    cases hp : e.hasPhys with
    | false => simp [info, slice, hp]
    | true =>
      have := h.phys_room hp
      simp only [info, slice, hp, if_true]
      rw [u64_of_lt (by omega)]
      congr 3
      omega
  · have hb' : ¬(p ≤ a ∧ a < stop) ∧ bytes a = some b := by
      unfold without at hb
      split at hb
      · cases hb
      · exact ⟨‹_›, hb⟩
    have ha' : a + 1 = lo ∨ a = lo + (hi - lo) := ha
    exact hedge a b (by omega) hb'.2

end PageInfo

structure Represents (pages : List PageInfo) (bytes : ℕ → Option ByteInfo) : Prop where
  stands : ∀ e ∈ pages, e.Stands bytes
  apart : pages.Pairwise PageInfo.Apart
  covered : ∀ a b, bytes a = some b → ∃ e ∈ pages, e.Has a

/-! ## Punching a hole -/

namespace VmMap

theorem punchOne_pieces {p stop : ℕ} {e : PageInfo} (hgood : GoodRange e.ptr e.size)
    (hphys : e.physOffset < 2 ^ 64) (hlt : p < stop) :
    (punchOne p stop e).1 ++ (punchOne p stop e).2 = e.pieces p stop := by
  have hpos := hgood.1
  unfold punchOne PageInfo.pieces
  rw [PageInfo.stop_eq hgood]
  by_cases hdisj : e.ptr + e.size ≤ p ∨ stop ≤ e.ptr
  · rw [if_pos hdisj]
    rcases hdisj with hbelow | habove
    · rw [if_pos (by omega), if_neg (by omega), Nat.min_eq_left hbelow,
        PageInfo.slice_self hphys]
    · rw [if_neg (by omega), if_pos (by omega), Nat.max_eq_left habove,
        PageInfo.slice_self hphys]
      rfl
  rw [if_neg hdisj]
  by_cases hcovered : p ≤ e.ptr ∧ e.ptr + e.size ≤ stop
  · rw [if_pos hcovered, if_neg (by omega), if_neg (by omega)]
  rw [if_neg hcovered]
  by_cases hcontains : e.ptr < p ∧ stop < e.ptr + e.size
  · rw [if_pos hcontains, if_pos hcontains.1, if_pos hcontains.2, Nat.min_eq_right (by omega),
      Nat.max_eq_right (by omega), PageInfo.slice_ptr hphys]
    rfl
  rw [if_neg hcontains]
  by_cases hhead : e.ptr < p
  · rw [if_pos hhead, if_pos hhead, if_neg (by omega), Nat.min_eq_right (by omega),
      PageInfo.slice_ptr hphys]
  · rw [if_neg hhead, if_neg hhead, if_pos (by omega), Nat.max_eq_right (by omega)]
    rfl

theorem punchOne_appended {p stop : ℕ} {e x : PageInfo}
    (hx : x ∈ (punchOne p stop e).2) : punchOne p stop x = ([x], []) := by
  unfold punchOne at hx
  split at hx
  · cases hx
  split at hx
  · cases hx
  split at hx
  · obtain rfl := List.mem_singleton.mp hx
    exact if_pos (.inr (Nat.le_refl stop))
  split at hx <;> cases hx

theorem punchLoop_of_disjoint {p stop n : ℕ} {seen rest : List PageInfo}
    (h : ∀ x ∈ rest, punchOne p stop x = ([x], [])) (hn : rest.length ≤ n) :
    punchLoop p stop n seen rest = some (seen ++ rest) := by
  induction rest generalizing n seen with
  | nil => cases n <;> simp [punchLoop]
  | cons e rest ih =>
    obtain ⟨n, rfl⟩ : ∃ m, n = m + 1 := ⟨n - 1, by simp at hn; omega⟩
    rw [punchLoop, h e List.mem_cons_self, List.append_nil,
      ih (fun x hx => h x (List.mem_cons_of_mem _ hx)) (by simpa using hn), List.append_assoc]
    rfl

theorem punchLoop_eq {p stop n : ℕ} {seen rest tails : List PageInfo} (hrest : ∀ e ∈ rest, GoodRange e.ptr e.size)
    (htails : ∀ x ∈ tails, punchOne p stop x = ([x], [])) (hn : 2 * rest.length + tails.length ≤ n) :
    punchLoop p stop n seen (rest ++ tails) = some (seen ++ rest.flatMap (fun e => (punchOne p stop e).1) ++ tails ++
        rest.flatMap fun e => (punchOne p stop e).2) := by
  induction rest generalizing n seen tails with
  | nil =>
    simp only [List.nil_append, List.flatMap_nil, List.append_nil]
    exact punchLoop_of_disjoint htails (by simpa using hn)
  | cons e rest ih =>
    rw [List.length_cons] at hn
    obtain ⟨n, rfl⟩ : ∃ m, n = m + 1 := ⟨n - 1, by omega⟩
    have hlen : (punchOne p stop e).2.length ≤ 1 := by
      unfold punchOne
      repeat' split
      all_goals simp
    have htails' : ∀ x ∈ tails ++ (punchOne p stop e).2, punchOne p stop x = ([x], []) := by
      intro x hx
      rcases List.mem_append.mp hx with hx | hx
      · exact htails x hx
      · exact punchOne_appended hx
    rw [List.cons_append, punchLoop, List.append_assoc, ih (fun x hx => hrest x (List.mem_cons_of_mem _ hx)) htails'
        (by rw [List.length_append]; omega)]
    simp only [List.flatMap_cons, List.append_assoc]

end VmMap

/-- **Punching a hole removes its bytes and nothing else.** -/
theorem Represents.punchHole {pages : List PageInfo} {bytes : ℕ → Option ByteInfo} {p s : ℕ}
    (h : Represents pages bytes) (hr : GoodRange p s) : ∃ pages', VmMap.punchHole pages p s = some pages' ∧
      Represents pages' (without bytes fun a => p ≤ a ∧ a < p + s) := by
  have hlt : p < p + s := Nat.lt_add_of_pos_right hr.1
  have hgood : ∀ e ∈ pages, GoodRange e.ptr e.size := fun e he => (h.stands e he).good
  have hloop : VmMap.punchLoop p (p + s) (2 * pages.length) [] (pages ++ []) = _ :=
    VmMap.punchLoop_eq hgood nofun (Nat.le_refl _)
  simp only [List.append_nil, List.nil_append] at hloop
  rw [VmMap.punchHole, u64_of_lt hr.2, hloop]
  refine ⟨_, rfl, ?_⟩
  -- up to their order, the new entries are the pieces of the old
  have hperm : (pages.flatMap (fun e => (VmMap.punchOne p (p + s) e).1) ++
      pages.flatMap fun e => (VmMap.punchOne p (p + s) e).2).Perm
        (pages.flatMap fun e => e.pieces p (p + s)) := by
    refine (List.flatMap_append_perm _ _ _).trans (List.Perm.of_eq ?_)
    refine List.flatMap_congr fun e he => ?_
    exact VmMap.punchOne_pieces (hgood e he) (h.stands e he).phys_lt hlt
  refine ⟨fun x hx => ?_, ?_, fun a b hab => ?_⟩
  · obtain ⟨e, he, hx⟩ := List.mem_flatMap.mp (hperm.subset hx)
    exact (h.stands e he).piece hlt hx
  · refine (hperm.pairwise_iff PageInfo.Apart.symm).mpr (List.pairwise_flatMap.mpr ?_)
    refine ⟨fun e _ => e.pieces_pairwise hlt, ?_⟩
    refine h.apart.imp_of_mem fun {e e'} he he' hapart x hx y hy => ?_
    exact PageInfo.pieces_apart hx hy (hgood e he) (hgood e' he') hapart
  · unfold without at hab
    split at hab
    · cases hab
    · next hout =>
      obtain ⟨e, he, ha⟩ := h.covered a b hab
      obtain ⟨x, hx, hxa⟩ := PageInfo.exists_piece ha hout
      exact ⟨x, hperm.symm.subset (List.mem_flatMap.mpr ⟨e, he, hx⟩), hxa⟩

/-! ## The operations -/

section Tables

variable {bytes : ℕ → Option ByteInfo}

theorem without_eq_some {gone : ℕ → Prop} {a : ℕ} {b : ByteInfo} :
    without bytes gone a = some b ↔ ¬gone a ∧ bytes a = some b := by
  unfold without
  by_cases hg : gone a
  · rw [if_pos hg]
    exact ⟨nofun, fun h => absurd hg h.1⟩
  · rw [if_neg hg]
    exact ⟨fun h => ⟨hg, h⟩, And.right⟩

theorem without_congr {gone gone' : ℕ → Prop} (h : ∀ a, gone a ↔ gone' a) :
    without bytes gone = without bytes gone' := by
  rw [funext fun a => propext (h a)]

theorem without_without (gone gone' : ℕ → Prop) :
    without (without bytes gone) gone' = without bytes fun a => gone a ∨ gone' a := by
  funext a
  unfold without
  by_cases hg : gone a <;> by_cases hg' : gone' a <;> simp [hg, hg']

theorem fillRange_without (p s : ℕ) (f : ℕ → ByteInfo) :
    fillRange (without bytes fun a => p ≤ a ∧ a < p + s) p s f = fillRange bytes p s f := by
  funext a
  unfold fillRange without
  by_cases ha : p ≤ a ∧ a < p + s
  · rw [if_pos ha, if_pos ha]
  · rw [if_neg ha, if_neg ha, if_neg ha]

end Tables

namespace Represents

variable {pages : List PageInfo} {bytes : ℕ → Option ByteInfo}

theorem empty : Represents [] fun _ => none :=
  ⟨nofun, List.Pairwise.nil, fun _ _ h => by cases h⟩

theorem info_of_has (h : Represents pages bytes) {e : PageInfo} (he : e ∈ pages) {a : ℕ}
    (ha : e.Has a) : ∃ n, bytes a = some (e.info n a) := by
  obtain ⟨n, hrun, -⟩ := (h.stands e he).run
  exact ⟨n, hrun a ha⟩

/-- **Mapping a range** over unmapped bytes appends its entry: the new operation's number is on
no byte yet, so the new run touches no run of the same number. -/
theorem append (h : Represents pages bytes) {e : PageInfo} {n : ℕ}
    (hclock : ∀ a b, bytes a = some b → b.stamp < n) (hgood : GoodRange e.ptr e.size)
    (hphys : e.physOffset < 2 ^ 64) (hroom : e.hasPhys = true → e.physOffset + e.size < 2 ^ 64)
    (hfree : ∀ a, e.Has a → bytes a = none) :
    Represents (pages ++ [e]) (fillRange bytes e.ptr e.size (e.info n)) := by
  have hnew : ∀ a, e.Has a → fillRange bytes e.ptr e.size (e.info n) a = some (e.info n a) :=
    fun a ha => if_pos ha
  have hold : ∀ a, ¬e.Has a → fillRange bytes e.ptr e.size (e.info n) a = bytes a :=
    fun a ha => if_neg ha
  refine ⟨fun x hx => ?_, ?_, fun a b hab => ?_⟩
  · rcases List.mem_append.mp hx with hx | hx
    · obtain ⟨hxg, hxp, hxr, m, hrun, hedge⟩ := h.stands x hx
      refine ⟨hxg, hxp, hxr, m, fun a ha => ?_, fun a b ha hb => ?_⟩
      · have hout : ¬e.Has a := fun hin => by simpa [hfree a hin] using hrun a ha
        rw [hold a hout]
        exact hrun a ha
      · by_cases hin : e.Has a
        · -- the neighbour is newly mapped, and the run `x` is older
          have hm : m < n := by
            have hfirst : x.Has x.ptr := ⟨Nat.le_refl _, Nat.lt_add_of_pos_right hxg.1⟩
            exact hclock x.ptr _ (hrun x.ptr hfirst)
          rw [hnew a hin] at hb
          obtain rfl := Option.some.inj hb
          exact fun heq => absurd heq (by simp only [PageInfo.info]; omega)
        · exact hedge a b ha ((hold a hin).symm.trans hb)
    · obtain rfl := List.mem_singleton.mp hx
      refine ⟨hgood, hphys, hroom, n, hnew, fun a b ha hb => ?_⟩
      have hout : ¬x.Has a := by
        unfold PageInfo.Has
        omega
      have := hclock a b ((hold a hout).symm.trans hb)
      omega
  · refine List.pairwise_append.mpr ⟨h.apart, List.pairwise_singleton _ _, fun x hx y hy => ?_⟩
    obtain rfl := List.mem_singleton.mp hy
    by_contra hmeet
    -- an old entry that met the new one would map one of its bytes
    have hxg := (h.stands x hx).good.1
    have hyg := hgood.1
    have hboth : x.Has (max x.ptr y.ptr) ∧ y.Has (max x.ptr y.ptr) := by
      unfold PageInfo.Apart at hmeet
      unfold PageInfo.Has
      omega
    obtain ⟨m, hm⟩ := h.info_of_has hx hboth.1
    rw [hfree _ hboth.2] at hm
    cases hm
  · by_cases hin : e.Has a
    · exact ⟨e, List.mem_append_right _ (List.mem_singleton_self e), hin⟩
    · obtain ⟨x, hx, hxa⟩ := h.covered a b ((hold a hin).symm.trans hab)
      exact ⟨x, List.mem_append_left _ hx, hxa⟩

theorem addEntry {m : VmMap} (h : Represents m.rtPages bytes) {e : PageInfo} {n : ℕ}
    (hclock : ∀ a b, bytes a = some b → b.stamp < n) (hgood : GoodRange e.ptr e.size) (hphys : e.physOffset < 2 ^ 64)
    (hroom : e.hasPhys = true → e.physOffset + e.size < 2 ^ 64) : ∃ m', m.addEntry e = some m' ∧
      Represents m'.rtPages (fillRange bytes e.ptr e.size (e.info n)) := by
  obtain ⟨pages', hpunch, hrep⟩ := h.punchHole hgood
  rw [VmMap.addEntry, hpunch]
  refine ⟨_, rfl, ?_⟩
  have hclock' : ∀ a b, without bytes (fun a => e.ptr ≤ a ∧ a < e.ptr + e.size) a = some b →
      b.stamp < n := fun a b hab => hclock a b (without_eq_some.mp hab).2
  have happ := hrep.append hclock' hgood hphys hroom fun a ha => if_pos ha
  rwa [fillRange_without] at happ

theorem dropAll {m : VmMap} {removed : List (ℕ × ℕ)} (h : Represents m.rtPages bytes)
    (hgood : ∀ r ∈ removed, GoodRange r.1 r.2) : ∃ m', m.dropAll removed = some m' ∧
      Represents m'.rtPages (without bytes fun a => ∃ r ∈ removed, r.1 ≤ a ∧ a < r.1 + r.2) := by
  induction removed generalizing m bytes with
  | nil =>
    refine ⟨m, rfl, ?_⟩
    have hsame : (without bytes fun a => ∃ r ∈ ([] : List (ℕ × ℕ)), r.1 ≤ a ∧ a < r.1 + r.2) =
        bytes := funext fun a => if_neg (by simp)
    rw [hsame]
    exact h
  | cons r removed ih =>
    obtain ⟨pages', hpunch, hrep⟩ := h.punchHole (hgood r List.mem_cons_self)
    obtain ⟨m', hm', hrep'⟩ := ih (m := ⟨pages', _⟩) hrep fun x hx =>
      hgood x (List.mem_cons_of_mem _ hx)
    refine ⟨m', ?_, ?_⟩
    · show (VmMap.punchHole m.rtPages r.1 r.2).bind _ = some m'
      rw [hpunch]
      exact hm'
    · rw [without_without] at hrep'
      simpa only [List.exists_mem_cons_iff] using hrep'

theorem physPart_eq_some {e : PageInfo} (he : e.Stands bytes) {q s : ℕ} (hq : GoodRange q s) {r : ℕ × ℕ} :
    VmMap.physPart q s e = some r ↔ e.hasPhys = true ∧ max q e.physOffset < min (q + s) (e.physOffset + e.size) ∧
      r = (e.ptr + (max q e.physOffset - e.physOffset),
        min (q + s) (e.physOffset + e.size) - max q e.physOffset) := by
  obtain ⟨hpos, hlt⟩ := he.good
  unfold VmMap.physPart
  cases hp : e.hasPhys with
  | false => simp
  | true =>
    have hroom := he.phys_room hp
    rw [u64_of_lt hq.2, u64_of_lt hroom]
    simp only [Bool.true_and, decide_eq_true_eq, true_and]
    by_cases hmeet : max q e.physOffset < min (q + s) (e.physOffset + e.size)
    · -- the subtraction of the offset wraps once, back into the entry
      have hback : u64 (e.ptr + max q e.physOffset + (2 ^ 64 - e.physOffset)) =
          e.ptr + (max q e.physOffset - e.physOffset) := by
        have heq : e.ptr + max q e.physOffset + (2 ^ 64 - e.physOffset) =
            e.ptr + (max q e.physOffset - e.physOffset) + 2 ^ 64 := by omega
        rw [heq, u64, Nat.add_mod_right, Nat.mod_eq_of_lt (by omega)]
      rw [if_pos hmeet, hback]
      exact ⟨fun h => ⟨hmeet, (Option.some.inj h).symm⟩, fun h => congrArg some h.2.symm⟩
    · rw [if_neg hmeet]
      exact ⟨nofun, fun h => absurd h.1 hmeet⟩

theorem removeDirect {m : VmMap} (h : Represents m.rtPages bytes) {q s : ℕ} (hq : GoodRange q s) :
    ∃ m', m.removeDirect q s = some m' ∧ Represents m'.rtPages (without bytes fun a =>
        ∃ i x, bytes a = some i ∧ i.phys = some x ∧ q ≤ x ∧ x < q + s) := by
  have hpart : ∀ r, r ∈ m.rtPages.filterMap (VmMap.physPart q s) ↔
      ∃ e ∈ m.rtPages, VmMap.physPart q s e = some r := fun r => List.mem_filterMap
  have hgood : ∀ r ∈ m.rtPages.filterMap (VmMap.physPart q s), GoodRange r.1 r.2 := by
    intro r hr
    obtain ⟨e, he, hr⟩ := (hpart r).mp hr
    obtain ⟨hp, hmeet, rfl⟩ := (physPart_eq_some (h.stands e he) hq).mp hr
    have := (h.stands e he).good.2
    constructor <;> dsimp only <;> omega
  obtain ⟨m', hm', hrep⟩ := h.dropAll hgood
  refine ⟨m', hm', ?_⟩
  have hsame : (without bytes fun a => ∃ r ∈ m.rtPages.filterMap (VmMap.physPart q s),
      r.1 ≤ a ∧ a < r.1 + r.2) = without bytes fun a =>
        ∃ i x, bytes a = some i ∧ i.phys = some x ∧ q ≤ x ∧ x < q + s := by
    refine without_congr fun a => ⟨?_, ?_⟩
    · rintro ⟨r, hr, ha⟩
      obtain ⟨e, he, hr⟩ := (hpart r).mp hr
      obtain ⟨hp, hmeet, rfl⟩ := (physPart_eq_some (h.stands e he) hq).mp hr
      dsimp only at ha
      obtain ⟨n, hn⟩ := h.info_of_has he (a := a) ⟨by omega, by omega⟩
      refine ⟨_, e.physOffset + (a - e.ptr), hn, ?_, by omega, by omega⟩
      simp only [PageInfo.info, hp, if_true]
    · rintro ⟨i, x, hi, hx, hlo, hhi⟩
      obtain ⟨e, he, hea⟩ := h.covered a i hi
      obtain ⟨n, hn⟩ := h.info_of_has he hea
      rw [hi] at hn
      obtain rfl := Option.some.inj hn
      cases hp : e.hasPhys with
      | false => simp [PageInfo.info, hp] at hx
      | true =>
        have hx' : e.physOffset + (a - e.ptr) = x := by simpa [PageInfo.info, hp] using hx
        unfold PageInfo.Has at hea
        refine ⟨_, (hpart _).mpr ⟨e, he, (physPart_eq_some (h.stands e he) hq).mpr
          ⟨hp, by omega, rfl⟩⟩, ?_⟩
        dsimp only
        omega
  rw [← hsame]
  exact hrep

theorem runFrom_iff (h : Represents pages bytes) {e : PageInfo} (he : e ∈ pages) (a : ℕ) :
    RunFrom bytes e.ptr a ↔ e.Has a := by
  obtain ⟨hgood, -, -, n, hrun, hedge⟩ := h.stands e he
  have hfirst : e.Has e.ptr := ⟨Nat.le_refl _, Nat.lt_add_of_pos_right hgood.1⟩
  constructor
  · rintro ⟨hle, k, hk⟩
    refine ⟨hle, ?_⟩
    by_contra hout
    obtain ⟨b, hb, hbk⟩ := hk e.ptr (Nat.le_refl _) hle
    obtain ⟨b', hb', hbk'⟩ := hk (e.ptr + e.size) (by omega) (by omega)
    rw [hrun e.ptr hfirst] at hb
    obtain rfl := Option.some.inj hb
    exact hedge _ b' (.inr rfl) hb' (hbk'.trans hbk.symm)
  · rintro ⟨hle, hlt⟩
    exact ⟨hle, n, fun c hc hca => ⟨_, hrun c ⟨hc, by omega⟩, rfl⟩⟩

theorem unmapRtMemory {m : VmMap} (h : Represents m.rtPages bytes) {p : ℕ} (hp : ∃ e ∈ m.rtPages, e.ptr = p) :
    ∃ m', m.unmapRtMemory p = some m' ∧ Represents m'.rtPages (without bytes (RunFrom bytes p)) := by
  obtain ⟨e₀, he₀, hp₀⟩ := hp
  have hany : (m.rtPages.any fun e => e.ptr = p) = true :=
    List.any_eq_true.mpr ⟨e₀, he₀, by simpa using hp₀⟩
  obtain ⟨e, l₁, l₂, -, hep, hl, herase⟩ :=
    List.exists_of_eraseP (p := fun e : PageInfo => decide (e.ptr = p)) he₀ (by simpa using hp₀)
  obtain rfl : e.ptr = p := by simpa using hep
  have hmem : e ∈ m.rtPages := by rw [hl]; simp
  have hgone : without bytes (RunFrom bytes e.ptr) = without bytes e.Has :=
    without_congr (h.runFrom_iff hmem)
  refine ⟨_, if_pos hany, ?_⟩
  dsimp only
  rw [hgone, herase]
  -- the entry erased is apart from all that stay
  have hapart := h.apart
  rw [hl] at hapart
  have hperm : (l₁ ++ e :: l₂).Perm (e :: (l₁ ++ l₂)) := List.perm_middle
  obtain ⟨hrest, hstay⟩ :=
    List.pairwise_cons.mp ((hperm.pairwise_iff PageInfo.Apart.symm).mp hapart)
  refine ⟨fun x hx => ?_, hstay, fun a b hab => ?_⟩
  · have hx' : x ∈ m.rtPages := by
      rw [hl]
      exact hperm.symm.subset (List.mem_cons_of_mem _ hx)
    obtain ⟨hg, hph, hro, n, hrun, hedge⟩ := h.stands x hx'
    refine ⟨hg, hph, hro, n, fun a ha => ?_, fun a b ha hb => hedge a b ha ?_⟩
    · exact without_eq_some.mpr ⟨(hrest x hx).symm.not_has ha, hrun a ha⟩
    · exact (without_eq_some.mp hb).2
  · obtain ⟨hout, hab⟩ := without_eq_some.mp hab
    obtain ⟨x, hx, hxa⟩ := h.covered a b hab
    rw [hl] at hx
    rcases List.mem_cons.mp (hperm.subset hx) with rfl | hx
    · exact absurd hxa hout
    · exact ⟨x, hx, hxa⟩

end Represents

/-! ## The promise -/

namespace VmMap

/-- What `Get` returns for a byte agrees with the table. -/
def Agrees (a : ℕ) : Option PageInfo → Option ByteInfo → Prop
  | none, none => True
  | some e, some b =>
    e.prot = b.prot ∧ e.sceProt = b.sceProt ∧ e.name = b.name ∧ e.reserved = b.reserved ∧
      e.hasPhys = b.phys.isSome ∧ ∀ q, b.phys = some q → e.physOffset + (a - e.ptr) = q
  | _, _ => False

/-- What every reachable state promises. -/
structure Sound (s : VmMap × ByteMap) : Prop where
  nonempty : ∀ e ∈ s.1.rtPages, GoodRange e.ptr e.size
  disjoint : s.1.rtPages.Pairwise PageInfo.Apart
  agrees : ∀ a, Agrees a (s.1.get a) (s.2.bytes a)

/-- An `UnmapRtMemory` names the first byte of an entry. -/
def NamesEntry (s : VmMap × ByteMap) : VmOp → Prop
  | .unmapRtMemory p => ∃ e ∈ s.1.rtPages, e.ptr = p
  | _ => True

structure Inv (s : VmMap × ByteMap) : Prop where
  represents : Represents s.1.rtPages s.2.bytes
  clock : ∀ a b, s.2.bytes a = some b → b.stamp < s.2.clock

theorem Inv.empty : Inv (VmMap.empty, ByteMap.empty) :=
  ⟨Represents.empty, fun _ _ h => by cases h⟩

theorem get_eq_some_iff_of_represents {m : VmMap} {bytes : ℕ → Option ByteInfo}
    (h : Represents m.rtPages bytes) {a : ℕ} {e : PageInfo} : m.get a = some e ↔ e ∈ m.rtPages ∧ e.Has a := by
  have hhas : ∀ e ∈ m.rtPages, (decide (e.ptr ≤ a ∧ a < e.stop) = true ↔ e.Has a) := fun e he => by
    rw [decide_eq_true_iff, PageInfo.stop_eq (h.stands e he).good]
    rfl
  have hsound : ∀ e, m.get a = some e → e ∈ m.rtPages ∧ e.Has a := by
    intro e hget
    have he := List.mem_of_find?_eq_some hget
    have hfound : decide (e.ptr ≤ a ∧ a < e.stop) = true :=
      List.find?_some (p := fun e : PageInfo => decide (e.ptr ≤ a ∧ a < e.stop)) hget
    exact ⟨he, (hhas e he).mp hfound⟩
  refine ⟨hsound e, fun ⟨he, ha⟩ => ?_⟩
  cases hget : m.get a with
  | none => exact absurd ((hhas e he).mpr ha) (List.find?_eq_none.mp hget e he)
  | some e' =>
    -- two entries with the byte would not be apart
    obtain ⟨he', ha'⟩ := hsound e' hget
    by_contra hne
    have hapart : e'.Apart e := h.apart.forall he' he fun heq => hne (congrArg some heq)
    exact hapart.not_has ha' ha

theorem Inv.sound {s : VmMap × ByteMap} (h : Inv s) : Sound s where
  nonempty e he := (h.represents.stands e he).good
  disjoint := h.represents.apart
  agrees a := by
    cases hget : s.1.get a with
    | none =>
      cases hb : s.2.bytes a with
      | none => trivial
      | some b =>
        obtain ⟨e, he, hea⟩ := h.represents.covered a b hb
        rw [(get_eq_some_iff_of_represents h.represents).mpr ⟨he, hea⟩] at hget
        cases hget
    | some e =>
      obtain ⟨he, hea⟩ := (get_eq_some_iff_of_represents h.represents).mp hget
      obtain ⟨n, hn⟩ := h.represents.info_of_has he hea
      rw [hn]
      refine ⟨rfl, rfl, rfl, rfl, ?_, fun q hq => ?_⟩
      · cases hp : e.hasPhys <;> simp [PageInfo.info, hp]
      · cases hp : e.hasPhys with
        | false => simp [PageInfo.info, hp] at hq
        | true => simpa [PageInfo.info, hp] using hq

theorem clock_without {bytes : ℕ → Option ByteInfo} {n : ℕ} {gone : ℕ → Prop}
    (h : ∀ a b, bytes a = some b → b.stamp < n) :
    ∀ a b, without bytes gone a = some b → b.stamp < n + 1 := fun a b hab =>
  Nat.lt_succ_of_lt (h a b (without_eq_some.mp hab).2)

theorem clock_fillRange {bytes : ℕ → Option ByteInfo} {n p s : ℕ} {f : ℕ → ByteInfo}
    (h : ∀ a b, bytes a = some b → b.stamp < n) (hf : ∀ a, (f a).stamp = n) :
    ∀ a b, fillRange bytes p s f a = some b → b.stamp < n + 1 := by
  intro a b hab
  unfold fillRange at hab
  split at hab
  · obtain rfl := Option.some.inj hab
    rw [hf a]
    exact Nat.lt_succ_self n
  · exact Nat.lt_succ_of_lt (h a b hab)

/-- **Every operation that names an entry where it must is defined and keeps the relation.** -/
theorem Inv.step {s : VmMap × ByteMap} (h : Inv s) {op : VmOp} (hgood : op.Good)
    (hok : NamesEntry s op) : ∃ s', vmSystem.step s op = some s' ∧ Inv s' := by
  have hrep := h.represents
  cases op with
  | add ptr size prot sceProt reserved =>
    obtain ⟨m', hm', hrep'⟩ := hrep.addEntry (e := PageInfo.make ptr size prot sceProt reserved)
      h.clock hgood (by show (0 : ℕ) < 2 ^ 64; decide) (fun hp => by cases hp)
    exact ⟨_, congrArg (Option.map _) hm', hrep', clock_fillRange h.clock fun _ => rfl⟩
  | addDirect ptr size prot sceProt physOffset =>
    have hphys : physOffset < 2 ^ 64 := Nat.lt_of_le_of_lt (Nat.le_add_right _ _) hgood.2.2
    obtain ⟨m', hm', hrep'⟩ := hrep.addEntry
      (e := { PageInfo.make ptr size prot sceProt false with
        physOffset := physOffset, hasPhys := true })
      h.clock hgood.1 hphys (fun _ => hgood.2.2)
    exact ⟨_, congrArg (Option.map _) hm', hrep', clock_fillRange h.clock fun _ => rfl⟩
  | remove ptr size =>
    obtain ⟨pages', hpunch, hrep'⟩ := hrep.punchHole hgood
    have hm' : s.1.remove ptr size = some ⟨pages', _⟩ := congrArg (Option.map _) hpunch
    exact ⟨_, congrArg (Option.map _) hm', hrep', clock_without h.clock⟩
  | removeDirect physOffset size =>
    obtain ⟨m', hm', hrep'⟩ := hrep.removeDirect hgood
    exact ⟨_, congrArg (Option.map _) hm', hrep', clock_without h.clock⟩
  | unmapRtMemory ptr =>
    obtain ⟨m', hm', hrep'⟩ := hrep.unmapRtMemory hok
    exact ⟨_, congrArg (Option.map _) hm', hrep', clock_without h.clock⟩

theorem vmSystem_step {s s' : VmMap × ByteMap} {op : VmOp} (h : vmSystem.step s op = some s') :
    ∃ m, s.1.step op = some m ∧ (m, s.2.step op) = s' :=
  Option.map_eq_some_iff.mp h

/-- **A run is defined and sound if and only if every `UnmapRtMemory` in it names the first byte
of an entry.** -/
theorem sound_iff_namesEntry {ops : List VmOp} (hgood : ∀ op ∈ ops, op.Good) :
    (∃ s, vmSystem.exec (VmMap.empty, ByteMap.empty) ops = some s) ∧
        vmSystem.Always Sound (VmMap.empty, ByteMap.empty) ops ↔
      vmSystem.Meets NamesEntry (VmMap.empty, ByteMap.empty) ops := by
  constructor
  · rintro ⟨⟨s, hs⟩, -⟩
    refine vmSystem.meets_of_always (P := fun _ => True) (fun s op s' hstep _ => ?_) hs ?_
    · cases op with
      | unmapRtMemory ptr =>
        obtain ⟨m', hm', -⟩ := vmSystem_step hstep
        simp only [VmMap.step, VmMap.unmapRtMemory] at hm'
        split at hm'
        · next hany =>
          obtain ⟨e, he, hep⟩ := List.any_eq_true.mp hany
          exact ⟨e, he, by simpa using hep⟩
        · cases hm'
      | _ => trivial
    · exact vmSystem.always_true _ _
  · intro hok
    have hboth : vmSystem.Meets (fun s op => op.Good ∧ NamesEntry s op)
        (VmMap.empty, ByteMap.empty) ops := vmSystem.meets_and_of_forall hgood hok
    have hstep : ∀ s op, Inv s → op.Good ∧ NamesEntry s op →
        ∃ s', vmSystem.step s op = some s' ∧ Inv s' := fun s op h hop => h.step hop.1 hop.2
    refine ⟨vmSystem.exec_of_progress hstep Inv.empty hboth, ?_⟩
    refine vmSystem.always_of_invariant (fun s op s' h hop hs => ?_) (fun s => Inv.sound)
      Inv.empty hboth
    obtain ⟨s'', hs'', hinv⟩ := hstep s op h hop
    obtain rfl : s'' = s' := Option.some.inj (hs''.symm.trans hs)
    exact hinv

/-- A mapping with a hole in it, the piece above the hole then dropped by its own first byte. -/
theorem sound_after_split : (∃ s, vmSystem.exec (VmMap.empty, ByteMap.empty)
        [.addDirect 0x1000 0x3000 3 3 0x8000, .remove 0x2000 0x1000, .unmapRtMemory 0x3000] = some s) ∧
      vmSystem.Always Sound (VmMap.empty, ByteMap.empty)
        [.addDirect 0x1000 0x3000 3 3 0x8000, .remove 0x2000 0x1000, .unmapRtMemory 0x3000] := by
  refine (sound_iff_namesEntry (by decide)).mpr ⟨trivial, fun s₁ h₁ => ⟨trivial, fun s₂ h₂ => ?_⟩⟩
  obtain ⟨m₁, hm₁, rfl⟩ := vmSystem_step h₁
  obtain ⟨m₂, hm₂, rfl⟩ := vmSystem_step h₂
  have hnames : ((VmMap.empty.step (.addDirect 0x1000 0x3000 3 3 0x8000)).bind
      fun m => m.step (.remove 0x2000 0x1000)).all
        fun m => m.rtPages.any fun e => e.ptr = 0x3000 := by decide
  rw [hm₁, Option.bind_some, hm₂, Option.all_some] at hnames
  obtain ⟨e, he, hep⟩ := List.any_eq_true.mp hnames
  exact ⟨⟨e, he, by simpa using hep⟩, fun _ _ => trivial⟩

/-- **`UnmapRtMemory` of an address inside an entry is undefined.** -/
theorem unmapRtMemory_undefined : ¬((∃ s, vmSystem.exec (VmMap.empty, ByteMap.empty)
        [.add 0x1000 0x2000 3 3 false, .unmapRtMemory 0x2000] = some s) ∧
      vmSystem.Always Sound (VmMap.empty, ByteMap.empty) [.add 0x1000 0x2000 3 3 false, .unmapRtMemory 0x2000]) := by
  rintro ⟨⟨s, hs⟩, -⟩
  cases hs

end VmMap

end Prosperity.Kern
