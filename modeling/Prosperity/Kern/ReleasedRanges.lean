import Mathlib.Algebra.Group.Nat.Defs
import Mathlib.Data.List.Induction
import Mathlib.Order.Basic
import Mathlib.Tactic.Common

/-!
# Ranges the guest has released

`sys_munmap` keeps the host pages, so `g_released` remembers what the guest has unmapped: a later
hint there is honoured. `NoteGuestTaken` forgets a range that is handed out again. It forgets the
whole range even where a part of it is taken, so the memory of the tracker is a lower bound of
what is released.

What the tracker knows is stated against the bytes: a byte is released where a release holds it
and no later take does.
-/

namespace Prosperity.Kern

/-- A range of guest addresses, as `ptr` and `size`. -/
structure AddressRange where
  base : ℕ
  size : ℕ
  nonnull : 0 < base
  fits : base + size < 2 ^ 64

namespace AddressRange

/-- `base + size` as a `uintptr_t`. -/
def stop (r : AddressRange) : ℕ := (r.base + r.size) % 2 ^ 64

theorem stop_eq (r : AddressRange) : r.stop = r.base + r.size := Nat.mod_eq_of_lt r.fits

def Has (r : AddressRange) (x : ℕ) : Prop := r.base ≤ x ∧ x < r.base + r.size

end AddressRange

structure ReleasedRange where
  base : ℕ
  stop : ℕ
  deriving DecidableEq

def ReleasedRange.Has (e : ReleasedRange) (x : ℕ) : Prop := e.base ≤ x ∧ x < e.stop

/-! ## The tracker -/

/-- The loop of `NoteGuestReleased`: the first range that touches `[base, stop)` grows over it,
`none` where no range does. -/
def mergeTouching (base stop : ℕ) : List ReleasedRange → Option (List ReleasedRange)
  | [] => none
  | r :: rest =>
    if base ≤ r.stop ∧ r.base ≤ stop then some (⟨min r.base base, max r.stop stop⟩ :: rest)
    else (mergeTouching base stop rest).map (r :: ·)

def noteGuestReleased (released : List ReleasedRange) (r : AddressRange) : List ReleasedRange :=
  if r.base = 0 ∨ r.size = 0 then released
  else
    match mergeTouching r.base r.stop released with
    | some merged => merged
    | none => if released.length < 4096 then released ++ [⟨r.base, r.stop⟩] else released

def noteGuestTaken (released : List ReleasedRange) (r : AddressRange) : List ReleasedRange :=
  if r.base = 0 ∨ r.size = 0 then released
  else released.filter fun e => !(r.base < e.stop && e.base < r.stop)

def wasGuestReleased (released : List ReleasedRange) (r : AddressRange) : Bool :=
  released.any fun e => r.base ≥ e.base && r.stop ≤ e.stop

/-- A call that a syscall makes. -/
inductive RangeCall
  | release (r : AddressRange)
  | take (r : AddressRange)

def afterCall (released : List ReleasedRange) : RangeCall → List ReleasedRange
  | .release r => noteGuestReleased released r
  | .take r => noteGuestTaken released r

/-- `g_released` after the calls, from the empty one on. -/
def releasedAfter (calls : List RangeCall) : List ReleasedRange := calls.foldl afterCall []

theorem releasedAfter_concat (calls : List RangeCall) (c : RangeCall) :
    releasedAfter (calls ++ [c]) = afterCall (releasedAfter calls) c := by
  simp [releasedAfter]

/-! ## What is released -/

/-- The byte was released, and no take since its latest release holds it. -/
def IsReleased (calls : List RangeCall) (x : ℕ) : Prop :=
  ∃ before r after, calls = before ++ .release r :: after ∧ r.Has x ∧
    ∀ taken, .take taken ∈ after → ¬taken.Has x

section

variable {calls : List RangeCall} {r : AddressRange} {x : ℕ}

theorem isReleased_release (hx : r.Has x) : IsReleased (calls ++ [.release r]) x :=
  ⟨calls, r, [], rfl, hx, by simp⟩

theorem IsReleased.concat (h : IsReleased calls x) {c : RangeCall} (hc : ∀ taken, c = .take taken → ¬taken.Has x) :
    IsReleased (calls ++ [c]) x := by
  obtain ⟨before, r, after, rfl, hx, hafter⟩ := h
  refine ⟨before, r, after ++ [c], by simp, hx, fun taken hmem => ?_⟩
  rcases List.mem_append.mp hmem with hmem | hmem
  · exact hafter taken hmem
  · exact hc taken (List.mem_singleton.mp hmem).symm

end

/-! ## What the calls keep -/

/-- Growing the first range that touches a release adds no byte but those of the release. -/
theorem mergeTouching_spec {base stop : ℕ} {released merged : List ReleasedRange}
    (h : mergeTouching base stop released = some merged) :
    (∀ e ∈ merged, ∀ x, e.Has x → (base ≤ x ∧ x < stop) ∨ ∃ e' ∈ released, e'.Has x) ∧
      (∀ e ∈ released, ∃ e' ∈ merged, e'.base ≤ e.base ∧ e.stop ≤ e'.stop) ∧
      ∃ e ∈ merged, e.base ≤ base ∧ stop ≤ e.stop := by
  induction released generalizing merged with
  | nil => cases h
  | cons r rest ih =>
    rw [mergeTouching] at h
    split_ifs at h with htouch
    · obtain rfl := Option.some.inj h
      refine ⟨fun e he x hx => ?_, fun e he => ?_, _, List.mem_cons_self, Nat.min_le_right _ _, Nat.le_max_right _ _⟩
      · rcases List.mem_cons.mp he with rfl | he
        · -- the two ranges touch, so a byte of the larger one is in one of them
          simp only [ReleasedRange.Has] at hx
          by_cases hin : base ≤ x ∧ x < stop
          · exact .inl hin
          · exact .inr ⟨r, List.mem_cons_self, by simp only [ReleasedRange.Has]; omega⟩
        · exact .inr ⟨e, List.mem_cons_of_mem _ he, hx⟩
      · rcases List.mem_cons.mp he with rfl | he
        · exact ⟨_, List.mem_cons_self, Nat.min_le_left _ _, Nat.le_max_left _ _⟩
        · exact ⟨e, List.mem_cons_of_mem _ he, Nat.le_refl _, Nat.le_refl _⟩
    · obtain ⟨left, hleft, rfl⟩ := Option.map_eq_some_iff.mp h
      obtain ⟨hsound, hkeep, e, he, hcover⟩ := ih hleft
      refine ⟨fun e he x hx => ?_, fun e he => ?_, e, List.mem_cons_of_mem _ he, hcover⟩
      · rcases List.mem_cons.mp he with rfl | he
        · exact .inr ⟨e, List.mem_cons_self, hx⟩
        · refine (hsound e he x hx).imp_right fun ⟨e', he', hx'⟩ => ?_
          exact ⟨e', List.mem_cons_of_mem _ he', hx'⟩
      · rcases List.mem_cons.mp he with rfl | he
        · exact ⟨e, List.mem_cons_self, Nat.le_refl _, Nat.le_refl _⟩
        · obtain ⟨e', he', hle⟩ := hkeep e he
          exact ⟨e', List.mem_cons_of_mem _ he', hle⟩

section

variable {released : List ReleasedRange} {r : AddressRange}

theorem noteGuestReleased_sound {e : ReleasedRange} (he : e ∈ noteGuestReleased released r) {x : ℕ} (hx : e.Has x) :
    r.Has x ∨ ∃ e' ∈ released, e'.Has x := by
  unfold noteGuestReleased at he
  by_cases hnull : r.base = 0 ∨ r.size = 0
  · rw [if_pos hnull] at he
    exact .inr ⟨e, he, hx⟩
  · rw [if_neg hnull] at he
    split at he
    next merged hmerged =>
      rw [AddressRange.Has, ← r.stop_eq]
      exact (mergeTouching_spec hmerged).1 e he x hx
    next =>
      split_ifs at he
      · rcases List.mem_append.mp he with he | he
        · exact .inr ⟨e, he, hx⟩
        · rw [List.mem_singleton.mp he, ReleasedRange.Has, r.stop_eq] at hx
          exact .inl hx
      · exact .inr ⟨e, he, hx⟩

/-- A release takes no byte out of a range that is held. -/
theorem noteGuestReleased_keeps {e : ReleasedRange} (he : e ∈ released) :
    ∃ e' ∈ noteGuestReleased released r, e'.base ≤ e.base ∧ e.stop ≤ e'.stop := by
  unfold noteGuestReleased
  by_cases hnull : r.base = 0 ∨ r.size = 0
  · rw [if_pos hnull]
    exact ⟨e, he, Nat.le_refl _, Nat.le_refl _⟩
  · rw [if_neg hnull]
    split
    next merged hmerged => exact (mergeTouching_spec hmerged).2.1 e he
    next =>
      split_ifs
      · exact ⟨e, List.mem_append_left _ he, Nat.le_refl _, Nat.le_refl _⟩
      · exact ⟨e, he, Nat.le_refl _, Nat.le_refl _⟩

theorem noteGuestReleased_covers (hsize : 0 < r.size) (hroom : released.length < 4096) :
    ∃ e ∈ noteGuestReleased released r, e.base ≤ r.base ∧ r.stop ≤ e.stop := by
  have hnull : ¬(r.base = 0 ∨ r.size = 0) := by
    have := r.nonnull
    omega
  rw [noteGuestReleased, if_neg hnull]
  split
  next merged hmerged => exact (mergeTouching_spec hmerged).2.2
  next =>
    rw [if_pos hroom]
    exact ⟨_, List.mem_append_right _ (List.mem_singleton_self _), Nat.le_refl _, Nat.le_refl _⟩

/-- A range that stays meets no byte of the take. -/
theorem mem_noteGuestTaken {e : ReleasedRange} (he : e ∈ noteGuestTaken released r) :
    e ∈ released ∧ ∀ x, e.Has x → ¬r.Has x := by
  unfold noteGuestTaken at he
  split_ifs at he with hnull
  · refine ⟨he, fun x _ hx => ?_⟩
    have hlo := hx.1
    have hhi := hx.2
    have := r.nonnull
    omega
  · obtain ⟨hmem, hout⟩ := List.mem_filter.mp he
    refine ⟨hmem, fun x ⟨hlo, hhi⟩ ⟨hlo', hhi'⟩ => ?_⟩
    rw [r.stop_eq] at hout
    simp at hout
    omega

theorem noteGuestTaken_keeps {e : ReleasedRange} (he : e ∈ released) (hout : ∀ x, e.Has x → ¬r.Has x) (hne : e.base < e.stop) :
    e ∈ noteGuestTaken released r := by
  unfold noteGuestTaken
  split_ifs with hnull
  · exact he
  · refine List.mem_filter.mpr ⟨he, ?_⟩
    have hmax := hout (max e.base r.base)
    simp only [ReleasedRange.Has, AddressRange.Has] at hmax
    rw [r.stop_eq]
    simp
    omega

end

/-- **Every byte of a range that is held is released.** -/
theorem isReleased_of_mem (calls : List RangeCall) : ∀ e ∈ releasedAfter calls, ∀ x, e.Has x → IsReleased calls x := by
  induction calls using List.reverseRecOn with
  | nil => simp [releasedAfter]
  | append_singleton calls c ih =>
    rw [releasedAfter_concat]
    intro e he x hx
    cases c with
    | release r =>
      rcases noteGuestReleased_sound he hx with hr | ⟨e', he', hx'⟩
      · exact isReleased_release hr
      · exact (ih e' he' x hx').concat nofun
    | take r =>
      obtain ⟨hmem, hout⟩ := mem_noteGuestTaken he
      refine (ih e hmem x hx).concat fun taken htaken => ?_
      obtain rfl := RangeCall.take.inj htaken
      exact hout x hx

/-- A take at `x` spares the stretch around the range: between them lies a byte that is not released. -/
def Spares (calls : List RangeCall) (r : AddressRange) (x : ℕ) : Prop :=
  ∃ y, min r.base x ≤ y ∧ y < max (r.base + r.size) (x + 1) ∧ ¬IsReleased calls y

/-- A range released while there was room is held as long as no take meets the stretch around it. -/
theorem held_of_release {before : List RangeCall} {r : AddressRange} (hsize : 0 < r.size)
    (hroom : (releasedAfter before).length < 4096) (after : List RangeCall)
    (hspared : ∀ mid taken rest, after = mid ++ .take taken :: rest →
      ∀ x, taken.Has x → Spares (before ++ .release r :: mid) r x) :
    ∃ e ∈ releasedAfter (before ++ .release r :: after), e.base ≤ r.base ∧ r.stop ≤ e.stop := by
  induction after using List.reverseRecOn with
  | nil =>
    rw [releasedAfter_concat]
    exact noteGuestReleased_covers hsize hroom
  | append_singleton after c ih =>
    obtain ⟨e, he, hbase, hstop⟩ := ih fun mid taken rest hafter =>
      hspared mid taken (rest ++ [c]) (by rw [hafter]; simp)
    have hlist : before ++ RangeCall.release r :: (after ++ [c]) = before ++ .release r :: after ++ [c] := by simp
    rw [hlist, releasedAfter_concat]
    cases c with
    | release s =>
      obtain ⟨e', he', hle, hge⟩ := noteGuestReleased_keeps (r := s) he
      exact ⟨e', he', by omega, by omega⟩
    | take taken =>
      rw [r.stop_eq] at hstop
      refine ⟨e, noteGuestTaken_keeps he (fun x hx htaken => ?_) (by omega), hbase, by rwa [r.stop_eq]⟩
      obtain ⟨y, hlo, hhi, hnot⟩ := hspared after taken [] rfl x htaken
      refine hnot (isReleased_of_mem _ e he y ?_)
      obtain ⟨hxlo, hxhi⟩ := hx
      constructor <;> omega

def pagesOneTwo : AddressRange := ⟨0x1000, 0x2000, by decide, by decide⟩

def pageOne : AddressRange := ⟨0x1000, 0x1000, by decide, by decide⟩

def pageTwo : AddressRange := ⟨0x2000, 0x1000, by decide, by decide⟩

end Prosperity.Kern
