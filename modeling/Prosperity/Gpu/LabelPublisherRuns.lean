import Mathlib.Data.List.Forall2
import Prosperity.Gpu.LabelPublisher

/-!
# Runs of the label publisher

The labels of `PublishLabel` reach memory in the order of its calls, each exactly once, and a write
that runs at once finds nothing held. `OverlayHeld` gives the bytes that memory will hold once the
held writes have run, with two exceptions. The caller reads memory before `OverlayHeld` takes the
lock, and a held write that lands in between is in neither. And a small DMA fill declares bytes
behind its last whole dword that it never stores.

The order rests on where each label stands: those that landed, then the part of the next that is
stored, then the held ones (`Standing`). What `OverlayHeld` lays over a byte is what the held writes
do to it, label by label (`run_pending`).
-/

namespace Prosperity.Gpu

/-! ## Stores -/

@[simp] theorem runStores_nil (m : GuestMemory) : runStores [] m = m := rfl

@[simp] theorem runStores_cons (store : GuestStore) (rest : List GuestStore) (m : GuestMemory) :
    runStores (store :: rest) m = runStores rest (store m) := rfl

theorem runStores_append (xs ys : List GuestStore) (m : GuestMemory) :
    runStores (xs ++ ys) m = runStores ys (runStores xs m) := List.foldl_append

theorem runStores_frame {stores : List GuestStore} {a : ℕ}
    (h : ∀ store ∈ stores, ∀ m, store m a = m a) (m : GuestMemory) : runStores stores m a = m a := by
  induction stores generalizing m with
  | nil => rfl
  | cons store rest ih =>
    rw [runStores_cons, ih fun x hx => h x (List.mem_cons_of_mem _ hx)]
    exact h store List.mem_cons_self m

theorem runStores_storeChunks (at_ : ℕ) (cs : List (List UInt8)) (m : GuestMemory) (a : ℕ) :
    runStores (storeChunks at_ cs) m a = storeBytes at_ cs.flatten m a := by
  induction cs generalizing at_ m with
  | nil =>
    rw [storeChunks, runStores_nil, storeBytes]
    simp
  | cons c cs ih =>
    rw [storeChunks, runStores_cons, ih]
    simp only [storeBytes, List.flatten_cons, List.length_append, List.getD_eq_getElem?_getD]
    grind

theorem storeBytes_frame {at_ a : ℕ} {bytes : List UInt8}
    (h : a < at_ ∨ at_ + bytes.length ≤ a) (m : GuestMemory) : storeBytes at_ bytes m a = m a :=
  if_neg (by omega)

theorem storeChunks_frame {at_ a : ℕ} {cs : List (List UInt8)} (h : a < at_ ∨ at_ + cs.flatten.length ≤ a) :
    ∀ store ∈ storeChunks at_ cs, ∀ m, store m a = m a := by
  induction cs generalizing at_ with
  | nil => simp [storeChunks]
  | cons c cs ih =>
    rw [List.flatten_cons, List.length_append] at h
    intro store hstore
    rcases List.mem_cons.mp hstore with rfl | hstore
    · exact storeBytes_frame (by omega)
    · exact ih (by omega) store hstore

/-! ## Labels that store what they declare -/

/-- The write stores the bytes it declares where it declares any, and none outside its range. -/
structure Label.Faithful (l : Label) : Prop where
  frame : ∀ store ∈ l.write, ∀ m a, a < l.base ∨ l.hi ≤ a → store m a = m a
  known : ∀ d, l.data = some d → ∀ m a, l.base ≤ a → a < l.hi → some (runStores l.write m a) = d[a - l.base]?

theorem heldEnd_le (base bytes : ℕ) : heldEnd base bytes ≤ base + bytes := by
  unfold heldEnd
  split <;> omega

theorem heldEnd_of_lt {base bytes : ℕ} (h : base + bytes < 2 ^ 64) : heldEnd base bytes = base + bytes := by
  unfold heldEnd
  rw [Nat.mod_eq_of_lt h, if_neg (by omega)]

theorem faithful_of_chunks {l : Label} (cs : List (List UInt8)) (hdata : l.data = some cs.flatten)
    (hwrite : l.write = storeChunks l.base cs) (hend : l.base + l.bytes < 2 ^ 64) : l.Faithful := by
  have hlen := l.data_length _ hdata
  have hhi : l.hi = l.base + l.bytes := heldEnd_of_lt hend
  refine ⟨fun store hstore m a ha => ?_, fun d hd m a hlo ha => ?_⟩
  · rw [hwrite] at hstore
    exact storeChunks_frame (by omega) store hstore m
  · obtain rfl := Option.some.inj (hdata.symm.trans hd)
    rw [hwrite, runStores_storeChunks, storeBytes, if_pos (by omega),
      List.getD_eq_getElem?_getD, List.getElem?_eq_getElem (by omega)]
    rfl

theorem copyLabel_faithful {dst : ℕ} {data : List UInt8} (h : dst < 2 ^ 64)
    (hend : dst + data.length < 2 ^ 64) : (copyLabel dst data h).Faithful := by
  have hflat : (data.map fun b => [b]).flatten = data := by
    rw [← List.flatMap_def, List.flatMap_singleton']
  refine faithful_of_chunks (data.map fun b => [b]) ?_ rfl hend
  rw [hflat]
  rfl

theorem fillLabel_faithful {dst bytes : ℕ} {fill : UInt32} (h : dst < 2 ^ 64) (hb : bytes ≤ 64)
    (hwhole : 4 ∣ bytes) (hend : dst + bytes < 2 ^ 64) : (fillLabel dst bytes fill h hb).Faithful := by
  obtain ⟨n, rfl⟩ := hwhole
  have hn : 4 * n / 4 = n := Nat.mul_div_cancel_left n (by decide)
  refine faithful_of_chunks (List.replicate n (dwordBytes fill)) ?_ ?_ hend
  · have hsplit : filledBytes fill = (List.replicate n (dwordBytes fill)).flatten ++
        (List.replicate (16 - n) (dwordBytes fill)).flatten := by
      rw [← List.flatten_append, List.replicate_append_replicate, Nat.add_sub_cancel' (by omega)]
      rfl
    have hlen : (List.replicate n (dwordBytes fill)).flatten.length = 4 * n := by
      simp [dwordBytes, Nat.mul_comm]
    show some ((filledBytes fill).take (4 * n)) = _
    rw [hsplit, List.take_left' hlen]
  · show storeChunks dst (List.replicate (4 * n / 4) (dwordBytes fill)) = _
    rw [hn]
    rfl

/-! ## What the held writes do to a byte -/

/-- What `OverlayHeld` lays over the byte at `a`, which reads `b`. -/
def Held.byteAt (h : Held) (a : ℕ) (b : UInt8) : UInt8 :=
  if h.lo ≤ a ∧ a < h.hi then h.data.getD (a - h.lo) b else b

/-- The held write says what it writes at `a`, if it writes there. -/
def Held.Tells (h : Held) (a : ℕ) : Prop := h.lo ≤ a → a < h.hi → h.data ≠ []

/-- `h` is the label `l`, with its write or with the write moved out. -/
def Held.Is (h : Held) (l : Label) : Prop := h.lo = l.base ∧ h.hi = l.hi ∧ h.data = l.data.getD []

theorem Label.toHeld_is (l : Label) (point : ℕ) : (l.toHeld point).Is l := ⟨rfl, rfl, rfl⟩

def Held.Waits (h : Held) (l : Label) : Prop := h.Is l ∧ h.write = some l.write

theorem Label.Faithful.run_eq {l : Label} (hl : l.Faithful) {h : Held} (his : h.Is l) {a : ℕ}
    (htells : h.Tells a) (m : GuestMemory) : runStores l.write m a = h.byteAt a (m a) := by
  obtain ⟨hlo, hhi, hdata⟩ := his
  rw [Held.byteAt, hlo, hhi, hdata]
  by_cases hin : l.base ≤ a ∧ a < l.hi
  · have hne := htells (hlo ▸ hin.1) (hhi ▸ hin.2)
    rw [hdata] at hne
    cases hd : l.data with
    | none => simp [hd] at hne
    | some d =>
      rw [if_pos hin, Option.getD_some, List.getD_eq_getElem?_getD, ← hl.known d hd m a hin.1 hin.2]
      rfl
  · rw [if_neg hin]
    exact runStores_frame (fun store hstore m => hl.frame store hstore m a (by omega)) m

theorem Held.Is.fit {h : Held} {l : Label} (his : h.Is l) (hne : h.data ≠ []) : h.hi ≤ h.lo + h.data.length := by
  obtain ⟨hlo, hhi, hdata⟩ := his
  rw [hlo, hhi, hdata]
  cases hd : l.data with
  | none => simp [hdata, hd] at hne
  | some d =>
    rw [Option.getD_some, l.data_length d hd]
    exact heldEnd_le l.base l.bytes

theorem Held.byteAt_const {h : Held} {a : ℕ} (hfit : h.hi ≤ h.lo + h.data.length) (hlo : h.lo ≤ a)
    (hhi : a < h.hi) (b b' : UInt8) : h.byteAt a b = h.byteAt a b' := by
  have hlt : a - h.lo < h.data.length := by omega
  rw [Held.byteAt, Held.byteAt, if_pos ⟨hlo, hhi⟩, if_pos ⟨hlo, hhi⟩,
    List.getD_eq_getElem?_getD, List.getD_eq_getElem?_getD, List.getElem?_eq_getElem hlt]
  rfl

theorem Label.Faithful.rest_eq {l : Label} (hl : l.Faithful) {h : Held} (his : h.Is l)
    {part rest : List GuestStore} (hwrite : part ++ rest = l.write) (m : GuestMemory) {a : ℕ}
    (htells : h.Tells a) {b : UInt8} (hb : b = runStores part m a ∨ h.lo ≤ a ∧ a < h.hi) :
    runStores rest (runStores part m) a = h.byteAt a b := by
  rw [← runStores_append, hwrite]
  by_cases hin : h.lo ≤ a ∧ a < h.hi
  · rw [hl.run_eq his htells]
    exact Held.byteAt_const (his.fit (htells hin.1 hin.2)) hin.1 hin.2 _ _
  · rw [← hwrite, runStores_append, Held.byteAt, if_neg hin, hb.resolve_right hin]
    refine runStores_frame (fun store hstore m => ?_) _
    obtain ⟨hlo, hhi, -⟩ := his
    refine hl.frame store ?_ m a (by omega)
    rw [← hwrite]
    exact List.mem_append_right _ hstore

theorem run_pending {hs : List Held} {ls : List Label} (hw : List.Forall₂ Held.Waits hs ls)
    (hl : ∀ l ∈ ls, l.Faithful) {a : ℕ} (htells : ∀ h ∈ hs, h.Tells a) (m : GuestMemory) :
    runStores (hs.flatMap fun h => h.write.getD []) m a = hs.foldl (fun b h => h.byteAt a b) (m a) := by
  induction hw generalizing m with
  | nil => rfl
  | @cons h l hs ls hhead _ ih =>
    rw [List.forall_mem_cons] at hl htells
    rw [List.flatMap_cons, runStores_append, ih hl.2 htells.2, List.foldl_cons, hhead.2,
      Option.getD_some, hl.1.run_eq hhead.1 htells.1]

/-! ## `OverlayHeld` -/

theorem length_copyInto {out d : List UInt8} {at_ : ℕ} (h : at_ + d.length ≤ out.length) :
    (copyInto out at_ d).length = out.length := by
  simp only [copyInto, List.length_append, List.length_take, List.length_drop]
  omega

theorem copyInto_getElem? {out d : List UInt8} {at_ : ℕ} (h : at_ + d.length ≤ out.length) (i : ℕ) :
    (copyInto out at_ d)[i]? = if at_ ≤ i ∧ i < at_ + d.length then d[i - at_]? else out[i]? := by
  simp only [copyInto, List.getElem?_append, List.getElem?_take, List.getElem?_drop,
    List.length_append, List.length_take]
  grind

/-- **What `OverlayHeld` answers.** Where it answers, every held write that meets the range says
what it writes, and each byte is what they make of it one after the other. -/
theorem overlayHeld_spec {base bytes : ℕ} (hend : base + bytes < 2 ^ 64) {hs : List Held}
    (hfit : ∀ h ∈ hs, h.data ≠ [] → h.hi ≤ h.lo + h.data.length) {out out' : List UInt8}
    (hlen : out.length = bytes) (h : overlayHeld base bytes hs out = some out') :
    out'.length = bytes ∧ (∀ h ∈ hs, ∀ i < bytes, h.Tells (base + i)) ∧
      ∀ i : ℕ, out'[i]? = out[i]?.map fun b => hs.foldl (fun b h => h.byteAt (base + i) b) b := by
  induction hs generalizing out with
  | nil =>
    obtain rfl := Option.some.inj h
    refine ⟨hlen, by simp, fun i => ?_⟩
    simp
  | cons held hs ih =>
    rw [List.forall_mem_cons] at hfit
    rw [overlayHeld, Nat.mod_eq_of_lt hend] at h
    split_ifs at h with hout hdata
    · -- The write does not meet the range.
      obtain ⟨hl, ht, hb⟩ := ih hfit.2 hlen h
      refine ⟨hl, List.forall_mem_cons.mpr ⟨fun i hi hlo hhi => by omega, ht⟩, fun i => ?_⟩
      rw [hb i]
      by_cases hi : i < out.length
      · have hmiss : ∀ b, held.byteAt (base + i) b = b := fun b => if_neg (by omega)
        simp only [List.foldl_cons, hmiss]
      · simp [List.getElem?_eq_none (by omega : out.length ≤ i)]
    · have hfit' := hfit.1 hdata
      set d := (held.data.drop (max base held.lo - held.lo)).take
        (min (base + bytes) held.hi - max base held.lo) with hd
      have hdlen : d.length = min (base + bytes) held.hi - max base held.lo := by
        rw [hd, List.length_take, List.length_drop]
        omega
      have hroom : max base held.lo - base + d.length ≤ out.length := by omega
      obtain ⟨hl, ht, hb⟩ := ih hfit.2 (by rw [length_copyInto hroom, hlen]) h
      refine ⟨hl, List.forall_mem_cons.mpr ⟨fun i _ _ _ => hdata, ht⟩, fun i => ?_⟩
      rw [hb i, copyInto_getElem? hroom]
      simp only [List.foldl_cons]
      by_cases hi : i < out.length
      · by_cases hin : held.lo ≤ base + i ∧ base + i < held.hi
        · -- A byte of the range: it comes from the data.
          have hlt : base + i - held.lo < held.data.length := by omega
          have hget : d[i - (max base held.lo - base)]? = held.data[base + i - held.lo]? := by
            rw [hd, List.getElem?_take_of_lt (by omega), List.getElem?_drop]
            congr 1
            omega
          have hhit : ∀ b, held.byteAt (base + i) b = held.data[base + i - held.lo] := by
            intro b
            rw [Held.byteAt, if_pos hin, List.getD_eq_getElem?_getD, List.getElem?_eq_getElem hlt]
            rfl
          rw [if_pos (by omega), hget, List.getElem?_eq_getElem hi, List.getElem?_eq_getElem hlt]
          simp only [Option.map_some, hhit]
        · have hmiss : ∀ b, held.byteAt (base + i) b = b := fun b => if_neg hin
          rw [if_neg (by omega)]
          simp only [hmiss]
      · rw [if_neg (by omega), List.getElem?_eq_none (by omega : out.length ≤ i)]
        rfl

/-! ## What the publisher promises -/

def LabelWalk.rest : LabelWalk → List GuestStore
  | .writing rest => rest
  | _ => []

def LabelWalk.Calm (w : LabelWalk) : Prop := ∀ rest, w ≠ .writing rest

def PublisherAt.rest : PublisherAt → List GuestStore
  | .wait => []
  | .batch write => write.getD []
  | .writing rest => rest

namespace LabelState

variable (s : LabelState)

def heldStores : List GuestStore :=
  s.publisher.rest ++ s.pending.flatMap fun h => h.write.getD []

def afterHeld : GuestMemory := runStores s.heldStores s.memory

def current : Option Held :=
  match s.publisher with
  | .writing _ => s.pending.head?
  | _ => none

def lands : Option Held :=
  match s.publisher with
  | .writing [] => s.pending.head?
  | _ => none

/-- The careful steps: a label stores what it declares, and between a read of memory and its
`OverlayHeld` no held write into the bytes read lands. -/
def Careful : LabelEvent → Prop
  | .publish l _ => l.Faithful
  | .publisher => ∀ base out h, s.walk = .read base out → s.lands = some h →
      h.hi ≤ base ∨ base + out.length ≤ h.lo
  | _ => True

/-- What the publisher promises. The stores so far and those to come are the stores of the labels
in the order of `PublishLabel`, each once, and the writes that landed are among those so far. An
immediate write finds nothing held. The publishing thread is never stuck. What `OverlayHeld`
answers is what memory holds once the held writes have run. -/
structure Sound : Prop where
  ordered : ∃ done, s.memory = runStores done s.initial ∧
    (s.published.take s.landed).flatMap Label.write <+: done ∧
    done ++ s.walk.rest ++ s.heldStores = s.published.flatMap Label.write
  immediate : ∀ rest, s.walk = .writing rest → s.pending = []
  progress : s.pending ≠ [] → s.publisherStep.isSome
  overlay : ∀ base bytes out, s.walk = .answered base bytes (some out) →
    out = (List.range bytes).map fun i => s.afterHeld (base + i)

/-! ## The invariant -/

/-- Where the labels that have not landed stand: `part` is what is stored of the first. -/
inductive Standing : LabelWalk → PublisherAt → List Held → List Label → List GuestStore → Prop
  | immediate {rest part : List GuestStore} {l : Label} (hwrite : part ++ rest = l.write) :
      Standing (.writing rest) .wait [] [l] part
  | waiting {w : LabelWalk} {hs : List Held} {ls : List Label} (hw : w.Calm)
      (hheld : List.Forall₂ Held.Waits hs ls) : Standing w .wait hs ls []
  | taken {w : LabelWalk} {h : Held} {hs : List Held} {l : Label} {ls : List Label} (hw : w.Calm)
      (his : h.Is l) (hnone : h.write = none) (hheld : List.Forall₂ Held.Waits hs ls) :
      Standing w (.batch (some l.write)) (h :: hs) (l :: ls) []
  | running {w : LabelWalk} {h : Held} {hs : List Held} {l : Label} {ls : List Label}
      {rest part : List GuestStore} (hw : w.Calm) (his : h.Is l) (hnone : h.write = none)
      (hwrite : part ++ rest = l.write) (hheld : List.Forall₂ Held.Waits hs ls) :
      Standing w (.writing rest) (h :: hs) (l :: ls) part

/-- The invariant. A byte that the walk has read is still in memory, or the held write that is being
stored covers it. -/
structure Inv : Prop where
  standing : ∃ part, s.memory = runStores ((s.published.take s.landed).flatMap Label.write ++ part) s.initial ∧
    Standing s.walk s.publisher s.pending (s.published.drop s.landed) part
  head_le : s.head ≤ s.held.length
  landed_le : s.landed ≤ s.published.length
  started : s.pending ≠ [] → s.started = true
  faithful : ∀ l ∈ s.published, l.Faithful
  read : ∀ base out, s.walk = .read base out → base + out.length < 2 ^ 64 ∧ ∀ (i : ℕ) (b : UInt8), out[i]? = some b →
      b = s.memory (base + i) ∨ ∃ h ∈ s.current, h.lo ≤ base + i ∧ base + i < h.hi
  overlay : ∀ base bytes out, s.walk = .answered base bytes (some out) →
    out = (List.range bytes).map fun i => s.afterHeld (base + i)

variable {s} {s' : LabelState}

theorem Inv.init (m : GuestMemory) : Inv (LabelState.init m) where
  standing := ⟨[], rfl, .waiting (by intro _ h; cases h) .nil⟩
  head_le := Nat.le_refl _
  landed_le := Nat.le_refl _
  started h := absurd rfl h
  faithful := by simp [LabelState.init]
  read _ _ h := by cases h
  overlay _ _ _ h := by cases h

theorem calm_of_free (h : s.walkFree = true) : s.walk.Calm := by
  intro rest hw
  rw [walkFree, hw] at h
  cases h

variable {w : LabelWalk} {p : PublisherAt} {hs : List Held} {ls : List Label}
  {part : List GuestStore} {held : Held}

theorem Standing.walk {w' : LabelWalk} (h : Standing w p hs ls part) (hw : w.Calm) (hw' : w'.Calm) :
    Standing w' p hs ls part := by
  cases h with
  | immediate hwrite => exact absurd rfl (hw _)
  | waiting _ hheld => exact .waiting hw' hheld
  | taken _ his hnone hheld => exact .taken hw' his hnone hheld
  | running _ his hnone hwrite hheld => exact .running hw' his hnone hwrite hheld

theorem Standing.push (h : Standing w p hs ls part) (hw : w.Calm) {l : Label}
    (hnew : held.Waits l) : Standing w p (hs ++ [held]) (ls ++ [l]) part := by
  have happend : ∀ {hs : List Held} {ls : List Label}, List.Forall₂ Held.Waits hs ls →
      List.Forall₂ Held.Waits (hs ++ [held]) (ls ++ [l]) :=
    fun hheld => List.rel_append hheld (.cons hnew .nil)
  cases h with
  | immediate hwrite => exact absurd rfl (hw _)
  | waiting _ hheld => exact .waiting hw (happend hheld)
  | taken _ his hnone hheld => exact .taken hw his hnone (happend hheld)
  | running _ his hnone hwrite hheld => exact .running hw his hnone hwrite (happend hheld)

theorem pending_eq_nil : s.pending = [] ↔ s.held.length ≤ s.head := List.drop_eq_nil_iff

theorem pending_eq_cons {h : Held} (hget : s.held[s.head]? = some h) : s.pending = h :: s.held.drop (s.head + 1) := by
  obtain ⟨hlt, rfl⟩ := List.getElem?_eq_some_iff.mp hget
  exact List.drop_eq_getElem_cons hlt

theorem Inv.publish (h : Inv s) (hfree : s.walkFree = true) {l : Label} (hl : l.Faithful)
    (point : ℕ) : Inv (s.publishLabel l point) := by
  obtain ⟨part, hmem, hstand⟩ := h.standing
  have hcalm := calm_of_free hfree
  have htake : (s.published ++ [l]).take s.landed = s.published.take s.landed :=
    List.take_append_of_le_length h.landed_le
  have hdrop : (s.published ++ [l]).drop s.landed = s.published.drop s.landed ++ [l] :=
    List.drop_append_of_le_length h.landed_le
  have hfaithful : ∀ x ∈ s.published ++ [l], x.Faithful := by
    intro x hx
    rcases List.mem_append.mp hx with hx | hx
    · exact h.faithful x hx
    · rwa [List.mem_singleton.mp hx]
  have hlanded : s.landed ≤ (s.published ++ [l]).length :=
    Nat.le_trans h.landed_le (by simp)
  unfold publishLabel
  split_ifs with hpoint
  · have hpending : (s.held ++ [l.toHeld point]).drop s.head = s.pending ++ [l.toHeld point] :=
      List.drop_append_of_le_length h.head_le
    refine ⟨⟨part, ?_, ?_⟩, Nat.le_trans h.head_le (by simp), hlanded, fun _ => rfl, hfaithful,
      by rintro _ _ ⟨⟩, by rintro _ _ _ ⟨⟩⟩
    · rw [htake]
      exact hmem
    · rw [hdrop]
      show Standing _ _ ((s.held ++ [l.toHeld point]).drop s.head) _ _
      rw [hpending]
      exact (hstand.walk hcalm (by rintro _ ⟨⟩)).push (by rintro _ ⟨⟩) ⟨l.toHeld_is point, rfl⟩
  · -- Nothing is held, so every earlier label has landed.
    have hnil : s.pending = [] := pending_eq_nil.mpr (by omega)
    have hnew : Standing (.writing l.write) s.publisher s.pending
        ((s.published ++ [l]).drop s.landed) part := by
      rw [hdrop]
      rw [hnil] at hstand ⊢
      generalize s.published.drop s.landed = ls at hstand
      generalize s.publisher = p at hstand
      generalize s.walk = w at hstand hcalm
      cases hstand with
      | immediate hwrite => exact absurd rfl (hcalm _)
      | waiting _ hheld =>
        obtain rfl := List.forall₂_nil_left_iff.mp hheld
        exact .immediate (List.nil_append _)
    refine ⟨⟨part, ?_, hnew⟩, h.head_le, hlanded, h.started, hfaithful, by rintro _ _ ⟨⟩,
      by rintro _ _ _ ⟨⟩⟩
    rw [htake]
    exact hmem

theorem landed_succ {l : Label} (hdrop : s.published.drop s.landed = l :: ls) (hpart : part = l.write)
    (hmem : s.memory = runStores ((s.published.take s.landed).flatMap Label.write ++ part) s.initial) :
    s.landed + 1 ≤ s.published.length ∧ s.published.drop (s.landed + 1) = ls ∧ s.memory =
        runStores ((s.published.take (s.landed + 1)).flatMap Label.write ++ []) s.initial := by
  have hlt : s.landed < s.published.length := by
    by_contra hge
    rw [List.drop_eq_nil_of_le (by omega)] at hdrop
    cases hdrop
  rw [List.drop_eq_getElem_cons hlt] at hdrop
  obtain ⟨hhead, htail⟩ := List.cons.inj hdrop
  refine ⟨hlt, htail, ?_⟩
  rw [hmem, List.take_add_one, List.getElem?_eq_getElem hlt, hhead, hpart]
  simp

theorem Inv.writeStep (h : Inv s) (hs : s.writeStep = some s') : Inv s' := by
  obtain ⟨part, hmem, hstand⟩ := h.standing
  rw [LabelState.writeStep] at hs
  split at hs
  case h_1 store rest hw =>
    obtain rfl := Option.some.inj hs
    refine ⟨⟨part ++ [store], ?_, ?_⟩, h.head_le, h.landed_le, h.started, h.faithful,
      by rintro _ _ ⟨⟩, by rintro _ _ _ ⟨⟩⟩
    · rw [← List.append_assoc, runStores_append, ← hmem]
      rfl
    · rw [hw] at hstand
      revert hstand
      generalize hls : s.published.drop s.landed = ls
      show _ → Standing _ s.publisher s.pending _ _
      generalize s.publisher = p
      generalize s.pending = hs
      intro hstand
      cases hstand with
      | immediate hwrite => exact .immediate (by rw [← hwrite, List.append_assoc]; rfl)
      | waiting hw _ => exact absurd rfl (hw _)
      | taken hw _ _ _ => exact absurd rfl (hw _)
      | running hw _ _ _ _ => exact absurd rfl (hw _)
  case h_2 hw =>
    obtain rfl := Option.some.inj hs
    rw [hw] at hstand
    generalize s.publisher = p at hstand
    generalize hpend : s.pending = hs at hstand
    generalize hdrop : s.published.drop s.landed = ls at hstand
    cases hstand with
    | immediate hwrite =>
      rw [List.append_nil] at hwrite
      obtain ⟨hle, hrest, hmem'⟩ := landed_succ hdrop hwrite hmem
      refine ⟨⟨[], hmem', ?_⟩, h.head_le, hle, h.started, h.faithful,
        by rintro _ _ ⟨⟩, by rintro _ _ _ ⟨⟩⟩
      show Standing .idle .wait s.pending (s.published.drop (s.landed + 1)) []
      rw [hpend, hrest]
      exact .waiting (by rintro _ ⟨⟩) .nil
    | waiting hw _ => exact absurd rfl (hw _)
    | taken hw _ _ _ => exact absurd rfl (hw _)
    | running hw _ _ _ _ => exact absurd rfl (hw _)
  case h_3 => cases hs

/-! ## Reads -/

theorem Inv.readLabel (h : Inv s) (hfree : s.walkFree = true) {base bytes : ℕ}
    (hs : s.readLabel base bytes = some s') : Inv s' := by
  obtain ⟨part, hmem, hstand⟩ := h.standing
  rw [LabelState.readLabel, Option.ite_none_right_eq_some] at hs
  obtain ⟨⟨haddr, hbytes⟩, hs⟩ := hs
  obtain rfl := Option.some.inj hs
  refine ⟨⟨part, hmem, hstand.walk (calm_of_free hfree) (by rintro _ ⟨⟩)⟩, h.head_le, h.landed_le,
    h.started, h.faithful, ?_, by rintro _ _ _ ⟨⟩⟩
  intro base' out hw
  cases hw
  refine ⟨?_, fun i b hb => .inl ?_⟩
  · have hlt := haddr.2
    rw [List.length_map, List.length_range]
    simp only [kGuestEnd] at hlt
    omega
  · obtain ⟨-, rfl⟩ : i < bytes ∧ s.memory (base + i) = b := by
      by_cases hi : i < bytes
      · rw [List.getElem?_map, List.getElem?_range hi] at hb
        exact ⟨hi, Option.some.inj hb⟩
      · rw [List.getElem?_eq_none (by rw [List.length_map, List.length_range]; omega)] at hb
        cases hb
    rfl

theorem Standing.is (h : Standing w p hs ls part) : ∀ held ∈ hs, ∃ l, held.Is l := by
  have hwaits : ∀ {hs : List Held} {ls : List Label}, List.Forall₂ Held.Waits hs ls →
      ∀ held ∈ hs, ∃ l, held.Is l := by
    intro hs ls hheld
    induction hheld with
    | nil => simp
    | cons hhead _ ih => exact List.forall_mem_cons.mpr ⟨⟨_, hhead.1⟩, ih⟩
  cases h with
  | immediate hwrite => simp
  | waiting _ hheld => exact hwaits hheld
  | taken _ his _ hheld | running _ his _ _ hheld => exact List.forall_mem_cons.mpr ⟨⟨_, his⟩, hwaits hheld⟩

/-- **A byte once the held writes have run.** -/
theorem Standing.run_eq (h : Standing w p hs ls part) (hw : w.Calm)
    (hl : ∀ l ∈ ls, l.Faithful) (m : GuestMemory) {a : ℕ} (htells : ∀ held ∈ hs, held.Tells a)
    {b : UInt8} (hb : b = runStores part m a ∨
      ∃ rest, p = .writing rest ∧ ∃ held ∈ hs.head?, held.lo ≤ a ∧ a < held.hi) :
    runStores (p.rest ++ hs.flatMap fun h => h.write.getD []) (runStores part m) a =
      hs.foldl (fun b h => h.byteAt a b) b := by
  rw [runStores_append]
  cases h with
  | immediate hwrite => exact absurd rfl (hw _)
  | waiting _ hheld =>
    obtain rfl : b = m a := hb.resolve_right (by rintro ⟨_, h, _⟩; cases h)
    exact run_pending hheld hl htells _
  | taken _ his hnone hheld =>
    obtain rfl : b = m a := hb.resolve_right (by rintro ⟨_, h, _⟩; cases h)
    rw [List.forall_mem_cons] at hl htells
    rw [List.flatMap_cons, hnone, List.foldl_cons, ← hl.1.run_eq his htells.1]
    exact run_pending hheld hl.2 htells.2 _
  | @running w held hs l ls rest part _ his hnone hwrite hheld =>
    rw [List.forall_mem_cons] at hl htells
    have hb' : b = runStores part m a ∨ held.lo ≤ a ∧ a < held.hi := by
      refine hb.imp_right ?_
      rintro ⟨_, -, h, hh, hin⟩
      cases hh
      exact hin
    rw [List.flatMap_cons, hnone, List.foldl_cons, ← hl.1.rest_eq his hwrite m htells.1 hb']
    exact run_pending hheld hl.2 htells.2 _

theorem Inv.overlayStep (h : Inv s) (hs : s.overlayStep = some s') : Inv s' := by
  obtain ⟨part, hmem, hstand⟩ := h.standing
  rw [LabelState.overlayStep] at hs
  split at hs
  case h_1 base out hw =>
    obtain rfl := Option.some.inj hs
    have hcalm : s.walk.Calm := by
      rw [hw]
      rintro _ ⟨⟩
    refine ⟨⟨part, hmem, hstand.walk hcalm (by rintro _ ⟨⟩)⟩, h.head_le, h.landed_le, h.started,
      h.faithful, by rintro _ _ ⟨⟩, ?_⟩
    intro base' bytes out' hanswer
    obtain ⟨rfl, rfl, hover⟩ := LabelWalk.answered.inj hanswer
    obtain ⟨hend, hread⟩ := h.read base out hw
    have hfit : ∀ held ∈ s.pending, held.data ≠ [] → held.hi ≤ held.lo + held.data.length := by
      intro held hheld
      obtain ⟨l, his⟩ := hstand.is held hheld
      exact his.fit
    obtain ⟨hlen, htells, hbytes⟩ := overlayHeld_spec hend hfit rfl hover
    apply List.ext_getElem?
    intro i
    rw [hbytes i, List.getElem?_map]
    by_cases hi : i < out.length
    · rw [List.getElem?_eq_getElem hi, List.getElem?_range hi]
      have hbyte := hread i out[i] (List.getElem?_eq_getElem hi)
      refine congrArg some (Eq.symm ?_)
      show runStores s.heldStores s.memory (base + i) = _
      rw [hmem, runStores_append] at hbyte ⊢
      refine hstand.run_eq hcalm (fun l hl => h.faithful l (List.mem_of_mem_drop hl)) _
        (fun held hheld => htells held hheld i hi) (hbyte.imp_right ?_)
      rintro ⟨held, hcur, hin⟩
      rw [current] at hcur
      split at hcur
      case h_1 rest hp => exact ⟨rest, hp, held, hcur, hin⟩
      case h_2 => cases hcur
    · rw [List.getElem?_eq_none (by omega : out.length ≤ i), List.getElem?_eq_none]
      · rfl
      · rw [List.length_range]
        omega
  case h_2 => cases hs

/-! ## The publishing thread -/

theorem Inv.answer (h : Inv s) (hwalk : s'.walk = s.walk) (hafter : s'.afterHeld = s.afterHeld) :
    ∀ base bytes out, s'.walk = .answered base bytes (some out) →
      out = (List.range bytes).map fun i => s'.afterHeld (base + i) := by
  intro base bytes out hw
  rw [hafter]
  exact h.overlay base bytes out (hwalk ▸ hw)

theorem Standing.of_wait (h : Standing w .wait (held :: hs) ls part) :
    w.Calm ∧ part = [] ∧ ∃ l ls', ls = l :: ls' ∧ held.Waits l ∧ List.Forall₂ Held.Waits hs ls' := by
  cases h with
  | waiting hw hheld =>
    cases hheld with
    | cons hhead htail => exact ⟨hw, rfl, _, _, rfl, hhead, htail⟩

theorem Standing.of_writing {rest : List GuestStore} (h : Standing w (.writing rest) hs ls part) :
    w.Calm ∧ ∃ held hs' l ls', hs = held :: hs' ∧ ls = l :: ls' ∧ held.Is l ∧ held.write = none ∧
      part ++ rest = l.write ∧ List.Forall₂ Held.Waits hs' ls' := by
  cases h with
  | running hw his hnone hwrite hheld =>
    exact ⟨hw, _, _, _, _, rfl, rfl, his, hnone, hwrite, hheld⟩

theorem Inv.take (h : Inv s) (hp : s.publisher = .wait) (hget : s.held[s.head]? = some held) :
    Inv { s with
      held := s.held.set s.head { held with write := none }
      publisher := .batch held.write } := by
  obtain ⟨part, hmem, hstand⟩ := h.standing
  have hlt : s.head < s.held.length := (List.getElem?_eq_some_iff.mp hget).1
  have hpend := pending_eq_cons hget
  have hpend' : (s.held.set s.head { held with write := none }).drop s.head =
      { held with write := none } :: s.held.drop (s.head + 1) := by
    rw [List.drop_eq_getElem_cons (by rwa [List.length_set]), List.getElem_set_self,
      List.drop_set_of_lt (Nat.lt_succ_self s.head)]
  have hne : s.pending ≠ [] := by
    rw [hpend]
    exact List.cons_ne_nil _ _
  refine ⟨⟨part, hmem, ?_⟩, by rw [List.length_set]; exact h.head_le, h.landed_le,
    fun _ => h.started hne, h.faithful, fun base out hw => ?_, h.answer rfl ?_⟩
  · rw [hpend, hp] at hstand
    show Standing _ _ ((s.held.set s.head { held with write := none }).drop s.head) _ _
    rw [hpend']
    obtain ⟨hw, rfl, l, ls, hls, hhead, htail⟩ := hstand.of_wait
    rw [hls, hhead.2]
    exact .taken hw hhead.1 rfl htail
  · obtain ⟨hend, hread⟩ := h.read base out hw
    refine ⟨hend, fun i b hb => .inl ((hread i b hb).resolve_right ?_)⟩
    rw [current, hp]
    rintro ⟨_, hcur, -⟩
    cases hcur
  · unfold afterHeld heldStores
    rw [hp, hpend]
    show runStores (held.write.getD [] ++ ((s.held.set s.head _).drop s.head).flatMap _) _ = _
    rw [hpend']
    rfl

theorem Inv.call (h : Inv s) {write : List GuestStore} (hp : s.publisher = .batch (some write)) :
    Inv { s with publisher := .writing write } := by
  obtain ⟨part, hmem, hstand⟩ := h.standing
  rw [hp] at hstand
  refine ⟨⟨part, hmem, ?_⟩, h.head_le, h.landed_le, h.started, h.faithful, fun base out hw => ?_,
    h.answer rfl ?_⟩
  · show Standing s.walk (.writing write) s.pending _ _
    generalize s.published.drop s.landed = ls at hstand ⊢
    generalize s.pending = hs at hstand ⊢
    generalize s.walk = w at hstand ⊢
    cases hstand with
    | taken hw his hnone hheld => exact .running hw his hnone (List.nil_append _) hheld
  · obtain ⟨hend, hread⟩ := h.read base out hw
    refine ⟨hend, fun i b hb => .inl ((hread i b hb).resolve_right ?_)⟩
    rw [current, hp]
    rintro ⟨_, hcur, -⟩
    cases hcur
  · unfold afterHeld heldStores
    rw [hp]
    rfl

theorem Inv.store (h : Inv s) {store : GuestStore} {rest : List GuestStore}
    (hp : s.publisher = .writing (store :: rest)) :
    Inv { s with memory := store s.memory, publisher := .writing rest } := by
  obtain ⟨part, hmem, hstand⟩ := h.standing
  rw [hp] at hstand
  have hafter : afterHeld { s with memory := store s.memory, publisher := .writing rest } =
      s.afterHeld := by
    unfold afterHeld heldStores
    rw [hp]
    rfl
  obtain ⟨hw, held, hs, l, ls, hpend, hls, his, hnone, hwrite, hheld⟩ := hstand.of_writing
  have hl : l.Faithful := by
    apply h.faithful l (List.mem_of_mem_drop (i := s.landed) _)
    rw [hls]
    exact List.mem_cons_self
  refine ⟨⟨part ++ [store], ?_, ?_⟩, h.head_le, h.landed_le, h.started, h.faithful,
    fun base out hread => ?_, h.answer rfl hafter⟩
  · rw [← List.append_assoc, runStores_append, ← hmem]
    rfl
  · show Standing s.walk (.writing rest) s.pending (s.published.drop s.landed) _
    rw [hpend, hls]
    exact .running hw his hnone (by rw [← hwrite, List.append_assoc]; rfl) hheld
  · -- The store stays in the range of the held write that the publishing thread is at.
    obtain ⟨hend, hbytes⟩ := h.read base out hread
    refine ⟨hend, fun i b hb => ?_⟩
    have hcur : current { s with memory := store s.memory, publisher := .writing rest } =
        some held := congrArg List.head? hpend
    have hcur' : s.current = some held := by
      rw [current, hp]
      exact congrArg List.head? hpend
    rw [hcur]
    rw [hcur'] at hbytes
    by_cases hin : held.lo ≤ base + i ∧ base + i < held.hi
    · exact .inr ⟨held, rfl, hin⟩
    · have hold : b = s.memory (base + i) := by
        refine (hbytes i b hb).resolve_right ?_
        rintro ⟨_, hh, hin'⟩
        cases hh
        exact hin hin'
      obtain ⟨hlo, hhi, -⟩ := his
      refine .inl ?_
      rw [hold]
      refine (hl.frame store ?_ s.memory (base + i) (by omega)).symm
      rw [← hwrite]
      exact List.mem_append_right _ List.mem_cons_self

theorem pending_finish (hpend : s.pending = held :: hs) : s.head + 1 ≤ s.held.length ∧ s.held.drop (s.head + 1) = hs ∧
      (s.head + 1 = s.held.length → hs = []) := by
  have hlt : s.head < s.held.length := by
    by_contra hge
    rw [pending_eq_nil.mpr (by omega)] at hpend
    cases hpend
  rw [pending, List.drop_eq_getElem_cons hlt] at hpend
  obtain ⟨-, htail⟩ := List.cons.inj hpend
  exact ⟨hlt, htail, fun hlast => by rw [← htail, hlast, List.drop_length]⟩

theorem Inv.finish (h : Inv s) (hok : s.Careful .publisher) (hp : s.publisher = .writing [])
    {q : List Held} {head : ℕ} (hq : head ≤ q.length) (hpend : s.pending = held :: hs) (hrest : q.drop head = hs) :
    Inv { s with held := q, head := head, publisher := .wait, landed := s.landed + 1 } := by
  obtain ⟨part, hmem, hstand⟩ := h.standing
  rw [hp] at hstand
  obtain ⟨hw, held', hs', l, ls, hpend', hls, his, hnone, hwrite, hheld⟩ := hstand.of_writing
  obtain ⟨rfl, rfl⟩ := List.cons.inj (hpend.symm.trans hpend')
  rw [List.append_nil] at hwrite
  obtain ⟨hle, hdrop, hmem'⟩ := landed_succ hls hwrite hmem
  refine ⟨⟨[], hmem', ?_⟩, hq, hle, fun _ => h.started (by rw [hpend]; exact List.cons_ne_nil _ _),
    h.faithful, fun base out hread => ?_, h.answer rfl ?_⟩
  · show Standing s.walk .wait (q.drop head) (s.published.drop (s.landed + 1)) []
    rw [hrest, hdrop]
    exact .waiting hw hheld
  · obtain ⟨hend, hbytes⟩ := h.read base out hread
    have hlands : s.lands = some held := by
      rw [lands, hp]
      exact congrArg List.head? hpend
    have hapart := hok base out held hread hlands
    refine ⟨hend, fun i b hb => .inl ((hbytes i b hb).resolve_right ?_)⟩
    have hi : i < out.length := (List.getElem?_eq_some_iff.mp hb).1
    rw [current, hp]
    rintro ⟨_, hcur, hin⟩
    obtain rfl := Option.some.inj ((congrArg List.head? hpend).symm.trans hcur)
    omega
  · unfold afterHeld heldStores
    rw [hp, hpend, List.flatMap_cons, hnone]
    show runStores ([] ++ (q.drop head).flatMap _) _ = _
    rw [hrest]
    rfl

theorem Inv.publisherStep (h : Inv s) (hok : s.Careful .publisher) (hs : s.publisherStep = some s') : Inv s' := by
  rw [LabelState.publisherStep] at hs
  cases hp : s.publisher with
  | wait =>
    rw [hp] at hs
    cases hget : s.held[s.head]? with
    | none =>
      rw [hget] at hs
      cases hs
    | some held =>
      rw [hget] at hs
      simp only [Option.ite_none_right_eq_some, Option.some.injEq] at hs
      obtain ⟨-, rfl⟩ := hs
      exact h.take hp hget
  | batch write =>
    rw [hp] at hs
    cases write with
    | none => cases hs
    | some write =>
      obtain rfl := Option.some.inj hs
      exact h.call hp
  | writing rest =>
    rw [hp] at hs
    cases rest with
    | cons store rest =>
      obtain rfl := Option.some.inj hs
      exact h.store hp
    | nil =>
      obtain ⟨part, -, hstand⟩ := h.standing
      rw [hp] at hstand
      obtain ⟨-, held, hs', -, -, hpend, -⟩ := hstand.of_writing
      obtain ⟨hle, hrest, hlast⟩ := pending_finish hpend
      dsimp only at hs
      split_ifs at hs with hend
      · obtain rfl := Option.some.inj hs
        exact h.finish hok hp (Nat.zero_le _) hpend (hlast hend).symm
      · obtain rfl := Option.some.inj hs
        exact h.finish hok hp hle hpend hrest

/-- **What every careful step keeps.** -/
theorem Inv.step (h : Inv s) {e : LabelEvent} (hok : s.Careful e) (hs : s.step e = some s') : Inv s' := by
  cases e with
  | publish l point =>
    simp only [LabelState.step, Option.ite_none_right_eq_some, Option.some.injEq] at hs
    obtain ⟨hfree, rfl⟩ := hs
    exact h.publish hfree hok point
  | write => exact h.writeStep hs
  | read base bytes =>
    simp only [LabelState.step, Option.ite_none_right_eq_some] at hs
    exact h.readLabel hs.1 hs.2
  | overlay => exact h.overlayStep hs
  | publisher => exact h.publisherStep hok hs

/-! ## Soundness -/

theorem Standing.stores (h : Standing w p hs ls part) :
    part ++ w.rest ++ (p.rest ++ hs.flatMap fun h => h.write.getD []) = ls.flatMap Label.write := by
  have hcalm : ∀ {w : LabelWalk}, w.Calm → w.rest = [] := by
    intro w hw
    cases w with
    | writing rest => exact absurd rfl (hw rest)
    | idle | read _ _ | answered _ _ _ => rfl
  have hwaits : ∀ {hs : List Held} {ls : List Label}, List.Forall₂ Held.Waits hs ls →
      (hs.flatMap fun h => h.write.getD []) = ls.flatMap Label.write := by
    intro hs ls hheld
    induction hheld with
    | nil => rfl
    | cons hhead _ ih => rw [List.flatMap_cons, List.flatMap_cons, ih, hhead.2, Option.getD_some]
  cases h with
  | immediate hwrite => simpa [LabelWalk.rest, PublisherAt.rest] using hwrite
  | waiting hw hheld => simp [hcalm hw, PublisherAt.rest, hwaits hheld]
  | taken hw _ hnone hheld => simp [hcalm hw, PublisherAt.rest, hnone, hwaits hheld]
  | running hw _ hnone hwrite hheld =>
    simp [hcalm hw, PublisherAt.rest, hnone, hwaits hheld, ← hwrite]

theorem Inv.sound (h : Inv s) : Sound s := by
  obtain ⟨part, hmem, hstand⟩ := h.standing
  refine ⟨⟨_, hmem, List.prefix_append _ _, ?_⟩, fun rest hw => ?_, fun hne => ?_, h.overlay⟩
  · rw [List.append_assoc, List.append_assoc, heldStores, ← List.append_assoc part, hstand.stores,
      ← List.flatMap_append, List.take_append_drop]
  · rw [hw] at hstand
    generalize s.pending = hs at hstand ⊢
    generalize s.publisher = p at hstand
    generalize s.published.drop s.landed = ls at hstand
    cases hstand with
    | immediate _ => rfl
    | waiting hw _ | taken hw _ _ _ | running hw _ _ _ _ => exact absurd rfl (hw rest)
  · have hstarted := h.started hne
    rw [LabelState.publisherStep]
    cases hp : s.publisher with
    | wait =>
      have hlt : s.head < s.held.length := by
        by_contra hge
        exact hne (pending_eq_nil.mpr (by omega))
      simp [List.getElem?_eq_getElem hlt, hstarted]
    | batch write =>
      rw [hp] at hstand
      generalize s.pending = hs at hstand
      generalize s.published.drop s.landed = ls at hstand
      generalize s.walk = w at hstand
      cases hstand with
      | taken _ _ _ _ => rfl
    | writing rest =>
      cases rest with
      | cons store rest => rfl
      | nil =>
        dsimp only
        split_ifs <;> rfl

/-- **Careful labels are sound.** In every interleaving whose steps are careful, labels land in the
order of their calls, each once, an immediate write finds nothing held, and `OverlayHeld` answers
with what memory holds once the held writes have run. -/
theorem labels_sound_of_careful (m : GuestMemory) (ls : List LabelEvent)
    (hok : system.Meets Careful (init m) ls) : system.Always Sound (init m) ls :=
  system.always_of_invariant (fun _ _ _ h hok hs => Inv.step h hok hs) (fun _ h => h.sound)
    (Inv.init m) hok

/-! ## Runs -/

def overlappingRun : List LabelEvent :=
  [.publish (copyLabel 0x10000 [1, 2, 3, 4] (by decide)) 7,
    .publish (fillLabel 0x10002 4 0x09080706 (by decide) (by decide)) 0, .publisher, .publisher,
    .publisher, .read 0x10000 8, .overlay, .publisher]

theorem sound_overlappingRun : system.Always Sound (init fun _ => 0) overlappingRun := by
  refine labels_sound_of_careful (fun _ => 0) overlappingRun ?_
  refine ⟨copyLabel_faithful _ (by decide), fun s hs => ?_⟩
  obtain rfl := Option.some.inj hs
  refine ⟨fillLabel_faithful _ _ (by decide) (by decide), fun s hs => ?_⟩
  obtain rfl := Option.some.inj hs
  refine ⟨by rintro _ _ _ ⟨⟩, fun s hs => ?_⟩
  obtain rfl := Option.some.inj hs
  refine ⟨by rintro _ _ _ ⟨⟩, fun s hs => ?_⟩
  obtain rfl := Option.some.inj hs
  refine ⟨by rintro _ _ _ ⟨⟩, fun s hs => ?_⟩
  obtain rfl := Option.some.inj hs
  refine ⟨trivial, fun s hs => ?_⟩
  obtain rfl := Option.some.inj hs
  refine ⟨trivial, fun s hs => ?_⟩
  obtain rfl := Option.some.inj hs
  refine ⟨by rintro _ _ _ ⟨⟩, fun s hs => ?_⟩
  exact trivial

/-- A label of one byte is held. The walk reads the byte, the label lands, and only then does
`OverlayHeld` look at what is held. -/
def lateRead : List LabelEvent :=
  [.publish (copyLabel 0x10000 [1] (by decide)) 7, .read 0x10000 1, .publisher, .publisher,
    .publisher, .publisher, .overlay]

def raggedFill : List LabelEvent :=
  [.publish (fillLabel 0x10000 6 0x01010101 (by decide) (by decide)) 7, .read 0x10004 4, .overlay]

/-- `OverlayHeld` has answered, and with something else than memory once the held writes run. -/
def mistaken (s : LabelState) : Bool :=
  match s.walk with
  | .answered base bytes (some out) =>
    out ≠ (List.range bytes).map fun i => s.afterHeld (base + i)
  | _ => false

theorem not_sound_of_mistaken (h : s.mistaken = true) : ¬Sound s := by
  intro hsound
  rw [mistaken] at h
  split at h
  case h_1 base bytes out hw => exact of_decide_eq_true h (hsound.overlay base bytes out hw)
  case h_2 => cases h

/-- **A late read and a ragged fill.** A label that lands between the read of memory and
`OverlayHeld` is lost on the waiter; and the two bytes behind the last dword of a fill are laid over
memory though they are never stored. -/
theorem labels_unsound : ¬system.Always Sound (init fun _ => 0) lateRead ∧
      ¬system.Always Sound (init fun _ => 0) raggedFill :=
  ⟨system.not_always_of_exec (p := mistaken) (by decide +kernel) fun _ => not_sound_of_mistaken,
    system.not_always_of_exec (p := mistaken) (by decide +kernel) fun _ => not_sound_of_mistaken⟩

end LabelState

end Prosperity.Gpu
