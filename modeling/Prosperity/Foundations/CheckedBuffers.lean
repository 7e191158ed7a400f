import Prosperity.Foundations.ByteCopies
import Prosperity.Foundations.LittleEndian

/-!
# Buffers whose accesses are checked

A program reads a buffer and writes another one at offsets of 64 bits, which wrap. An access that is not
inside the buffer is a fault, at which the run ends.
-/

namespace Prosperity

/-- Where a run ends. -/
inductive Fault where
  | read
  | write
  | divide
  deriving DecidableEq

section Runs

variable {ε α β σ : Type}

theorem bind_eq_ok {x : Except ε α} {f : α → Except ε β} {b : β} :
    (x >>= f) = .ok b ↔ ∃ a, x = .ok a ∧ f a = .ok b := by
  cases x with
  | error e => exact ⟨fun h => (by cases h), fun ⟨_, h, _⟩ => (by cases h)⟩
  | ok a => exact ⟨fun h => ⟨a, rfl, h⟩, fun ⟨_, h, hf⟩ => by cases h; exact hf⟩

theorem ok_bind {a : α} {f : α → Except ε β} : (Except.ok a >>= f) = f a := rfl

theorem pure_eq_ok {a b : α} : (pure a : Except ε α) = .ok b ↔ a = b := ⟨Except.ok.inj, congrArg _⟩

theorem foldlM_eq_ok_iff {f : σ → α → Except ε σ} {g : σ → α → σ} {P : α → Prop} {I : σ → Prop} {l : List α}
    (hf : ∀ a ∈ l, ∀ s r, I s → (f s a = .ok r ↔ P a ∧ g s a = r)) (hI : ∀ a ∈ l, ∀ s, I s → P a → I (g s a))
    {s r : σ} (hs : I s) : l.foldlM f s = .ok r ↔ (∀ a ∈ l, P a) ∧ l.foldl g s = r := by
  induction l generalizing s with
  | nil => rw [List.foldlM_nil, pure_eq_ok]; simp
  | cons a l ih =>
    have ih' : ∀ {s}, I s → (l.foldlM f s = .ok r ↔ (∀ a ∈ l, P a) ∧ l.foldl g s = r) :=
      ih (fun b hb => hf b (List.mem_cons_of_mem _ hb)) fun b hb => hI b (List.mem_cons_of_mem _ hb)
    rw [List.foldlM_cons, bind_eq_ok, List.forall_mem_cons, List.foldl_cons]
    constructor
    · rintro ⟨t, ht, hrest⟩
      obtain ⟨hP, rfl⟩ := (hf a List.mem_cons_self s t hs).mp ht
      obtain ⟨hall, hr⟩ := (ih' (hI a List.mem_cons_self s hs hP)).mp hrest
      exact ⟨⟨hP, hall⟩, hr⟩
    · rintro ⟨⟨hP, hall⟩, hr⟩
      exact ⟨g s a, (hf a List.mem_cons_self s _ hs).mpr ⟨hP, rfl⟩,
        (ih' (hI a List.mem_cons_self s hs hP)).mpr ⟨hall, hr⟩⟩

end Runs

/-! ## Reading -/

/-- The bytes of an object. Their number is a `size_t`. -/
structure Buffer where
  bytes : List UInt8
  fits : bytes.length < 2 ^ 64

namespace Buffer

variable {b : Buffer}

def size (b : Buffer) : UInt64 := .ofNat b.bytes.length

def byte (b : Buffer) (i : ℕ) : UInt8 := b.bytes.getD i 0

def slice (b : Buffer) (pos len : ℕ) : List UInt8 := (b.bytes.drop pos).take len

/-- The `len` bytes at an offset. -/
def read (b : Buffer) (pos : UInt64) (len : ℕ) : Except Fault (List UInt8) :=
  if pos.toNat + len ≤ b.bytes.length then .ok (b.slice pos.toNat len) else .error .read

/-- The number that the `n` bytes at a position are. -/
def nat (b : Buffer) (n pos : ℕ) : ℕ := leNat (b.slice pos n)

def readU16 (b : Buffer) (pos : UInt64) : Except Fault UInt16 := do return .ofNat (leNat (← b.read pos 2))

def readU32 (b : Buffer) (pos : UInt64) : Except Fault UInt32 := do return .ofNat (leNat (← b.read pos 4))

def readU64 (b : Buffer) (pos : UInt64) : Except Fault UInt64 := do return .ofNat (leNat (← b.read pos 8))

@[simp] theorem toNat_size : b.size.toNat = b.bytes.length := by
  rw [size, UInt64.toNat_ofNat', Nat.mod_eq_of_lt b.fits]

theorem length_slice {pos len : ℕ} (h : pos + len ≤ b.bytes.length) : (b.slice pos len).length = len := by
  rw [slice, List.length_take, List.length_drop]
  omega

theorem getD_slice {pos len k : ℕ} (hk : k < len) : (b.slice pos len).getD k 0 = b.byte (pos + k) := by
  rw [slice, byte, List.getD_eq_getElem?_getD, List.getD_eq_getElem?_getD, List.getElem?_take_of_lt hk,
    List.getElem?_drop]

theorem read_eq_ok_iff {pos : UInt64} {len : ℕ} {bs : List UInt8} :
    b.read pos len = .ok bs ↔ pos.toNat + len ≤ b.bytes.length ∧ b.slice pos.toNat len = bs := by
  rw [read]
  split_ifs with h
  · rw [and_iff_right h, Except.ok.injEq]
  · exact ⟨fun h' => (by cases h'), fun h' => absurd h'.1 h⟩

theorem readU16_eq_ok_iff {pos : UInt64} {v : UInt16} :
    b.readU16 pos = .ok v ↔ pos.toNat + 2 ≤ b.bytes.length ∧ .ofNat (b.nat 2 pos.toNat) = v := by
  simp only [readU16, bind_eq_ok, pure_eq_ok, read_eq_ok_iff, nat]
  exact ⟨fun ⟨_, ⟨h, hs⟩, hv⟩ => ⟨h, hs ▸ hv⟩, fun ⟨h, hv⟩ => ⟨_, ⟨h, rfl⟩, hv⟩⟩

theorem readU32_eq_ok_iff {pos : UInt64} {v : UInt32} :
    b.readU32 pos = .ok v ↔ pos.toNat + 4 ≤ b.bytes.length ∧ .ofNat (b.nat 4 pos.toNat) = v := by
  simp only [readU32, bind_eq_ok, pure_eq_ok, read_eq_ok_iff, nat]
  exact ⟨fun ⟨_, ⟨h, hs⟩, hv⟩ => ⟨h, hs ▸ hv⟩, fun ⟨h, hv⟩ => ⟨_, ⟨h, rfl⟩, hv⟩⟩

theorem readU64_eq_ok_iff {pos v : UInt64} :
    b.readU64 pos = .ok v ↔ pos.toNat + 8 ≤ b.bytes.length ∧ .ofNat (b.nat 8 pos.toNat) = v := by
  simp only [readU64, bind_eq_ok, pure_eq_ok, read_eq_ok_iff, nat]
  exact ⟨fun ⟨_, ⟨h, hs⟩, hv⟩ => ⟨h, hs ▸ hv⟩, fun ⟨h, hv⟩ => ⟨_, ⟨h, rfl⟩, hv⟩⟩

end Buffer

/-! ## Writing -/

/-- The bytes with some of them replaced. -/
def splice (out : List UInt8) (pos : ℕ) (bs : List UInt8) : List UInt8 :=
  out.take pos ++ bs ++ out.drop (pos + bs.length)

/-- A `memcpy` to an offset. -/
def store (out : List UInt8) (pos : UInt64) (bs : List UInt8) : Except Fault (List UInt8) :=
  if pos.toNat + bs.length ≤ out.length then .ok (splice out pos.toNat bs) else .error .write

section Writes

variable {out bs r : List UInt8} {pos : ℕ}

theorem store_eq_ok_iff {pos : UInt64} :
    store out pos bs = .ok r ↔ pos.toNat + bs.length ≤ out.length ∧ splice out pos.toNat bs = r := by
  rw [store]
  split_ifs with h
  · rw [and_iff_right h, Except.ok.injEq]
  · exact ⟨fun h' => (by cases h'), fun h' => absurd h'.1 h⟩

theorem length_splice (h : pos + bs.length ≤ out.length) : (splice out pos bs).length = out.length := by
  simp only [splice, List.length_append, List.length_take, List.length_drop]
  omega

theorem getD_splice (h : pos + bs.length ≤ out.length) (i : ℕ) :
    (splice out pos bs).getD i 0 = if pos ≤ i ∧ i < pos + bs.length then bs.getD (i - pos) 0 else out.getD i 0 := by
  have htake : (out.take pos).length = pos := List.length_take_of_le (by omega)
  simp only [splice, List.getD_eq_getElem?_getD]
  rcases Nat.lt_or_ge i pos with hi | hi
  · rw [if_neg (by omega), List.append_assoc, List.getElem?_append_left (by omega), List.getElem?_take_of_lt hi]
  · rcases Nat.lt_or_ge i (pos + bs.length) with hi' | hi'
    · rw [if_pos ⟨hi, hi'⟩, List.append_assoc, List.getElem?_append_right (by omega), htake,
        List.getElem?_append_left (by omega)]
    · rw [if_neg (by omega), List.getElem?_append_right (by rw [List.length_append, htake]; omega),
        List.length_append, htake, List.getElem?_drop, Nat.add_sub_cancel' hi']

theorem getD_splice_slice {b : Buffer} {src len : ℕ} (hsrc : src + len ≤ b.bytes.length)
    (hdst : pos + len ≤ out.length) (i : ℕ) :
    (splice out pos (b.slice src len)).getD i 0 = (ByteCopy.mk pos src len).run b.byte (out.getD · 0) i := by
  have hlen := Buffer.length_slice hsrc
  rw [getD_splice (by rw [hlen]; exact hdst), hlen, ByteCopy.run]
  refine if_ctx_congr Iff.rfl (fun h => ?_) fun _ => rfl
  exact Buffer.getD_slice (Nat.sub_lt_left_of_lt_add h.1 h.2)

end Writes

end Prosperity
