import Prosperity.Gcn.Decode

/-!
# Decoded shaders tile their code

The length of an instruction is that of its encoding: the dwords of its family, and one more for a literal or
an extension. An instruction that the end of the code cuts off is an unknown one. The decoder reads nothing
past the end it is given, but for a footer that the first instruction points to.
-/

namespace Prosperity.Gcn

variable {code code' : Code} {mode : IsaMode} {readable : ℕ → Bool} {maxDwords bound i : ℕ} {inst : Inst}

/-! ## One instruction -/

def takesDword (code : Code) (mode : IsaMode) (i : ℕ) : Bool :=
  let enc := (classify (code i) mode).1
  let vop := enc = .kVop1 ∨ enc = .kVop2 ∨ enc = .kVopc
  let extension := vopExtension (code i) mode
  decide (vop ∧ (extension = .kSdwa ∨ extension = .kDpp)) || hasTrailingLiteral
      ⟨mode, enc, (classify (code i) mode).2, code i, code (i + 1), baseSize enc, i, false, 0, .kNone⟩ (code i)

/-- The dwords of the instruction that begins at a dword. -/
def encodedSize (code : Code) (mode : IsaMode) (i : ℕ) : ℕ :=
  baseSize (classify (code i) mode).1 + if takesDword code mode i then 1 else 0

theorem hasTrailingLiteral_congr {a b : Inst} {w : ℕ} (henc : a.enc = b.enc) (hisa : a.isa = b.isa)
    (hopcode : a.enc ≠ .kMtbuf → a.opcode = b.opcode) (hraw : baseSize a.enc = 2 → a.raw1 = b.raw1) :
    hasTrailingLiteral a w = hasTrailingLiteral b w := by
  unfold hasTrailingLiteral
  rw [← henc, ← hisa]
  cases h : a.enc with
  | kSopk | kVop2 => rw [hopcode (by rw [h]; decide)]
  | kVop3 => rw [hraw (by rw [h]; rfl)]
  | kVop3p => rw [hraw (by rw [h]; rfl)]
  | _ => rfl

theorem decodeBase_cut (h : baseSize (classify (code i) mode).1 = 2) (hend : bound ≤ i + 1) :
    (decodeBase code bound mode i).enc = .kUnknown ∧ (decodeBase code bound mode i).opcode = 0 ∧
      (decodeBase code bound mode i).size = 1 := by
  simp [decodeBase, h, hend]

theorem decodeBase_whole (h : i + baseSize (classify (code i) mode).1 ≤ bound) :
    (decodeBase code bound mode i).enc = (classify (code i) mode).1 ∧ (decodeBase code bound mode i).isa = mode ∧
      ((classify (code i) mode).1 ≠ .kMtbuf → (decodeBase code bound mode i).opcode = (classify (code i) mode).2) ∧
      (baseSize (classify (code i) mode).1 = 2 → (decodeBase code bound mode i).raw1 = code (i + 1)) ∧
      (decodeBase code bound mode i).size = baseSize (classify (code i) mode).1 := by
  have hend : baseSize (classify (code i) mode).1 = 2 → ¬i + 1 ≥ bound := by omega
  unfold decodeBase
  generalize classify (code i) mode = family at h hend ⊢
  obtain ⟨enc, opcode⟩ := family
  dsimp only at h hend ⊢
  by_cases htwo : baseSize enc = 2
  · simp only [if_pos htwo, if_neg (hend htwo)]
    split
    · rename_i hmtbuf
      exact ⟨rfl, rfl, fun hne => absurd hmtbuf.2 hne, fun _ => rfl, rfl⟩
    · exact ⟨rfl, rfl, fun _ => rfl, fun _ => rfl, rfl⟩
  · simp only [if_neg htwo]
    split
    · rename_i hmtbuf
      exact absurd (by rw [hmtbuf.2]; rfl) htwo
    · exact ⟨rfl, rfl, fun _ => rfl, fun h => absurd h htwo, rfl⟩

theorem complete_spec (inst : Inst) (w tail : ℕ) (mode : IsaMode) (cut : Bool) (hpos : 0 < inst.size) :
    let takes := decide ((inst.enc = .kVop1 ∨ inst.enc = .kVop2 ∨ inst.enc = .kVopc) ∧
      (vopExtension w mode = .kSdwa ∨ vopExtension w mode = .kDpp)) || hasTrailingLiteral inst w
    (takes = false → complete inst w tail mode cut = inst) ∧
      (takes = true → cut = false → (complete inst w tail mode cut).size = inst.size + 1 ∧
        (complete inst w tail mode cut).enc = inst.enc) ∧
      (takes = true → cut = true → (complete inst w tail mode cut).enc = .kUnknown ∧
        (complete inst w tail mode cut).opcode = 0) := by
  have hne : inst.size ≠ 0 := Nat.ne_of_gt hpos
  unfold complete
  by_cases hvop : inst.enc = .kVop1 ∨ inst.enc = .kVop2 ∨ inst.enc = .kVopc
  · by_cases hext : vopExtension w mode = .kSdwa ∨ vopExtension w mode = .kDpp
    · cases cut <;> simp [hvop, hext, hne]
    · cases cut <;> cases hlit : hasTrailingLiteral inst w <;> simp [hvop, hext, hne]
  · cases cut <;> cases hlit : hasTrailingLiteral inst w <;> simp [hvop, hne]

/-- **An instruction has the size of its encoding**, and where the end cuts it off it is an unknown one. -/
theorem decodeInst_spec (hi : i < bound) : (i + encodedSize code mode i ≤ bound →
      (decodeInst code bound mode i).size = encodedSize code mode i ∧
        (decodeInst code bound mode i).enc = (classify (code i) mode).1) ∧ (bound < i + encodedSize code mode i →
        (decodeInst code bound mode i).enc = .kUnknown ∧ (decodeInst code bound mode i).opcode = 0) := by
  by_cases hcut : baseSize (classify (code i) mode).1 = 2 ∧ bound ≤ i + 1
  · -- an unknown instruction takes no dword
    obtain ⟨henc, hopcode, hsize⟩ := decodeBase_cut hcut.1 hcut.2
    have hlong : bound < i + encodedSize code mode i := by
      unfold encodedSize
      omega
    have hspec := (complete_spec (decodeBase code bound mode i) (code i)
      (code (i + (decodeBase code bound mode i).size)) mode (i + (decodeBase code bound mode i).size ≥ bound)
      (by omega)).1 (by simp [henc, hasTrailingLiteral])
    rw [decodeInst_eq, hspec]
    exact ⟨fun h => absurd h (Nat.not_le.mpr hlong), fun _ => ⟨henc, hopcode⟩⟩
  · have hfits : i + baseSize (classify (code i) mode).1 ≤ bound := by
      rcases baseSize_cases (classify (code i) mode).1 with h | h <;> omega
    obtain ⟨henc, hisa, hopcode, hraw, hsize⟩ := decodeBase_whole hfits
    have htakes : takesDword code mode i =
        (decide (((decodeBase code bound mode i).enc = .kVop1 ∨ (decodeBase code bound mode i).enc = .kVop2 ∨
          (decodeBase code bound mode i).enc = .kVopc) ∧ (vopExtension (code i) mode = .kSdwa ∨
            vopExtension (code i) mode = .kDpp)) ||
          hasTrailingLiteral (decodeBase code bound mode i) (code i)) := by
      rw [henc, takesDword]
      congr 1
      exact hasTrailingLiteral_congr henc.symm hisa.symm (fun h => (hopcode h).symm) fun h => (hraw h).symm
    have hpos : 0 < (decodeBase code bound mode i).size := by
      rcases baseSize_cases (classify (code i) mode).1 with h | h <;> omega
    obtain ⟨hnone, hwhole, hshort⟩ := complete_spec (decodeBase code bound mode i) (code i)
      (code (i + (decodeBase code bound mode i).size)) mode (i + (decodeBase code bound mode i).size ≥ bound) hpos
    rw [← htakes] at hnone hwhole hshort
    rw [decodeInst_eq, encodedSize]
    cases htake : takesDword code mode i with
    | false =>
      rw [hnone htake]
      exact ⟨fun _ => ⟨by simpa using hsize, henc⟩, fun h => by simp at h; omega⟩
    | true =>
      simp only [if_true]
      constructor
      · intro h
        obtain ⟨hsize', henc'⟩ := hwhole htake (decide_eq_false (by omega))
        exact ⟨by rw [hsize', hsize], by rw [henc', henc]⟩
      · intro h
        exact hshort htake (decide_eq_true (by omega))

/-! ## The loop -/

theorem mem_decodeLoop {stop : Bool} {turns : ℕ} (h : inst ∈ decodeLoop code bound stop mode turns i) :
    ∃ k, k < bound ∧ inst = decodeInst code bound mode k := by
  induction turns generalizing i with
  | zero => cases h
  | succ turns ih =>
    rw [decodeLoop] at h
    split at h
    · rename_i hlt
      rcases List.mem_cons.mp h with rfl | h
      · exact ⟨i, hlt, rfl⟩
      · split at h
        · cases h
        · exact ih h
    · cases h

/-- **The loop ends at the end of the code**, or behind an `s_endpgm` that it stops at. -/
theorem endFrom_decodeLoop {stop : Bool} {turns : ℕ} (hi : i ≤ bound) (hturns : bound ≤ i + turns) :
    endFrom i (decodeLoop code bound stop mode turns i) = bound ∨
      stop = true ∧ ∃ last, (decodeLoop code bound stop mode turns i).getLast? = some last ∧ isEndpgm last = true := by
  induction turns generalizing i with
  | zero =>
    left
    rw [decodeLoop, endFrom]
    omega
  | succ turns ih =>
    rw [decodeLoop]
    split
    · rename_i hlt
      dsimp only
      split
      · rename_i hstop
        simp only [Bool.and_eq_true] at hstop
        exact .inr ⟨hstop.1, _, rfl, hstop.2⟩
      · have hsize := decodeInst_size_pos code bound mode i
        have hle : i + (decodeInst code bound mode i).size ≤ bound := decodeInst_size_le hlt
        rcases ih hle (by omega) with hend | ⟨hstop, last, hlast, hendpgm⟩
        · exact .inl hend
        · refine .inr ⟨hstop, last, ?_, hendpgm⟩
          rw [List.getLast?_cons, hlast]
          rfl
    · left
      rw [endFrom]
      omega

theorem decodeLoop_congr_code {stop : Bool} {turns : ℕ} (hcode : ∀ d < bound, code d = code' d) :
    decodeLoop code bound stop mode turns i = decodeLoop code' bound stop mode turns i := by
  induction turns generalizing i with
  | zero => rfl
  | succ turns ih =>
    rw [decodeLoop, decodeLoop]
    split
    · rename_i hlt
      rw [decodeInst_congr (Nat.le_refl _) (decodeInst_size_le hlt) hcode]
      dsimp only
      rw [ih]
    · rfl

/-! ## A shader -/

/-- Where `DecodeShader` ends the code: at the footer, or else at the caller's bound. -/
def codeEnd (readable : ℕ → Bool) (code : Code) (maxDwords : ℕ) : ℕ :=
  if codeLength readable code maxDwords ≠ 0 then codeLength readable code maxDwords else maxDwords

def hintedFooter (code : Code) : ℕ := (code 1 + 1) * 2

def Hinted (readable : ℕ → Bool) (code : Code) (maxDwords d : ℕ) : Prop :=
  2 ≤ maxDwords ∧ code 0 = 0xBEEB03FF ∧ hintedFooter code + 2 ≤ kMaxShaderDwords ∧
    readable ((hintedFooter code + 2) * 4) = true ∧ d < hintedFooter code + 2

theorem decodeShader_eq : decodeShader readable code maxDwords mode =
    decode code (codeEnd readable code maxDwords) (codeLength readable code maxDwords = 0) mode := by
  unfold decodeShader codeEnd
  by_cases h : codeLength readable code maxDwords = 0 <;> simp [h]

theorem orbShdrAt_congr {d : ℕ} (h : code d = code' d) (h' : code (d + 1) = code' (d + 1)) :
    orbShdrAt code d = orbShdrAt code' d := by
  rw [orbShdrAt, orbShdrAt, h, h']

theorem codeLength_congr (hcode : ∀ d < maxDwords, code d = code' d)
    (hhint : ∀ d, Hinted readable code maxDwords d → code d = code' d) :
    codeLength readable code maxDwords = codeLength readable code' maxDwords := by
  unfold codeLength
  split
  · rfl
  · rename_i hmax
    have h0 : code 0 = code' 0 := hcode 0 (by omega)
    have h1 : code 1 = code' 1 := hcode 1 (by omega)
    have hfooter : ∀ P : Prop, (P → Hinted readable code maxDwords (hintedFooter code) ∧
        Hinted readable code maxDwords (hintedFooter code + 1)) →
        (P ∧ orbShdrAt code (hintedFooter code) = true ↔ P ∧ orbShdrAt code' (hintedFooter code) = true) := by
      intro P hP
      refine and_congr_right fun hp => ?_
      rw [orbShdrAt_congr (hhint _ (hP hp).1) (hhint _ (hP hp).2)]
    have hscan : ((List.range maxDwords).find? fun d => 1 ≤ d && d + 2 ≤ maxDwords && orbShdrAt code d) =
        (List.range maxDwords).find? fun d => 1 ≤ d && d + 2 ≤ maxDwords && orbShdrAt code' d := by
      congr 1
      funext d
      by_cases hd : d + 2 ≤ maxDwords
      · rw [orbShdrAt_congr (hcode d (by omega)) (hcode (d + 1) (by omega))]
      · simp [hd]
    have hiff := hfooter (code 0 = 0xBEEB03FF ∧ hintedFooter code ≥ 2 ∧
      hintedFooter code + 2 ≤ kMaxShaderDwords ∧ readable ((hintedFooter code + 2) * 4) = true)
      fun h => ⟨⟨by omega, h.1, h.2.2.1, h.2.2.2, by omega⟩, ⟨by omega, h.1, h.2.2.1, h.2.2.2, by omega⟩⟩
    unfold hintedFooter at hiff
    simp only [and_assoc] at hiff
    dsimp only
    rw [hscan, ← h0, ← h1]
    simp only [hiff]

theorem lt_codeEnd {d : ℕ} (h : d < codeEnd readable code maxDwords) :
    d < maxDwords ∨ Hinted readable code maxDwords d := by
  unfold codeEnd at h
  split at h
  · unfold codeLength at h
    split at h
    · omega
    · rename_i hmax
      dsimp only at h
      split at h
      · rename_i hhint
        right
        exact ⟨by omega, hhint.1, hhint.2.2.1, hhint.2.2.2.1, Nat.lt_of_lt_of_le h (Nat.le_add_right _ _)⟩
      · left
        cases hfind : (List.range maxDwords).find? fun d => 1 ≤ d && d + 2 ≤ maxDwords && orbShdrAt code d with
        | none =>
          rw [hfind] at h
          cases h
        | some found =>
          rw [hfind, Option.getD_some] at h
          have := List.mem_range.mp (List.mem_of_find?_eq_some hfind)
          omega
  · exact .inl h

/-- **What the decoder looks at**: dwords before the bound, and those up to the footer that the hint promises. -/
theorem decodeShader_congr (hcode : ∀ d < maxDwords, code d = code' d)
    (hhint : ∀ d, Hinted readable code maxDwords d → code d = code' d) :
    decodeShader readable code maxDwords mode = decodeShader readable code' maxDwords mode := by
  have hlength := codeLength_congr hcode hhint
  rw [decodeShader_eq, decodeShader_eq]
  have hend : codeEnd readable code maxDwords = codeEnd readable code' maxDwords := by
    rw [codeEnd, codeEnd, hlength]
  rw [← hlength, ← hend]
  exact decodeLoop_congr_code fun d hd => (lt_codeEnd hd).elim (hcode d) (hhint d)

/-- **A decoded shader tiles its code**: instructions lie one behind the other from the first dword to the end or
to an `s_endpgm`, each as long as its encoding. What the end cuts off is unknown, and what the result depends on
lies before the bound or before the end of the footer that the hint promises. -/
theorem decodeShader_tiles (readable : ℕ → Bool) (code : Code) (maxDwords : ℕ) (mode : IsaMode) :
    Contiguous (decodeShader readable code maxDwords mode) ∧
      (endFrom 0 (decodeShader readable code maxDwords mode) = codeEnd readable code maxDwords ∨
        ∃ last, (decodeShader readable code maxDwords mode).getLast? = some last ∧ isEndpgm last = true) ∧
      (∀ inst ∈ decodeShader readable code maxDwords mode,
        (inst.pc + encodedSize code mode inst.pc ≤ codeEnd readable code maxDwords →
          inst.size = encodedSize code mode inst.pc ∧ inst.enc = (classify (code inst.pc) mode).1) ∧
        (codeEnd readable code maxDwords < inst.pc + encodedSize code mode inst.pc →
          inst.enc = .kUnknown ∧ inst.opcode = 0)) ∧
      (∀ d < codeEnd readable code maxDwords, d < maxDwords ∨ Hinted readable code maxDwords d) ∧
      ∀ code' : Code, (∀ d, d < maxDwords ∨ Hinted readable code maxDwords d → code d = code' d) →
        decodeShader readable code maxDwords mode = decodeShader readable code' maxDwords mode := by
  refine ⟨contiguous_decodeShader _ _ _ _, ?_, fun inst hinst => ?_, fun d => lt_codeEnd, fun code' hcode => ?_⟩
  · rw [decodeShader_eq, decode]
    rcases endFrom_decodeLoop (Nat.zero_le _) (Nat.le_of_eq (Nat.zero_add _).symm) with hend | ⟨-, hlast⟩
    · exact .inl hend
    · exact .inr hlast
  · rw [decodeShader_eq, decode] at hinst
    obtain ⟨k, hk, rfl⟩ := mem_decodeLoop hinst
    rw [decodeInst_pc]
    exact decodeInst_spec hk
  · exact decodeShader_congr (fun d hd => hcode d (.inl hd)) fun d hd => hcode d (.inr hd)

/-- A shader of four dwords in a window of two, with its footer. -/
def hintedCode : Code := fun d => [0xBEEB03FF, 1, 0xBF800000, 0xBF810000, 0x5362724F, 0x726468].getD d 0

/-- **The decoder follows the hint past the window**: without the footer the program is shorter. -/
theorem decodeShader_past_window : ¬∀ (readable : ℕ → Bool) (code code' : Code) (maxDwords : ℕ) (mode : IsaMode),
      (∀ d < maxDwords, code d = code' d) →
        decodeShader readable code maxDwords mode = decodeShader readable code' maxDwords mode := by
  intro h
  have hsame : ∀ d < 2, hintedCode d = (fun d => if d < 4 then hintedCode d else 0) d := by decide
  have hlength := congrArg List.length (h (fun _ => true) hintedCode _ 2 .kBase hsame)
  revert hlength
  decide +kernel

end Prosperity.Gcn
