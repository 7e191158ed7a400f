import Mathlib.Data.Nat.Bitwise
import Prosperity.Foundations.BasicBlocks

/-!
# Decoding shaders

The instruction decoder: the encoding families by their top bits, trailing literals and
extensions, and the loop over the code. The code is a function of the dword, whose values are
below 2^32.
-/

namespace Prosperity.Gcn

inductive IsaMode where
  | kBase
  | kNeo
  deriving DecidableEq

inductive Enc where
  | kUnknown
  | kSop1
  | kSop2
  | kSopk
  | kSopc
  | kSopp
  | kSmrd
  | kVop1
  | kVop2
  | kVop3
  | kVop3p
  | kVopc
  | kVintrp
  | kDs
  | kMubuf
  | kMtbuf
  | kMimg
  | kExp
  | kFlat
  deriving DecidableEq

inductive InstExtension where
  | kNone
  | kLiteral
  | kSdwa
  | kDpp
  deriving DecidableEq

/-- `raw0` and `raw1` are `raw[0]` and `raw[1]`; this decoder fills no others. -/
structure Inst where
  isa : IsaMode
  enc : Enc
  opcode : ℕ
  raw0 : ℕ
  raw1 : ℕ
  size : ℕ
  pc : ℕ
  hasLiteral : Bool
  literal : ℕ
  extension : InstExtension
  deriving DecidableEq

abbrev Program := List Inst

abbrev Code := ℕ → ℕ

/-! ## One instruction -/

def sop2HasLiteral (w : ℕ) : Bool := w &&& 0xFF = 255 || (w >>> 8) &&& 0xFF = 255

def sop1HasLiteral (w : ℕ) : Bool := w &&& 0xFF = 255

def vopExtension (w : ℕ) (mode : IsaMode) : InstExtension :=
  if w &&& 0x1ff = 249 then if mode = .kNeo then .kSdwa else .kNone
  else if w &&& 0x1ff = 250 then if mode = .kNeo then .kDpp else .kNone
  else if w &&& 0x1ff = 255 then .kLiteral
  else .kNone

/-- `Classify`: the family, and the opcode in it. -/
def classify (w : ℕ) (mode : IsaMode) : Enc × ℕ :=
  if w >>> 30 = 0x2 then
    let top9 := w >>> 23
    if top9 = 0x17F then (.kSopp, (w >>> 16) &&& 0x7F)
    else if top9 = 0x17E then (.kSopc, (w >>> 16) &&& 0x7F)
    else if top9 = 0x17D then (.kSop1, (w >>> 8) &&& 0xFF)
    else if w >>> 28 = 0xB then (.kSopk, (w >>> 23) &&& 0x1F)
    else (.kSop2, (w >>> 23) &&& 0x7F)
  else if w >>> 27 = 0x18 then (.kSmrd, (w >>> 22) &&& 0x1F)
  else if w >>> 26 = 0x34 then
    let opcode := (w >>> 17) &&& 0x1FF
    (.kVop3, if mode = .kNeo then opcode ||| ((w >>> 16) &&& 1) <<< 9 else opcode)
  else if mode = .kNeo ∧ w >>> 26 = 0x33 then (.kVop3p, (w >>> 16) &&& 0x7f)
  else if w >>> 26 = 0x32 then (.kVintrp, (w >>> 16) &&& 0x3)
  else if w >>> 26 = 0x36 then (.kDs, (w >>> 18) &&& 0xFF)
  else if w >>> 26 = 0x37 then (.kFlat, (w >>> 18) &&& 0x7F)
  else if w >>> 26 = 0x38 then (.kMubuf, (w >>> 18) &&& 0x7F)
  else if w >>> 26 = 0x3A then (.kMtbuf, (w >>> 16) &&& 0x7)
  else if w >>> 26 = 0x3C then (.kMimg, (w >>> 18) &&& 0x7F)
  else if w >>> 26 = 0x3E then (.kExp, (w >>> 16) &&& 0x3F)
  else if w >>> 25 = 0x3F then (.kVop1, (w >>> 9) &&& 0xFF)
  else if w >>> 25 = 0x3E then (.kVopc, (w >>> 17) &&& 0xFF)
  else if w >>> 31 = 0x0 then (.kVop2, (w >>> 25) &&& 0x3F)
  else (.kUnknown, 0)

/-- `BaseSize`: dwords without a trailing one. -/
def baseSize : Enc → ℕ
  | .kVop3 | .kVop3p | .kDs | .kMubuf | .kMtbuf | .kMimg | .kExp | .kFlat => 2
  | _ => 1

def hasTrailingLiteral (inst : Inst) (w : ℕ) : Bool :=
  match inst.enc with
  | .kSop2 | .kSopc => sop2HasLiteral w
  | .kSop1 => sop1HasLiteral w
  | .kSopk => inst.opcode = 0x15
  | .kSmrd => (w >>> 8) &&& 1 = 0 && w &&& 0xFF = 255
  | .kVop2 =>
    vopExtension w inst.isa = .kLiteral || inst.opcode = 0x20 || inst.opcode = 0x21 ||
      (inst.isa = .kNeo && (inst.opcode = 0x37 || inst.opcode = 0x38))
  | .kVop1 | .kVopc => vopExtension w inst.isa = .kLiteral
  | .kVop3 | .kVop3p =>
    inst.isa = .kNeo && (inst.raw1 &&& 0x1ff = 255 || (inst.raw1 >>> 9) &&& 0x1ff = 255 ||
      (inst.raw1 >>> 18) &&& 0x1ff = 255)
  | _ => false

/-- The part of an instruction that its family decides. -/
def decodeBase (code : Code) (maxDwords : ℕ) (mode : IsaMode) (i : ℕ) : Inst :=
  let enc := (classify (code i) mode).1
  let inst : Inst :=
    ⟨mode, enc, (classify (code i) mode).2, code i, 0, baseSize enc, i, false, 0, .kNone⟩
  let inst :=
    if inst.size = 2 then
      if i + 1 ≥ maxDwords then { inst with enc := .kUnknown, opcode := 0, size := 1 }
      else { inst with raw1 := code (i + 1) }
    else inst
  if mode = .kNeo ∧ inst.enc = .kMtbuf then
    { inst with opcode := inst.opcode ||| ((inst.raw1 >>> 21) &&& 1) <<< 3 }
  else inst

/-- One turn of the loop of `Decode`, at the dword `i`. -/
def decodeInst (code : Code) (maxDwords : ℕ) (mode : IsaMode) (i : ℕ) : Inst :=
  let inst := decodeBase code maxDwords mode i
  let ext :=
    if inst.enc = .kVop1 ∨ inst.enc = .kVop2 ∨ inst.enc = .kVopc then vopExtension (code i) mode
    else .kNone
  let inst :=
    if ext = .kSdwa ∨ ext = .kDpp then
      if i + inst.size ≥ maxDwords then { inst with enc := .kUnknown, opcode := 0 }
      else
        { inst with extension := ext, raw1 := code (i + inst.size), size := inst.size + 1 }
    else if hasTrailingLiteral inst (code i) then
      if i + inst.size ≥ maxDwords then { inst with enc := .kUnknown, opcode := 0 }
      else
        { inst with
          hasLiteral := true
          literal := code (i + inst.size)
          extension := .kLiteral
          size := inst.size + 1 }
    else inst
  if inst.size = 0 then { inst with size := 1 } else inst

def isEndpgm (inst : Inst) : Bool := inst.enc = .kSopp && inst.opcode = 1

/-- The loop of `Decode`. The first argument bounds its turns. -/
def decodeLoop (code : Code) (maxDwords : ℕ) (stopAtEndpgm : Bool) (mode : IsaMode) : ℕ → ℕ → Program
  | 0, _ => []
  | turns + 1, i =>
    if i < maxDwords then
      let inst := decodeInst code maxDwords mode i
      inst :: if stopAtEndpgm && isEndpgm inst then []
        else decodeLoop code maxDwords stopAtEndpgm mode turns (i + inst.size)
    else []

/-- `Decode`: each turn advances by a dword at least. -/
def decode (code : Code) (maxDwords : ℕ) (stopAtEndpgm : Bool) (mode : IsaMode) : Program :=
  decodeLoop code maxDwords stopAtEndpgm mode maxDwords 0

/-! ## A shader -/

/-- `OrbShdrAt` at the dword `d`: the first seven bytes spell `OrbShdr`. -/
def orbShdrAt (code : Code) (d : ℕ) : Bool :=
  code d = 0x5362724F && code (d + 1) &&& 0xFFFFFF = 0x726468

def kMaxShaderDwords : ℕ := 64 * 1024

/-- `CodeLength`; `readable` says whether so many bytes of the code can be read. -/
def codeLength (readable : ℕ → Bool) (code : Code) (maxDwords : ℕ) : ℕ :=
  if maxDwords < 2 then 0
  else
    let d := (code 1 + 1) * 2
    if code 0 = 0xBEEB03FF ∧ d ≥ 2 ∧ d + 2 ≤ kMaxShaderDwords ∧ readable ((d + 2) * 4) = true ∧
        orbShdrAt code d = true then d
    else ((List.range maxDwords).find? fun d =>
      1 ≤ d && d + 2 ≤ maxDwords && orbShdrAt code d).getD 0

def decodeShader (readable : ℕ → Bool) (code : Code) (maxDwords : ℕ) (mode : IsaMode) : Program :=
  let len := codeLength readable code maxDwords
  if len ≠ 0 then decode code len false mode else decode code maxDwords true mode

/-! ## Where instructions lie -/

/-- Each instruction begins where the one before it ends, the first at `pc`, and none is empty. -/
def ContiguousFrom : ℕ → Program → Prop
  | _, [] => True
  | pc, inst :: rest => inst.pc = pc ∧ 0 < inst.size ∧ ContiguousFrom (pc + inst.size) rest

def Contiguous (program : Program) : Prop := ContiguousFrom 0 program

/-- One past the last dword, `max_pc` of the passes. -/
def maxPc (program : Program) : ℕ :=
  match program.getLast? with
  | none => 0
  | some inst => inst.pc + inst.size

theorem decodeBase_pc (code : Code) (maxDwords : ℕ) (mode : IsaMode) (i : ℕ) :
    (decodeBase code maxDwords mode i).pc = i := by
  simp only [decodeBase, apply_ite Inst.pc, ite_self]

theorem decodeInst_pc (code : Code) (maxDwords : ℕ) (mode : IsaMode) (i : ℕ) :
    (decodeInst code maxDwords mode i).pc = i := by
  simp only [decodeInst, apply_ite Inst.pc, decodeBase_pc, ite_self]

theorem decodeInst_size_pos (code : Code) (maxDwords : ℕ) (mode : IsaMode) (i : ℕ) :
    0 < (decodeInst code maxDwords mode i).size := by
  have hpos : ∀ inst : Inst, 0 < (if inst.size = 0 then { inst with size := 1 } else inst).size := by
    intro inst
    split
    · exact Nat.one_pos
    · omega
  exact hpos _

theorem contiguousFrom_decodeLoop (code : Code) (maxDwords : ℕ) (stop : Bool) (mode : IsaMode)
    (turns i : ℕ) : ContiguousFrom i (decodeLoop code maxDwords stop mode turns i) := by
  induction turns generalizing i with
  | zero => trivial
  | succ turns ih =>
    rw [decodeLoop]
    split
    · refine ⟨decodeInst_pc code maxDwords mode i, decodeInst_size_pos code maxDwords mode i, ?_⟩
      split
      · trivial
      · exact ih _
    · trivial

/-- **A decoded program has no gaps.** -/
theorem contiguous_decode (code : Code) (maxDwords : ℕ) (stop : Bool) (mode : IsaMode) :
    Contiguous (decode code maxDwords stop mode) :=
  contiguousFrom_decodeLoop code maxDwords stop mode maxDwords 0

theorem contiguous_decodeShader (readable : ℕ → Bool) (code : Code) (maxDwords : ℕ)
    (mode : IsaMode) : Contiguous (decodeShader readable code maxDwords mode) := by
  unfold decodeShader
  dsimp only
  split
  · exact contiguous_decode _ _ _ _
  · exact contiguous_decode _ _ _ _

def layoutListing : Listing Inst where
  pc := Inst.pc
  size := Inst.size
  flow _ := .ordinary
  target _ := 0

section Contiguous

variable {pc : ℕ} {program : Program} {i : Inst}

theorem contiguousFrom_layoutListing (h : ContiguousFrom pc program) : layoutListing.ContiguousFrom pc program := by
  induction program generalizing pc with
  | nil => trivial
  | cons inst rest ih => exact ⟨h.1, h.2.1, ih h.2.2⟩

theorem layoutListing_maxPc (program : Program) : layoutListing.maxPc program = maxPc program := by
  rw [Listing.maxPc, maxPc]
  cases program.getLast? <;> rfl

theorem ContiguousFrom.le (h : ContiguousFrom pc program) (hi : i ∈ program) : pc ≤ i.pc :=
  Listing.ContiguousFrom.le (contiguousFrom_layoutListing h) hi

theorem ContiguousFrom.size_pos (h : ContiguousFrom pc program) (hi : i ∈ program) :
    0 < i.size := Listing.ContiguousFrom.size_pos (contiguousFrom_layoutListing h) hi

theorem ContiguousFrom.sorted (h : ContiguousFrom pc program) : program.Pairwise fun i j => i.pc + i.size ≤ j.pc :=
  Listing.ContiguousFrom.sorted (contiguousFrom_layoutListing h)

theorem ContiguousFrom.le_maxPc (h : ContiguousFrom pc program) (hi : i ∈ program) : i.pc + i.size ≤ maxPc program :=
  layoutListing_maxPc program ▸ Listing.ContiguousFrom.le_maxPc (contiguousFrom_layoutListing h) hi

end Contiguous

/-! ## The text of a program -/

section Text

variable {code code' : Code} {mode : IsaMode} {maxDwords i last : ℕ}

theorem baseSize_cases (enc : Enc) : baseSize enc = 1 ∨ baseSize enc = 2 := by
  cases enc <;> simp [baseSize]

theorem decodeBase_size : (decodeBase code maxDwords mode i).size =
      if baseSize (classify (code i) mode).1 = 2 ∧ i + 1 < maxDwords then 2 else 1 := by
  simp only [decodeBase, apply_ite Inst.size, ite_self]
  rcases baseSize_cases (classify (code i) mode).1 with h | h <;> rw [h] <;> split_ifs <;> omega

theorem decodeBase_congr (hlast : last ≤ maxDwords) (hsize : i + (decodeBase code maxDwords mode i).size ≤ last)
    (hcode : ∀ d < last, code d = code' d) : decodeBase code maxDwords mode i = decodeBase code' last mode i := by
  rw [decodeBase_size] at hsize
  have hi : code i = code' i := hcode i (by split at hsize <;> omega)
  by_cases hlong : baseSize (classify (code i) mode).1 = 2 ∧ i + 1 < maxDwords
  · -- a whole instruction of two dwords
    rw [if_pos hlong] at hsize
    have hnext : code (i + 1) = code' (i + 1) := hcode (i + 1) (by omega)
    have h : ¬i + 1 ≥ maxDwords := by omega
    have h' : ¬i + 1 ≥ last := by omega
    simp only [decodeBase, ← hi, ← hnext, if_neg h, if_neg h']
  · rw [if_neg hlong] at hsize
    by_cases htwo : baseSize (classify (code i) mode).1 = 2
    · -- cut off by the end of the code
      have h : i + 1 ≥ maxDwords := Nat.not_lt.mp fun h => hlong ⟨htwo, h⟩
      simp only [decodeBase, ← hi, if_pos h, if_pos (Nat.le_trans hlast h)]
    · simp only [decodeBase, ← hi, if_neg htwo]

/-- An instruction of its family completed by the dword `tail` behind it, unless `cut` off. -/
def complete (inst : Inst) (w tail : ℕ) (mode : IsaMode) (cut : Bool) : Inst :=
  let ext :=
    if inst.enc = .kVop1 ∨ inst.enc = .kVop2 ∨ inst.enc = .kVopc then vopExtension w mode
    else .kNone
  let inst :=
    if ext = .kSdwa ∨ ext = .kDpp then
      if cut then { inst with enc := .kUnknown, opcode := 0 }
      else { inst with extension := ext, raw1 := tail, size := inst.size + 1 }
    else if hasTrailingLiteral inst w then
      if cut then { inst with enc := .kUnknown, opcode := 0 }
      else
        { inst with
          hasLiteral := true
          literal := tail
          extension := .kLiteral
          size := inst.size + 1 }
    else inst
  if inst.size = 0 then { inst with size := 1 } else inst

theorem decodeInst_eq : decodeInst code maxDwords mode i = complete (decodeBase code maxDwords mode i) (code i)
        (code (i + (decodeBase code maxDwords mode i).size)) mode
        (i + (decodeBase code maxDwords mode i).size ≥ maxDwords) := by
  simp only [decodeInst, complete, decide_eq_true_eq]

theorem complete_size (inst : Inst) (w tail : ℕ) (mode : IsaMode) (cut : Bool) (hpos : 0 < inst.size) :
    inst.size ≤ (complete inst w tail mode cut).size ∧
      (complete inst w tail mode cut).size ≤ if cut then inst.size else inst.size + 1 := by
  have hne : inst.size ≠ 0 := Nat.ne_of_gt hpos
  unfold complete
  cases cut <;> dsimp only <;> split_ifs <;> simp_all

theorem complete_of_size (inst : Inst) (w tail tail' : ℕ) (mode : IsaMode) (hpos : 0 < inst.size)
    (hsize : (complete inst w tail mode false).size = inst.size) :
    complete inst w tail mode false = complete inst w tail' mode true := by
  have hne : inst.size ≠ 0 := Nat.ne_of_gt hpos
  unfold complete at hsize ⊢
  dsimp only at hsize ⊢
  split_ifs at hsize ⊢ <;> simp_all

theorem decodeInst_size_le (hi : i < maxDwords) : i + (decodeInst code maxDwords mode i).size ≤ maxDwords := by
  have hpos : 0 < (decodeBase code maxDwords mode i).size := by
    rw [decodeBase_size]
    split <;> omega
  have hbase : i + (decodeBase code maxDwords mode i).size ≤ maxDwords := by
    rw [decodeBase_size]
    split <;> omega
  have h := (complete_size (decodeBase code maxDwords mode i) (code i)
    (code (i + (decodeBase code maxDwords mode i).size)) mode
    (i + (decodeBase code maxDwords mode i).size ≥ maxDwords) hpos).2
  rw [← decodeInst_eq] at h
  simp only [decide_eq_true_eq] at h
  split at h <;> omega

theorem decodeInst_congr (hlast : last ≤ maxDwords) (hsize : i + (decodeInst code maxDwords mode i).size ≤ last)
    (hcode : ∀ d < last, code d = code' d) : decodeInst code maxDwords mode i = decodeInst code' last mode i := by
  have hpos : 0 < (decodeBase code maxDwords mode i).size := by
    rw [decodeBase_size]
    split <;> omega
  rw [decodeInst_eq] at hsize
  have hle := (complete_size (decodeBase code maxDwords mode i) (code i)
    (code (i + (decodeBase code maxDwords mode i).size)) mode
    (i + (decodeBase code maxDwords mode i).size ≥ maxDwords) hpos).1
  have hbase := Nat.le_trans (Nat.add_le_add_left hle i) hsize
  have hb := decodeBase_congr hlast hbase hcode
  have hi : code i = code' i := hcode i (by omega)
  rw [decodeInst_eq, decodeInst_eq, ← hb, ← hi]
  generalize decodeBase code maxDwords mode i = b at hsize hle hpos hbase ⊢
  by_cases hend : i + b.size ≥ last
  · rw [decide_eq_true hend]
    by_cases hcut : i + b.size ≥ maxDwords
    · rw [decide_eq_true hcut] at hsize ⊢
      simp only [complete, if_true]
    · -- the instruction ends where its family does
      rw [decide_eq_false hcut] at hsize hle ⊢
      exact complete_of_size _ _ _ _ _ hpos (by omega)
  · have hcut : ¬i + b.size ≥ maxDwords := by omega
    rw [decide_eq_false hend, decide_eq_false hcut, hcode _ (Nat.lt_of_not_le hend)]

/-- Where a list of instructions that begins at `pc` ends. -/
def endFrom (pc : ℕ) : Program → ℕ
  | [] => pc
  | inst :: rest => endFrom (pc + inst.size) rest

theorem le_endFrom (pc : ℕ) (program : Program) : pc ≤ endFrom pc program := by
  induction program generalizing pc with
  | nil => exact Nat.le_refl _
  | cons inst rest ih => exact Nat.le_trans (Nat.le_add_right _ _) (ih _)

theorem ContiguousFrom.eq_nil {pc : ℕ} {program : Program} (h : ContiguousFrom pc program)
    (hend : endFrom pc program ≤ pc) : program = [] := by
  cases program with
  | nil => rfl
  | cons inst rest =>
    have := le_endFrom (pc + inst.size) rest
    have := h.2.1
    rw [endFrom] at hend
    omega

theorem ContiguousFrom.maxPc_eq {pc : ℕ} {program : Program} (h : ContiguousFrom pc program)
    (hne : program ≠ []) : maxPc program = endFrom pc program := by
  induction program generalizing pc with
  | nil => exact absurd rfl hne
  | cons first rest ih =>
    obtain ⟨hpc, -, hrest⟩ := h
    cases rest with
    | nil => simp only [maxPc, List.getLast?_singleton, hpc, endFrom]
    | cons second rest =>
      rw [endFrom, ← ih hrest (List.cons_ne_nil _ _)]
      simp only [maxPc, List.getLast?_cons_cons]

theorem maxPc_eq_endFrom {program : Program} (h : Contiguous program) : maxPc program = endFrom 0 program := by
  cases program with
  | nil => rfl
  | cons first rest => exact ContiguousFrom.maxPc_eq h (List.cons_ne_nil _ _)

theorem endFrom_decodeLoop_le (stop : Bool) (turns : ℕ) (hi : i ≤ maxDwords) :
    endFrom i (decodeLoop code maxDwords stop mode turns i) ≤ maxDwords := by
  induction turns generalizing i with
  | zero => exact hi
  | succ turns ih =>
    rw [decodeLoop]
    split
    · rename_i hlt
      rw [endFrom]
      split
      · exact decodeInst_size_le hlt
      · exact ih (decodeInst_size_le hlt)
    · exact hi

theorem decodeLoop_eq_cons {stop : Bool} {turns : ℕ} {inst : Inst} {rest : Program}
    (h : decodeLoop code maxDwords stop mode turns i = inst :: rest) :
    i < maxDwords ∧ inst = decodeInst code maxDwords mode i ∧
      ∃ turns', rest = decodeLoop code maxDwords stop mode turns' (i + inst.size) := by
  cases turns with
  | zero => cases h
  | succ turns =>
    rw [decodeLoop] at h
    split at h
    · rename_i hlt
      obtain ⟨rfl, rfl⟩ := List.cons.inj h
      refine ⟨hlt, rfl, ?_⟩
      split
      · exact ⟨0, rfl⟩
      · exact ⟨turns, rfl⟩
    · cases h

/-- **The dwords of a program determine it**, whatever bounds the decoder. -/
theorem decodeLoop_congr {maxDwords' : ℕ} {stop stop' : Bool} {turns turns' : ℕ}
    (hend : endFrom i (decodeLoop code maxDwords stop mode turns i) =
      endFrom i (decodeLoop code' maxDwords' stop' mode turns' i))
    (hcode : ∀ d < endFrom i (decodeLoop code maxDwords stop mode turns i), code d = code' d) :
    decodeLoop code maxDwords stop mode turns i = decodeLoop code' maxDwords' stop' mode turns' i := by
  generalize hp : decodeLoop code maxDwords stop mode turns i = program at hend hcode ⊢
  generalize hp' : decodeLoop code' maxDwords' stop' mode turns' i = program' at hend ⊢
  induction program generalizing i program' turns turns' with
  | nil =>
    have hcont := contiguousFrom_decodeLoop code' maxDwords' stop' mode turns' i
    rw [hp'] at hcont
    exact (hcont.eq_nil (Nat.le_of_eq hend.symm)).symm
  | cons inst rest ih =>
    obtain ⟨hlt, hinst, next, hrest⟩ := decodeLoop_eq_cons hp
    have hsize := decodeInst_size_pos code maxDwords mode i
    have hle := le_endFrom (i + inst.size) rest
    rw [← hinst] at hsize
    cases program' with
    | nil =>
      simp only [endFrom] at hend
      omega
    | cons inst' rest' =>
      obtain ⟨hlt', hinst', next', hrest'⟩ := decodeLoop_eq_cons hp'
      have hle' := le_endFrom (i + inst'.size) rest'
      -- both instructions are what the dwords up to the common end decode to
      have hbound : endFrom i (inst :: rest) ≤ maxDwords :=
        hp ▸ endFrom_decodeLoop_le stop turns (Nat.le_of_lt hlt)
      have hbound' : endFrom i (inst' :: rest') ≤ maxDwords' :=
        hp' ▸ endFrom_decodeLoop_le stop' turns' (Nat.le_of_lt hlt')
      have hlast : inst = decodeInst code (endFrom i (inst :: rest)) mode i := by
        rw [hinst] at hle ⊢
        exact decodeInst_congr (hinst ▸ hbound) hle fun _ _ => rfl
      have hlast' : inst' = decodeInst code (endFrom i (inst :: rest)) mode i := by
        rw [hend] at hcode ⊢
        rw [hinst'] at hle' ⊢
        exact decodeInst_congr (hinst' ▸ hbound') hle' fun d hd => (hcode d (hinst' ▸ hd)).symm
      obtain rfl : inst = inst' := hlast.trans hlast'.symm
      rw [ih hrest.symm hcode rest' hrest'.symm hend]

def textOf (code : Code) (program : Program) : List ℕ := (List.range (maxPc program)).map code

/-- **The text of a shader determines its program.** -/
theorem decodeShader_eq_of_text {readable readable' : ℕ → Bool} {maxDwords' : ℕ}
    (h : textOf code (decodeShader readable code maxDwords mode) =
      textOf code' (decodeShader readable' code' maxDwords' mode)) :
    decodeShader readable code maxDwords mode = decodeShader readable' code' maxDwords' mode := by
  have hloop : ∀ (readable : ℕ → Bool) (code : Code) (maxDwords : ℕ), ∃ last stop turns,
      decodeShader readable code maxDwords mode = decodeLoop code last stop mode turns 0 := by
    intro readable code maxDwords
    unfold decodeShader
    dsimp only
    split
    · exact ⟨_, _, _, rfl⟩
    · exact ⟨_, _, _, rfl⟩
  obtain ⟨last, stop, turns, hp⟩ := hloop readable code maxDwords
  obtain ⟨last', stop', turns', hp'⟩ := hloop readable' code' maxDwords'
  rw [hp, hp'] at h ⊢
  have hlen := congrArg List.length h
  simp only [textOf, List.length_map, List.length_range] at hlen
  rw [maxPc_eq_endFrom (contiguousFrom_decodeLoop _ _ _ _ _ _),
    maxPc_eq_endFrom (contiguousFrom_decodeLoop _ _ _ _ _ _)] at hlen
  refine decodeLoop_congr hlen fun d hd => ?_
  rw [← maxPc_eq_endFrom (contiguousFrom_decodeLoop _ _ _ _ _ _)] at hd
  rw [textOf, textOf, maxPc_eq_endFrom (contiguousFrom_decodeLoop code' _ _ _ _ _), ← hlen,
    ← maxPc_eq_endFrom (contiguousFrom_decodeLoop code _ _ _ _ _)] at h
  exact List.map_inj_left.mp h d (List.mem_range.mpr hd)

end Text

end Prosperity.Gcn
