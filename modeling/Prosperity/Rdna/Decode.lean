import Mathlib.Algebra.Group.Nat.Defs
import Prosperity.Gcn.Decode

/-!
# Decoding RDNA shaders

The gfx10.3 decoder: it shares the encoding families of the GCN decoder and has its own opcode
fields, sizes and trailing dwords. A scan without a footer goes on past an `s_endpgm` that a forward
branch jumps over.
-/

namespace Prosperity.Rdna

open Gcn (Enc Code orbShdrAt)

inductive InstExtension where
  | kNone
  | kLiteral
  | kSdwa
  | kDpp
  | kDpp8
  | kDpp8Fi
  deriving DecidableEq

/-- `raw` holds the dwords that the decoder fills in, `raw[0]` first. -/
structure Inst where
  enc : Enc
  opcode : ℕ
  raw : List ℕ
  size : ℕ
  pc : ℕ
  hasLiteral : Bool
  literal : ℕ
  extension : InstExtension
  deriving DecidableEq

abbrev Program := List Inst

/-! ## One instruction -/

def scalar2HasLit (w : ℕ) : Bool := w &&& 0xFF = 255 || (w >>> 8) &&& 0xFF = 255

def scalar1HasLit (w : ℕ) : Bool := w &&& 0xFF = 255

/-- `ValuExtension`, which is asked about VOP1, VOP2 and VOPC only. -/
def valuExtension (w : ℕ) : InstExtension :=
  match w &&& 0x1FF with
  | 233 => .kDpp8
  | 234 => .kDpp8Fi
  | 249 => .kSdwa
  | 250 => .kDpp
  | 255 => .kLiteral
  | _ => .kNone

/-- `Classify`: the family, and the opcode in it. -/
def classify (w : ℕ) : Enc × ℕ :=
  if w >>> 31 = 0 then
    let vop2Op := (w >>> 25) &&& 0x3F
    if vop2Op = 0x3F then (.kVop1, (w >>> 9) &&& 0xFF)
    else if vop2Op = 0x3E then (.kVopc, (w >>> 17) &&& 0xFF)
    else (.kVop2, vop2Op)
  else if w >>> 30 = 2 then
    let sub := (w >>> 23) &&& 0x7F
    if sub = 0x7D then (.kSop1, (w >>> 8) &&& 0xFF)
    else if sub = 0x7E then (.kSopc, (w >>> 16) &&& 0x7F)
    else if sub = 0x7F then (.kSopp, (w >>> 16) &&& 0x7F)
    else if sub ≥ 0x60 then (.kSopk, (w >>> 23) &&& 0x1F)
    else (.kSop2, (w >>> 23) &&& 0x7F)
  else
    match w >>> 26 with
    | 0x32 => (.kVintrp, (w >>> 16) &&& 0x3)
    | 0x33 =>
      if w >>> 24 ≠ 0xCC ∨ (w >>> 23) &&& 1 ≠ 0 then (.kUnknown, 0)
      else (.kVop3p, (w >>> 16) &&& 0x7F)
    | 0x35 => (.kVop3, (w >>> 16) &&& 0x3FF)
    | 0x36 => (.kDs, (w >>> 18) &&& 0xFF)
    | 0x37 => (.kFlat, (w >>> 18) &&& 0x7F)
    | 0x38 => (.kMubuf, ((w >>> 18) &&& 0x7F) ||| ((w >>> 25) &&& 1) <<< 7)
    | 0x3A => (.kMtbuf, (w >>> 16) &&& 0x7)
    | 0x3C => (.kMimg, ((w >>> 18) &&& 0x7F) ||| (w &&& 1) <<< 7)
    | 0x3D => (.kSmrd, (w >>> 18) &&& 0xFF)
    | 0x31 => if w &&& 0xF ≠ 0 then (.kUnknown, 0) else (.kExp, (w >>> 4) &&& 0x3F)
    | 0x3E => (.kExp, (w >>> 4) &&& 0x3F)
    | _ => (.kUnknown, 0)

/-- `BaseSize`: dwords without a trailing one. -/
def baseSize (enc : Enc) (w : ℕ) : ℕ :=
  if w >>> 26 = 0x31 then 2
  else
    match enc with
    | .kVop3 | .kVop3p | .kSmrd | .kDs | .kFlat | .kMubuf | .kMtbuf | .kExp => 2
    | .kMimg => 2 + ((w >>> 1) &&& 0x3)
    | _ => 1

def vop3SourceCount (enc : Enc) (op : ℕ) : ℕ :=
  if enc = .kVop3p then
    if op ∈ [0x00, 0x09, 0x0e, 0x13, 0x14, 0x15, 0x16, 0x17, 0x18, 0x19, 0x20, 0x21, 0x22] then 3
    else 2
  else if op < 0x100 then 2
  else if op = 0x101 ∨ (0x128 ≤ op ∧ op ≤ 0x12a) then 3
  else if 0x100 ≤ op ∧ op < 0x140 then 2
  else if 0x180 ≤ op ∧ op < 0x200 then 1
  else if 0x270 ≤ op ∧ op ≤ 0x272 then 2
  else 3

def dwordsAt (code : Code) (i n : ℕ) : List ℕ := (List.range n).map fun d => code (i + d)

/-- The part of an instruction that its family decides. -/
def decodeBase (code : Code) (i : ℕ) : Inst :=
  let enc := (classify (code i)).1
  let size := baseSize enc (code i)
  let raw := dwordsAt code i size
  let opcode := (classify (code i)).2
  let opcode :=
    if enc = .kMtbuf then opcode ||| ((raw.getD 1 0 >>> 21) &&& 1) <<< 3 else opcode
  ⟨enc, opcode, raw, size, i, false, 0, .kNone⟩

/-- `extension` before a literal is taken. -/
def baseExtension (inst : Inst) (w : ℕ) : InstExtension :=
  match inst.enc with
  | .kVop1 | .kVop2 | .kVopc => valuExtension w
  | _ => .kNone

/-- `lit`: a dword trails. -/
def hasTrailing (inst : Inst) (w : ℕ) : Bool :=
  match inst.enc with
  | .kSop2 | .kSopc => scalar2HasLit w
  | .kSop1 => scalar1HasLit w
  | .kSopk => inst.opcode = 0x15
  | .kVop2 =>
    valuExtension w ≠ .kNone || inst.opcode = 0x20 || inst.opcode = 0x21 ||
      inst.opcode = 0x2C || inst.opcode = 0x2D || inst.opcode = 0x37 || inst.opcode = 0x38
  | .kVop1 | .kVopc => valuExtension w ≠ .kNone
  | .kVop3 | .kVop3p =>
    (List.range (vop3SourceCount inst.enc inst.opcode)).any fun src =>
      (inst.raw.getD 1 0 >>> (src * 9)) &&& 0x1FF = 255
  | _ => false

/-- An instruction of its family completed by the dword `tail` behind it, unless `cut` off. -/
def complete (inst : Inst) (w tail : ℕ) (cut : Bool) : Inst :=
  let lit := hasTrailing inst w
  let inst := { inst with extension := baseExtension inst w }
  if lit && !cut then
    if inst.extension ≠ .kNone ∧ inst.extension ≠ .kLiteral then
      { inst with raw := inst.raw ++ [tail], size := inst.size + 1 }
    else
      { inst with
        hasLiteral := true
        literal := tail
        extension := .kLiteral
        size := inst.size + 1 }
  else if lit then { inst with enc := .kUnknown, opcode := 0 }
  else inst

def cutInst (code : Code) (maxDwords i : ℕ) : Inst :=
  ⟨.kUnknown, 0, dwordsAt code i (maxDwords - i), maxDwords - i, i, false, 0, .kNone⟩

/-- One turn of the loop of `Decode`, at the dword `i`. -/
def decodeInst (code : Code) (maxDwords i : ℕ) : Inst :=
  if i + (decodeBase code i).size > maxDwords then cutInst code maxDwords i
  else
    complete (decodeBase code i) (code i) (code (i + (decodeBase code i).size))
      (i + (decodeBase code i).size ≥ maxDwords)

/-- The low half of a word as a signed number. -/
def simm16 (w : ℕ) : ℤ :=
  if w &&& 0xFFFF < 0x8000 then ((w &&& 0xFFFF : ℕ) : ℤ) else ((w &&& 0xFFFF : ℕ) : ℤ) - 0x10000

/-- `s_branch` and the conditional branches, whose targets `furthest_target` follows. -/
def isBranch (inst : Inst) : Bool :=
  inst.enc = .kSopp && (inst.opcode = 0x02 || (0x04 ≤ inst.opcode && inst.opcode ≤ 0x09) ||
    (0x17 ≤ inst.opcode && inst.opcode ≤ 0x1A))

/-- `furthest_target` behind an instruction. -/
def furthestTarget (maxDwords furthest : ℕ) (inst : Inst) : ℕ :=
  let target := (inst.pc : ℤ) + inst.size + simm16 (inst.raw.getD 0 0)
  if isBranch inst ∧ target > 0 ∧ target.toNat > furthest ∧ target.toNat < maxDwords then
    target.toNat
  else furthest

def endsScan (stopAtEndpgm : Bool) (furthest : ℕ) (inst : Inst) : Bool :=
  inst.enc = .kSopp && (inst.opcode = 0x1F || (stopAtEndpgm && inst.pc + inst.size > furthest &&
      (inst.opcode = 0x01 || inst.opcode = 0x1B || inst.opcode = 0x1E)))

/-- The loop of `Decode`. The first argument bounds its turns. -/
def decodeLoop (code : Code) (maxDwords : ℕ) (stopAtEndpgm : Bool) : ℕ → ℕ → ℕ → Program
  | 0, _, _ => []
  | turns + 1, i, furthest =>
    if i < maxDwords then
      let inst := decodeInst code maxDwords i
      let furthest := furthestTarget maxDwords furthest inst
      inst :: if i + (decodeBase code i).size > maxDwords ∨
          endsScan stopAtEndpgm furthest inst = true then []
        else decodeLoop code maxDwords stopAtEndpgm turns (i + inst.size) furthest
    else []

/-- `Decode`: each turn advances by a dword at least. -/
def decode (code : Code) (maxDwords : ℕ) (stopAtEndpgm : Bool) : Program :=
  decodeLoop code maxDwords stopAtEndpgm maxDwords 0 0

/-! ## A shader -/

/-- `BinaryInfoAt` at the dword `d`, whose byte offset has 32 bits. -/
def binaryInfoAt (code : Code) (d : ℕ) : Bool := orbShdrAt code (d % 2 ^ 30)

def codeLength (code : Code) (maxDwords : ℕ) : ℕ :=
  if maxDwords < 2 then 0
  else
    let d := (code 1 + 1) % 2 ^ 32 * 2
    if code 0 = 0xBEEB03FF ∧ d ≥ 2 ∧ d + 2 ≤ maxDwords ∧ binaryInfoAt code d = true then d
    else ((List.range maxDwords).find? fun d =>
      1 ≤ d && d + 2 ≤ maxDwords && binaryInfoAt code d).getD 0

def decodeShader (code : Code) (maxDwords : ℕ) : Program :=
  let len := codeLength code maxDwords
  if len ≠ 0 ∧ len ≤ maxDwords then decode code len false else decode code maxDwords true

/-! ## Where instructions lie -/

/-- How RDNA instructions lie in the code, with the way a program sends the control. -/
def listing (flow : Inst → FlowKind) : Listing Inst where
  pc := Inst.pc
  size := Inst.size
  flow := flow
  target inst := (((inst.pc : ℤ) + inst.size + simm16 (inst.raw.getD 0 0)) % 2 ^ 32).toNat

section Contiguous

variable {code : Code} {maxDwords i : ℕ} {flow : Inst → FlowKind}

theorem baseSize_pos (enc : Enc) (w : ℕ) : 0 < baseSize enc w := by
  unfold baseSize
  split
  · exact Nat.two_pos
  · cases enc with
    | kMimg => exact Nat.add_pos_left Nat.two_pos _
    | _ => simp

theorem decodeBase_size_pos (code : Code) (i : ℕ) : 0 < (decodeBase code i).size := baseSize_pos _ _

theorem complete_pc (inst : Inst) (w tail : ℕ) (cut : Bool) : (complete inst w tail cut).pc = inst.pc := by
  simp only [complete, apply_ite Inst.pc, ite_self]

theorem complete_size (inst : Inst) (w tail : ℕ) (cut : Bool) :
    (complete inst w tail cut).size = if hasTrailing inst w && !cut then inst.size + 1 else inst.size := by
  simp only [complete, apply_ite Inst.size, ite_self]

theorem decodeInst_pc (code : Code) (maxDwords i : ℕ) : (decodeInst code maxDwords i).pc = i := by
  unfold decodeInst
  split
  · rfl
  · exact complete_pc _ _ _ _

theorem decodeInst_size_pos (hi : i < maxDwords) : 0 < (decodeInst code maxDwords i).size := by
  have hbase := decodeBase_size_pos code i
  unfold decodeInst
  split
  · exact Nat.sub_pos_of_lt hi
  · rw [complete_size]
    split <;> omega

theorem decodeInst_size_le (hi : i < maxDwords) : i + (decodeInst code maxDwords i).size ≤ maxDwords := by
  unfold decodeInst
  split
  · simp only [cutInst]
    omega
  · rw [complete_size]
    split
    · rename_i hcut
      simp only [Bool.and_eq_true, Bool.not_eq_true', decide_eq_false_iff_not] at hcut
      omega
    · omega

theorem contiguousFrom_decodeLoop (code : Code) (maxDwords : ℕ) (stop : Bool) (turns i furthest : ℕ) :
    (listing flow).ContiguousFrom i (decodeLoop code maxDwords stop turns i furthest) := by
  induction turns generalizing i furthest with
  | zero => trivial
  | succ turns ih =>
    rw [decodeLoop]
    split
    · rename_i hi
      refine ⟨decodeInst_pc code maxDwords i, decodeInst_size_pos hi, ?_⟩
      split
      · trivial
      · exact ih _ _
    · trivial

/-- **A decoded shader has no gaps.** -/
theorem contiguous_decodeShader (flow : Inst → FlowKind) (code : Code) (maxDwords : ℕ) :
    (listing flow).Contiguous (decodeShader code maxDwords) := by
  unfold decodeShader
  dsimp only
  split
  · exact contiguousFrom_decodeLoop _ _ _ _ _ _
  · exact contiguousFrom_decodeLoop _ _ _ _ _ _

theorem contiguous_decode (flow : Inst → FlowKind) (code : Code) (maxDwords : ℕ) (stop : Bool) :
    (listing flow).Contiguous (decode code maxDwords stop) :=
  contiguousFrom_decodeLoop _ _ _ _ _ _

end Contiguous

/-! ## The text of a program -/

section Text

variable {code code' : Code} {maxDwords i last : ℕ}

theorem dwordsAt_congr {n : ℕ} (h : ∀ d < i + n, code d = code' d) : dwordsAt code i n = dwordsAt code' i n :=
  List.map_congr_left fun _ hd => h _ (Nat.add_lt_add_left (List.mem_range.mp hd) i)

theorem decodeBase_congr (h : ∀ d < i + (decodeBase code i).size, code d = code' d) :
    decodeBase code i = decodeBase code' i := by
  have hi : code i = code' i := h i (Nat.lt_add_of_pos_right (decodeBase_size_pos code i))
  have hraw : dwordsAt code i (baseSize (classify (code i)).1 (code i)) =
      dwordsAt code' i (baseSize (classify (code i)).1 (code i)) := dwordsAt_congr h
  simp only [decodeBase, ← hi, hraw]

theorem complete_of_size (inst : Inst) (w tail tail' : ℕ) (hsize : (complete inst w tail false).size = inst.size) :
    complete inst w tail false = complete inst w tail' true := by
  rw [complete_size] at hsize
  have hlit : hasTrailing inst w = false := by
    by_contra hlit
    simp [hlit] at hsize
  simp [complete, hlit]

theorem decodeInst_congr (hlast : last ≤ maxDwords) (hi : i < last)
    (hsize : i + (decodeInst code maxDwords i).size ≤ last) (hcode : ∀ d < last, code d = code' d) :
    decodeInst code maxDwords i = decodeInst code' last i := by
  by_cases hcut : i + (decodeBase code i).size > maxDwords
  · -- the code ends inside the instruction
    rw [decodeInst, if_pos hcut] at hsize ⊢
    simp only [cutInst] at hsize
    obtain rfl : last = maxDwords := by omega
    have hcut' : i + (decodeBase code' i).size > last := by
      by_contra hle
      have hsame : decodeBase code' i = decodeBase code i :=
        decodeBase_congr fun d hd => (hcode d (by omega)).symm
      rw [hsame] at hle
      exact hle hcut
    rw [decodeInst, if_pos hcut']
    simp only [cutInst]
    have hdwords : dwordsAt code i (last - i) = dwordsAt code' i (last - i) :=
      dwordsAt_congr fun d hd => hcode d (by omega)
    rw [hdwords]
  · rw [decodeInst, if_neg hcut] at hsize ⊢
    have hbase : i + (decodeBase code i).size ≤ last := by
      rw [complete_size] at hsize
      split at hsize <;> omega
    have hb := decodeBase_congr fun d hd => hcode d (Nat.lt_of_lt_of_le hd hbase)
    have hw : code i = code' i := hcode i hi
    rw [decodeInst, ← hb, if_neg (Nat.not_lt.mpr hbase), ← hw]
    generalize decodeBase code i = b at hsize hbase ⊢
    by_cases hend : i + b.size ≥ last
    · rw [decide_eq_true hend]
      by_cases hmax : i + b.size ≥ maxDwords
      · rw [decide_eq_true hmax]
        simp only [complete, Bool.not_true, Bool.and_false, Bool.false_eq_true, if_false]
      · -- nothing trails, or the instruction would not end in time
        rw [decide_eq_false hmax] at hsize ⊢
        refine complete_of_size _ _ _ _ ?_
        rw [complete_size] at hsize ⊢
        split at hsize
        · omega
        · rename_i hlit
          rw [if_neg hlit]
    · rw [decide_eq_false hend, decide_eq_false (by omega), hcode (i + b.size) (by omega)]

/-- Where a list of instructions that begins at `pc` ends. -/
def endFrom (pc : ℕ) : Program → ℕ
  | [] => pc
  | inst :: rest => endFrom (pc + inst.size) rest

theorem le_endFrom (pc : ℕ) (program : Program) : pc ≤ endFrom pc program := by
  induction program generalizing pc with
  | nil => exact Nat.le_refl _
  | cons inst rest ih => exact Nat.le_trans (Nat.le_add_right _ _) (ih _)

theorem endFrom_decodeLoop_le {stop : Bool} {turns furthest : ℕ} (hi : i ≤ maxDwords) :
    endFrom i (decodeLoop code maxDwords stop turns i furthest) ≤ maxDwords := by
  induction turns generalizing i furthest with
  | zero => exact hi
  | succ turns ih =>
    rw [decodeLoop]
    split
    · rename_i hlt
      rw [endFrom]
      split
      · exact decodeInst_size_le hlt
      · exact ih (decodeInst_size_le hlt)
    · exact hi

theorem decodeLoop_eq_cons {stop : Bool} {turns furthest : ℕ} {inst : Inst} {rest : Program}
    (h : decodeLoop code maxDwords stop turns i furthest = inst :: rest) :
    i < maxDwords ∧ inst = decodeInst code maxDwords i ∧ ∃ turns' furthest', rest =
        decodeLoop code maxDwords stop turns' (i + inst.size) furthest' := by
  cases turns with
  | zero => cases h
  | succ turns =>
    rw [decodeLoop] at h
    split at h
    · rename_i hlt
      obtain ⟨rfl, rfl⟩ := List.cons.inj h
      refine ⟨hlt, rfl, ?_⟩
      split
      · exact ⟨0, 0, rfl⟩
      · exact ⟨turns, _, rfl⟩
    · cases h

theorem decodeLoop_eq_nil_of_end {stop : Bool} {turns furthest : ℕ}
    (h : endFrom i (decodeLoop code maxDwords stop turns i furthest) ≤ i) :
    decodeLoop code maxDwords stop turns i furthest = [] := by
  cases hp : decodeLoop code maxDwords stop turns i furthest with
  | nil => rfl
  | cons inst rest =>
    obtain ⟨hlt, hinst, -⟩ := decodeLoop_eq_cons hp
    have hpos : 0 < inst.size := hinst ▸ decodeInst_size_pos hlt
    rw [hp, endFrom] at h
    have := le_endFrom (i + inst.size) rest
    omega

/-- **The dwords of a program determine it**, whatever bounds the decoder. -/
theorem decodeLoop_congr {maxDwords' : ℕ} {stop stop' : Bool} {turns turns' furthest furthest' : ℕ}
    (hend : endFrom i (decodeLoop code maxDwords stop turns i furthest) =
      endFrom i (decodeLoop code' maxDwords' stop' turns' i furthest'))
    (hcode : ∀ d < endFrom i (decodeLoop code maxDwords stop turns i furthest), code d = code' d) :
    decodeLoop code maxDwords stop turns i furthest = decodeLoop code' maxDwords' stop' turns' i furthest' := by
  generalize hp : decodeLoop code maxDwords stop turns i furthest = program at hend hcode ⊢
  induction program generalizing i turns turns' furthest furthest' with
  | nil => exact (decodeLoop_eq_nil_of_end (Nat.le_of_eq hend.symm)).symm
  | cons inst rest ih =>
    obtain ⟨hlt, hinst, next, far, hrest⟩ := decodeLoop_eq_cons hp
    have hpos : 0 < inst.size := hinst ▸ decodeInst_size_pos hlt
    have hle := le_endFrom (i + inst.size) rest
    cases hp' : decodeLoop code' maxDwords' stop' turns' i furthest' with
    | nil =>
      rw [hp'] at hend
      simp only [endFrom] at hend
      omega
    | cons inst' rest' =>
      rw [hp'] at hend
      obtain ⟨hlt', hinst', next', far', hrest'⟩ := decodeLoop_eq_cons hp'
      have hle' := le_endFrom (i + inst'.size) rest'
      have hpos' : 0 < inst'.size := hinst' ▸ decodeInst_size_pos hlt'
      -- both instructions are what the dwords up to the common end decode to
      have hbound : endFrom i (inst :: rest) ≤ maxDwords :=
        hp ▸ endFrom_decodeLoop_le (Nat.le_of_lt hlt)
      have hbound' : endFrom i (inst' :: rest') ≤ maxDwords' :=
        hp' ▸ endFrom_decodeLoop_le (Nat.le_of_lt hlt')
      have hlast : inst = decodeInst code (endFrom i (inst :: rest)) i := by
        rw [hinst]
        refine decodeInst_congr (hinst ▸ hbound) ?_ ?_ fun _ _ => rfl
        · rw [← hinst, endFrom]
          omega
        · rw [← hinst, endFrom]
          exact hle
      have hlast' : inst' = decodeInst code (endFrom i (inst' :: rest')) i := by
        rw [hinst']
        refine decodeInst_congr (hinst' ▸ hbound') ?_ ?_ fun d hd => ?_
        · rw [← hinst', endFrom]
          omega
        · rw [← hinst', endFrom]
          exact hle'
        · rw [← hinst', ← hend] at hd
          exact (hcode d hd).symm
      rw [← hend] at hlast'
      obtain rfl : inst = inst' := hlast.trans hlast'.symm
      subst hrest'
      rw [ih hrest.symm hend hcode]

def textOf (code : Code) (program : Program) : List ℕ := (List.range (endFrom 0 program)).map code

theorem decodeShader_eq_loop (code : Code) (maxDwords : ℕ) : ∃ last stop,
    decodeShader code maxDwords = decodeLoop code last stop last 0 0 := by
  unfold decodeShader
  dsimp only
  split
  · exact ⟨_, _, rfl⟩
  · exact ⟨_, _, rfl⟩

/-- **The text of a shader determines its program.** -/
theorem decodeShader_eq_of_text {maxDwords' : ℕ}
    (h : textOf code (decodeShader code maxDwords) = textOf code' (decodeShader code' maxDwords')) :
    decodeShader code maxDwords = decodeShader code' maxDwords' := by
  obtain ⟨last, stop, hp⟩ := decodeShader_eq_loop code maxDwords
  obtain ⟨last', stop', hp'⟩ := decodeShader_eq_loop code' maxDwords'
  have hend : endFrom 0 (decodeShader code maxDwords) =
      endFrom 0 (decodeShader code' maxDwords') := by
    simpa [textOf] using congrArg List.length h
  have hcode : ∀ d < endFrom 0 (decodeShader code maxDwords), code d = code' d := by
    intro d hd
    rw [textOf, textOf, ← hend] at h
    exact List.map_inj_left.mp h d (List.mem_range.mpr hd)
  rw [hp] at hcode
  rw [hp, hp'] at hend ⊢
  exact decodeLoop_congr hend hcode

end Text

end Prosperity.Rdna
