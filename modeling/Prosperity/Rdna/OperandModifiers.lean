import Mathlib.Logic.Function.Basic
import Prosperity.Rdna.ScalarSlice

/-!
# SDWA and DPP

What `RdnaEmitInstBody` makes of the vector instructions VOP1, VOP2 and VOPC: a modifier dword behind the
instruction names the source, and the part of it that is read (SDWA) or the lane that it is read from (DPP).
A dword is a bit vector; the arithmetic on floats, the functions of one and two sources that the shared
emitters compute and the predicates of the compares are parameters. An emission is `none` where the
translator reports the instruction.
-/

namespace Prosperity.Rdna

open Gcn (Enc)

abbrev Dword := BitVec 32

abbrev Operand := Fin 64 → Dword

@[ext] structure Wave where
  vgpr : Fin 64 → ℕ → Dword
  sgpr : ℕ → Dword

/-- What is left open here. -/
structure ValuOps where
  /-- What `EmitVop1` gives the destination. -/
  unary : ℕ → Dword → Dword
  /-- What `EmitVop2` gives the destination in a lane. -/
  binary : ℕ → Fin 64 → Dword → Dword → Dword
  /-- The predicate of a compare: the sources as floats, and as they are. -/
  compare : ℕ → Dword → Dword → Dword → Dword → Bool
  /-- `ReadFirstLane` -/
  firstLane : Wave → Operand → Dword
  /-- The sources VCCZ, EXECZ and SCC. -/
  special : Wave → ℕ → Dword
  fadd : Dword → Dword → Dword
  fsub : Dword → Dword → Dword
  fmul : Dword → Dword → Dword
  fma : Dword → Dword → Dword → Dword
  nmax : Dword → Dword → Dword
  nmin : Dword → Dword → Dword
  ldexp : Dword → Dword → Dword
  clamp01 : Dword → Dword
  unpackHalf : Dword → Dword
  packHalf : Dword → Dword
  wave64 : Bool
  subgroup : Bool

/-! ## Registers -/

namespace Wave

variable (w : Wave)

/-- The bit of a lane in a mask. -/
def flag (sgpr : ℕ) (l : Fin 64) : Bool := (w.sgpr (sgpr + l / 32)).getLsbD (l % 32)

/-- `LaneActive(Exec())` -/
def active (l : Fin 64) : Bool := w.flag 126 l

def setVg (r : ℕ) (v : Operand) : Wave :=
  { w with vgpr := fun l q => if q = r ∧ w.active l = true then v l else w.vgpr l q }

/-- `StorePrivate` of a register. -/
def storeVg (r : ℕ) (v : Operand) : Wave := { w with vgpr := fun l q => if q = r then v l else w.vgpr l q }

def setSg (r : ℕ) (v : Dword) : Wave := if r = 125 then w else { w with sgpr := Function.update w.sgpr r v }

/-- The bits of 32 lanes. -/
def maskDword (flags : Fin 64 → Bool) (base : ℕ) : Dword :=
  (List.range 32).foldl
    (fun mask i => if h : base + i < 64 then if flags ⟨base + i, h⟩ then mask ||| (1#32 <<< i) else mask else mask) 0

/-- `SetMask` of the active lanes. -/
def setMask (wave64 : Bool) (r : ℕ) (flags : Fin 64 → Bool) : Wave :=
  let kept := fun l => flags l && w.active l
  let low := w.setSg r (maskDword kept 0)
  if wave64 then low.setSg (r + 1) (maskDword kept 32) else low

end Wave

/-! ## Operands -/

structure SdwaMod where
  src0 : ℕ
  src1 : ℕ
  src0Sel : ℕ
  src1Sel : ℕ
  src0Sext : Bool
  src1Sext : Bool
  src0Neg : Bool
  src0Abs : Bool
  src1Neg : Bool
  src1Abs : Bool
  dstSel : ℕ
  dstUnused : ℕ
  clamp : Bool
  omod : ℕ

/-- `DecodeSdwa` of an instruction without DPP. -/
def decodeSdwa (inst : Inst) (vsrc1 : ℕ) : SdwaMod :=
  let m := inst.word1
  { src0 := (m &&& 0xFF) + if m.testBit 23 then 0 else 256
    src1 := if m.testBit 31 then vsrc1 else vsrc1 + 256
    dstSel := (m >>> 8) &&& 7
    dstUnused := (m >>> 11) &&& 3
    clamp := m.testBit 13
    omod := (m >>> 14) &&& 3
    src0Sel := (m >>> 16) &&& 7
    src0Sext := m.testBit 19
    src0Neg := m.testBit 20
    src0Abs := m.testBit 21
    src1Sel := (m >>> 24) &&& 7
    src1Sext := m.testBit 27
    src1Neg := m.testBit 28
    src1Abs := m.testBit 29 }

def sdwaFloatMod (raw : Dword) (neg abs : Bool) : Dword :=
  let f := if abs then raw &&& 0x7FFFFFFF#32 else raw
  if neg then f ^^^ 0x80000000#32 else f

/-- `OpBitFieldSExtract` at bit 0. -/
def bitFieldSExtract (v : Dword) (bits : ℕ) : Dword := (v.setWidth bits).signExtend 32

/-- `bits` of a selection. -/
def selBits (sel : ℕ) : ℕ := if sel < 4 then 8 else 16

/-- `off` of a selection. -/
def selOff (sel : ℕ) : ℕ := if sel < 4 then sel * 8 else (sel - 4) * 16

def sdwaSelect (raw : Dword) (sel : ℕ) (sext : Bool) : Dword :=
  if sel ≥ 6 then raw
  else
    let shifted := raw >>> selOff sel
    if !sext then shifted &&& if selBits sel = 8 then 0xFF#32 else 0xFFFF#32
    else bitFieldSExtract shifted (selBits sel)

/-- The dword that `StoreSdwaResult` writes. -/
def sdwaResult (dstSel dstUnused : ℕ) (value previous : Dword) : Dword :=
  let mask := if selBits dstSel = 8 then 0xFF#32 else 0xFFFF#32
  let value := if dstUnused = 1 then bitFieldSExtract value (selBits dstSel) else value &&& mask
  let value := value <<< selOff dstSel
  if dstUnused = 2 then value ||| (previous &&& ~~~(mask <<< selOff dstSel)) else value

def storeSdwaResult (vdst : ℕ) (sd : SdwaMod) (previous : Operand) (w : Wave) : Wave :=
  if sd.dstSel ≥ 6 then w
  else w.setVg vdst fun l => sdwaResult sd.dstSel sd.dstUnused (w.vgpr l vdst) (previous l)

def omodFactor (omod : ℕ) : Dword :=
  if omod = 1 then 0x40000000#32 else if omod = 2 then 0x40800000#32 else 0x3F000000#32

def floatConst (field : ℕ) : Dword :=
  [0x3f000000#32, 0xbf000000#32, 0x3f800000#32, 0xbf800000#32, 0x40000000#32, 0xc0000000#32, 0x40800000#32,
    0xc0800000#32, 0x3e22f983#32].getD (field - 240) 0#32

def halfConst (field : ℕ) : Dword :=
  [0x3800#32, 0xb800#32, 0x3c00#32, 0xbc00#32, 0x4000#32, 0xc000#32, 0x4400#32, 0xc400#32, 0x3118#32].getD
    (field - 240) 0#32

section Emission

variable (E : ValuOps)

/-- `SrcRaw`: a field that is no source reads as zero. -/
def srcRaw (field literal : ℕ) (w : Wave) : Operand := fun l =>
  if field ≤ 127 then w.sgpr field
  else if 128 ≤ field ∧ field ≤ 192 then .ofNat 32 (field - 128)
  else if 193 ≤ field ∧ field ≤ 208 then -.ofNat 32 (field - 192)
  else if 240 ≤ field ∧ field ≤ 248 then floatConst field
  else if 251 ≤ field ∧ field ≤ 253 then E.special w field
  else if field = 255 then .ofNat 32 literal
  else if field ≥ 256 then w.vgpr l (field - 256)
  else 0#32

def rdnaF16Bits (field literal : ℕ) (w : Wave) : Operand :=
  if 240 ≤ field ∧ field ≤ 248 then fun _ => halfConst field else srcRaw E field literal w

/-! ## DPP -/

/-- `RdnaDppLane`: the lane to read, and whether it is in the row; none where the control is not known. -/
def dppLane (ctrl : ℕ) : Option ((ℕ → ℕ) × Option (ℕ → Bool)) :=
  let amount := ctrl &&& 0xF
  let row := fun l : ℕ => l &&& 0xFFFFFFF0
  let sub := fun a b : ℕ => (a + 2 ^ 32 - b) % 2 ^ 32
  if ctrl ≤ 0xFF then some (fun l => (l &&& 0xFFFFFFFC) ||| ((ctrl >>> ((l &&& 3) <<< 1)) &&& 3), none)
  else if 0x101 ≤ ctrl ∧ ctrl ≤ 0x10F then
    some (fun l => row l ||| ((l &&& 15) + amount), some fun l => (l &&& 15) < 16 - amount)
  else if 0x111 ≤ ctrl ∧ ctrl ≤ 0x11F then
    some (fun l => row l ||| sub (l &&& 15) amount, some fun l => (l &&& 15) ≥ amount)
  else if 0x121 ≤ ctrl ∧ ctrl ≤ 0x12F then
    some (fun l => row l ||| if (l &&& 15) ≥ amount then sub (l &&& 15) amount else (l &&& 15) + (16 - amount), none)
  else if ctrl = 0x140 ∨ ctrl = 0x141 then
    let laneMask := if ctrl = 0x141 then 7 else 15
    some (fun l => (l &&& (0xFFFFFFFF - laneMask)) ||| (laneMask - (l &&& laneMask)), none)
  else if 0x160 ≤ ctrl ∧ ctrl ≤ 0x16F then some (fun l => l ^^^ amount, none)
  else none

def Wave.exchange (w : Wave) (lane r : ℕ) : Dword := if h : lane < 64 then w.vgpr ⟨lane, h⟩ r else 0#32

/-- `ctrl` of a DPP instruction. -/
def dppCtrl (inst : Inst) : ℕ := (inst.word1 >>> 8) &&& 0x1FF

/-- `RdnaDppSrc0`: a lane outside its row is an approximation that is reported, without BOUND_CTRL. -/
def dppSrc0 (inst : Inst) (w : Wave) : Option Operand :=
  let src := inst.word1 &&& 0xFF
  let boundCtrl := inst.word1.testBit 19
  if !E.subgroup then none
  else
    match dppLane (dppCtrl inst) with
    | none => none
    | some (lane, none) => some fun l => w.exchange (lane l) src
    | some (lane, some valid) =>
      if !boundCtrl then none else some fun l => if valid l then w.exchange (lane l) src else 0#32

/-! ## VOP1 -/

def Inst.vdst (inst : Inst) : ℕ := (inst.word0 >>> 17) &&& 0xFF

def Inst.vsrc1 (inst : Inst) : ℕ := (inst.word0 >>> 9) &&& 0xFF

def Inst.raw0 (inst : Inst) : ℕ := inst.word0 &&& 0x1FF

/-- The opcodes that `EmitVop1` has a case for. -/
def vop1Known (op : ℕ) : Bool :=
  op ≤ 0x02 || (0x05 ≤ op && op ≤ 0x08) || (0x0a ≤ op && op ≤ 0x0e) || (0x11 ≤ op && op ≤ 0x14) ||
    (0x20 ≤ op && op ≤ 0x2e) || op = 0x33 || (0x35 ≤ op && op ≤ 0x3b)

/-- `EmitVop1` -/
def sharedVop1 (op vdst : ℕ) (s0 : Operand) (w : Wave) : Option Wave :=
  if !vop1Known op then none
  else if op = 0x00 then some w
  else if op = 0x02 then some (w.setSg vdst (E.firstLane w s0))
  else some (w.setVg vdst fun l => E.unary op (s0 l))

def applyOutput (vdst omod : ℕ) (clamp : Bool) (w : Wave) : Wave :=
  let w := if omod ≠ 0 then w.setVg vdst fun l => E.fmul (w.vgpr l vdst) (omodFactor omod) else w
  if clamp then w.setVg vdst fun l => E.clamp01 (w.vgpr l vdst) else w

/-- The register that M0 picks. -/
def movrelIndex (base : ℕ) (w : Wave) : ℕ := min (.ofNat 32 base + w.sgpr 124).toNat 255

/-- VOP1 without SDWA and DPP; `half` is the source as a half float. -/
def plainVop1 (op vdst raw0 : ℕ) (s0 half : Operand) (w : Wave) : Option Wave :=
  if op = 0x42 then some (w.storeVg (movrelIndex vdst w) s0)
  else if op = 0x43 then some (w.setVg vdst fun l => w.vgpr l (movrelIndex (raw0 &&& 0xFF) w))
  else if op = 0x44 then some (w.storeVg (movrelIndex vdst w) fun l => w.vgpr l (movrelIndex (raw0 &&& 0xFF) w))
  else if op = 0x0b then sharedVop1 E op vdst half w
  else sharedVop1 E op vdst s0 w

def sdwaSource (field sel : ℕ) (sext neg abs : Bool) (w : Wave) : Operand := fun l =>
  sdwaFloatMod (sdwaSelect (srcRaw E field 0 w l) sel sext) neg abs

def emitVop1 (inst : Inst) (dpp : Option Operand) (w : Wave) : Option Wave :=
  let op := inst.opcode
  let vdst := inst.vdst
  match dpp with
  | some s0 => sharedVop1 E op vdst s0 w
  | none =>
    if inst.raw0 = 249 then
      let sd := decodeSdwa inst 0
      if sd.dstSel > 6 ∨ sd.dstUnused > 2 ∨ sd.src0Sel > 6 then none
      else
        (sharedVop1 E op vdst (sdwaSource E sd.src0 sd.src0Sel sd.src0Sext sd.src0Neg sd.src0Abs w) w).map fun w' =>
          storeSdwaResult vdst sd (fun l => w.vgpr l vdst) (applyOutput E vdst sd.omod sd.clamp w')
    else
      plainVop1 E op vdst inst.raw0 (srcRaw E inst.raw0 inst.literal w) (rdnaF16Bits E inst.raw0 inst.literal w) w

/-! ## VOP2 -/

def rdnaSharedVop2 (op : ℕ) : Bool :=
  (0x03 ≤ op && op ≤ 0x05) || (0x08 ≤ op && op ≤ 0x0c) || (0x0f ≤ op && op ≤ 0x19) || (0x1a ≤ op && op ≤ 0x1d) ||
    (0x22 ≤ op && op ≤ 0x24) || op = 0x2f

def vop2Half (op : ℕ) : Bool := op ∈ [0x32, 0x33, 0x34, 0x35, 0x36, 0x39, 0x3a, 0x3b]

def halfResult (op : ℕ) (a b old : Dword) : Dword :=
  let x := E.unpackHalf a
  let y := E.unpackHalf b
  let r :=
    if op = 0x32 then E.fadd x y
    else if op = 0x33 then E.fsub x y
    else if op = 0x34 then E.fsub y x
    else if op = 0x35 then E.fmul x y
    else if op = 0x36 then E.fma x y (E.unpackHalf old)
    else if op = 0x39 then E.nmax x y
    else if op = 0x3a then E.nmin x y
    else E.ldexp x (bitFieldSExtract b 16)
  E.packHalf r &&& 0xFFFF#32

structure Vop2Sources where
  s0u : Operand
  s1u : Operand
  s0h : Operand
  s1h : Operand
  s0f : Operand
  s1f : Operand

def carryResult (op : ℕ) (a b : Dword) (vcc : Bool) : Dword × Bool :=
  let c : Dword := if vcc then 1#32 else 0#32
  if op = 0x28 then (a + b + c, (2 ^ 32 ≤ a.toNat + b.toNat) || (2 ^ 32 ≤ (a + b).toNat + c.toNat))
  else (a - b - c, (a.toNat < b.toNat) || ((a - b).toNat < c.toNat))

def vop2Result (op literal : ℕ) (s : Vop2Sources) (old : Operand) (w : Wave) :
    Option (Operand × Option (Fin 64 → Bool)) :=
  let lit : Dword := .ofNat 32 literal
  -- `v_ldexp_f16` has its exponent from the dword
  if vop2Half op then some (fun l => halfResult E op (s.s0h l) (if op = 0x3b then s.s1u l else s.s1h l) (old l), none)
  else if op = 0x02 ∨ op = 0x0D then none
  else if op = 0x1E then some (fun l => ~~~(s.s0u l ^^^ s.s1u l), none)
  else if op = 0x1F ∨ op = 0x2B then some (fun l => E.fma (s.s0u l) (s.s1u l) (old l), none)
  else if op = 0x25 then some (fun l => s.s0u l + s.s1u l, none)
  else if op = 0x26 then some (fun l => s.s0u l - s.s1u l, none)
  else if op = 0x27 then some (fun l => s.s1u l - s.s0u l, none)
  else if op = 0x28 ∨ op = 0x29 then
    some (fun l => (carryResult op (s.s0u l) (s.s1u l) (w.flag 106 l)).1,
      some fun l => (carryResult op (s.s0u l) (s.s1u l) (w.flag 106 l)).2)
  else if op = 0x2A then
    some (fun l => (carryResult op (s.s1u l) (s.s0u l) (w.flag 106 l)).1,
      some fun l => (carryResult op (s.s1u l) (s.s0u l) (w.flag 106 l)).2)
  else if op = 0x20 ∨ op = 0x2C then some (fun l => E.fma (s.s0u l) lit (s.s1u l), none)
  else if op = 0x21 ∨ op = 0x2D then some (fun l => E.fma (s.s0u l) (s.s1u l) lit, none)
  else if op = 0x01 then some (fun l => if w.flag 106 l then s.s1f l else s.s0f l, none)
  else if rdnaSharedVop2 op then some (fun l => E.binary op l (s.s0f l) (s.s1f l), none)
  else none

def vop2Body (op vdst literal : ℕ) (s : Vop2Sources) (w : Wave) : Option Wave :=
  (vop2Result E op literal s (fun l => w.vgpr l vdst) w).map fun r =>
    match r.2 with
    | none => w.setVg vdst r.1
    | some flags => (w.setVg vdst r.1).setMask E.wave64 106 flags

def emitVop2 (inst : Inst) (dpp : Option Operand) (w : Wave) : Option Wave :=
  let op := inst.opcode
  let vdst := inst.vdst
  let src1 := 256 + inst.vsrc1
  if inst.raw0 = 249 then
    let sd := decodeSdwa inst inst.vsrc1
    if 0x2b ≤ op ∧ op ≤ 0x2d then none
    else if sd.dstSel > 6 ∨ sd.dstUnused > 2 ∨ sd.src0Sel > 6 ∨ sd.src1Sel > 6 then none
    else
      let s0 := sdwaSource E sd.src0 sd.src0Sel sd.src0Sext sd.src0Neg sd.src0Abs w
      let s1 := sdwaSource E sd.src1 sd.src1Sel sd.src1Sext sd.src1Neg sd.src1Abs w
      (vop2Body E op vdst 0 ⟨s0, s1, s0, s1, s0, s1⟩ w).map fun w' =>
        storeSdwaResult vdst sd (fun l => w.vgpr l vdst) (applyOutput E vdst sd.omod sd.clamp w')
  else
    let s1 := srcRaw E src1 inst.literal w
    -- the shared emitter gets the source field, which DPP leaves at its marker
    let s0f := srcRaw E inst.raw0 inst.literal w
    vop2Body E op vdst inst.literal
      ⟨dpp.getD s0f, s1, dpp.getD (rdnaF16Bits E inst.raw0 inst.literal w),
        rdnaF16Bits E src1 inst.literal w, s0f, s1⟩ w

/-! ## VOPC -/

/-- `EmitVopc`: a compare that writes EXEC writes nothing else. -/
def sharedVopc (op : ℕ) (s0f s1f s0u s1u : Operand) (dst : ℕ) (w : Wave) : Wave :=
  w.setMask E.wave64 (if op.testBit 4 then 126 else dst) fun l => E.compare op (s0f l) (s1f l) (s0u l) (s1u l)

def vopcHalf (op : ℕ) : Bool := (0xC8 ≤ op && op ≤ 0xCF) || (0xD8 ≤ op && op ≤ 0xDF)

def vopcServed (op : ℕ) : Bool :=
  op ≤ 0x1F || (0x80 ≤ op && op ≤ 0x87) || (0x90 ≤ op && op ≤ 0x97) || (0xC0 ≤ op && op ≤ 0xC7) ||
    (0xD0 ≤ op && op ≤ 0xD7)

def plainVopc (op dst : ℕ) (s0 s1 s0h s1h : Operand) (w : Wave) : Option Wave :=
  if vopcHalf op then
    let gcnOp := if op ≥ 0xD8 then op - 0xD8 + 0x10 else op - 0xC8
    some (sharedVopc E gcnOp (fun l => E.unpackHalf (s0h l)) (fun l => E.unpackHalf (s1h l)) s0 s1 dst w)
  else if vopcServed op then some (sharedVopc E op s0 s1 s0 s1 dst w)
  else none

def sdwaCompareDst (inst : Inst) : ℕ := if inst.word1.testBit 15 then (inst.word1 >>> 8) &&& 0x7F else 106

def emitVopc (inst : Inst) (w : Wave) : Option Wave :=
  let op := inst.opcode
  let src1 := 256 + inst.vsrc1
  if inst.extension = .kSdwa then
    let sd := decodeSdwa inst inst.vsrc1
    if sd.src0Sel > 6 ∨ sd.src1Sel > 6 then none
    else
      let s0 := sdwaSource E sd.src0 sd.src0Sel sd.src0Sext sd.src0Neg sd.src0Abs w
      let s1 := sdwaSource E sd.src1 sd.src1Sel sd.src1Sext sd.src1Neg sd.src1Abs w
      some (sharedVopc E op s0 s1 s0 s1 (sdwaCompareDst inst) w)
  else
    plainVopc E op 106 (srcRaw E inst.raw0 inst.literal w) (srcRaw E src1 inst.literal w)
      (rdnaF16Bits E inst.raw0 inst.literal w) (rdnaF16Bits E src1 inst.literal w) w

/-! ## The dispatch -/

/-- `UnsupportedRdnaValuSource` -/
def unsupportedValuSource (field : ℕ) : Bool :=
  field < 256 && ((108 ≤ field && field ≤ 123) || (209 ≤ field && field ≤ 239) || field = 249 || field = 250 ||
    field = 254)

/-- `UsesUnsupportedRdnaSource` of a vector instruction. -/
def usesUnsupportedSource (inst : Inst) : Bool :=
  let sdwa := fun field => unsupportedValuSource field || field = 255
  if inst.extension = .kSdwa then
    let sd := decodeSdwa inst inst.vsrc1
    sdwa sd.src0 || (inst.enc ≠ .kVop1 && sdwa sd.src1)
  else unsupportedValuSource inst.raw0

def emitFamily (inst : Inst) (dpp : Option Operand) (w : Wave) : Option Wave :=
  match inst.enc with
  | .kVop1 => emitVop1 E inst dpp w
  | .kVop2 => emitVop2 E inst dpp w
  | .kVopc => emitVopc E inst w
  | _ => none

/-- `RdnaEmitInstBody` of a VOP1, VOP2 or VOPC instruction. -/
def emitValu (inst : Inst) (w : Wave) : Option Wave :=
  match inst.extension with
  | .kDpp => (dppSrc0 E inst w).bind fun s0 => emitFamily E inst (some s0) w
  | .kDpp8 | .kDpp8Fi => none
  | _ => if usesUnsupportedSource inst then none else emitFamily E inst none w

end Emission

end Prosperity.Rdna
