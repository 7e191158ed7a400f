import Mathlib.Algebra.Group.Nat.Defs
import Mathlib.Data.Fin.Basic
import Mathlib.Data.List.Basic

/-!
# Store instructions

The instructions of two instruction sets whose whole effect is a store of 32 bits: the moves of a register or
a constant to memory of the 64-bit x86, in 64-bit mode without prefixes other than REX, and the stores of a
register of the 64-bit Arm with an immediate offset, scaled or not, or with release.

An instruction is a syntax tree. What it does is said of the tree, and its encoding is a relation between
the tree and the machine code.
-/

namespace Prosperity

namespace X86

/-- The general-purpose registers, by their number, and the address of the instruction. -/
structure Regs where
  gpr : Fin 16 → UInt64
  rip : UInt64

inductive Base where
  | none
  | reg (r : Fin 16)
  | rip

/-- An operand in memory: a base, an index with the shift that scales it, and a displacement. -/
structure Mem where
  base : Base
  index : Option (Fin 16 × Fin 4)
  disp : UInt64

inductive Source where
  | reg (r : Fin 16)
  | imm (v : UInt32)

/-- A move of 32 bits to memory. -/
structure Store where
  mem : Mem
  source : Source

/-- The effective address of an operand of an instruction of `length` bytes. -/
def Mem.address (m : Mem) (s : Regs) (length : ℕ) : UInt64 :=
  (match m.base with
    | .none => 0
    | .reg r => s.gpr r
    | .rip => s.rip + .ofNat length) +
    (match m.index with
      | none => 0
      | some (r, scale) => s.gpr r <<< .ofNat scale) + m.disp

def Source.value (v : Source) (s : Regs) : UInt32 :=
  match v with
  | .reg r => (s.gpr r).toUInt32
  | .imm v => v

def Store.effect (i : Store) (s : Regs) (length : ℕ) : UInt64 × UInt32 :=
  (i.mem.address s length, i.source.value s)

/-! ## Encoding -/

def rexByte (r x b : Bool) : UInt8 := .ofNat (0x40 + 4 * r.toNat + 2 * x.toNat + b.toNat)

def modrm (mod : Fin 4) (reg rm : Fin 8) : UInt8 := .ofNat (64 * mod + 8 * reg + rm)

def sib (scale : Fin 4) (index base : Fin 8) : UInt8 := .ofNat (64 * scale + 8 * index + base)

def ext (bit : Bool) (r : Fin 8) : Fin 16 := ⟨8 * bit.toNat + r, by cases bit <;> simp <;> omega⟩

def indexOf (x : Bool) (index : Fin 8) (scale : Fin 4) : Option (Fin 16 × Fin 4) :=
  if ext x index = 4 then none else some (ext x index, scale)

/-- A number of four bytes, the least significant first. -/
def dword (b₀ b₁ b₂ b₃ : UInt8) : UInt32 :=
  .ofNat (b₀.toNat + 256 * (b₁.toNat + 256 * (b₂.toNat + 256 * b₃.toNat)))

/-- A displacement of one byte, with its sign. -/
def disp8 (b : UInt8) : UInt64 := b.toInt8.toInt64.toUInt64

/-- A displacement of four bytes, with its sign. -/
def disp32 (d : UInt32) : UInt64 := d.toInt32.toInt64.toUInt64

/-- **The operands in memory** by their ModRM and SIB bytes and the displacement, with the bits X and B of REX. -/
inductive EncodesMem (x b : Bool) (reg : Fin 8) : List UInt8 → Mem → Prop
  | base (rm : Fin 8) : rm ≠ 4 → rm ≠ 5 → EncodesMem x b reg [modrm 0 reg rm] ⟨.reg (ext b rm), none, 0⟩
  | base8 (rm : Fin 8) (d : UInt8) : rm ≠ 4 → EncodesMem x b reg [modrm 1 reg rm, d] ⟨.reg (ext b rm), none, disp8 d⟩
  | base32 (rm : Fin 8) (d₀ d₁ d₂ d₃ : UInt8) : rm ≠ 4 →
      EncodesMem x b reg [modrm 2 reg rm, d₀, d₁, d₂, d₃] ⟨.reg (ext b rm), none, disp32 (dword d₀ d₁ d₂ d₃)⟩
  | rip (d₀ d₁ d₂ d₃ : UInt8) :
      EncodesMem x b reg [modrm 0 reg 5, d₀, d₁, d₂, d₃] ⟨.rip, none, disp32 (dword d₀ d₁ d₂ d₃)⟩
  | sib (scale : Fin 4) (index base : Fin 8) : base ≠ 5 → EncodesMem x b reg [modrm 0 reg 4, sib scale index base]
        ⟨.reg (ext b base), indexOf x index scale, 0⟩
  | sibNoBase (scale : Fin 4) (index : Fin 8) (d₀ d₁ d₂ d₃ : UInt8) :
      EncodesMem x b reg [modrm 0 reg 4, X86.sib scale index 5, d₀, d₁, d₂, d₃]
        ⟨.none, indexOf x index scale, disp32 (dword d₀ d₁ d₂ d₃)⟩
  | sib8 (scale : Fin 4) (index base : Fin 8) (d : UInt8) :
      EncodesMem x b reg [modrm 1 reg 4, X86.sib scale index base, d]
        ⟨.reg (ext b base), indexOf x index scale, disp8 d⟩
  | sib32 (scale : Fin 4) (index base : Fin 8) (d₀ d₁ d₂ d₃ : UInt8) :
      EncodesMem x b reg [modrm 2 reg 4, X86.sib scale index base, d₀, d₁, d₂, d₃]
        ⟨.reg (ext b base), indexOf x index scale, disp32 (dword d₀ d₁ d₂ d₃)⟩

inductive EncodesRex : List UInt8 → Bool → Bool → Bool → Prop
  | none : EncodesRex [] false false false
  | rex (r x b : Bool) : EncodesRex [rexByte r x b] r x b

/-- **The moves to memory** by their bytes: opcode 89 with a register, and opcode C7 with a constant. -/
inductive Encodes : List UInt8 → Store → Prop
  | reg {front operand : List UInt8} {r x b : Bool} {reg : Fin 8} {m : Mem} :
      EncodesRex front r x b → EncodesMem x b reg operand m → Encodes (front ++ 0x89 :: operand) ⟨m, .reg (ext r reg)⟩
  | imm {front operand : List UInt8} {r x b : Bool} {m : Mem} (v₀ v₁ v₂ v₃ : UInt8) :
      EncodesRex front r x b → EncodesMem x b 0 operand m →
        Encodes (front ++ 0xC7 :: (operand ++ [v₀, v₁, v₂, v₃])) ⟨m, .imm (dword v₀ v₁ v₂ v₃)⟩

end X86

namespace A64

/-- The registers: the number 31 is the stack pointer as a base, and zero as a source. -/
structure Regs where
  x : Fin 31 → UInt64
  sp : UInt64
  pc : UInt64

/-- Stores of 32 bits from `rt` at the base `rn`. -/
inductive Store where
  /-- STR with an offset that counts words. -/
  | str (imm12 : BitVec 12) (rn rt : Fin 32)
  | stur (imm9 : BitVec 9) (rn rt : Fin 32)
  | stlr (rn rt : Fin 32)

def Store.encode : Store → UInt32
  | .str imm12 rn rt => .ofNat (0x2E4 * 2 ^ 22 + imm12.toNat * 2 ^ 10 + rn * 2 ^ 5 + rt)
  | .stur imm9 rn rt => .ofNat (0x5C0 * 2 ^ 21 + imm9.toNat * 2 ^ 12 + rn * 2 ^ 5 + rt)
  | .stlr rn rt => .ofNat (0x22_27FF * 2 ^ 10 + rn * 2 ^ 5 + rt)

def Regs.base (s : Regs) (rn : Fin 32) : UInt64 := if h : (rn : ℕ) < 31 then s.x ⟨rn, h⟩ else s.sp

def Regs.source (s : Regs) (rt : Fin 32) : UInt32 := if h : (rt : ℕ) < 31 then (s.x ⟨rt, h⟩).toUInt32 else 0

def Store.effect (i : Store) (s : Regs) : UInt64 × UInt32 :=
  match i with
  | .str imm12 rn rt => (s.base rn + .ofNat (4 * imm12.toNat), s.source rt)
  | .stur imm9 rn rt => (s.base rn + .ofBitVec (imm9.signExtend 64), s.source rt)
  | .stlr rn rt => (s.base rn, s.source rt)

end A64

end Prosperity
