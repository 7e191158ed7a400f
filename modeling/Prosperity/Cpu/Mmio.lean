import Prosperity.Foundations.StoreIsa

/-!
# Emulated stores to devices

A guest store that faults is decoded by hand, and reported to the device. If the device takes it, the program
counter goes on behind the instruction. There is one decoder for each host.

The registers of a context are given by the number that the instruction set gives them, which is the order of
`kRegisters`. The reports are listed beside what the handler returns.
-/

namespace Prosperity.Cpu

/-- What a handler returns, the context that it leaves, and what it reports. -/
structure Handled (ρ : Type) where
  taken : Bool
  context : ρ
  reports : List (UInt64 × UInt32)

/-- `target != address || !write(address, value)`, and what follows with the context of a store that is taken. -/
def finish {ρ : Type} (context advanced : ρ) (target address : UInt64) (value : UInt32)
    (write : UInt64 → UInt32 → Bool) : Handled ρ :=
  if target ≠ address then ⟨false, context, []⟩
  else if write address value then ⟨true, advanced, [(address, value)]⟩
  else ⟨false, context, [(address, value)]⟩

namespace X86

open Prosperity.X86

def register (s : Regs) (n : UInt8) : UInt64 := s.gpr ⟨n.toNat % 16, Nat.mod_lt _ (by decide)⟩

def code32 (code : ℕ → UInt8) (at_ : ℕ) : UInt32 := dword (code at_) (code (at_ + 1)) (code (at_ + 2)) (code (at_ + 3))

structure Target where
  target : UInt64
  displacement32 : Bool
  ripRelative : Bool
  length : ℕ

def modrmTarget (s : Regs) (code : ℕ → UInt8) (rex modrm : UInt8) (length : ℕ) : Target :=
  let mod := modrm >>> 6
  let rm := modrm &&& 7
  if rm = 4 then
    let sib := code length
    let length := length + 1
    let index := ((sib >>> 3) &&& 7) ||| (if rex &&& 2 ≠ 0 then 8 else 0)
    let target := if index ≠ 4 then register s index <<< (sib >>> 6).toUInt64 else 0
    if mod = 0 ∧ sib &&& 7 = 5 then ⟨target, true, false, length⟩
    else ⟨target + register s ((sib &&& 7) ||| (if rex &&& 1 ≠ 0 then 8 else 0)), mod = 2, false, length⟩
  else if mod = 0 ∧ rm = 5 then ⟨0, true, true, length⟩
  else ⟨register s (rm ||| (if rex &&& 1 ≠ 0 then 8 else 0)), mod = 2, false, length⟩

/-- The displacement. -/
def displaced (code : ℕ → UInt8) (mod : UInt8) (t : Target) : Target :=
  let t := if mod = 1 then { t with target := t.target + disp8 (code t.length), length := t.length + 1 } else t
  if t.displacement32 then { t with target := t.target + disp32 (code32 code t.length), length := t.length + 4 }
  else t

def storedValue (s : Regs) (code : ℕ → UInt8) (rex opcode modrm : UInt8) (length : ℕ) : UInt32 × ℕ :=
  if opcode = 0xC7 then (code32 code length, length + 4)
  else ((register s (((modrm >>> 3) &&& 7) ||| (if rex &&& 4 ≠ 0 then 8 else 0))).toUInt32, length)

/-- `HandleMmioWrite` from the opcode on. -/
def handleOpcode (s : Regs) (code : ℕ → UInt8) (rex : UInt8) (length : ℕ) (address : UInt64)
    (write : UInt64 → UInt32 → Bool) : Handled Regs :=
  let opcode := code length
  if opcode ≠ 0x89 ∧ opcode ≠ 0xC7 then ⟨false, s, []⟩
  else
    let modrm := code (length + 1)
    if modrm >>> 6 = 3 ∨ (opcode = 0xC7 ∧ modrm &&& 0x38 ≠ 0) then ⟨false, s, []⟩
    else
      let t := displaced code (modrm >>> 6) (modrmTarget s code rex modrm (length + 2))
      let (value, length) := storedValue s code rex opcode modrm t.length
      let target := if t.ripRelative then t.target + (s.rip + .ofNat length) else t.target
      finish s { s with rip := s.rip + .ofNat length } target address value write

/-- `HandleMmioWrite` on x86-64, for a context that is not null. The code is what is at the program counter. -/
def handleMmioWrite (s : Regs) (code : ℕ → UInt8) (address : UInt64) (write : UInt64 → UInt32 → Bool) : Handled Regs :=
  if code 0 &&& 0xF0 = 0x40 then
    if code 0 &&& 8 ≠ 0 then ⟨false, s, []⟩ else handleOpcode s code (code 0) 1 address write
  else handleOpcode s code 0 0 address write

end X86

namespace A64

open Prosperity.A64

def baseOf (s : Regs) (base : UInt32) : UInt64 := if h : base.toNat < 31 then s.x ⟨base.toNat, h⟩ else s.sp

def sourceOf (s : Regs) (source : UInt32) : UInt32 :=
  if h : source.toNat < 31 then (s.x ⟨source.toNat, h⟩).toUInt32 else 0

/-- `HandleMmioWrite` on aarch64, for a context that is not null. The instruction is the word at the program counter. -/
def handleMmioWrite (s : Regs) (instruction : UInt32) (address : UInt64) (write : UInt64 → UInt32 → Bool) :
    Handled Regs :=
  let source := instruction &&& 31
  let base := (instruction >>> 5) &&& 31
  let target := baseOf s base
  let done (target : UInt64) := finish s { s with pc := s.pc + 4 } target address (sourceOf s source) write
  if instruction &&& 0xFFC00000 = 0xB9000000 then
    done (target + (((instruction >>> 10) &&& 0xFFF) * 4).toUInt64)
  else if instruction &&& 0xFFE00C00 = 0xB8000000 then
    done (target + ((instruction <<< 11).toInt32 >>> 23).toInt64.toUInt64)
  else if instruction &&& 0xFFFFFC00 ≠ 0x889FFC00 then ⟨false, s, []⟩
  else done target

end A64

end Prosperity.Cpu
