import Mathlib.Data.List.Basic
import Mathlib.Data.Nat.Bitwise
import Mathlib.Tactic.MkIffOfInductiveProp

/-!
# Tile modes

The decode of a tiling index: the `GB_TILE_MODE` table of Liverpool with its macro tile modes, the
gfx10 standard modes, and the gfx10 swizzle modes.
-/

namespace Prosperity.Gcn

/-! ### Liverpool -/

inductive ArrayMode where
  | kAmLinearGeneral
  | kAmLinearAligned
  | kAm1DThin1
  | kAm1DThick
  | kAm2DThin1
  | kAmPrtThin1
  | kAmPrt2DThin1
  | kAm2DThick
  | kAm2DXThick
  | kAmPrtThick
  | kAmPrt2DThick
  | kAmPrt3DThin1
  | kAm3DThin1
  | kAm3DThick
  | kAm3DXThick
  | kAmPrt3DThick
  deriving DecidableEq

inductive MicroMode where
  | kMmDisplay
  | kMmThin
  | kMmDepth
  | kMmRotated
  | kMmThick
  deriving DecidableEq

inductive PipeConfig where
  | kPcP2
  | kPcP8_32x32_8x16
  | kPcP8_32x32_16x16
  deriving DecidableEq

def arrayModeOf : ℕ → ArrayMode
  | 5 | 9 | 13 => .kAm1DThin1
  | 0 | 1 | 2 | 3 | 4 | 10 | 14 => .kAm2DThin1
  | 11 | 16 => .kAmPrtThin1
  | 6 | 7 | 12 | 17 => .kAmPrt2DThin1
  | 15 => .kAm3DThin1
  | 18 => .kAmPrt3DThin1
  | 19 => .kAm1DThick
  | 20 => .kAm2DThick
  | 21 => .kAm3DThick
  | 22 => .kAmPrtThick
  | 23 => .kAmPrt2DThick
  | 24 => .kAmPrt3DThick
  | 25 => .kAm2DXThick
  | 26 => .kAm3DXThick
  | 8 => .kAmLinearAligned
  | 31 => .kAmLinearGeneral
  | _ => .kAmLinearGeneral

def microModeOf : ℕ → MicroMode
  | 0 | 1 | 2 | 3 | 4 | 5 | 6 | 7 => .kMmDepth
  | 8 | 9 | 10 | 11 | 12 | 31 => .kMmDisplay
  | 13 | 14 | 15 | 16 | 17 | 18 => .kMmThin
  | _ => .kMmThick

def pipeConfigOf : ℕ → PipeConfig
  | 11 | 15 | 16 | 21 | 22 | 24 | 26 => .kPcP8_32x32_8x16
  | 31 => .kPcP2
  | _ => .kPcP8_32x32_16x16

def sampleSplitOf : ℕ → ℕ
  | 10 | 11 | 12 | 14 | 15 | 16 | 17 | 18 => 2
  | _ => 1

def tileSplitHwOf : ℕ → ℕ
  | 1 => 128
  | 2 | 6 => 256
  | 3 => 512
  | 4 | 7 => 1024
  | _ => 64

structure MacroParams where
  numBanks : ℕ
  bankWidth : ℕ
  bankHeight : ℕ
  macroAspect : ℕ
  deriving DecidableEq

/-- `MacroParamsForMode`, whose table is indexed by the low four bits. -/
def macroParamsForMode (m : ℕ) : MacroParams :=
  [⟨16, 1, 4, 4⟩, ⟨16, 1, 2, 2⟩, ⟨16, 1, 1, 2⟩, ⟨16, 1, 1, 2⟩, ⟨8, 1, 1, 1⟩, ⟨4, 1, 1, 1⟩,
    ⟨2, 1, 1, 1⟩, ⟨2, 1, 1, 1⟩, ⟨16, 1, 8, 4⟩, ⟨16, 1, 4, 4⟩, ⟨16, 1, 2, 2⟩, ⟨16, 1, 1, 2⟩,
    ⟨8, 1, 1, 1⟩, ⟨4, 1, 1, 1⟩, ⟨2, 1, 1, 1⟩, ⟨2, 1, 1, 1⟩].getD (m % 16) ⟨2, 1, 1, 1⟩

def kMicroW : ℕ := 8

def kMicroH : ℕ := 8

def kMicroTilePixels : ℕ := kMicroW * kMicroH

def kPipeInterleaveBits : ℕ := 8

def tileThickness : ArrayMode → ℕ
  | .kAm1DThick | .kAm2DThick | .kAmPrtThick | .kAmPrt2DThick | .kAm3DThick | .kAmPrt3DThick => 4
  | .kAm2DXThick | .kAm3DXThick => 8
  | _ => 1

def isMacroTiled (am : ArrayMode) : Bool :=
  am ≠ .kAmLinearGeneral && am ≠ .kAmLinearAligned && am ≠ .kAm1DThin1 && am ≠ .kAm1DThick

def numPipesOf (pc : PipeConfig) : ℕ := if pc = .kPcP2 then 2 else 8

def numPipeBitsOf (pc : PipeConfig) : ℕ := if pc = .kPcP2 then 1 else 3

def isPrt (am : ArrayMode) : Bool :=
  am = .kAmPrtThin1 || am = .kAmPrtThick || am = .kAmPrt2DThin1 || am = .kAmPrt2DThick ||
    am = .kAmPrt3DThin1 || am = .kAmPrt3DThick

def tileSizeBytes (idx : ℕ) (mm : MicroMode) (thickness elem : ℕ) : ℕ :=
  let tileBytes1x := kMicroTilePixels * elem * thickness
  let colorSplit := sampleSplitOf idx * tileBytes1x
  let cts := if colorSplit < 256 then 256 else colorSplit
  let split := if mm = .kMmDepth then tileSplitHwOf idx else cts
  let split := if split > 1024 then 1024 else split
  if split > tileBytes1x then tileBytes1x else split

/-- `MacroTileModeIndex`; its loop computes the position of the highest bit. -/
def macroTileModeIndex (idx : ℕ) (mm : MicroMode) (am : ArrayMode) (thickness elem : ℕ) : ℕ :=
  let q := tileSizeBytes idx mm thickness elem / 64
  if isPrt am then q.log2 + 8 else q.log2

structure Macro2D where
  am : ArrayMode
  mm : MicroMode
  pc : PipeConfig
  mp : MacroParams
  numPipes : ℕ
  numPipeBits : ℕ
  numBankBits : ℕ
  thickness : ℕ
  microTileBytes : ℕ
  slicesPerTile : ℕ
  macroPitch : ℕ
  macroHeight : ℕ
  macroTileBytes : ℕ
  baseAlign : ℕ
  deriving DecidableEq

/-- `ConfigureMacro2D`, `none` where it returns false. -/
def configureMacro2D (tilingIdx : ℕ) (am : ArrayMode) (mm : MicroMode) (elem : ℕ) : Option Macro2D :=
  let pc := pipeConfigOf tilingIdx
  let numPipes := numPipesOf pc
  let thickness := tileThickness am
  let fullMicroTileBytes := kMicroTilePixels * elem * thickness
  let tileSplitBytes := tileSizeBytes tilingIdx mm thickness elem
  let split := fullMicroTileBytes > tileSplitBytes ∧ thickness = 1
  let microTileBytes := if split then tileSplitBytes else fullMicroTileBytes
  let slicesPerTile := if split then fullMicroTileBytes / tileSplitBytes else 1
  let mp := macroParamsForMode (macroTileModeIndex tilingIdx mm am thickness elem)
  let macroPitch := kMicroW * mp.bankWidth * numPipes * mp.macroAspect
  let macroHeight := kMicroH * mp.bankHeight * mp.numBanks / mp.macroAspect
  if macroPitch ≠ 0 ∧ macroHeight ≠ 0 then
    some {
      am, mm, pc, mp, numPipes, thickness, microTileBytes, slicesPerTile, macroPitch, macroHeight
      numPipeBits := numPipeBitsOf pc
      numBankBits := mp.numBanks.log2
      macroTileBytes := microTileBytes * (macroPitch / kMicroW) * (macroHeight / kMicroH) /
        (numPipes * mp.numBanks)
      baseAlign := numPipes * mp.bankWidth * mp.numBanks * mp.bankHeight *
        tileSizeBytes tilingIdx mm thickness elem }
  else none

/-! ### gfx10 standard modes -/

def kGfx10StdBase : ℕ := 0x50

def kGfx10StdModes : ℕ := 3

def tilingIsGfx10Std (idx : ℕ) : Bool :=
  idx ≥ kGfx10StdBase && idx < kGfx10StdBase + kGfx10StdModes

/-- `Gfx10MicroShape`: the width and the height of a micro tile. -/
def gfx10MicroShape : ℕ → ℕ × ℕ
  | 1 => (16, 16)
  | 2 => (16, 8)
  | 4 => (8, 8)
  | 8 => (8, 4)
  | _ => (4, 4)

def gfx10BlockTiles (idx : ℕ) : ℕ :=
  if idx - kGfx10StdBase = 0 then 1 else if idx - kGfx10StdBase = 1 then 4 else 16

/-! ### gfx10 swizzle modes -/

def kGfx10TilingBase : ℕ := 0x100

def kGfx10Modes : ℕ := 32

inductive Gfx10Set where
  | kG10_256S
  | kG10_256D
  | kG10_4kS
  | kG10_4kD
  | kG10_4kSX
  | kG10_4kDX
  | kG10_64kS
  | kG10_64kD
  | kG10_64kST
  | kG10_64kDT
  | kG10_64kSX
  | kG10_64kDX
  | kG10_64kZX
  | kG10_64kRX
  | kG10_Linear
  | kG10_None
  deriving DecidableEq

structure Gfx10ModeInfo where
  set : Gfx10Set
  blkLog2 : ℕ
  deriving DecidableEq

def tilingIsGfx10 (idx : ℕ) : Bool :=
  idx ≥ kGfx10TilingBase && idx < kGfx10TilingBase + kGfx10Modes

def gfx10ModeOf : ℕ → Gfx10ModeInfo
  | 0 | 31 => ⟨.kG10_Linear, 0⟩
  | 1 => ⟨.kG10_256S, 8⟩
  | 2 => ⟨.kG10_256D, 8⟩
  | 5 => ⟨.kG10_4kS, 12⟩
  | 6 => ⟨.kG10_4kD, 12⟩
  | 9 => ⟨.kG10_64kS, 16⟩
  | 10 => ⟨.kG10_64kD, 16⟩
  | 17 => ⟨.kG10_64kST, 16⟩
  | 18 => ⟨.kG10_64kDT, 16⟩
  | 21 => ⟨.kG10_4kSX, 12⟩
  | 22 => ⟨.kG10_4kDX, 12⟩
  | 24 => ⟨.kG10_64kZX, 16⟩
  | 25 => ⟨.kG10_64kSX, 16⟩
  | 26 => ⟨.kG10_64kDX, 16⟩
  | 27 => ⟨.kG10_64kRX, 16⟩
  | _ => ⟨.kG10_None, 0⟩

def gfx10ElemLog2 : ℕ → ℕ
  | 1 => 0
  | 2 => 1
  | 4 => 2
  | 8 => 3
  | _ => 4

/-- `Gfx10BlockDim`: the width and the height of a block in elements. -/
def gfx10BlockDim (blkLog2 elemLog2 : ℕ) : ℕ × ℕ :=
  let elemsLog2 := blkLog2 - elemLog2
  let wLog2 := (elemsLog2 + 1) / 2
  (1 <<< wLog2, 1 <<< (elemsLog2 - wLog2))

/-! ### All indices -/

def validTileMode (idx : ℕ) : Bool :=
  if tilingIsGfx10 idx then (gfx10ModeOf (idx - kGfx10TilingBase)).set ≠ .kG10_None
  else idx ≤ 26 || idx = 31 || tilingIsGfx10Std idx

def effectiveTileMode (idx : ℕ) : ℕ := if idx = 25 then 20 else if idx = 26 then 21 else idx

def tilingIsLinear (tilingIdx : ℕ) : Bool :=
  if tilingIsGfx10 tilingIdx then (gfx10ModeOf (tilingIdx - kGfx10TilingBase)).set = .kG10_Linear
  else tilingIdx = 8 || tilingIdx = 31

end Prosperity.Gcn
