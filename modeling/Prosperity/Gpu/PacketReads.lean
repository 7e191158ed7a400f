import Prosperity.Gpu.CommandWalk
import Prosperity.Gpu.RegStateBounds

/-!
# What the walk reads of a command buffer

The walk over a buffer and the handlers of its packets, as programs that log each dword of the buffer that they
read. A handler looks at as many dwords as it says its packet needs. What it does with them, to the memory, the
labels and the renderer, is a parameter, and so is what it asks of these.

A dword that a handler reads twice in a row is logged once. What a deferred handler reads of its copy of the
packet is logged as if read from the packet.
-/

namespace Prosperity.Gpu.PacketReads

open Logged

/-- The dwords `[p, p + words)` that are walked. -/
structure Buffer where
  p : ℕ
  words : ℕ
deriving DecidableEq

/-- A packet with its header at the dword `i`. -/
structure PacketAt where
  b : Buffer
  i : ℕ
  hdr : ℕ

def PacketAt.count (pk : PacketAt) : ℕ := pm4Count pk.hdr

def PacketAt.op (pk : PacketAt) : ℕ := pm4Opcode pk.hdr

/-- The state of the queue that is walked, with the memory it sees. -/
structure CpMachine (σ : Type) where
  guest : RegState.Guest
  cp : RegState.CpState
  stalled : Bool
  ib : ℕ → ℕ
  ibDw : ℕ → ℕ
  indexBase : ℕ
  indexMax : ℕ
  drawIndirectBase : ℕ
  dispatchIndirectBase : ℕ
  rest : σ

inductive WalkEvent
  | read (b : Buffer) (k : ℕ)
  | ringWait (b : Buffer) (i : ℕ) (wide : Bool)
deriving DecidableEq

abbrev Cmd (σ α : Type) := Logged (CpMachine σ) WalkEvent α

structure Wait where
  address : ℕ
  ref : ℕ
  mask : ℕ
  function : ℕ
  wide : Bool

structure Reactions (σ : Type) where
  /-- What a handler does with the dwords that it has read. -/
  effect : ℕ → List UInt32 → CpMachine σ → CpMachine σ
  memWatch : ℕ
  noCopy : Bool
  /-- Whether the traces print the packet, an unhandled opcode, a desync, register runs and register images. -/
  opDump : ℕ → CpMachine σ → Bool
  logsUnhandled : ℕ → CpMachine σ → Bool
  logsDesync : CpMachine σ → Bool
  logsRegisters : CpMachine σ → Bool
  dispatchesIndirect : ℕ → UInt32 → CpMachine σ → Bool
  gpuIndirectArgs : ℕ → ℕ → CpMachine σ → Bool
  flushCsWrites : ℕ → CpMachine σ → Bool × CpMachine σ
  bindsDraw : CpMachine σ → Bool
  /-- The part of `WaitSatisfied` behind its checks. -/
  satisfied : Wait → CpMachine σ → Bool × CpMachine σ
  parkedHit : ℕ → ℕ → CpMachine σ → Bool × CpMachine σ
  timedOut : ℕ → CpMachine σ → Bool
  /-- What the other threads do while `WaitBriefly` lets them, turn by turn until it gives up. A write that is
  held is certain to land, so that it does. -/
  turns : ℕ → CpMachine σ → List (CpMachine σ → CpMachine σ)

variable {σ : Type} (r : Reactions σ) (pk : PacketAt)

def fetch (b : Buffer) (k : ℕ) : Cmd σ UInt32 := access (.read b k) fun s => (s.guest.mem (b.p + 4 * k), s)

def PacketAt.body (k : ℕ) : Cmd σ UInt32 := fetch pk.b (pk.i + 1 + k)

def PacketAt.dwords (ks : List ℕ) : Cmd σ (List UInt32) := collect pk.body ks

/-- The dword at `k`, if the packet has it. -/
def PacketAt.optional (k : ℕ) : List ℕ := if k < pk.count then [k] else []

def finish (ds : List UInt32) : Cmd σ PUnit := change (r.effect pk.op ds)

/-- An answer that changes the state. -/
def ask (f : CpMachine σ → Bool × CpMachine σ) : Cmd σ Bool := do
  let answer ← look fun s => (f s).1
  change fun s => (f s).2
  pure answer

/-- A handler of packets that have `need` dwords: it reads those at `ks` and acts on them. -/
def reading (need : ℕ) (ks : List ℕ) : Cmd σ PUnit :=
  if pk.count < need then pure ⟨⟩
  else do
    let ds ← pk.dwords ks
    finish r pk ds

def address (hi lo : UInt32) : ℕ := (hi &&& 0xFFFF).toNat <<< 32 ||| lo.toNat

def wideAddress (hi lo : UInt32) : ℕ := hi.toNat <<< 32 ||| lo.toNat

/-! ## Registers -/

def bodyRead : RegState.RegAccess → Option WalkEvent
  | .read .body k => some (.read pk.b (pk.i + 1 + k))
  | _ => none

/-- `SetRegs`, `LoadRegImage`, `LoadRegBlock` and `WriteDataRegs` -/
def decodeRegs (p : RegState.RegPacket) : Cmd σ PUnit := fun s =>
  let body := fun k => s.guest.mem (pk.b.p + 4 * (pk.i + 1 + k))
  let decoded := (p.decode s.guest body (UInt32.ofNat pk.count)).run s.cp
  ⟨⟨⟩, { s with cp := decoded.state }, decoded.log.filterMap (bodyRead pk)⟩

/-- `LoadRegImage`. `TraceRegImage` lists the ranges. -/
def loadRegImage (base : RegState.RegBase) : Cmd σ PUnit := do
  let logs ← look r.logsRegisters
  runIf (logs && 4 ≤ pk.count) do
    let _ ← pk.dwords ((RegState.rangeIndices pk.count).flatMap fun i => [i, i + 1])
    pure ⟨⟩
  decodeRegs pk (.loadRegImage base)

/-- `SetRegRun`: a run of registers from `first` on. -/
def setRegRun (first : ℕ) : Cmd σ PUnit := do
  (List.range pk.count).forM fun k => do
    let value ← pk.body k
    change fun s => { s with cp := { s.cp with regs := Function.update s.cp.regs (first + k) value } }
  let logs ← look r.logsRegisters
  runIf logs do
    let _ ← pk.dwords (pk.optional 0 ++ pk.optional 1)
    pure ⟨⟩

/-! ## Memory -/

def memWatchHit (base bytes : ℕ) : Bool :=
  r.memWatch ≠ 0 && base < (r.memWatch ||| 0xFFFF) + 1 && r.memWatch - r.memWatch % 0x10000 < base + bytes

def addressable (a : ℕ) : Bool := 0x1000000 ≤ a && a < 0x20000000000

def handleDmaData : Cmd σ PUnit :=
  if pk.count < 6 then pure ⟨⟩
  else do
    let control ← pk.body 0
    let srcHi ← pk.body 2
    let srcLo ← pk.body 1
    let dstHi ← pk.body 4
    let dstLo ← pk.body 3
    let command ← pk.body 5
    let srcSel := control >>> 29 &&& 3
    let dstSel := control >>> 20 &&& 3
    let dst := address dstHi dstLo
    let bytes := (command &&& 0x3FFFFFF).toNat
    let toMemory := dstSel = 0 ∨ dstSel = 3
    -- a GDS copy takes the packet's dword as its fill, and so does a fill of memory
    let gds := !r.noCopy && decide (bytes ≠ 0 ∧ (srcSel = 1 ∨ dstSel = 1))
    let fill := !gds && !r.noCopy && decide (srcSel = 2 ∧ toMemory ∧ bytes ≠ 0 ∧ bytes ≤ 0x8000000) &&
      addressable dst && addressable (dst + bytes)
    runIf (gds || fill) do
      let _ ← pk.body 1
      pure ⟨⟩
    finish r pk [control, srcHi, srcLo, dstHi, dstLo, command]

def handleWriteData : Cmd σ PUnit :=
  if pk.count < 4 then pure ⟨⟩
  else do
    let control ← pk.body 0
    if control >>> 8 &&& 0xF = 0 then decodeRegs pk .writeDataRegs
    else do
      let hi ← pk.body 2
      let lo ← pk.body 1
      let dst := address hi (lo &&& 0xFFFFFFFC)
      let dwords := pk.count - 3
      runIf (memWatchHit r dst (dwords * 4)) do
        let _ ← pk.dwords ([3] ++ if 1 < dwords then [4] else [])
        pure ⟨⟩
      runIf (isGuestAddress dst && isGuestAddress (dst + dwords * 4)) do
        let ds ← pk.dwords (List.range' 3 dwords)
        finish r pk ds

def handleEventWriteEop : Cmd σ PUnit := reading r pk 4 ([2, 1, 3] ++ pk.optional 4)

def handleReleaseMem : Cmd σ PUnit :=
  reading r pk 5 ([3, 2, 4] ++ pk.optional 5 ++ [1] ++ pk.optional 6)

def handleEventWriteEos : Cmd σ PUnit := reading r pk 4 [2, 1, 3]

def handleAtomicMem : Cmd σ PUnit := reading r pk 7 [0, 2, 1, 4, 3, 6, 5]

def handleCopyData : Cmd σ PUnit := reading r pk 5 [0, 1, 2, 3, 4]

def isOcclusionQuery (control : UInt32) : Bool := control &&& 0x3F == 0x39 && control >>> 8 &&& 7 == 1

def handleEventWrite : Cmd σ PUnit :=
  if pk.count < 3 then pure ⟨⟩
  else do
    let control ← pk.body 0
    runIf (isOcclusionQuery control) do
      let ds ← pk.dwords [1, 2]
      finish r pk ds

/-- `PublishPacket`: the packet is copied, and handled in the order of the labels. -/
def publishPacket (handle : Cmd σ PUnit) : Cmd σ PUnit := do
  let _ ← pk.dwords (List.range pk.count)
  handle

/-! ## Waits -/

def minWait (wide : Bool) : ℕ := if wide then 8 else 6

def readWait (wide : Bool) : Cmd σ Wait := do
  let control ← pk.body 0
  let hi ← pk.body 2
  let lo ← pk.body 1
  if wide then
    let refHi ← pk.body 4
    let refLo ← pk.body 3
    let maskHi ← pk.body 6
    let maskLo ← pk.body 5
    pure ⟨address hi lo, wideAddress refHi refLo, wideAddress maskHi maskLo, (control &&& 7).toNat, true⟩
  else do
    let ref ← pk.body 3
    let mask ← pk.body 4
    pure ⟨address hi lo, ref.toNat, mask.toNat, (control &&& 7).toNat, false⟩

def waitSatisfied (wide : Bool) : Cmd σ Bool :=
  if pk.count < minWait wide then pure true
  else do
    let w ← readWait pk wide
    let readable ← look fun s => s.guest.isReadableRangeCached w.address (if wide then 8 else 4)
    if w.function = 0 ∨ isGuestAddress w.address = false ∨ readable = false then pure true
    else ask (r.satisfied w)

/-- The turns of `WaitBriefly`, until one gives up. -/
def waitTurns (wide : Bool) : List (CpMachine σ → CpMachine σ) → Cmd σ Bool
  | [] => pure false
  | others :: turns => do
    let done ← waitSatisfied r pk wide
    if done then pure true
    else do
      change others
      waitTurns wide turns

def waitBriefly (wide : Bool) : Cmd σ Bool := do
  let hi ← pk.body 2
  let lo ← pk.body 1
  let missed ← look (r.timedOut (address hi lo))
  if missed then pure false
  else do
    let turns ← look (r.turns (address hi lo))
    waitTurns r pk wide turns

/-- `StallOnWait` of a graphics walk, which never stalls. -/
def passWait (wide : Bool) : Cmd σ Bool := do
  let satisfied ← waitSatisfied r pk wide
  if satisfied then pure false
  else do
    let satisfied ← waitBriefly r pk wide
    if satisfied then pure false
    else do
      let ds ← pk.dwords [2, 1, 3]
      finish r pk ds
      pure false

def ringTarget (wide : Bool) : Cmd σ (ℕ × ℕ) := do
  access (.ringWait pk.b pk.i wide) fun s => ((), s)
  let hi ← pk.body 2
  let lo ← pk.body 1
  if wide then do
    let refHi ← pk.body 4
    let refLo ← pk.body 3
    pure (address hi lo, wideAddress refHi refLo)
  else do
    let ref ← pk.body 3
    pure (address hi lo, ref.toNat)

/-- `StallOnWait` of a ring walk. -/
def stallOnRing (wide : Bool) : Cmd σ Bool := do
  let target ← ringTarget pk wide
  let hit ← guarded (minWait wide ≤ pk.count) (ask (r.parkedHit target.1 target.2))
  if hit then pure false
  else do
    runIf (minWait wide ≤ pk.count) do
      let ds ← pk.dwords ((if wide then [6, 5] else [4]) ++ [0])
      finish r pk ds
    let satisfied ← waitSatisfied r pk wide
    finish r pk []
    pure !satisfied

def stallOnWait (ring wide : Bool) : Cmd σ Bool := if ring then stallOnRing r pk wide else passWait r pk wide

/-! ## Draws and dispatches -/

/-- `DispatchCompute`, for a packet in the buffer. -/
def dispatchCompute : Cmd σ PUnit := reading r pk 0 (List.range (min pk.count 4))

/-- `HandleDispatchIndirect`: by pointer, or by offset into the buffer of `IT_SET_BASE`. -/
def dispatchArgs : Cmd σ ℕ :=
  if 3 ≤ pk.count then do
    let lo ← pk.body 0
    let hi ← pk.body 1
    pure (wideAddress hi lo)
  else if 1 ≤ pk.count then do
    let base ← look CpMachine.dispatchIndirectBase
    let offset ← pk.body 0
    pure (base + offset.toNat)
  else pure 0

def dispatchInitiator : Cmd σ UInt32 := if 2 ≤ pk.count then pk.body (pk.count - 1) else pure 5

def handleDispatchIndirect : Cmd σ PUnit := do
  let args ← dispatchArgs pk
  let readable ← look fun s => s.guest.isReadableRangeCached args 12
  if args = 0 ∨ isGuestAddress args = false ∨ readable = false then pure ⟨⟩
  else do
    let initiator ← dispatchInitiator pk
    let direct ← look (r.dispatchesIndirect args initiator)
    if direct then finish r pk [initiator]
    else do
      let flushed ← ask (r.flushCsWrites args)
      runIf flushed do
        let again ← dispatchInitiator pk
        let groups ← look fun s => (List.range 3).map fun axis => s.guest.mem (args + 4 * axis)
        -- the report of an implausible size
        runIf (groups.any fun g => 0x100000 < g) do
          let _ ← pk.dwords ([0] ++ pk.optional 1 ++ pk.optional 2)
          pure ⟨⟩
        finish r pk (groups ++ [again])

def handleDrawIndirect : Cmd σ PUnit :=
  if pk.count < 1 then pure ⟨⟩
  else do
    let base ← look CpMachine.drawIndirectBase
    let offset ← pk.body 0
    let args := base + offset.toNat
    let want := if pk.op = 0x25 then 20 else 16
    let readable ← look fun s => s.guest.isReadableRangeCached args want
    if base = 0 ∨ isGuestAddress args = false ∨ readable = false then pure ⟨⟩
    else do
      let direct ← look (r.gpuIndirectArgs pk.op args)
      let ready ← if direct then pure true else ask (r.flushCsWrites args)
      runIf ready do
        let initiator ← pk.dwords (pk.optional 3)
        finish r pk initiator

/-- `ResolveIndexBuffer`, and the vertex count of a draw without indices. -/
def drawDwords (indexBase : ℕ) : List ℕ :=
  if pk.op = 0x35 ∧ 3 ≤ pk.count ∧ indexBase ≠ 0 then [1, 2]
  else if pk.op = 0x27 ∧ 4 ≤ pk.count then [2, 1, 3]
  else if pk.op = 0x2D ∧ 1 ≤ pk.count then [0]
  else []

def handleDrawPacket : Cmd σ PUnit := do
  let binds ← look r.bindsDraw
  runIf binds do
    let indexBase ← look CpMachine.indexBase
    let ds ← pk.dwords (drawDwords pk indexBase)
    finish r pk ds

def isDraw (op : ℕ) : Bool := op = 0x2D || op = 0x27 || op = 0x35 || op = 0x30

/-! ## State of the queue -/

def mmVGT_INDEX_TYPE : ℕ := 0xC243

def setIndexType : Cmd σ PUnit :=
  if pk.count < 1 then pure ⟨⟩
  else do
    let value ← pk.body 0
    change fun s => { s with cp := { s.cp with regs := Function.update s.cp.regs mmVGT_INDEX_TYPE value } }

def setIndexBase : Cmd σ PUnit :=
  if pk.count < 2 then pure ⟨⟩
  else do
    let hi ← pk.body 1
    let lo ← pk.body 0
    change fun s => { s with indexBase := address hi (lo &&& 0xFFFFFFFE) }

def setIndexMax : Cmd σ PUnit :=
  if pk.count < 1 then pure ⟨⟩
  else do
    let value ← pk.body 0
    change fun s => { s with indexMax := value.toNat }

def setNumInstances : Cmd σ PUnit := reading r pk 1 [0]

/-- `IT_SET_BASE`, where the header says which of the bases is set. -/
def setBase : Cmd σ PUnit :=
  if pk.count < 3 then pure ⟨⟩
  else do
    let control ← pk.body 0
    if control &&& 0xF ≠ 1 then pure ⟨⟩
    else do
      let lo ← pk.body 1
      let hi ← pk.body 2
      let base := address hi (lo &&& 0xFFFFFFF8)
      if pk.hdr >>> 1 &&& 3 ≠ 0 then change fun s => { s with dispatchIndirectBase := base }
      else change fun s => { s with drawIndirectBase := base }

def handleClearState : Cmd σ PUnit := reading r pk 1 [0]

def acquireMem : Cmd σ PUnit := reading r pk 7 [6]

/-- `IT_COND_EXEC`: how many dwords are skipped. -/
def condExec : Cmd σ ℕ :=
  if pk.count < 4 then pure 0
  else do
    let hi ← pk.body 1
    let lo ← pk.body 0
    let skip ← pk.body 3
    let flag := address hi (lo &&& 0xFFFFFFFC)
    let clear ← look fun s => s.guest.isReadableRangeCached flag 4 && s.guest.mem flag == 0
    pure (if isGuestAddress flag && clear then (skip &&& 0x3FFF).toNat else 0)

/-! ## Traces -/

def traceOpcodeBody : Cmd σ PUnit := do
  let dumps ← look (r.opDump pk.op)
  runIf dumps do
    let _ ← pk.dwords (List.range (min pk.count 20))
    pure ⟨⟩

def traceDcbPacket : Cmd σ PUnit := do
  let shown := if pk.op = 0x93 ∨ pk.op = 0x79 then pk.count else min pk.count 6
  let _ ← pk.dwords (List.range (min shown 24))
  runIf (([0x9f, 0x64, 0x7a, 0x63].contains pk.op) && 2 ≤ pk.count) do
    let _ ← pk.dwords [1, 0]
    pure ⟨⟩

def noteUnhandledOpcode : Cmd σ PUnit := do
  let logs ← look (r.logsUnhandled pk.op)
  runIf logs do
    let _ ← pk.dwords (List.range (min pk.count 8))
    pure ⟨⟩

/-- The dwords around the packets before a desync, the oldest of which is at `oldest`. -/
def traceDesync (b : Buffer) (oldest : ℕ) : Cmd σ PUnit := do
  let logs ← look r.logsDesync
  let first := if 24 < oldest then oldest - 24 else 0
  runIf logs do
    let _ ← collect (fetch b) (List.range' first (min b.words (oldest + 4) - first))
    pure ⟨⟩

/-! ## The walk -/

def handlePacket : Cmd σ PUnit :=
  match pk.op with
  | 0x69 => decodeRegs pk (.setRegs .context)
  | 0x76 => decodeRegs pk (.setRegs .sh)
  | 0x79 | 0x7a => decodeRegs pk (.setRegs .uConfig)
  | 0x68 => decodeRegs pk (.setRegs .config)
  | 0x61 => loadRegImage r pk .context
  | 0x5f => loadRegImage r pk .sh
  | 0x5e => loadRegImage r pk .uConfig
  | 0x9f => decodeRegs pk (.loadRegBlock .context)
  | 0x64 => decodeRegs pk (.loadRegBlock .uConfig)
  | 0x63 => decodeRegs pk (.loadRegBlock .sh)
  | 0x10 | 0x28 | 0x4a | 0x42 | 0x8e => pure ⟨⟩
  | 0x58 => acquireMem r pk
  | 0x50 => handleDmaData r pk
  | 0x2A => setIndexType pk
  | 0x26 => setIndexBase pk
  | 0x13 => setIndexMax pk
  | 0x2F => setNumInstances r pk
  | 0x15 => dispatchCompute r pk
  | 0x16 => handleDispatchIndirect r pk
  | 0x24 | 0x25 => handleDrawIndirect r pk
  | 0x11 => setBase pk
  | 0x1e =>
    runIf (3 ≤ pk.count) do
      let _ ← pk.dwords [2, 1]
      publishPacket pk (handleAtomicMem r pk)
  | 0x12 => handleClearState r pk
  | 0x37 => handleWriteData r pk
  | 0x40 =>
    runIf (5 ≤ pk.count) do
      let _ ← pk.dwords [0, 3, 4]
      publishPacket pk (handleCopyData r pk)
  | 0x46 =>
    runIf (3 ≤ pk.count) do
      let control ← pk.body 0
      runIf (isOcclusionQuery control) do
        let _ ← pk.dwords [1, 2]
        publishPacket pk (handleEventWrite r pk)
  | 0x47 => handleEventWriteEop r pk
  | 0x49 => handleReleaseMem r pk
  | 0x48 => handleEventWriteEos r pk
  | op => if isDraw op then handleDrawPacket r pk else noteUnhandledOpcode r pk

/-- The walk stops at a dword, or goes on behind `extra` dwords that follow the one it is at. -/
inductive Step
  | stop (i : ℕ)
  | advance (extra : ℕ)

def enterIb (sub : Buffer → Cmd σ ℕ) (depth ib ibWords : ℕ) : Cmd σ Bool := do
  let resumes ← look fun s => decide (s.ib (depth + 1) = ib)
  let left ← look fun s => s.ibDw (depth + 1)
  let start := if resumes then min left ibWords else 0
  runIf resumes (change fun s => { s with ib := Function.update s.ib (depth + 1) 0 })
  let done ← sub ⟨ib + 4 * start, ibWords - start⟩
  let stalled ← look CpMachine.stalled
  runIf stalled (change fun s =>
    { s with
      ib := Function.update s.ib (depth + 1) ib
      ibDw := Function.update s.ibDw (depth + 1) (start + done) })
  pure stalled

def indirectBuffer (sub : Buffer → Cmd σ ℕ) (depth : ℕ) : Cmd σ Step :=
  if pk.count < 3 then pure (.advance pk.count)
  else do
    let hi ← pk.body 1
    let lo ← pk.body 0
    let size ← pk.body 2
    let ib := address hi lo
    let ibWords := (size &&& 0xFFFFF).toNat
    let readable ← look fun s => s.guest.isReadableRangeCached ib (ibWords * 4)
    if ibWords ≠ 0 ∧ ibWords ≤ 0x40000 ∧ isGuestAddress ib = true ∧ readable = true then do
      let stalled ← enterIb sub depth ib ibWords
      -- the packet that called the buffer is walked again
      pure (if stalled then .stop pk.i else .advance pk.count)
    else pure (.advance pk.count)

def walkPacket (ring : Bool) (sub : Buffer → Cmd σ ℕ) (depth : ℕ) : Cmd σ Step :=
  if pk.op = 0x3F ∨ pk.op = 0x33 then indirectBuffer pk sub depth
  else if pk.op = 0x3c ∨ pk.op = 0x93 then do
    let stalls ← stallOnWait r pk ring (pk.op = 0x93)
    runIf stalls (change fun s => { s with stalled := true })
    pure (if stalls then .stop pk.i else .advance pk.count)
  else if pk.op = 0x22 then do
    let skip ← condExec pk
    pure (.advance (pk.count + skip))
  else do
    handlePacket r pk
    pure (.advance pk.count)

/-- One turn of the loop at the dword `i`, with the starts of the packets before, the latest first. -/
def walkStep (ring dump : Bool) (sub : Buffer → Cmd σ ℕ) (depth : ℕ) (b : Buffer) (i : ℕ) (trail : List ℕ) :
    Cmd σ Step := do
  let word ← fetch b i
  let pk : PacketAt := ⟨b, i, word.toNat⟩
  let type := pk.hdr >>> 30
  if type = 2 ∨ pk.hdr = 0 then pure (.advance 0)
  else if type = 0 then
    if pm4Type0Reg pk.hdr + pk.count > kRegFileSize ∨ i + 1 + pk.count > b.words then pure (.advance 0)
    else do
      setRegRun r pk (pm4Type0Reg pk.hdr)
      pure (.advance pk.count)
  else if type ≠ 3 then do
    traceDesync r b (trail.getLastD i)
    pure (.advance 0)
  -- `IT_NOP` with its count saturated is one dword
  else if pk.op = 0x10 ∧ pk.hdr >>> 16 &&& 0x3FFF = 0x3FFF then pure (.advance 0)
  else if i + 1 + pk.count > b.words then pure (.advance 0)
  else do
    traceOpcodeBody r pk
    runIf dump (traceDcbPacket pk)
    walkPacket r pk ring sub depth

/-- The starts of the last 32 packets. -/
def addTrail (i : ℕ) (trail : List ℕ) : List ℕ := (i :: trail).take 32

/-- The loop of `Walk`: the dword that it stops at, or all of them. -/
def walkLoop (turn : ℕ → List ℕ → Cmd σ Step) (words i : ℕ) (trail : List ℕ) : Cmd σ ℕ :=
  if i < words then do
    let step ← turn i (addTrail i trail)
    match step with
    | .stop stopped => pure stopped
    | .advance extra => walkLoop turn words (i + 1 + extra) (addTrail i trail)
  else pure words
termination_by words - i

/-- `Walk`, with the number of depths left up to `kMaxIbDepth`. -/
def walk (ring dump : Bool) : ℕ → ℕ → Buffer → Cmd σ ℕ
  | 0, _, b => pure b.words
  | levels + 1, depth, b =>
    if b.p = 0 then pure b.words
    else walkLoop (walkStep r ring dump (walk ring dump levels (depth + 1)) depth b) b.words 0 []

/-- The walk of what is submitted. -/
def submit (ring dump : Bool) (dcb : ℕ) (sizeBytes : UInt32) : Cmd σ ℕ :=
  if dcb = 0 ∨ sizeBytes < 4 then pure (sizeBytes.toNat / 4)
  else walk r ring dump (kMaxIbDepth + 1) 0 ⟨dcb, sizeBytes.toNat / 4⟩

def submitDcb (dump : Bool) (dcb : ℕ) (sizeBytes : UInt32) : Cmd σ ℕ := submit r false dump dcb sizeBytes

def submitCcb (ccb : ℕ) (sizeBytes : UInt32) : Cmd σ ℕ := submit r false false ccb sizeBytes

/-- `SubmitDcbRing`: the dwords consumed are fewer than handed in where the walk stalled. -/
def submitDcbRing (dump : Bool) (dcb : ℕ) (sizeBytes : UInt32) : Cmd σ ℕ := do
  change fun s => { s with stalled := false }
  submit r true dump dcb sizeBytes

end Prosperity.Gpu.PacketReads
