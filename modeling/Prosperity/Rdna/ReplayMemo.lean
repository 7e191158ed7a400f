import Prosperity.Gcn.ProgramCache
import Prosperity.Rdna.TrackTextures

/-!
# The memo of the scalar replays

`TrackTextures` and `ResolveBuffers` keep what a replay found by a hash of its inputs, with the loads that
it made. A memo answers if the inputs are the same and every dword that a load read is what it was. The
guest writes its memory and changes its mappings at any time.

The programs that the program cache has handed out are given by `programs`, each with the address of its
code; the entries hold them, so that none goes away.
-/

namespace Prosperity.Rdna

open Gcn (Enc ScalarMemory assign mem_assign mem_of_lookup)

universe u

/-! ## Loads -/

structure ReplayLoad where
  address : ℕ
  values : List UInt32
  deriving DecidableEq

def guestDwords (guest : ScalarMemory) (address n : ℕ) : List UInt32 :=
  (List.range n).map fun i => guest.dword (address + i * 4)

namespace ReplayLoad

variable (guest : ScalarMemory) (load : ReplayLoad)

def Unchanged : Prop := guestDwords guest load.address load.values.length = load.values

/-- The dwords can be read. -/
def Mapped : Prop := guest.range load.address (load.values.length * 4) = true

instance : Decidable (load.Unchanged guest) := inferInstanceAs (Decidable (_ = _))

instance : Decidable (load.Mapped guest) := inferInstanceAs (Decidable (_ = _))

end ReplayLoad

def addressed (e : ScalarEval) (inst : Inst) : Option (ℕ × ℕ) :=
  (e.smemAddress inst ⟨fun _ _ => true, fun _ => 0⟩).map fun address =>
    (address, smemLoadCount inst.opcode * 4)

def WalkStep.addressed (s : WalkStep) : Option (ℕ × ℕ) :=
  if s.si.step = true ∧ s.si.inst.enc = .kSmrd ∧ smemLoadCount s.si.inst.opcode ≠ 0 then
    Rdna.addressed s.before s.si.inst
  else none

def WalkStep.load (guest : ScalarMemory) (s : WalkStep) : Option ReplayLoad :=
  if s.si.step = true ∧ s.si.inst.enc = .kSmrd ∧ smemLoadCount s.si.inst.opcode ≠ 0 then
    (s.before.smemAddress s.si.inst guest).map fun address =>
      ⟨address, guestDwords guest address (min (smemLoadCount s.si.inst.opcode) 16)⟩
  else none

/-! ## The memo -/

structure CachedProgram where
  codeAddr : ℕ
  program : Program

/-- `ReplayInputs`; the program is a pointer. -/
structure ReplayInputs where
  program : ℕ
  userData : ℕ → UInt32
  userSgprs : ℕ
  userSgprBase : ℕ
  maxDwords : ℕ
  systemUserDataAddr : UInt64

/-- `Entry` of `ReplayMemo`. -/
structure ReplayEntry (α : Type u) where
  program : ℕ
  user : List UInt32
  userSgprs : ℕ
  userSgprBase : ℕ
  systemUserDataAddr : UInt64
  loads : List ReplayLoad
  out : α
  unmapped : List (ℕ × ℕ)

namespace ReplayInputs

variable (programs : ℕ → CachedProgram) (i : ReplayInputs)

def userCount : ℕ := min i.userSgprs 32

def code : ℕ := (programs i.program).codeAddr

def user : List UInt32 := (List.range i.userCount).map i.userData

def key : UInt64 :=
  i.user.foldl (fun (key : UInt64) word => (key ^^^ word.toUInt64) * 0x100000001B3)
    (UInt64.ofNat (i.code programs) * (0x9E3779B97F4A7C15 : UInt64) ^^^
      (UInt64.ofNat i.userSgprs <<< 40 ||| UInt64.ofNat i.userSgprBase <<< 32 ||| UInt64.ofNat i.maxDwords) ^^^
      i.systemUserDataAddr)

def start : ScalarEval :=
  ScalarEval.start i.userData i.userSgprs i.userSgprBase i.systemUserDataAddr

/-- The replay of the slice. -/
def steps (guest : ScalarMemory) : List WalkStep :=
  walk guest (i.code programs) (scalarSlice (programs i.program).program false) i.start

def Fits {α : Type u} (m : ReplayEntry α) : Prop :=
  m.program = i.program ∧ m.userSgprs = i.userSgprs ∧ m.userSgprBase = i.userSgprBase ∧
    m.systemUserDataAddr = i.systemUserDataAddr ∧ m.user = i.user

instance {α : Type u} (m : ReplayEntry α) : Decidable (i.Fits m) :=
  inferInstanceAs (Decidable (_ ∧ _))

end ReplayInputs

abbrev ReplayMemo (α : Type u) := List (ℕ × ReplayEntry α)

/-- The loads that `Find` compares: up to the first whose dwords have changed. -/
def comparedLoads (guest : ScalarMemory) : List ReplayLoad → List ReplayLoad
  | [] => []
  | load :: rest => load :: if load.Unchanged guest then comparedLoads guest rest else []

namespace ReplayMemo

variable {α : Type u} (programs : ℕ → CachedProgram) (guest : ScalarMemory)

/-- The entry that `Find` compares with memory. -/
def candidate (memo : ReplayMemo α) (i : ReplayInputs) : Option (ReplayEntry α) :=
  (memo.lookup (i.key programs).toNat).filter fun m => i.Fits m

/-- `Find`, with the loads that it compares. -/
def find (memo : ReplayMemo α) (i : ReplayInputs) : Option α × List ReplayLoad :=
  match memo.candidate programs i with
  | none => (none, [])
  | some m =>
    (if ∀ load ∈ m.loads, load.Unchanged guest then some m.out else none, comparedLoads guest m.loads)

def store (memo : ReplayMemo α) (i : ReplayInputs) (out : α) : ReplayMemo α :=
  let steps := i.steps programs guest
  assign (i.key programs).toNat
    { program := i.program
      user := i.user
      userSgprs := i.userSgprs
      userSgprBase := i.userSgprBase
      systemUserDataAddr := i.systemUserDataAddr
      loads := steps.filterMap (WalkStep.load guest)
      out
      unmapped := (steps.filterMap WalkStep.addressed).filter fun r => !guest.range r.1 r.2 }
    (if 8192 < memo.length then [] else memo)

structure Steady (m : ReplayEntry α) : Prop where
  loaded : ∀ load ∈ comparedLoads guest m.loads, load.Mapped guest
  unmapped : (∀ load ∈ m.loads, load.Unchanged guest) → ∀ r ∈ m.unmapped, guest.range r.1 r.2 = false

def call (fresh : ReplayInputs → ScalarMemory → α) (memo : ReplayMemo α) (i : ReplayInputs) :
    α × ReplayMemo α × List ReplayLoad :=
  match memo.find programs guest i with
  | (some out, compared) => (out, memo, compared)
  | (none, compared) => (fresh i guest, memo.store programs guest i (fresh i guest), compared)

end ReplayMemo

/-! ## Histories -/

/-- What happens: the guest writes its memory or changes its mappings, and the calls. -/
inductive ReplayEvent where
  | change (guest : ScalarMemory)
  | textures (i : ReplayInputs)
  | buffers (i : ReplayInputs)

inductive ReplayReply where
  | none
  | textures (out : List (Option ImageTexture))
  | buffers (out : List (ℕ × BufferResource))
  deriving DecidableEq

/-- Guest memory and the memos, with what the last call returned and compared. -/
structure ReplayHistory where
  guest : ScalarMemory
  textures : ReplayMemo (List (Option ImageTexture))
  buffers : ReplayMemo (List (ℕ × BufferResource))
  reply : ReplayReply
  compared : List ReplayLoad

section Calls

variable (programs : ℕ → CachedProgram)

def freshTextures (i : ReplayInputs) (guest : ScalarMemory) : List (Option ImageTexture) :=
  fillTextures (rdnaPlanMimg (programs i.program).program) (i.steps programs guest)

def freshBuffers (i : ReplayInputs) (guest : ScalarMemory) : List (ℕ × BufferResource) :=
  resolveBuffersImpl guest (i.code programs) (programs i.program).program i.start false

namespace ReplayHistory

def init (guest : ScalarMemory) : ReplayHistory := ⟨guest, [], [], .none, []⟩

variable (h : ReplayHistory)

def step : ReplayEvent → ReplayHistory
  | .change guest => { h with guest, reply := .none, compared := [] }
  | .textures i =>
    let (out, textures, compared) := h.textures.call programs h.guest (freshTextures programs) i
    { h with textures, reply := .textures out, compared }
  | .buffers i =>
    let (out, buffers, compared) := h.buffers.call programs h.guest (freshBuffers programs) i
    { h with buffers, reply := .buffers out, compared }

def system : LabelledSystem ReplayHistory ReplayEvent where
  step h event := some (h.step programs event)

/-- The entry that a call comes upon is steady. -/
def Careful : ReplayEvent → Prop
  | .change _ => True
  | .textures i => ∀ m ∈ h.textures.candidate programs i, ReplayMemo.Steady h.guest m
  | .buffers i => ∀ m ∈ h.buffers.candidate programs i, ReplayMemo.Steady h.guest m

def Coherent : ReplayEvent → ReplayHistory → Prop
  | .change _, _ => True
  | .textures i, h' =>
    h'.reply = .textures (freshTextures programs i h.guest) ∧ ∀ load ∈ h'.compared, load.Mapped h.guest
  | .buffers i, h' =>
    h'.reply = .buffers (freshBuffers programs i h.guest) ∧ ∀ load ∈ h'.compared, load.Mapped h.guest

end ReplayHistory

end Calls

/-! ## Two replays -/

section Replays

variable {guest guest' : ScalarMemory} {codeAddr : ℕ} {e : ScalarEval} {inst : Inst}

theorem smemLoadCount_le (op : ℕ) : smemLoadCount op ≤ 16 := by
  unfold smemLoadCount
  split <;> decide

theorem smemAddress_eq (e : ScalarEval) (inst : Inst) (guest : ScalarMemory) : e.smemAddress inst guest =
      (e.smemAddress inst ⟨fun _ _ => true, fun _ => 0⟩).filter fun address =>
        guest.range address (smemLoadCount inst.opcode * 4) := by
  have hop : (decodeSmem inst).op = inst.opcode := rfl
  unfold ScalarEval.smemAddress
  dsimp only
  rw [hop]
  generalize (if decide (inst.opcode ≥ 8) = true then 4 else 2) = width
  generalize (if decide (inst.opcode ≥ 8) = true then ((inst.word1 &&& 0xFFFFF : ℕ) : ℤ)
    else (decodeSmem inst).offset) = immediate
  by_cases hknown : e.allKnown (decodeSmem inst).sbase width = true
  · rw [if_pos hknown, if_pos hknown]
    cases e.source (decodeSmem inst).soffset 0 with
    | none => rfl
    | some soffset =>
      rw [Option.bind_some, Option.bind_some]
      split_ifs with hbounds hmapped htrue
      · rfl
      · rw [Option.filter_some, if_pos hmapped]
      · exact absurd rfl htrue
      · rw [Option.filter_some, if_neg hmapped]
      · exact absurd rfl ‹¬true = true›
  · rw [if_neg hknown, if_neg hknown]
    rfl

/-- **A step of two replays** that load the same. -/
theorem step_congr (h : inst.enc = .kSmrd → smemLoadCount inst.opcode ≠ 0 →
      e.smemAddress inst guest = e.smemAddress inst guest' ∧ ∀ address, e.smemAddress inst guest = some address →
          guestDwords guest address (smemLoadCount inst.opcode) =
            guestDwords guest' address (smemLoadCount inst.opcode)) :
    e.step inst guest codeAddr = e.step inst guest' codeAddr := by
  rw [ScalarEval.step, ScalarEval.step]
  congr 1
  cases henc : inst.enc <;> simp only [ScalarEval.update, henc]
  case kSmrd =>
    have hop : (decodeSmem inst).op = inst.opcode := rfl
    by_cases hcount : smemLoadCount inst.opcode = 0
    · simp only [ScalarEval.updateSmem, hop, hcount, List.range_zero, List.flatMap_nil]
      cases e.smemAddress inst guest <;> cases e.smemAddress inst guest' <;> rfl
    · obtain ⟨haddress, hdwords⟩ := h henc hcount
      simp only [ScalarEval.updateSmem, hop, ← haddress]
      cases hcase : e.smemAddress inst guest with
      | none => rfl
      | some address =>
        have heq := hdwords address hcase
        rw [guestDwords, guestDwords, List.map_inj_left] at heq
        simp only [List.flatMap_def]
        congr 2
        refine congrArg List.flatten (List.map_congr_left fun i hi => ?_)
        rw [heq i hi]

/-- **Two replays from a state on**: where what the one loaded is unchanged and what it found unmapped
still is, the other takes the same steps. -/
theorem walk_congr {insts : List SliceInst}
    (hloads : ∀ s ∈ walk guest codeAddr insts e, ∀ load ∈ s.load guest, load.Mapped guest' ∧ load.Unchanged guest')
    (hunmapped : ∀ s ∈ walk guest codeAddr insts e, ∀ r ∈ s.addressed, guest.range r.1 r.2 = false →
      guest'.range r.1 r.2 = false) : walk guest codeAddr insts e = walk guest' codeAddr insts e := by
  induction insts generalizing e with
  | nil => rfl
  | cons si rest ih =>
    rw [walk] at hloads hunmapped
    have hstep : si.stepFrom guest codeAddr e = si.stepFrom guest' codeAddr e := by
      rw [SliceInst.stepFrom, SliceInst.stepFrom]
      by_cases hstepped : si.step = true
      · rw [if_pos hstepped, if_pos hstepped]
        refine step_congr fun henc hcount => ?_
        have hload := hloads _ List.mem_cons_self
        have hrange := hunmapped _ List.mem_cons_self
        simp only [WalkStep.load, WalkStep.addressed, hstepped, henc, hcount, ne_eq, not_false_eq_true,
          and_self, if_true, addressed, Nat.min_eq_left (smemLoadCount_le _)] at hload hrange
        rw [smemAddress_eq e si.inst guest, smemAddress_eq e si.inst guest'] at *
        cases haddress : e.smemAddress si.inst ⟨fun _ _ => true, fun _ => 0⟩ with
        | none => exact ⟨rfl, fun _ h => by cases h⟩
        | some address =>
          rw [haddress] at hload hrange
          cases hmapped : guest.range address (smemLoadCount si.inst.opcode * 4) with
          | true =>
            simp only [Option.filter_some, hmapped, if_true, Option.map_some] at hload
            obtain ⟨hmapped', hsame⟩ := hload _ rfl
            simp only [ReplayLoad.Mapped, ReplayLoad.Unchanged, guestDwords, List.length_map,
              List.length_range] at hmapped' hsame
            refine ⟨by simp [Option.filter_some, hmapped, hmapped'], fun a ha => ?_⟩
            simp only [Option.filter_some, hmapped, if_true, Option.some.injEq] at ha
            subst ha
            exact hsame.symm
          | false =>
            have hstill := hrange _ rfl hmapped
            dsimp only at hstill
            refine ⟨by simp [Option.filter_some, hmapped, hstill], fun a ha => ?_⟩
            simp [Option.filter_some, hmapped] at ha
      · rw [if_neg hstepped, if_neg hstepped]
    rw [walk, walk, ← hstep]
    congr 1
    exact ih (fun s hs => hloads s (List.mem_cons_of_mem _ hs))
      fun s hs => hunmapped s (List.mem_cons_of_mem _ hs)

theorem replay_eq_walk {α : Type} (observe : ScalarEval → Inst → Option α) (insts : List SliceInst) (e : ScalarEval) :
    replay guest codeAddr observe insts e = (walk guest codeAddr insts e).flatMap fun s =>
        ((observe s.before s.si.inst).map fun x => (s.si.inst.pc, x)).toList := by
  induction insts generalizing e with
  | nil => rfl
  | cons si rest ih => rw [replay, walk, List.flatMap_cons, ih]

end Replays

/-! ## Coherence -/

section Coherence

variable {α : Type} {programs : ℕ → CachedProgram} {guest : ScalarMemory}
  {fresh : ReplayInputs → ScalarMemory → α} {memo : ReplayMemo α} {i : ReplayInputs}

def FromSteps (programs : ℕ → CachedProgram) (fresh : ReplayInputs → ScalarMemory → α) : Prop :=
  ∀ (i j : ReplayInputs) (guest guest' : ScalarMemory), i.program = j.program → i.start = j.start →
    i.steps programs guest = j.steps programs guest' → fresh i guest = fresh j guest'

theorem freshTextures_fromSteps : FromSteps programs (freshTextures programs) := by
  intro i j guest guest' hprogram _ hsteps
  rw [freshTextures, freshTextures, hprogram, hsteps]

theorem freshBuffers_fromSteps : FromSteps programs (freshBuffers programs) := by
  intro i j guest guest' _ _ hsteps
  rw [freshBuffers, freshBuffers, resolveBuffersImpl, resolveBuffersImpl, replay_eq_walk, replay_eq_walk]
  exact congrArg (fun steps : List WalkStep => (steps.flatMap _).foldl emplace []) hsteps

theorem start_congr {i j : ReplayInputs} (hsgprs : i.userSgprs = j.userSgprs)
    (hbase : i.userSgprBase = j.userSgprBase) (haddr : i.systemUserDataAddr = j.systemUserDataAddr)
    (huser : i.user = j.user) : i.start = j.start := by
  have hcount : i.userCount = j.userCount := by rw [ReplayInputs.userCount, hsgprs]; rfl
  have hdata : ∀ k < min j.userSgprs 32, i.userData k = j.userData k := by
    intro k hk
    rw [ReplayInputs.user, ReplayInputs.user, hcount, List.map_inj_left] at huser
    exact huser k (List.mem_range.mpr hk)
  rw [ReplayInputs.start, ReplayInputs.start, ScalarEval.start, ScalarEval.start, hsgprs, hbase, haddr]
  congr 1
  funext r
  -- the window's registers hold user data at both; the pair does where it is not the system's
  have hwindow : (if r < kRegs ∧ j.userSgprBase ≤ r ∧ r < j.userSgprBase + min j.userSgprs 32 then
      some (i.userData (r - j.userSgprBase)) else none) = if r < kRegs ∧ j.userSgprBase ≤ r ∧
      r < j.userSgprBase + min j.userSgprs 32 then some (j.userData (r - j.userSgprBase)) else none :=
    ite_congr rfl (fun hin => by rw [hdata _ (by omega)]) fun _ => rfl
  rw [hwindow]
  by_cases hpair : j.systemUserDataAddr = 0 ∧ 2 ≤ j.userSgprs
  · rw [hdata 0 (by omega), hdata 1 (by omega)]
  · rw [not_and_or] at hpair
    rcases hpair with hsystem | hfew
    · simp [hsystem]
    · by_cases hsystem : j.systemUserDataAddr = 0
      · simp [hsystem, hfew]
      · simp [hsystem]

structure ReplayEntry.Made (programs : ℕ → CachedProgram) (fresh : ReplayInputs → ScalarMemory → α)
    (m : ReplayEntry α) : Prop where
  made : ∃ (i : ReplayInputs) (guest : ScalarMemory), i.Fits m ∧ m.out = fresh i guest ∧
    m.loads = (i.steps programs guest).filterMap (WalkStep.load guest) ∧
    m.unmapped = ((i.steps programs guest).filterMap WalkStep.addressed).filter fun r =>
      !guest.range r.1 r.2

def ReplayMemo.Good (programs : ℕ → CachedProgram) (fresh : ReplayInputs → ScalarMemory → α)
    (memo : ReplayMemo α) : Prop :=
  ∀ x ∈ memo, x.2.Made programs fresh

theorem mem_comparedLoads {loads : List ReplayLoad} (h : ∀ load ∈ loads, load.Unchanged guest) :
    comparedLoads guest loads = loads := by
  induction loads with
  | nil => rfl
  | cons load rest ih =>
    rw [List.forall_mem_cons] at h
    rw [comparedLoads, if_pos h.1, ih h.2]

theorem ReplayMemo.Good.store (h : memo.Good programs fresh) :
    (memo.store programs guest i (fresh i guest)).Good programs fresh := by
  intro x hx
  rcases mem_assign hx with rfl | ⟨-, hx⟩
  · exact ⟨i, guest, ⟨rfl, rfl, rfl, rfl, rfl⟩, rfl, rfl, rfl⟩
  · split at hx
    · cases hx
    · exact h x hx

/-- **An answer of the memo** is that of a new replay. -/
theorem ReplayMemo.Good.answer (hfresh : FromSteps programs fresh) (h : memo.Good programs fresh)
    {m : ReplayEntry α} (hm : memo.candidate programs i = some m) (hsteady : Steady guest m)
    (hsame : ∀ load ∈ m.loads, load.Unchanged guest) : m.out = fresh i guest := by
  obtain ⟨hlookup, hfits⟩ := Option.filter_eq_some_iff.mp hm
  obtain ⟨hprogram, hsgprs, hbase, haddr, huser⟩ := of_decide_eq_true hfits
  obtain ⟨j, guest₀, ⟨hprogram', hsgprs', hbase', haddr', huser'⟩, hout, hloads, hunmapped⟩ :=
    (h _ (mem_of_lookup hlookup)).made
  have hsameProgram : j.program = i.program := hprogram'.symm.trans hprogram
  have hstart : j.start = i.start :=
    start_congr (hsgprs'.symm.trans hsgprs) (hbase'.symm.trans hbase) (haddr'.symm.trans haddr)
      (huser'.symm.trans huser)
  have hloaded := hsteady.loaded
  have hfound := hsteady.unmapped hsame
  rw [mem_comparedLoads hsame] at hloaded
  rw [hloads] at hloaded hsame
  rw [hunmapped] at hfound
  have hsteps : j.steps programs guest₀ = j.steps programs guest := by
    refine walk_congr (fun s hs load hload => ?_) fun s hs r hr hrange => ?_
    · have hmem : load ∈ (j.steps programs guest₀).filterMap (WalkStep.load guest₀) :=
        List.mem_filterMap.mpr ⟨s, hs, hload⟩
      exact ⟨hloaded load hmem, hsame load hmem⟩
    · refine hfound r (List.mem_filter.mpr ⟨List.mem_filterMap.mpr ⟨s, hs, hr⟩, ?_⟩)
      rw [hrange]
      rfl
  rw [hout]
  refine hfresh j i guest₀ guest hsameProgram hstart (hsteps.trans ?_)
  rw [ReplayInputs.steps, ReplayInputs.steps, ReplayInputs.code, ReplayInputs.code, hsameProgram, hstart]

/-- **A call** keeps the memo good, returns what a new replay finds, and reads what is mapped. -/
theorem ReplayMemo.Good.call (hfresh : FromSteps programs fresh) (h : memo.Good programs fresh)
    (hok : ∀ m ∈ memo.candidate programs i, Steady guest m) : (memo.call programs guest fresh i).1 = fresh i guest ∧
      ReplayMemo.Good programs fresh (memo.call programs guest fresh i).2.1 ∧
      ∀ load ∈ (memo.call programs guest fresh i).2.2, load.Mapped guest := by
  rw [ReplayMemo.call, ReplayMemo.find]
  cases hm : memo.candidate programs i with
  | none => exact ⟨rfl, h.store, fun _ hload => by cases hload⟩
  | some m =>
    have hsteady := hok m hm
    by_cases hsame : ∀ load ∈ m.loads, load.Unchanged guest
    · dsimp only
      rw [if_pos hsame]
      exact ⟨h.answer hfresh hm hsteady hsame, h, hsteady.loaded⟩
    · dsimp only
      rw [if_neg hsame]
      exact ⟨rfl, h.store, hsteady.loaded⟩

structure ReplayHistory.Inv (programs : ℕ → CachedProgram) (h : ReplayHistory) : Prop where
  textures : h.textures.Good programs (freshTextures programs)
  buffers : h.buffers.Good programs (freshBuffers programs)

/-- **A step** of a history. -/
theorem ReplayHistory.Inv.step {h : ReplayHistory} (hinv : h.Inv programs) {event : ReplayEvent}
    (hok : h.Careful programs event) :
    (h.step programs event).Inv programs ∧ h.Coherent programs event (h.step programs event) := by
  cases event with
  | change guest => exact ⟨⟨hinv.textures, hinv.buffers⟩, trivial⟩
  | textures i =>
    obtain ⟨hout, hgood, hread⟩ := hinv.textures.call freshTextures_fromSteps hok
    exact ⟨⟨hgood, hinv.buffers⟩, congrArg _ hout, hread⟩
  | buffers i =>
    obtain ⟨hout, hgood, hread⟩ := hinv.buffers.call freshBuffers_fromSteps hok
    exact ⟨⟨hinv.textures, hgood⟩, congrArg _ hout, hread⟩

/-- **In a run of steady calls** every answer is that of a new replay on the memory and the mappings of
the moment, and no memo reads what is not mapped. -/
theorem replay_memo_coherent (programs : ℕ → CachedProgram) (guest : ScalarMemory) (events : List ReplayEvent)
    (hok : (ReplayHistory.system programs).Meets (ReplayHistory.Careful programs) (ReplayHistory.init guest) events) :
    (ReplayHistory.system programs).EveryStep (ReplayHistory.Coherent programs)
      (ReplayHistory.init guest) events := by
  have hinit : (ReplayHistory.init guest).Inv programs :=
    ⟨fun _ h => (by cases h), fun _ h => (by cases h)⟩
  refine (ReplayHistory.system programs).everyStep_of_invariant ?_ ?_ hinit hok
  · intro h event h' hinv hok hs
    obtain rfl := Option.some.inj hs
    exact (hinv.step hok).1
  · intro h event h' hinv hok hs
    obtain rfl := Option.some.inj hs
    exact (hinv.step hok).2

end Coherence

section Runs

instance {α : Type u} (guest : ScalarMemory) (m : ReplayEntry α) : Decidable (ReplayMemo.Steady guest m) :=
  decidable_of_iff
    ((∀ load ∈ comparedLoads guest m.loads, load.Mapped guest) ∧
      ((∀ load ∈ m.loads, load.Unchanged guest) → ∀ r ∈ m.unmapped, guest.range r.1 r.2 = false))
    ⟨fun h => ⟨h.1, h.2⟩, fun h => ⟨h.loaded, h.unmapped⟩⟩

instance (programs : ℕ → CachedProgram) (h : ReplayHistory) : DecidablePred (ReplayHistory.Careful programs h)
  | .change _ => isTrue trivial
  | .textures i =>
    inferInstanceAs (Decidable (∀ m ∈ h.textures.candidate programs i, ReplayMemo.Steady h.guest m))
  | .buffers i =>
    inferInstanceAs (Decidable (∀ m ∈ h.buffers.candidate programs i, ReplayMemo.Steady h.guest m))

/-- A descriptor behind the pointer in `s[8:9]`, and a fetch through it. -/
def tableCode (i : ℕ) : ℕ :=
  [0xF4080304, 0xFA000000, 0xE0000000, 0x80030000, 0xBF810000].getD i 0

def tablePrograms (_ : ℕ) : CachedProgram := ⟨0x8000, decodeShader tableCode 5⟩

def tableInputs : ReplayInputs := ⟨0, fun i => .ofNat (0x10000 * (1 - i)), 2, 8, 5, 0⟩

def tableGuest (mapped : Bool) (word : UInt32) : ScalarMemory := ⟨fun _ _ => mapped, fun _ => word⟩

theorem replay_memo_coherent_rewrite :
    (ReplayHistory.system tablePrograms).EveryStep (ReplayHistory.Coherent tablePrograms)
      (ReplayHistory.init (tableGuest true 1))
      [.buffers tableInputs, .buffers tableInputs, .change (tableGuest true 2), .buffers tableInputs] :=
  replay_memo_coherent tablePrograms (tableGuest true 1) _ (by decide +kernel)

theorem stale_behind_mapping : ¬(ReplayHistory.system tablePrograms).EveryStep (ReplayHistory.Coherent tablePrograms)
      (ReplayHistory.init (tableGuest false 1))
      [.buffers tableInputs, .change (tableGuest true 1), .buffers tableInputs] := by
  intro h
  obtain ⟨-, h⟩ := h _ rfl
  obtain ⟨-, h⟩ := h _ rfl
  obtain ⟨⟨hreply, -⟩, -⟩ := h _ rfl
  have hstale : ((((ReplayHistory.init (tableGuest false 1)).step tablePrograms
      (.buffers tableInputs)).step tablePrograms (.change (tableGuest true 1))).step tablePrograms
        (.buffers tableInputs)).reply ≠ .buffers (freshBuffers tablePrograms tableInputs (tableGuest true 1)) := by
    decide +kernel
  exact hstale hreply

end Runs

end Prosperity.Rdna
