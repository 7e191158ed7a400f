import Prosperity.Gpu.PacketReads

/-!
# The walk stays in its buffers

Every handler checks the number of dwords that its packet has before it reads them, but for the wait of a ring
walk: that reads three or four dwords behind the header, and then looks whether the packet has them.
-/

namespace Prosperity.Gpu

open Logged

namespace RegState

variable {n : ℕ}

/-- The reads of the packet are of its first `n` dwords. -/
def BodyBelow (n : ℕ) (e : RegAccess) : Prop := ∀ k, e = .read .body k → k < n

theorem below : Composes fun l : List RegAccess => ∀ e ∈ l, BodyBelow n e := Composes.of_forall _

theorem fetch_body_below {d : ℕ → UInt32} {k : ℕ} (h : k < n) :
    Logs (fun l => ∀ e ∈ l, BodyBelow n e) (fetch .body d k) := by
  intro s e he
  obtain rfl := List.mem_singleton.mp he
  rintro k' hk'
  cases hk'
  exact h

theorem fetch_other_below {source : Source} (h : source ≠ .body) (d : ℕ → UInt32) (k : ℕ) :
    Logs (fun l => ∀ e ∈ l, BodyBelow n e) (fetch source d k) := by
  intro s e he
  obtain rfl := List.mem_singleton.mp he
  rintro k' hk'
  cases hk'
  exact absurd rfl h

theorem store_below (reg : ℕ) (value : UInt32) : Logs (fun l => ∀ e ∈ l, BodyBelow n e) (store reg value) := by
  intro s e he
  obtain rfl := List.mem_singleton.mp he
  rintro k' hk'
  cases hk'

theorem endsWithBlendArray_below (p : ℕ → UInt32) (numPairs : ℕ) :
    Logs (fun l => ∀ e ∈ l, BodyBelow n e) (endsWithBlendArray p numPairs) :=
  below.allM fun _ _ => below.bind (fetch_other_below (by simp) _ _) fun _ => below.pure _

theorem applyBlend_below {source : Source} (h : source ≠ .body) (q : ℕ → UInt32) (pairs : ℕ) :
    Logs (fun l => ∀ e ∈ l, BodyBelow n e) (applyBlend source q pairs) := by
  refine below.bind (fetch_other_below h _ _) fun tag => ?_
  have htail : ∀ control, Logs (fun l => ∀ e ∈ l, BodyBelow n e) (do
      store mmCB_BLEND0_CONTROL control
      let mask ← fetch source q ((pairs - 23) * 2 + 1)
      store mmCB_TARGET_MASK mask) := fun control =>
    below.bind (store_below _ _) fun _ => below.bind (fetch_other_below h _ _) fun _ => store_below _ _
  dsimp only
  split
  · exact below.bind (fetch_other_below h _ _) htail
  · exact below.bind (below.pure _) htail

theorem joinBlend_below (g : Guest) (prevAddr prevPairs numPairs : ℕ) :
    Logs (fun l => ∀ e ∈ l, BodyBelow n e) (joinBlend g prevAddr prevPairs numPairs) := by
  unfold joinBlend
  dsimp only
  split
  · refine below.bind (fetch_other_below (by simp) _ _) fun tag => ?_
    exact below.bind (below.runIf fun _ => applyBlend_below (by simp) _ _) fun _ => below.pure _
  · exact below.pure _

theorem readBlendObject_below (g : Guest) (base : RegBase) (a numPairs : ℕ) :
    Logs (fun l => ∀ e ∈ l, BodyBelow n e) (readBlendObject g base a numPairs) := by
  refine below.bind (below.look _) fun prevPairs => below.bind (below.look _) fun prevAddr => ?_
  refine below.bind (below.guarded fun _ => endsWithBlendArray_below _ _) fun arrayOnly => ?_
  refine below.bind (below.guarded fun _ => endsWithBlendArray_below _ _) fun present => ?_
  refine below.bind (below.guarded fun _ => ?_) fun hasMask => ?_
  · exact below.bind (fetch_other_below (by simp) _ _) fun _ => below.pure _
  refine below.bind (below.runIf fun _ => applyBlend_below (by simp) _ _) fun _ => ?_
  refine below.bind (below.guarded fun _ => joinBlend_below g _ _ _) fun joined => ?_
  exact below.bind (below.runIf fun _ => below.change _) fun _ => below.pure _

theorem anchorFrom_below (g : Guest) (p : ℕ → UInt32) (blendApplied : Bool) (ks : List ℕ) :
    Logs (fun l => ∀ e ∈ l, BodyBelow n e) (anchorFrom g p blendApplied ks) := by
  induction ks with
  | nil => exact below.pure _
  | cons k ks ih =>
    refine below.bind (fetch_other_below (by simp) _ _) fun color => ?_
    refine below.bind (fetch_other_below (by simp) _ _) fun info => ?_
    refine below.bind (fetch_other_below (by simp) _ _) fun attrib2 => ?_
    dsimp only
    split
    · exact ih
    · refine below.bind (store_below _ _) fun _ => below.bind (store_below _ _) fun _ => ?_
      refine below.bind (store_below _ _) fun _ => below.bind (below.look _) fun mask => ?_
      exact below.bind (below.runIf fun _ => store_below _ _) fun _ => below.pure _

theorem anchorColorTarget_below (g : Guest) (base : RegBase) (p : ℕ → UInt32) (numPairs : ℕ) (blendApplied : Bool) :
    Logs (fun l => ∀ e ∈ l, BodyBelow n e) (anchorColorTarget g base p numPairs blendApplied) := by
  unfold anchorColorTarget
  split
  · exact below.pure _
  · refine below.bind (fetch_other_below (by simp) _ _) fun tag => ?_
    split
    · exact below.pure _
    · exact anchorFrom_below g p blendApplied _

theorem applyBlock_below (g : Guest) (base : RegBase) (a numPairs : ℕ) :
    Logs (fun l => ∀ e ∈ l, BodyBelow n e) (applyBlock g base a numPairs) := by
  refine below.bind (readBlendObject_below g base a numPairs) fun blend => ?_
  refine below.bind (anchorColorTarget_below g base _ _ _) fun boundRt => ?_
  refine below.bind (below.runIf fun _ => ?_) fun _ => ?_
  · exact below.bind (store_below _ _) fun _ => store_below _ _
  · refine below.forM fun i _ => below.bind (fetch_other_below (by simp) _ _) fun tag => ?_
    split
    · exact below.pure _
    · refine below.bind (fetch_other_below (by simp) _ _) fun value => ?_
      dsimp only
      split
      · exact store_below _ _
      · exact below.pure _

theorem loadRegBlock_below (g : Guest) (base : RegBase) (body : ℕ → UInt32) (count : UInt32) :
    Logs (fun l => ∀ e ∈ l, BodyBelow count.toNat e) (loadRegBlock g base body count) := by
  unfold loadRegBlock
  split
  · exact below.pure _
  · rename_i hcount
    have hfour : 4 ≤ count.toNat := by
      rw [UInt32.lt_iff_toNat_lt] at hcount
      exact Nat.not_lt.mp hcount
    refine below.bind (fetch_body_below (by omega)) fun _ => below.bind (fetch_body_below (by omega)) fun _ => ?_
    split
    · exact below.pure _
    · refine below.bind (fetch_body_below (by omega)) fun _ => ?_
      split
      · exact below.pure _
      · split
        · exact below.pure _
        · exact applyBlock_below g base _ _

theorem decode_below (g : Guest) (body : ℕ → UInt32) {count : UInt32} (s : CpState) (p : RegPacket)
    (hcount : count.toNat ≤ 0x4000) (hdata : p = .writeDataRegs → 3 ≤ count.toNat) :
    ∀ e ∈ ((p.decode g body count).run s).log, BodyBelow count.toNat e := by
  have hfit : p.Fits g body count s → ∀ e ∈ ((p.decode g body count).run s).log, BodyBelow count.toNat e := by
    rintro hfits e he k rfl
    have hdeclared : p.Declared body count s .body k := (RegPacket.safe_decode g body count s _ hfits).1 _ he
    cases hdeclared with
    | body hk => exact hk
  cases p with
  | setRegs base =>
    apply hfit
    have hbase := base.value_le
    have hoff := plainOffset_le (body 0)
    simp only [RegPacket.Fits]
    omega
  | loadRegImage base => exact hfit trivial
  | loadRegBlock base => exact loadRegBlock_below g base body count s
  | writeDataRegs =>
    apply hfit
    left
    rw [UInt32.le_iff_toNat_le]
    exact hdata rfl

end RegState

namespace PacketReads

variable {σ : Type} {r : Reactions σ} {pk : PacketAt}

/-- A read of a dword of the buffer. -/
def InBounds : WalkEvent → Prop
  | .read b k => k < b.words
  | .ringWait .. => True

def HasRoom : WalkEvent → Prop
  | .read .. => True
  | .ringWait b i wide => i + (if wide then 4 else 3) + 1 < b.words

def Clean : WalkEvent → Prop
  | .read b k => k < b.words
  | .ringWait .. => False

def CleanLog (l : List WalkEvent) : Prop := ∀ e ∈ l, Clean e

def Exact (l : List WalkEvent) : Prop := (∀ e ∈ l, InBounds e) ↔ ∀ e ∈ l, HasRoom e

theorem clean : Composes CleanLog := Composes.of_forall Clean

theorem exact : Composes Exact where
  nil := by simp [Exact]
  append := by
    intro l m hl hm
    simp only [Exact, List.forall_mem_append] at hl hm ⊢
    exact and_congr hl hm

theorem CleanLog.inBounds {l : List WalkEvent} (h : CleanLog l) : ∀ e ∈ l, InBounds e := by
  intro e he
  have hclean := h e he
  cases e with
  | read b k => exact hclean
  | ringWait b i wide => trivial

theorem CleanLog.exact {l : List WalkEvent} (h : CleanLog l) : Exact l := by
  refine iff_of_true h.inBounds fun e he => ?_
  have hclean := h e he
  cases e with
  | read b k => trivial
  | ringWait b i wide => exact hclean.elim

/-! ### Reads of a packet that is all in the buffer -/

def PacketAt.Fits (pk : PacketAt) : Prop := pk.i + 1 + pk.count ≤ pk.b.words

theorem count_pos (pk : PacketAt) : 0 < pk.count := Nat.succ_pos _

theorem count_le (pk : PacketAt) : pk.count ≤ 0x4000 := by
  have hle : (pk.hdr >>> 16) &&& 0x3FFF ≤ 0x3FFF := Nat.and_le_right
  simp only [PacketAt.count, pm4Count]
  omega

theorem fetch_clean {b : Buffer} {k : ℕ} (h : k < b.words) : Logs CleanLog (fetch b k : Cmd σ UInt32) := by
  intro s e he
  obtain rfl := List.mem_singleton.mp he
  exact h

theorem body_clean (h : pk.Fits) {k : ℕ} (hk : k < pk.count) : Logs CleanLog (pk.body k : Cmd σ UInt32) := by
  refine fetch_clean ?_
  rw [PacketAt.Fits] at h
  omega

theorem dwords_clean (h : pk.Fits) {ks : List ℕ} (hks : ∀ k ∈ ks, k < pk.count) :
    Logs CleanLog (pk.dwords ks : Cmd σ (List UInt32)) :=
  clean.collect fun k hk => body_clean h (hks k hk)

theorem optional_lt (pk : PacketAt) {j k : ℕ} (hk : k ∈ pk.optional j) : k < pk.count := by
  rw [PacketAt.optional] at hk
  split at hk
  · rwa [List.mem_singleton.mp hk]
  · cases hk

theorem range_lt (pk : PacketAt) {n k : ℕ} (hk : k ∈ List.range (min pk.count n)) : k < pk.count :=
  (List.mem_range.mp hk).trans_le (Nat.min_le_left _ _)

theorem finish_clean (r : Reactions σ) (pk : PacketAt) (ds : List UInt32) :
    Logs CleanLog (finish r pk ds : Cmd σ PUnit) :=
  clean.change _

theorem ask_clean (f : CpMachine σ → Bool × CpMachine σ) : Logs CleanLog (ask f : Cmd σ Bool) :=
  clean.bind (clean.look _) fun _ => clean.bind (clean.change _) fun _ => clean.pure _

theorem reading_clean (h : pk.Fits) {need : ℕ} {ks : List ℕ} (hks : need ≤ pk.count → ∀ k ∈ ks, k < pk.count) :
    Logs CleanLog (reading r pk need ks) := by
  unfold reading
  split
  · exact clean.pure _
  · exact clean.bind (dwords_clean h (hks (by omega))) fun ds => finish_clean r pk ds

theorem printing_clean (h : pk.Fits) {ks : List ℕ} (hks : ∀ k ∈ ks, k < pk.count) :
    Logs CleanLog (do
      let _ ← pk.dwords ks
      pure ⟨⟩ : Cmd σ PUnit) :=
  clean.bind (dwords_clean h hks) fun _ => clean.pure _

/-! ### The handlers -/

theorem decodeRegs_clean (h : pk.Fits) (p : RegState.RegPacket) (hdata : p = .writeDataRegs → 3 ≤ pk.count) :
    Logs CleanLog (decodeRegs pk p : Cmd σ PUnit) := by
  intro s e he
  obtain ⟨a, ha, hread⟩ := List.mem_filterMap.mp he
  have hle := count_le pk
  have hcount : (UInt32.ofNat pk.count).toNat = pk.count :=
    UInt32.toNat_ofNat_of_lt' (Nat.lt_of_le_of_lt hle (by decide))
  have hbelow := RegState.decode_below _ _ _ p (by omega) (by rwa [hcount]) a ha
  rw [hcount] at hbelow
  unfold bodyRead at hread
  split at hread
  · obtain rfl := Option.some.inj hread
    have hk := hbelow _ rfl
    rw [PacketAt.Fits] at h
    show _ < _
    omega
  · cases hread

theorem loadRegImage_clean (h : pk.Fits) (base : RegState.RegBase) : Logs CleanLog (loadRegImage r pk base) := by
  refine clean.bind (clean.look _) fun logs => clean.bind (clean.runIf fun _ => ?_) fun _ => ?_
  · refine printing_clean h fun k hk => ?_
    obtain ⟨i, hi, hk⟩ := List.mem_flatMap.mp hk
    have hlt := RegState.mem_rangeIndices hi
    simp only [List.mem_cons, List.not_mem_nil, or_false] at hk
    omega
  · exact decodeRegs_clean h _ (fun hdata => by cases hdata)

theorem setRegRun_clean (h : pk.Fits) (first : ℕ) : Logs CleanLog (setRegRun r pk first) := by
  refine clean.bind (clean.forM fun k hk => ?_) fun _ => clean.bind (clean.look _) fun logs => ?_
  · exact clean.bind (body_clean h (List.mem_range.mp hk)) fun _ => clean.change _
  · refine clean.runIf fun _ => printing_clean h fun k hk => ?_
    exact (List.mem_append.mp hk).elim (optional_lt pk) (optional_lt pk)

theorem handleDmaData_clean (h : pk.Fits) : Logs CleanLog (handleDmaData r pk) := by
  unfold handleDmaData
  split
  · exact clean.pure _
  · refine clean.bind (body_clean h (by omega)) fun control => ?_
    refine clean.bind (body_clean h (by omega)) fun srcHi => clean.bind (body_clean h (by omega)) fun srcLo => ?_
    refine clean.bind (body_clean h (by omega)) fun dstHi => clean.bind (body_clean h (by omega)) fun dstLo => ?_
    refine clean.bind (body_clean h (by omega)) fun command => ?_
    refine clean.bind (clean.runIf fun _ => ?_) fun _ => finish_clean r pk _
    exact clean.bind (body_clean h (by omega)) fun _ => clean.pure _

theorem handleWriteData_clean (h : pk.Fits) : Logs CleanLog (handleWriteData r pk) := by
  unfold handleWriteData
  split
  · exact clean.pure _
  · refine clean.bind (body_clean h (by omega)) fun control => ?_
    split
    · exact decodeRegs_clean h _ fun _ => by omega
    · refine clean.bind (body_clean h (by omega)) fun hi => clean.bind (body_clean h (by omega)) fun lo => ?_
      refine clean.bind (clean.runIf fun _ => ?_) fun _ => clean.runIf fun _ => ?_
      · refine printing_clean h fun k hk => ?_
        split at hk <;> simp at hk <;> omega
      · refine clean.bind (dwords_clean h fun k hk => ?_) fun ds => finish_clean r pk ds
        rw [List.mem_range'_1] at hk
        omega

theorem handleEventWriteEop_clean (h : pk.Fits) : Logs CleanLog (handleEventWriteEop r pk) := by
  refine reading_clean h fun hneed k hk => ?_
  obtain hk | hk := List.mem_append.mp hk
  · simp at hk
    omega
  · exact optional_lt pk hk

theorem handleReleaseMem_clean (h : pk.Fits) : Logs CleanLog (handleReleaseMem r pk) := by
  refine reading_clean h fun hneed k hk => ?_
  simp only [List.mem_append] at hk
  obtain ((hk | hk) | hk) | hk := hk
  · simp at hk
    omega
  · exact optional_lt pk hk
  · simp at hk
    omega
  · exact optional_lt pk hk

theorem handleEventWriteEos_clean (h : pk.Fits) : Logs CleanLog (handleEventWriteEos r pk) :=
  reading_clean h fun hneed k hk => by
    simp at hk
    omega

theorem handleAtomicMem_clean (h : pk.Fits) : Logs CleanLog (handleAtomicMem r pk) :=
  reading_clean h fun hneed k hk => by
    simp at hk
    omega

theorem handleCopyData_clean (h : pk.Fits) : Logs CleanLog (handleCopyData r pk) :=
  reading_clean h fun hneed k hk => by
    simp at hk
    omega

theorem handleEventWrite_clean (h : pk.Fits) : Logs CleanLog (handleEventWrite r pk) := by
  unfold handleEventWrite
  split
  · exact clean.pure _
  · refine clean.bind (body_clean h (by omega)) fun control => clean.runIf fun _ => ?_
    refine clean.bind (dwords_clean h fun k hk => ?_) fun ds => finish_clean r pk ds
    simp at hk
    omega

theorem publishPacket_clean (h : pk.Fits) {handle : Cmd σ PUnit} (hhandle : Logs CleanLog handle) :
    Logs CleanLog (publishPacket pk handle) :=
  clean.bind (dwords_clean h fun _ hk => List.mem_range.mp hk) fun _ => hhandle

theorem dispatchArgs_clean (h : pk.Fits) : Logs CleanLog (dispatchArgs pk : Cmd σ ℕ) := by
  unfold dispatchArgs
  split
  · refine clean.bind (body_clean h (by omega)) fun lo => ?_
    exact clean.bind (body_clean h (by omega)) fun hi => clean.pure _
  · split
    · refine clean.bind (clean.look _) fun base => ?_
      exact clean.bind (body_clean h (by omega)) fun offset => clean.pure _
    · exact clean.pure _

theorem dispatchInitiator_clean (h : pk.Fits) : Logs CleanLog (dispatchInitiator pk : Cmd σ UInt32) := by
  unfold dispatchInitiator
  split
  · exact body_clean h (by omega)
  · exact clean.pure _

theorem handleDispatchIndirect_clean (h : pk.Fits) : Logs CleanLog (handleDispatchIndirect r pk) := by
  refine clean.bind (dispatchArgs_clean h) fun args => clean.bind (clean.look _) fun readable => ?_
  split
  · exact clean.pure _
  · refine clean.bind (dispatchInitiator_clean h) fun initiator => clean.bind (clean.look _) fun direct => ?_
    split
    · exact finish_clean r pk _
    · refine clean.bind (ask_clean _) fun flushed => clean.runIf fun _ => ?_
      refine clean.bind (dispatchInitiator_clean h) fun again => clean.bind (clean.look _) fun groups => ?_
      refine clean.bind (clean.runIf fun _ => printing_clean h fun k hk => ?_) fun _ => finish_clean r pk _
      simp only [List.mem_append] at hk
      obtain (hk | hk) | hk := hk
      · rw [List.mem_singleton.mp hk]
        exact count_pos pk
      · exact optional_lt pk hk
      · exact optional_lt pk hk

theorem handleDrawIndirect_clean (h : pk.Fits) : Logs CleanLog (handleDrawIndirect r pk) := by
  have htail : ∀ ready : Bool, Logs CleanLog (runIf ready do
      let initiator ← pk.dwords (pk.optional 3)
      finish r pk initiator) := fun ready =>
    clean.runIf fun _ => clean.bind (dwords_clean h fun _ hk => optional_lt pk hk) fun ds => finish_clean r pk ds
  unfold handleDrawIndirect
  split
  · exact clean.pure _
  · refine clean.bind (clean.look _) fun base => clean.bind (body_clean h (count_pos pk)) fun offset => ?_
    refine clean.bind (clean.look _) fun readable => ?_
    split
    · exact clean.pure _
    · refine clean.bind (clean.look _) fun direct => ?_
      dsimp only
      split
      · exact clean.bind (clean.pure _) htail
      · exact clean.bind (ask_clean _) htail

theorem handleDrawPacket_clean (h : pk.Fits) : Logs CleanLog (handleDrawPacket r pk) := by
  refine clean.bind (clean.look _) fun binds => clean.runIf fun _ => clean.bind (clean.look _) fun indexBase => ?_
  refine clean.bind (dwords_clean h fun k hk => ?_) fun ds => finish_clean r pk ds
  unfold drawDwords at hk
  split at hk
  · simp at hk
    omega
  · split at hk
    · simp at hk
      omega
    · split at hk
      · simp at hk
        omega
      · cases hk

theorem setIndexType_clean (h : pk.Fits) : Logs CleanLog (setIndexType pk : Cmd σ PUnit) := by
  unfold setIndexType
  split
  · exact clean.pure _
  · exact clean.bind (body_clean h (by omega)) fun _ => clean.change _

theorem setIndexBase_clean (h : pk.Fits) : Logs CleanLog (setIndexBase pk : Cmd σ PUnit) := by
  unfold setIndexBase
  split
  · exact clean.pure _
  · refine clean.bind (body_clean h (by omega)) fun hi => ?_
    exact clean.bind (body_clean h (by omega)) fun lo => clean.change _

theorem setIndexMax_clean (h : pk.Fits) : Logs CleanLog (setIndexMax pk : Cmd σ PUnit) := by
  unfold setIndexMax
  split
  · exact clean.pure _
  · exact clean.bind (body_clean h (by omega)) fun _ => clean.change _

theorem setBase_clean (h : pk.Fits) : Logs CleanLog (setBase pk : Cmd σ PUnit) := by
  unfold setBase
  split
  · exact clean.pure _
  · refine clean.bind (body_clean h (by omega)) fun control => ?_
    split
    · exact clean.pure _
    · refine clean.bind (body_clean h (by omega)) fun lo => clean.bind (body_clean h (by omega)) fun hi => ?_
      dsimp only
      split <;> exact clean.change _

theorem condExec_clean (h : pk.Fits) : Logs CleanLog (condExec pk : Cmd σ ℕ) := by
  unfold condExec
  split
  · exact clean.pure _
  · refine clean.bind (body_clean h (by omega)) fun hi => clean.bind (body_clean h (by omega)) fun lo => ?_
    refine clean.bind (body_clean h (by omega)) fun skip => clean.bind (clean.look _) fun _ => clean.pure _

theorem noteUnhandledOpcode_clean (h : pk.Fits) : Logs CleanLog (noteUnhandledOpcode r pk) :=
  clean.bind (clean.look _) fun _ => clean.runIf fun _ => printing_clean h fun _ hk => range_lt pk hk

theorem traceOpcodeBody_clean (h : pk.Fits) : Logs CleanLog (traceOpcodeBody r pk) :=
  clean.bind (clean.look _) fun _ => clean.runIf fun _ => printing_clean h fun _ hk => range_lt pk hk

theorem traceDcbPacket_clean (h : pk.Fits) : Logs CleanLog (traceDcbPacket pk : Cmd σ PUnit) := by
  refine clean.bind (dwords_clean h fun k hk => ?_) fun _ => clean.runIf fun hblock => ?_
  · rw [List.mem_range] at hk
    split at hk <;> omega
  · refine printing_clean h fun k hk => ?_
    rw [Bool.and_eq_true, decide_eq_true_eq] at hblock
    simp at hk
    omega

theorem traceDesync_clean (b : Buffer) (oldest : ℕ) : Logs CleanLog (traceDesync r b oldest) := by
  refine clean.bind (clean.look _) fun _ => clean.runIf fun _ => ?_
  refine clean.bind (clean.collect fun k hk => fetch_clean ?_) fun _ => clean.pure _
  rw [List.mem_range'_1] at hk
  omega

/-- **The handlers.** No packet handler reads a dword that its packet does not have. -/
theorem handlePacket_clean (h : pk.Fits) : Logs CleanLog (handlePacket r pk) := by
  have hregs : ∀ p : RegState.RegPacket, p ≠ .writeDataRegs → Logs CleanLog (decodeRegs pk p : Cmd σ PUnit) :=
    fun p hp => decodeRegs_clean h p fun hdata => absurd hdata hp
  have hone : ∀ k ∈ [0], 1 ≤ pk.count → k < pk.count := by
    simp only [List.mem_singleton, forall_eq]
    omega
  unfold handlePacket
  split
  · exact hregs _ (by simp)
  · exact hregs _ (by simp)
  · exact hregs _ (by simp)
  · exact hregs _ (by simp)
  · exact hregs _ (by simp)
  · exact loadRegImage_clean h _
  · exact loadRegImage_clean h _
  · exact loadRegImage_clean h _
  · exact hregs _ (by simp)
  · exact hregs _ (by simp)
  · exact hregs _ (by simp)
  · exact clean.pure _
  · exact clean.pure _
  · exact clean.pure _
  · exact clean.pure _
  · exact clean.pure _
  · exact reading_clean h fun hneed k hk => by rw [List.mem_singleton.mp hk]; omega
  · exact handleDmaData_clean h
  · exact setIndexType_clean h
  · exact setIndexBase_clean h
  · exact setIndexMax_clean h
  · exact reading_clean h fun hneed k hk => hone k hk hneed
  · exact reading_clean h fun _ k hk => range_lt pk hk
  · exact handleDispatchIndirect_clean h
  · exact handleDrawIndirect_clean h
  · exact handleDrawIndirect_clean h
  · exact setBase_clean h
  · refine clean.runIf fun hcount => clean.bind (dwords_clean h fun k hk => ?_) fun _ => ?_
    · rw [decide_eq_true_eq] at hcount
      simp at hk
      omega
    · exact publishPacket_clean h (handleAtomicMem_clean h)
  · exact reading_clean h fun hneed k hk => hone k hk hneed
  · exact handleWriteData_clean h
  · refine clean.runIf fun hcount => clean.bind (dwords_clean h fun k hk => ?_) fun _ => ?_
    · rw [decide_eq_true_eq] at hcount
      simp at hk
      omega
    · exact publishPacket_clean h (handleCopyData_clean h)
  · -- the control dword is read before the rest of the packet is asked for
    refine clean.runIf fun hcount => ?_
    rw [decide_eq_true_eq] at hcount
    refine clean.bind (body_clean h (by omega)) fun control => clean.runIf fun _ => ?_
    refine clean.bind (dwords_clean h fun k hk => ?_) fun _ => publishPacket_clean h (handleEventWrite_clean h)
    simp at hk
    omega
  · exact handleEventWriteEop_clean h
  · exact handleReleaseMem_clean h
  · exact handleEventWriteEos_clean h
  · split
    · exact handleDrawPacket_clean h
    · exact noteUnhandledOpcode_clean h

/-! ### The waits -/

theorem readWait_clean (h : pk.Fits) {wide : Bool} (hcount : minWait wide ≤ pk.count) :
    Logs CleanLog (readWait pk wide : Cmd σ Wait) := by
  refine clean.bind (body_clean h (count_pos pk)) fun control => ?_
  cases wide with
  | true =>
    simp only [minWait, if_true] at hcount
    refine clean.bind (body_clean h (by omega)) fun hi => clean.bind (body_clean h (by omega)) fun lo => ?_
    refine clean.bind (body_clean h (by omega)) fun refHi => clean.bind (body_clean h (by omega)) fun refLo => ?_
    refine clean.bind (body_clean h (by omega)) fun maskHi => clean.bind (body_clean h (by omega)) fun maskLo => ?_
    exact clean.pure _
  | false =>
    simp only [minWait, Bool.false_eq_true, if_false] at hcount
    refine clean.bind (body_clean h (by omega)) fun hi => clean.bind (body_clean h (by omega)) fun lo => ?_
    refine clean.bind (body_clean h (by omega)) fun ref => clean.bind (body_clean h (by omega)) fun mask => ?_
    exact clean.pure _

theorem waitSatisfied_clean (h : pk.Fits) (wide : Bool) : Logs CleanLog (waitSatisfied r pk wide) := by
  unfold waitSatisfied
  split
  · exact clean.pure _
  · rename_i hcount
    refine clean.bind (readWait_clean h (Nat.not_lt.mp hcount)) fun w => clean.bind (clean.look _) fun readable => ?_
    split
    · exact clean.pure _
    · exact ask_clean _

theorem waitTurns_clean (h : pk.Fits) (wide : Bool) (turns : List (CpMachine σ → CpMachine σ)) :
    Logs CleanLog (waitTurns r pk wide turns) := by
  induction turns with
  | nil => exact clean.pure _
  | cons others turns ih =>
    refine clean.bind (waitSatisfied_clean h wide) fun done => ?_
    split
    · exact clean.pure _
    · exact clean.bind (clean.change _) fun _ => ih

theorem waitBriefly_clean (h : pk.Fits) {wide : Bool} (hcount : minWait wide ≤ pk.count) :
    Logs CleanLog (waitBriefly r pk wide) := by
  have hthree : 3 ≤ pk.count := by
    cases wide <;> simp [minWait] at hcount <;> omega
  refine clean.bind (body_clean h (by omega)) fun hi => clean.bind (body_clean h (by omega)) fun lo => ?_
  refine clean.bind (clean.look _) fun missed => ?_
  split
  · exact clean.pure _
  · exact clean.bind (clean.look _) fun turns => waitTurns_clean h wide turns

theorem passWait_clean (h : pk.Fits) (wide : Bool) : Logs CleanLog (passWait r pk wide) := by
  unfold passWait
  by_cases hcount : pk.count < minWait wide
  · intro s e he
    have hshort : waitSatisfied r pk wide = pure true := if_pos hcount
    rw [hshort] at he
    cases he
  · have hcount := Nat.not_lt.mp hcount
    have hfour : 4 ≤ pk.count := by
      cases wide <;> simp [minWait] at hcount <;> omega
    refine clean.bind (waitSatisfied_clean h wide) fun satisfied => ?_
    split
    · exact clean.pure _
    · refine clean.bind (waitBriefly_clean h hcount) fun satisfied => ?_
      split
      · exact clean.pure _
      · refine clean.bind (dwords_clean h fun k hk => ?_) fun ds => ?_
        · simp at hk
          omega
        · exact clean.bind (finish_clean r pk _) fun _ => clean.pure _

theorem logs_exact {α : Type} {m : Cmd σ α} (h : Logs CleanLog m) : Logs Exact m := fun s => (h s).exact

theorem ringTarget_exact (pk : PacketAt) (wide : Bool) : Logs Exact (ringTarget pk wide : Cmd σ (ℕ × ℕ)) := by
  intro s
  cases wide with
  | true =>
    have hlog : ((ringTarget pk true : Cmd σ (ℕ × ℕ)).run s).log =
        [.ringWait pk.b pk.i true, .read pk.b (pk.i + 1 + 2), .read pk.b (pk.i + 1 + 1),
          .read pk.b (pk.i + 1 + 4), .read pk.b (pk.i + 1 + 3)] := rfl
    rw [hlog]
    simp [Exact, InBounds, HasRoom]
    omega
  | false =>
    have hlog : ((ringTarget pk false : Cmd σ (ℕ × ℕ)).run s).log =
        [.ringWait pk.b pk.i false, .read pk.b (pk.i + 1 + 2), .read pk.b (pk.i + 1 + 1),
          .read pk.b (pk.i + 1 + 3)] := rfl
    rw [hlog]
    simp [Exact, InBounds, HasRoom]
    omega

/-- **The wait of a ring walk.** Behind these dwords it reads only what its packet has. -/
theorem stallOnRing_exact (h : pk.Fits) (wide : Bool) : Logs Exact (stallOnRing r pk wide) := by
  refine exact.bind (ringTarget_exact pk wide) fun target => logs_exact ?_
  refine clean.bind (clean.guarded fun _ => ask_clean _) fun hit => ?_
  split
  · exact clean.pure _
  · refine clean.bind (clean.runIf fun hcount => ?_) fun _ => ?_
    · rw [decide_eq_true_eq] at hcount
      refine clean.bind (dwords_clean h fun k hk => ?_) fun ds => finish_clean r pk ds
      cases wide with
      | true | false =>
        simp [minWait] at hcount hk
        omega
    · refine clean.bind (waitSatisfied_clean h wide) fun satisfied => ?_
      exact clean.bind (finish_clean r pk _) fun _ => clean.pure _

/-! ### The walk -/

section Walk

variable {R : List WalkEvent → Prop} {ring dump : Bool} {sub : Buffer → Cmd σ ℕ} {depth : ℕ}

theorem enterIb_logs (hR : Composes R) (hsub : ∀ b, Logs R (sub b)) (ib ibWords : ℕ) :
    Logs R (enterIb sub depth ib ibWords) := by
  refine hR.bind (hR.look _) fun resumes => hR.bind (hR.look _) fun left => ?_
  refine hR.bind (hR.runIf fun _ => hR.change _) fun _ => hR.bind (hsub _) fun done => ?_
  exact hR.bind (hR.look _) fun stalled => hR.bind (hR.runIf fun _ => hR.change _) fun _ => hR.pure _

theorem walkStep_logs (hR : Composes R) (hclean : ∀ l, CleanLog l → R l)
    (hwait : ∀ pk : PacketAt, pk.Fits → ∀ wide, Logs R (stallOnWait r pk ring wide))
    (hsub : ∀ b, Logs R (sub b)) {b : Buffer} {i : ℕ} (hi : i < b.words) (trail : List ℕ) :
    Logs R (walkStep r ring dump sub depth b i trail) := by
  -- whatever only reads inside the packet meets `R`; the waits and the walks below remain
  have hlift : ∀ {α : Type} {m : Cmd σ α}, Logs CleanLog m → Logs R m := fun hm s => hclean _ (hm s)
  refine hR.bind (hlift (fetch_clean hi)) fun word => ?_
  dsimp only
  split
  · exact hR.pure _
  split
  · split
    · exact hR.pure _
    · rename_i hfits
      refine hR.bind (hlift (setRegRun_clean ?_ _)) fun _ => hR.pure _
      exact Nat.not_lt.mp (not_or.mp hfits).2
  split
  · exact hR.bind (hlift (traceDesync_clean b _)) fun _ => hR.pure _
  split
  · exact hR.pure _
  split
  · exact hR.pure _
  rename_i hfits
  have h : PacketAt.Fits ⟨b, i, word.toNat⟩ := Nat.not_lt.mp hfits
  refine hR.bind (hlift (traceOpcodeBody_clean h)) fun _ => ?_
  refine hR.bind (hR.runIf fun _ => hlift (traceDcbPacket_clean h)) fun _ => ?_
  unfold walkPacket
  split
  · unfold indirectBuffer
    split
    · exact hR.pure _
    · refine hR.bind (hlift (body_clean h (by omega))) fun hi => hR.bind (hlift (body_clean h (by omega))) fun lo => ?_
      refine hR.bind (hlift (body_clean h (by omega))) fun size => hR.bind (hR.look _) fun readable => ?_
      dsimp only
      split
      · exact hR.bind (enterIb_logs hR hsub _ _) fun stalled => hR.pure _
      · exact hR.pure _
  split
  · refine hR.bind (hwait _ h _) fun stalls => ?_
    exact hR.bind (hR.runIf fun _ => hR.change _) fun _ => hR.pure _
  split
  · exact hR.bind (hlift (condExec_clean h)) fun skip => hR.pure _
  · exact hR.bind (hlift (handlePacket_clean h)) fun _ => hR.pure _

theorem walkLoop_logs (hR : Composes R) {turn : ℕ → List ℕ → Cmd σ Step} {words : ℕ}
    (hturn : ∀ i < words, ∀ trail, Logs R (turn i trail)) (i : ℕ) (trail : List ℕ) :
    Logs R (walkLoop turn words i trail) := by
  induction hleft : words - i using Nat.strong_induction_on generalizing i trail with
  | _ left ih =>
    rw [walkLoop]
    split
    · rename_i hi
      refine hR.bind (hturn i hi _) fun step => ?_
      cases step with
      | stop stopped => exact hR.pure _
      | advance extra => exact ih _ (by omega) _ _ rfl
    · exact hR.pure _

theorem walk_logs (hR : Composes R) (hclean : ∀ l, CleanLog l → R l)
    (hwait : ∀ pk : PacketAt, pk.Fits → ∀ wide, Logs R (stallOnWait r pk ring wide)) (levels depth : ℕ)
    (b : Buffer) : Logs R (walk r ring dump levels depth b) := by
  induction levels generalizing depth b with
  | zero => exact hR.pure _
  | succ levels ih =>
    rw [walk]
    split
    · exact hR.pure _
    · refine walkLoop_logs hR (fun i hi trail => ?_) 0 []
      exact walkStep_logs hR hclean hwait (fun b' => ih (depth + 1) b') hi trail

theorem submit_logs (hR : Composes R) (hclean : ∀ l, CleanLog l → R l)
    (hwait : ∀ pk : PacketAt, pk.Fits → ∀ wide, Logs R (stallOnWait r pk ring wide)) (dcb : ℕ)
    (sizeBytes : UInt32) : Logs R (submit r ring dump dcb sizeBytes) := by
  unfold submit
  split
  · exact hR.pure _
  · exact walk_logs hR hclean hwait _ _ _

end Walk

theorem submit_clean (dump : Bool) (dcb : ℕ) (sizeBytes : UInt32) :
    Logs CleanLog (submit r false dump dcb sizeBytes) := by
  have hwait : ∀ pk : PacketAt, pk.Fits → ∀ wide, Logs CleanLog (stallOnWait r pk false wide) :=
    fun _ h wide => passWait_clean h wide
  exact submit_logs clean (fun _ h => h) hwait dcb sizeBytes

theorem submitDcbRing_exact (dump : Bool) (dcb : ℕ) (sizeBytes : UInt32) :
    Logs Exact (submitDcbRing r dump dcb sizeBytes) := by
  have hwait : ∀ pk : PacketAt, pk.Fits → ∀ wide, Logs Exact (stallOnWait r pk true wide) :=
    fun _ h wide => stallOnRing_exact h wide
  refine exact.bind (exact.change _) fun _ => ?_
  exact submit_logs exact (fun _ h => h.exact) hwait dcb sizeBytes

/-- **What the walk reads.** Whatever the buffers hold, the walks of the graphics queue and of the constant engine
read dwords of the buffer that is walked only. A ring walk does exactly if each wait that it comes to has room. -/
theorem walk_reads_iff (r : Reactions σ) (dump : Bool) (dcb : ℕ) (sizeBytes : UInt32) (s : CpMachine σ) :
    (∀ e ∈ ((submitDcb r dump dcb sizeBytes).run s).log, InBounds e) ∧
      (∀ e ∈ ((submitCcb r dcb sizeBytes).run s).log, InBounds e) ∧
      ((∀ e ∈ ((submitDcbRing r dump dcb sizeBytes).run s).log, InBounds e) ↔
        ∀ e ∈ ((submitDcbRing r dump dcb sizeBytes).run s).log, HasRoom e) :=
  ⟨(submit_clean dump dcb sizeBytes s).inBounds, (submit_clean false dcb sizeBytes s).inBounds,
    submitDcbRing_exact dump dcb sizeBytes s⟩

/-- Nothing around the queue does anything. -/
def quiet : Reactions Unit where
  effect _ _ s := s
  memWatch := 0
  noCopy := false
  opDump _ _ := false
  logsUnhandled _ _ := false
  logsDesync _ := false
  logsRegisters _ := false
  dispatchesIndirect _ _ _ := false
  gpuIndirectArgs _ _ _ := false
  flushCsWrites _ s := (true, s)
  bindsDraw _ := false
  satisfied _ s := (true, s)
  parkedHit _ _ s := (false, s)
  timedOut _ _ := false
  turns _ _ := []

/-- Two dwords at `0x1000`: the header of a wait with one dword behind it. -/
def shortWait : CpMachine Unit where
  guest :=
    { mem := fun a => if a = 0x1000 then 0xC0003C00 else 0
      isReadableRangeCached := fun _ _ => true
      pools := []
      noBlendState := false
      traceRegImagePrefixDwords := 0 }
  cp := { regs := fun _ => 0, prevAddr := 0, prevPairs := 0 }
  stalled := false
  ib _ := 0
  ibDw _ := 0
  indexBase := 0
  indexMax := 0
  drawIndirectBase := 0
  dispatchIndirectBase := 0
  rest := ()

theorem shortWait_reads_past : ¬ ∀ e ∈ ((submitDcbRing quiet false 0x1000 8).run shortWait).log, InBounds e := by
  set b : Buffer := ⟨0x1000, 2⟩
  intro hall
  have hturn : .read b 4 ∈ ((walkStep quiet true false (walk quiet true false kMaxIbDepth 1) 0 b 0
      (addTrail 0 [])).run shortWait).log := by decide
  have hloop : .read b 4 ∈ ((walk quiet true false (kMaxIbDepth + 1) 0 b).run shortWait).log := by
    rw [walk, if_neg (by decide), walkLoop, if_pos (by decide), mem_log_bind]
    exact .inl hturn
  have hlt : 4 < b.words := hall _ (mem_log_bind.mpr (.inr hloop))
  exact absurd hlt (by decide)

end PacketReads

end Prosperity.Gpu
