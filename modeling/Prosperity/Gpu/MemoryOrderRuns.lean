import Prosperity.Gpu.LabelPublisherRuns
import Prosperity.Gpu.MemoryOrder

/-!
# Runs of a queue against the publishing thread

A queue reads and leaves what its packets one after another would, as long as no held write stands in
the way of a packet. The packets that a held write can stand in the way of are COND_EXEC and DMA_DATA,
which take memory as it is, and the DMA copies and fills of more than 64 bytes, which are made at once.
WAIT_REG_MEM lays the held writes over what it has read, which fails for a write that lands in between
and for the bytes that a fill declares and does not store.

Memory is behind the memory of the packets by the held writes: carrying them out one after another gives
it (`Inv.order`). So each of them, when its turn comes, loads what its packet loads (`HeldWrite.Ok`). A
write that is made past the held ones may be made before them or after them, as it meets none of their
bytes (`runHeld_storeBytes`).
-/

namespace Prosperity.Gpu

/-! ## Writes -/

theorem runActs_append (xs ys : List WriteAct) (loaded : List UInt8) (m : GuestMemory)
    (hxs : ∀ at_ n, WriteAct.load at_ n ∉ xs) :
    runActs (xs ++ ys) loaded m = runActs ys loaded (runActs xs loaded m) := by
  induction xs generalizing m with
  | nil => rfl
  | cons act xs ih =>
    have htail : ∀ at_ n, WriteAct.load at_ n ∉ xs := fun at_ n h =>
      hxs at_ n (List.mem_cons_of_mem _ h)
    cases act with
    | load at_ n => exact absurd List.mem_cons_self (hxs at_ n)
    | store at_ f => exact ih _ htail
    | record x => exact ih _ htail

/-- The stores of a write are in `[lo, hi)`, where `loaded` bytes are loaded. -/
def StoresIn (lo hi : ℕ) : List WriteAct → ℕ → Prop
  | [], _ => True
  | .load _ bytes :: rest, _ => StoresIn lo hi rest bytes
  | .store at_ f :: rest, loaded =>
    (∀ l, l.length = loaded → lo ≤ at_ ∧ at_ + (f l).length ≤ hi) ∧ StoresIn lo hi rest loaded
  | .record _ :: rest, loaded => StoresIn lo hi rest loaded

theorem storesIn_of_forall {lo hi : ℕ} {acts : List WriteAct}
    (h : ∀ at_ f, WriteAct.store at_ f ∈ acts → ∀ l, lo ≤ at_ ∧ at_ + (f l).length ≤ hi)
    (loaded : ℕ) : StoresIn lo hi acts loaded := by
  induction acts generalizing loaded with
  | nil => trivial
  | cons act rest ih =>
    have hrest := ih fun at_ f hmem => h at_ f (List.mem_cons_of_mem _ hmem)
    cases act with
    | load at_ n => exact hrest n
    | store at_ f => exact ⟨fun l _ => h at_ f List.mem_cons_self l, hrest loaded⟩
    | record x => exact hrest loaded

@[simp] theorem length_loadBytes (m : GuestMemory) (at_ n : ℕ) : (loadBytes m at_ n).length = n := by
  simp [loadBytes]

theorem loadBytes_congr {m m' : GuestMemory} {at_ n : ℕ}
    (h : ∀ a, at_ ≤ a → a < at_ + n → m a = m' a) : loadBytes m at_ n = loadBytes m' at_ n := by
  refine List.map_congr_left fun i hi => ?_
  exact h _ (Nat.le_add_right _ _) (Nat.add_lt_add_left (List.mem_range.mp hi) _)

theorem runActs_frame {lo hi : ℕ} {acts : List WriteAct} {loaded : List UInt8}
    (h : StoresIn lo hi acts loaded.length) (m : GuestMemory) {a : ℕ} (ha : a < lo ∨ hi ≤ a) :
    runActs acts loaded m a = m a := by
  induction acts generalizing loaded m with
  | nil => rfl
  | cons act rest ih =>
    cases act with
    | load at_ n => exact ih (by rwa [length_loadBytes]) m
    | store at_ f =>
      obtain ⟨hin, hrest⟩ := h
      obtain ⟨hlo, hhi⟩ := hin loaded rfl
      exact (ih hrest _).trans (storeBytes_frame (by omega) m)
    | record x => exact ih h m

theorem storeBytes_comm {a b : ℕ} {xs ys : List UInt8} (h : a + xs.length ≤ b ∨ b + ys.length ≤ a) (m : GuestMemory) :
    storeBytes a xs (storeBytes b ys m) = storeBytes b ys (storeBytes a xs m) := by
  funext c
  by_cases ha : a ≤ c ∧ c < a + xs.length
  · have hb : c < b ∨ b + ys.length ≤ c := by omega
    rw [storeBytes_frame hb]
    simp only [storeBytes, if_pos ha, List.getD_eq_getElem?_getD,
      List.getElem?_eq_getElem (by omega : c - a < xs.length), Option.getD_some]
  · have ha' : c < a ∨ a + xs.length ≤ c := by omega
    rw [storeBytes_frame ha']
    simp only [storeBytes, if_neg ha]

namespace OrderState

theorem loadBytes_storeBytes {d at_ n : ℕ} {bs : List UInt8}
    (h : d + bs.length ≤ at_ ∨ at_ + n ≤ d) (m : GuestMemory) :
    loadBytes (storeBytes d bs m) at_ n = loadBytes m at_ n :=
  loadBytes_congr fun a ha ha' => storeBytes_frame (by omega) m

theorem runActs_storeBytes {lo hi d : ℕ} {bs : List UInt8} {acts : List WriteAct}
    {loaded : List UInt8} (hin : StoresIn lo hi acts loaded.length)
    (hoff : d + bs.length ≤ lo ∨ hi ≤ d) (hloads : LoadsOff d bs.length acts) (m : GuestMemory) :
    runActs acts loaded (storeBytes d bs m) = storeBytes d bs (runActs acts loaded m) ∧
      runLoads acts loaded (storeBytes d bs m) = runLoads acts loaded m := by
  induction acts generalizing loaded m with
  | nil => exact ⟨rfl, rfl⟩
  | cons act rest ih =>
    have hrest : LoadsOff d bs.length rest := fun at_ n h =>
      hloads at_ n (List.mem_cons_of_mem _ h)
    cases act with
    | load at_ n =>
      have hload := loadBytes_storeBytes (hloads at_ n List.mem_cons_self) m
      have hin' : StoresIn lo hi rest (loadBytes m at_ n).length := by rwa [length_loadBytes]
      obtain ⟨hrun, hlist⟩ := ih hin' hrest m
      simp only [runActs, runLoads, hload]
      exact ⟨hrun, congrArg _ hlist⟩
    | store at_ f =>
      obtain ⟨hlo, hhi⟩ := hin.1 loaded rfl
      simp only [runActs, runLoads]
      rw [storeBytes_comm (by omega)]
      exact ih hin.2 hrest _
    | record x => exact ih hin hrest m

end OrderState

/-! ## What the packets store -/

theorem heldEnd_of_inGuest {base bytes : ℕ} (h : OrderState.InGuest base bytes) :
    heldEnd base bytes = base + bytes := by
  obtain ⟨⟨-, hbase⟩, hbytes⟩ := h
  refine heldEnd_of_lt ?_
  unfold kGuestEnd at hbase
  omega

theorem storesIn_append {lo hi : ℕ} {xs ys : List WriteAct} {loaded : ℕ}
    (hloads : ∀ at_ n, WriteAct.load at_ n ∉ xs) (hxs : StoresIn lo hi xs loaded)
    (hys : StoresIn lo hi ys loaded) : StoresIn lo hi (xs ++ ys) loaded := by
  induction xs with
  | nil => exact hys
  | cons act xs ih =>
    have htail : ∀ at_ n, WriteAct.load at_ n ∉ xs := fun at_ n h =>
      hloads at_ n (List.mem_cons_of_mem _ h)
    cases act with
    | load at_ n => exact absurd List.mem_cons_self (hloads at_ n)
    | store at_ f => exact ⟨hxs.1, ih htail hxs.2⟩
    | record x => exact ih htail hxs

theorem load_not_mem_copyActs (at_ : ℕ) (cs : List (List UInt8)) (x n : ℕ) : WriteAct.load x n ∉ copyActs at_ cs := by
  induction cs generalizing at_ with
  | nil => exact List.not_mem_nil
  | cons c cs ih => simp [copyActs, ih]

theorem storesIn_copyActs (at_ : ℕ) (cs : List (List UInt8)) (loaded : ℕ) {lo hi : ℕ}
    (hlo : lo ≤ at_) (hhi : at_ + cs.flatten.length ≤ hi) : StoresIn lo hi (copyActs at_ cs) loaded := by
  induction cs generalizing at_ with
  | nil => trivial
  | cons c cs ih =>
    rw [List.flatten_cons, List.length_append] at hhi
    exact ⟨fun _ _ => ⟨hlo, by dsimp only; omega⟩, ih _ (by omega) (by omega)⟩

theorem storesIn_recordActs (dst bytes loaded lo hi : ℕ) : StoresIn lo hi (recordActs dst bytes) loaded :=
  storesIn_of_forall (by simp [recordActs]) loaded

@[simp] theorem length_valueBytes (bytes value : ℕ) : (valueBytes bytes value).length = bytes := by
  simp [valueBytes]

theorem runActs_copyActs (at_ : ℕ) (cs : List (List UInt8)) (loaded : List UInt8)
    (m : GuestMemory) : runActs (copyActs at_ cs) loaded m = runStores (storeChunks at_ cs) m := by
  induction cs generalizing at_ m with
  | nil => rfl
  | cons c cs ih => exact ih _ _

theorem runActs_recordActs (dst bytes : ℕ) (loaded : List UInt8) (m : GuestMemory) :
    runActs (recordActs dst bytes) loaded m = m := by
  unfold recordActs
  induction List.range (bytes / 4) with
  | nil => rfl
  | cons k ks ih => exact ih

theorem runActs_copy (at_ : ℕ) (cs : List (List UInt8)) (loaded : List UInt8) (m : GuestMemory) :
    runActs (copyActs at_ cs ++ recordActs at_ cs.flatten.length) loaded m = storeBytes at_ cs.flatten m := by
  rw [runActs_append _ _ _ _ (load_not_mem_copyActs at_ cs), runActs_recordActs, runActs_copyActs]
  exact funext fun a => runStores_storeChunks at_ cs m a

theorem storeBytes_append (at_ : ℕ) (xs ys : List UInt8) (m : GuestMemory) :
    storeBytes (at_ + xs.length) ys (storeBytes at_ xs m) = storeBytes at_ (xs ++ ys) m := by
  funext a
  have h := runStores_storeChunks at_ [xs, ys] m a
  simpa only [storeChunks, runStores_cons, runStores_nil, List.flatten_cons, List.flatten_nil, List.append_nil] using h

/-- What a small fill does for its dword `k`. -/
def fillActs (dst fill k : ℕ) : List WriteAct :=
  [.store (dst + 4 * k) fun _ => valueBytes 4 fill, .record (dst + 4 * k)]

theorem runActs_fill (dst fill n : ℕ) (loaded : List UInt8) (m : GuestMemory) :
    runActs ((List.range n).flatMap (fillActs dst fill)) loaded m =
      storeBytes dst (List.replicate n (valueBytes 4 fill)).flatten m := by
  induction n with
  | zero =>
    funext a
    exact (storeBytes_frame (by simp; omega) m).symm
  | succ n ih =>
    have hloads : ∀ at_ x, WriteAct.load at_ x ∉ (List.range n).flatMap (fillActs dst fill) := by
      simp [fillActs]
    have hlen : (List.replicate n (valueBytes 4 fill)).flatten.length = 4 * n := by
      simp [Nat.mul_comm]
    rw [List.range_succ, List.flatMap_append, runActs_append _ _ _ _ hloads, ih,
      List.replicate_succ', List.flatten_append, ← storeBytes_append, hlen]
    simp [fillActs, runActs]

theorem CpWrite.storesIn (p : CpWrite) (loaded : ℕ) : StoresIn p.base (p.base + p.bytes) p.acts loaded := by
  cases p with
  | writeData address chunks =>
    exact storesIn_append (load_not_mem_copyActs _ _)
      (storesIn_copyActs _ _ _ (Nat.le_refl _) (Nat.le_refl _)) (storesIn_recordActs _ _ _ _ _)
  | label address value is64bit =>
    exact ⟨fun l _ => ⟨Nat.le_refl _, by simp [base, bytes]⟩, trivial⟩
  | dmaCopy dst chunks =>
    have hcopy := storesIn_copyActs dst chunks loaded (Nat.le_refl _) (Nat.le_refl _)
    rw [acts]
    split_ifs
    · exact storesIn_append (load_not_mem_copyActs _ _) hcopy (storesIn_recordActs _ _ _ _ _)
    · exact hcopy
  | dmaFill dst bytes fill =>
    refine storesIn_of_forall (fun at_ f hmem l => ?_) loaded
    obtain ⟨k, hk, hmem⟩ := List.mem_flatMap.mp hmem
    rw [List.mem_range] at hk
    have hstore : at_ = dst + 4 * k ∧ f = fun _ => valueBytes 4 fill := by
      split at hmem <;> simpa using hmem
    obtain ⟨rfl, rfl⟩ := hstore
    simp only [base, CpWrite.bytes, length_valueBytes]
    omega
  | atomicMem address op src cmp =>
    unfold acts
    dsimp only
    split
    · exact ⟨fun l _ => ⟨Nat.le_refl _, by simp [base, bytes]⟩, trivial⟩
    · exact ⟨fun l _ => ⟨Nat.le_refl _, by simp [base, bytes]⟩, trivial⟩
  | copyData dst src is64bit =>
    cases src with
    | value v =>
      refine ⟨fun l _ => ⟨Nat.le_refl _, ?_⟩, trivial⟩
      cases is64bit <;> simp [base, bytes]
    | memory src =>
      refine ⟨fun l hl => ⟨Nat.le_refl _, ?_⟩, trivial⟩
      cases is64bit <;> simp [base, bytes, hl]
  | zpassDone address value =>
    refine storesIn_of_forall (fun at_ f hmem l => ?_) loaded
    obtain ⟨db, hdb, hmem⟩ := List.mem_map.mp hmem
    rw [List.mem_range] at hdb
    obtain ⟨rfl, rfl⟩ := WriteAct.store.inj hmem
    simp only [base, bytes, length_valueBytes]
    omega

/-- A packet that PublishLabel can hold. -/
def CpWrite.Small : CpWrite → Prop
  | .dmaCopy _ chunks => chunks.flatten.length ≤ kLabelBytes
  | .dmaFill _ bytes _ => bytes ≤ kLabelBytes
  | _ => True

theorem CpWrite.run_eq {p : CpWrite} (hsmall : p.Small) (hdata : p.data ≠ []) (m : GuestMemory)
    {a : ℕ} (hlo : p.base ≤ a) (hhi : a < p.base + p.stored) :
    some (runActs p.acts [] m a) = p.data[a - p.base]? := by
  have hstore : ∀ {at_ : ℕ} {bs : List UInt8}, at_ ≤ a → a < at_ + bs.length →
      some (storeBytes at_ bs m a) = bs[a - at_]? := by
    intro at_ bs hat hlt
    rw [storeBytes, if_pos ⟨hat, hlt⟩, List.getD_eq_getElem?_getD, List.getElem?_eq_getElem (by omega)]
    rfl
  cases p with
  | writeData address chunks =>
    rw [acts, runActs_copy]
    exact hstore hlo hhi
  | label address value is64bit =>
    exact hstore hlo (by simpa [base, stored, bytes] using hhi)
  | dmaCopy dst chunks =>
    rw [acts, if_pos (show chunks.flatten.length ≤ kLabelBytes from hsmall), runActs_copy]
    exact hstore hlo hhi
  | dmaFill dst bytes fill =>
    have hle : bytes ≤ 64 := hsmall
    simp only [base, stored] at hlo hhi
    have hlen : ∀ n : ℕ, (List.replicate n (valueBytes 4 fill)).flatten.length = 4 * n := by
      simp [Nat.mul_comm]
    have hacts : (CpWrite.dmaFill dst bytes fill).acts =
        (List.range (bytes / 4)).flatMap (fillActs dst fill) := by
      unfold acts fillActs
      simp only [if_pos (show bytes ≤ kLabelBytes from hsmall)]
    -- The declared bytes begin with the dwords that are stored.
    have hsplit : (List.replicate 16 (valueBytes 4 fill)).flatten =
        (List.replicate (bytes / 4) (valueBytes 4 fill)).flatten ++
          (List.replicate (16 - bytes / 4) (valueBytes 4 fill)).flatten := by
      rw [← List.flatten_append, List.replicate_append_replicate, Nat.add_sub_cancel' (by omega)]
    rw [hacts, runActs_fill, hstore hlo (by rw [hlen]; exact hhi), data, hsplit,
      List.getElem?_take_of_lt (by simp only [base]; omega),
      List.getElem?_append_left (by rw [hlen]; simp only [base]; omega)]
    rfl
  | atomicMem | copyData | zpassDone => exact absurd rfl hdata

theorem CpWrite.length_data {p : CpWrite} (hsmall : p.Small) (hdata : p.data ≠ []) : p.data.length = p.bytes := by
  cases p with
  | writeData | dmaCopy => rfl
  | label => exact length_valueBytes _ _
  | dmaFill dst bytes fill =>
    have hle : bytes ≤ 64 := hsmall
    simp only [data, CpWrite.bytes, List.length_take]
    simpa using Nat.min_eq_left hle
  | atomicMem | copyData | zpassDone => exact absurd rfl hdata

theorem CpWrite.stored_le (p : CpWrite) : p.stored ≤ p.bytes := by
  cases p with
  | dmaFill dst bytes fill => exact Nat.mul_div_le bytes 4
  | _ => exact Nat.le_refl _

/-! ## The held writes -/

namespace OrderState

def runHeld : GuestMemory → List HeldWrite → GuestMemory
  | m, [] => m
  | m, h :: hs => runHeld (runActs h.job.rest h.job.loaded m) hs

end OrderState

/-- From the memory `m`, what is left of a held write loads and stores what its packet does. -/
structure HeldWrite.Ok (h : HeldWrite) (m : GuestMemory) : Prop where
  small : h.packet.Small
  hi_eq : h.hi = h.lo + h.packet.bytes
  stores : StoresIn h.lo h.hi h.job.rest h.job.loaded.length
  loads : h.job.loads = runLoads h.job.rest h.job.loaded m
  known : h.packet.data ≠ [] → ∀ a, h.lo ≤ a → a < h.lo + h.packet.stored →
    some (runActs h.job.rest h.job.loaded m a) = h.packet.data[a - h.lo]?

namespace OrderState

def Fits : GuestMemory → List HeldWrite → Prop
  | _, [] => True
  | m, h :: hs => h.Ok m ∧ Fits (runActs h.job.rest h.job.loaded m) hs

theorem runHeld_snoc (m : GuestMemory) (hs : List HeldWrite) (h : HeldWrite) :
    runHeld m (hs ++ [h]) = runActs h.job.rest h.job.loaded (runHeld m hs) := by
  induction hs generalizing m with
  | nil => rfl
  | cons g hs ih => exact ih _

theorem Fits.snoc {m : GuestMemory} {hs : List HeldWrite} {h : HeldWrite} (hfits : Fits m hs)
    (hok : h.Ok (runHeld m hs)) : Fits m (hs ++ [h]) := by
  induction hs generalizing m with
  | nil => exact ⟨hok, trivial⟩
  | cons g hs ih => exact ⟨hfits.1, ih hfits.2 hok⟩

theorem Fits.frame {m : GuestMemory} {hs : List HeldWrite} (hfits : Fits m hs) {a : ℕ}
    (ha : ∀ h ∈ hs, a < h.lo ∨ h.hi ≤ a) : runHeld m hs a = m a := by
  induction hs generalizing m with
  | nil => rfl
  | cons h hs ih =>
    rw [List.forall_mem_cons] at ha
    exact (ih hfits.2 ha.2).trans (runActs_frame hfits.1.stores m ha.1)

theorem Fits.loadBytes_eq {m : GuestMemory} {hs : List HeldWrite} (hfits : Fits m hs)
    {base bytes : ℕ} (hclear : ∀ h ∈ hs, HeldWrite.Clear base bytes h) :
    loadBytes (runHeld m hs) base bytes = loadBytes m base bytes := by
  refine loadBytes_congr fun a hlo hhi => hfits.frame fun h hmem => ?_
  rcases hclear h hmem with hbefore | hafter
  · exact .inl (by omega)
  · exact .inr (by omega)

theorem Fits.store {m : GuestMemory} {hs : List HeldWrite} (hfits : Fits m hs) {d : ℕ} {bs : List UInt8}
    (hoff : ∀ h ∈ hs, HeldWrite.Clear d bs.length h ∧ LoadsOff d bs.length h.job.rest) :
    runHeld (storeBytes d bs m) hs = storeBytes d bs (runHeld m hs) ∧ Fits (storeBytes d bs m) hs := by
  induction hs generalizing m with
  | nil => exact ⟨rfl, trivial⟩
  | cons h hs ih =>
    rw [List.forall_mem_cons] at hoff
    obtain ⟨⟨hclear, hloads⟩, hoff⟩ := hoff
    obtain ⟨hok, hfits⟩ := hfits
    obtain ⟨hrun, hlist⟩ := runActs_storeBytes hok.stores hclear hloads m
    obtain ⟨hheld, hrest⟩ := ih hfits hoff
    refine ⟨by rw [runHeld, hrun, hheld, runHeld], ?_, by rwa [hrun]⟩
    refine ⟨hok.small, hok.hi_eq, hok.stores, hok.loads.trans hlist.symm, fun hdata a hlo hhi => ?_⟩
    -- The bytes of the held write are not among those of the store.
    have hstored := h.packet.stored_le
    have hhi_eq := hok.hi_eq
    have haway : a < d ∨ d + bs.length ≤ a := by
      rcases hclear with hbefore | hafter
      · exact .inr (by omega)
      · exact .inl (by omega)
    rw [hrun, storeBytes_frame haway]
    exact hok.known hdata a hlo hhi

theorem byteAt_eq {h : HeldWrite} {m : GuestMemory} (hok : h.Ok m) {a : ℕ}
    (htells : h.toHeld.Tells a) (hstored : h.lo + h.packet.stored ≤ a → h.hi ≤ a) :
    runActs h.job.rest h.job.loaded m a = h.toHeld.byteAt a (m a) := by
  by_cases hin : h.lo ≤ a ∧ a < h.hi
  · have hdata : h.packet.data ≠ [] := htells hin.1 hin.2
    have hlt : a < h.lo + h.packet.stored := by
      by_contra hge
      exact absurd (hstored (Nat.le_of_not_lt hge)) (Nat.not_le_of_lt hin.2)
    have hbyte : h.toHeld.byteAt a (m a) = (h.packet.data[a - h.lo]?).getD (m a) := by
      rw [Held.byteAt, ← List.getD_eq_getElem?_getD]
      exact if_pos hin
    rw [hbyte, ← hok.known hdata a hin.1 hlt]
    rfl
  · have hbyte : h.toHeld.byteAt a (m a) = m a := if_neg hin
    rw [hbyte]
    exact runActs_frame hok.stores m (by omega)

theorem toHeld_fit {h : HeldWrite} {m : GuestMemory} (hok : h.Ok m) (hdata : h.packet.data ≠ []) :
    h.toHeld.hi ≤ h.toHeld.lo + h.toHeld.data.length := by
  show h.hi ≤ h.lo + h.packet.data.length
  rw [CpWrite.length_data hok.small hdata]
  exact Nat.le_of_eq hok.hi_eq

theorem Fits.overlay {m : GuestMemory} {hs : List HeldWrite} (hfits : Fits m hs) {a : ℕ}
    (htells : ∀ h ∈ hs, h.toHeld.Tells a) (hstored : ∀ h ∈ hs, h.lo + h.packet.stored ≤ a → h.hi ≤ a) {b : UInt8}
    (hb : b = m a ∨ ∃ h ∈ hs.head?, h.lo ≤ a ∧ a < h.hi) :
    runHeld m hs a = (hs.map HeldWrite.toHeld).foldl (fun b h => h.byteAt a b) b := by
  induction hs generalizing m b with
  | nil =>
    obtain rfl | ⟨h, hmem, -⟩ := hb
    · rfl
    · cases hmem
  | cons h hs ih =>
    rw [List.forall_mem_cons] at htells hstored
    obtain ⟨hok, hfits⟩ := hfits
    have hbyte : h.toHeld.byteAt a b = runActs h.job.rest h.job.loaded m a := by
      rw [byteAt_eq hok htells.1 hstored.1]
      obtain rfl | ⟨g, hmem, hlo, hhi⟩ := hb
      · rfl
      · obtain rfl := Option.some.inj hmem
        exact Held.byteAt_const (toHeld_fit hok (htells.1 hlo hhi)) hlo hhi _ _
    exact ih hfits htells.2 hstored.2 (.inl hbyte)

theorem Fits.forall_fit {m : GuestMemory} {hs : List HeldWrite} (hfits : Fits m hs) :
    ∀ h ∈ hs, h.packet.data ≠ [] → h.toHeld.hi ≤ h.toHeld.lo + h.toHeld.data.length := by
  induction hs generalizing m with
  | nil => exact fun h hmem => absurd hmem List.not_mem_nil
  | cons g hs ih =>
    exact List.forall_mem_cons.mpr ⟨fun hdata => toHeld_fit hfits.1 hdata, ih hfits.2⟩

/-! ## The steps of a write -/

section

variable {m m' : GuestMemory} {j j' : Job}

theorem runActs_jobStep (h : jobStep m j = some (m', j')) :
    runActs j'.rest j'.loaded m' = runActs j.rest j.loaded m := by
  obtain ⟨⟨rest, loaded⟩, loads⟩ := j
  cases rest with
  | nil => cases h
  | cons act rest => cases act <;> obtain ⟨rfl, rfl⟩ := Option.some.inj h <;> rfl

theorem loads_jobStep (h : jobStep m j = some (m', j'))
    (hloads : j.loads = runLoads j.rest j.loaded m) : j'.loads = runLoads j'.rest j'.loaded m' := by
  obtain ⟨⟨rest, loaded⟩, loads⟩ := j
  dsimp only at hloads
  cases rest with
  | nil => cases h
  | cons act rest =>
    subst hloads
    cases act <;> obtain ⟨rfl, rfl⟩ := Option.some.inj h <;> rfl

theorem storesIn_jobStep (h : jobStep m j = some (m', j')) {lo hi : ℕ}
    (hin : StoresIn lo hi j.rest j.loaded.length) : StoresIn lo hi j'.rest j'.loaded.length := by
  obtain ⟨⟨rest, loaded⟩, loads⟩ := j
  cases rest with
  | nil => cases h
  | cons act rest =>
    cases act with
    | load at_ n =>
      obtain ⟨rfl, rfl⟩ := Option.some.inj h
      show StoresIn lo hi rest (loadBytes m at_ n).length
      rw [length_loadBytes]
      exact hin
    | store at_ f =>
      obtain ⟨rfl, rfl⟩ := Option.some.inj h
      exact hin.2
    | record x =>
      obtain ⟨rfl, rfl⟩ := Option.some.inj h
      exact hin

theorem mem_of_jobStep (h : jobStep m j = some (m', j')) {act : WriteAct} (hmem : act ∈ j'.rest) : act ∈ j.rest := by
  obtain ⟨⟨rest, loaded⟩, loads⟩ := j
  cases rest with
  | nil => cases h
  | cons a rest =>
    cases a <;> obtain ⟨rfl, rfl⟩ := Option.some.inj h <;> exact List.mem_cons_of_mem _ hmem

theorem frame_jobStep (h : jobStep m j = some (m', j')) {lo hi : ℕ}
    (hin : StoresIn lo hi j.rest j.loaded.length) {a : ℕ} (ha : a < lo ∨ hi ≤ a) : m' a = m a := by
  obtain ⟨⟨rest, loaded⟩, loads⟩ := j
  cases rest with
  | nil => cases h
  | cons act rest =>
    cases act with
    | load at_ n | record x =>
      obtain ⟨rfl, rfl⟩ := Option.some.inj h
      rfl
    | store at_ f =>
      obtain ⟨rfl, rfl⟩ := Option.some.inj h
      obtain ⟨hlo, hhi⟩ := hin.1 loaded rfl
      exact storeBytes_frame (by dsimp only; omega) m

theorem rest_eq_nil_of_jobStep (h : jobStep m j = none) : j.rest = [] := by
  obtain ⟨⟨rest, loaded⟩, loads⟩ := j
  cases rest with
  | nil => rfl
  | cons act rest => cases act <;> cases h

theorem loadsOk_of_eq {M : GuestMemory} (hloads : j.loads = runLoads j.rest j.loaded M)
    (hsame : ∀ at_ n, WriteAct.load at_ n ∈ j.rest → loadBytes M at_ n = loadBytes m at_ n) : LoadsOk m j := by
  intro at_ n rest hrest
  have hmem : WriteAct.load at_ n ∈ j.rest := by
    rw [hrest]
    exact List.mem_cons_self
  rw [hloads, hrest, runLoads, List.head?_cons, hsame at_ n hmem]

def Apart (j : Job) (hs : List HeldWrite) : Prop :=
  ∃ d n, StoresIn d (d + n) j.rest j.loaded.length ∧ ∀ h ∈ hs, HeldWrite.Clear d n h ∧ LoadsOff d n h.job.rest ∧
      ∀ at_ k, WriteAct.load at_ k ∈ j.rest → HeldWrite.Clear at_ k h

theorem Apart.step {hs : List HeldWrite} (hapart : Apart j hs) (hfits : Fits m hs) (h : jobStep m j = some (m', j')) :
    jobStep (runHeld m hs) j = some (runHeld m' hs, j') ∧ Fits m' hs ∧ Apart j' hs := by
  obtain ⟨d, n, hin, hoff⟩ := hapart
  have hapart' : Apart j' hs := ⟨d, n, storesIn_jobStep h hin, fun g hg =>
    ⟨(hoff g hg).1, (hoff g hg).2.1, fun at_ k hmem => (hoff g hg).2.2 at_ k (mem_of_jobStep h hmem)⟩⟩
  obtain ⟨⟨rest, loaded⟩, loads⟩ := j
  cases rest with
  | nil => cases h
  | cons act rest =>
    cases act with
    | load at_ k =>
      obtain ⟨rfl, rfl⟩ := Option.some.inj h
      have hload := hfits.loadBytes_eq fun g hg => (hoff g hg).2.2 at_ k List.mem_cons_self
      refine ⟨?_, hfits, hapart'⟩
      simp only [jobStep, hload]
    | store at_ f =>
      obtain ⟨rfl, rfl⟩ := Option.some.inj h
      obtain ⟨hlo, hhi⟩ := hin.1 loaded rfl
      have hstore : ∀ g ∈ hs, HeldWrite.Clear at_ (f loaded).length g ∧
          LoadsOff at_ (f loaded).length g.job.rest := by
        intro g hg
        obtain ⟨hclear, hloads, -⟩ := hoff g hg
        refine ⟨?_, fun x k hmem => ?_⟩
        · unfold HeldWrite.Clear at hclear ⊢
          omega
        · have := hloads x k hmem
          omega
      obtain ⟨hrun, hfits'⟩ := hfits.store hstore
      refine ⟨?_, hfits', hapart'⟩
      simp only [jobStep, hrun]
    | record x =>
      obtain ⟨rfl, rfl⟩ := Option.some.inj h
      exact ⟨rfl, hfits, hapart'⟩

end

/-! ## The invariant -/

def jobOf : OrderWalk → Job
  | .writing j => j
  | _ => ⟨⟨[], []⟩, []⟩

variable (s : OrderState)

/-- The held writes, and then what is left of the walk's own, make memory what the packets left. A byte
that the walk has read is still in memory, or the held write that is carried out covers it. -/
structure Inv : Prop where
  order : s.seq = runActs (jobOf s.walk).rest (jobOf s.walk).loaded (runHeld s.memory s.held)
  loads : (jobOf s.walk).loads = runLoads (jobOf s.walk).rest (jobOf s.walk).loaded (runHeld s.memory s.held)
  apart : Apart (jobOf s.walk) s.held
  fits : Fits s.memory s.held
  read : ∀ base out, s.walk = .read base out → base + out.length < 2 ^ 64 ∧
    ∀ (i : ℕ) (b : UInt8), out[i]? = some b → b = s.memory (base + i) ∨
      s.running = true ∧ ∃ h ∈ s.held.head?, h.lo ≤ base + i ∧ base + i < h.hi

variable {s} {s' : OrderState}

theorem apart_idle (hs : List HeldWrite) (loaded : List UInt8) (loads : List (List UInt8)) :
    Apart ⟨⟨[], loaded⟩, loads⟩ hs := by
  refine ⟨0, 0, trivial, fun h _ => ⟨.inl (Nat.zero_le _), fun at_ n _ => .inl (Nat.zero_le _), ?_⟩⟩
  exact fun at_ k hmem => absurd hmem List.not_mem_nil

theorem Inv.init (m : GuestMemory) : Inv (OrderState.init m) where
  order := rfl
  loads := rfl
  apart := apart_idle [] [] []
  fits := trivial
  read _ _ h := by cases h

theorem Inv.seq_eq (h : s.Inv) (hjob : jobOf s.walk = ⟨⟨[], []⟩, []⟩) : s.seq = runHeld s.memory s.held := by
  have horder := h.order
  rwa [hjob] at horder

theorem jobOf_of_free (h : s.walkFree = true) : jobOf s.walk = ⟨⟨[], []⟩, []⟩ := by
  unfold walkFree at h
  cases hw : s.walk with
  | writing j => simp [hw] at h
  | idle | read | answered => rfl

theorem Inv.goto (h : s.Inv) (hfree : jobOf s.walk = ⟨⟨[], []⟩, []⟩) {w : OrderWalk} (hw : jobOf w = ⟨⟨[], []⟩, []⟩)
    (hread : ∀ base out, w = .read base out → base + out.length < 2 ^ 64 ∧
      out = loadBytes s.memory base out.length) : Inv { s with walk := w } where
  order := by
    show s.seq = runActs (jobOf w).rest (jobOf w).loaded _
    rw [hw]
    exact h.seq_eq hfree
  loads := by
    show (jobOf w).loads = runLoads (jobOf w).rest (jobOf w).loaded _
    rw [hw]
    rfl
  apart := by
    show Apart (jobOf w) s.held
    rw [hw]
    exact apart_idle _ _ _
  fits := h.fits
  read base out hwalk := by
    obtain ⟨hend, hout⟩ := hread base out hwalk
    refine ⟨hend, fun i b hb => .inl ?_⟩
    rw [hout, loadBytes, List.getElem?_map] at hb
    obtain ⟨k, hk, rfl⟩ := Option.map_eq_some_iff.mp hb
    rw [(List.getElem?_eq_some_iff.mp hk).2.symm, List.getElem_range]

theorem Inv.publish (h : s.Inv) (hfree : s.walkFree = true) {p : CpWrite}
    (hguest : InGuest p.base p.bytes) (hsmall : p.Small) (point : ℕ) : (s.publish p p point).Inv := by
  have hseq := h.seq_eq (jobOf_of_free hfree)
  have hhi := heldEnd_of_inGuest hguest
  unfold OrderState.publish
  dsimp only
  split_ifs with hhold
  · -- The write is held behind the others.
    refine ⟨?_, rfl, apart_idle _ _ _, ?_, fun base out hw => by cases hw⟩
    · show runActs p.acts [] s.seq = runHeld s.memory (s.held ++ [_])
      rw [runHeld_snoc, hseq]
    · refine h.fits.snoc ⟨hsmall, hhi, ?_, ?_, fun hdata a hlo hlt => ?_⟩
      · rw [hhi]
        exact p.storesIn 0
      · rw [hseq]
      · exact CpWrite.run_eq hsmall hdata _ hlo hlt
  · -- Nothing is held, and the walk carries the write out.
    have hnil : s.held = [] := by
      by_contra hne
      exact hhold (.inr hne)
    have hmem : s.seq = s.memory := by
      rw [hseq, hnil]
      rfl
    refine ⟨?_, ?_, ?_, h.fits, fun base out hw => by cases hw⟩
    · show runActs p.acts [] s.seq = runActs p.acts [] (runHeld s.memory s.held)
      rw [hseq]
    · show runLoads p.acts [] s.seq = runLoads p.acts [] (runHeld s.memory s.held)
      rw [hseq]
    · refine ⟨p.base, p.bytes, p.storesIn 0, fun g hg => ?_⟩
      rw [hnil] at hg
      cases hg

theorem Inv.direct (h : s.Inv) (hfree : s.walkFree = true) {acts : List WriteAct}
    (hapart : ∀ loads, Apart ⟨⟨acts, []⟩, loads⟩ s.held) : (s.direct acts).Inv where
  order := by
    show runActs acts [] s.seq = runActs acts [] (runHeld s.memory s.held)
    rw [h.seq_eq (jobOf_of_free hfree)]
  loads := by
    show runLoads acts [] s.seq = runLoads acts [] (runHeld s.memory s.held)
    rw [h.seq_eq (jobOf_of_free hfree)]
  apart := hapart _
  fits := h.fits
  read _ _ hw := by cases hw

theorem Inv.writeStep (h : s.Inv) (hstep : s.writeStep = some s') :
    s'.Inv ∧ ∀ j, s.walk = .writing j → LoadsOk s.memory j := by
  unfold OrderState.writeStep at hstep
  split at hstep
  case h_1 j hw =>
    have hload : ∀ k, s.walk = .writing k → LoadsOk s.memory k := by
      intro k hk
      obtain rfl := OrderWalk.writing.inj (hw.symm.trans hk)
      have hloads := h.loads
      have hapart := h.apart
      rw [hw] at hloads hapart
      obtain ⟨d, n, -, hoff⟩ := hapart
      exact loadsOk_of_eq hloads fun at_ k hmem =>
        h.fits.loadBytes_eq fun g hg => (hoff g hg).2.2 at_ k hmem
    refine ⟨?_, hload⟩
    have horder := h.order
    have hloads := h.loads
    have hapart := h.apart
    rw [hw] at horder hloads hapart
    split at hstep
    case h_1 m' j' hjob =>
      obtain rfl := Option.some.inj hstep
      obtain ⟨hheld, hfits, hapart'⟩ := hapart.step h.fits hjob
      refine ⟨?_, loads_jobStep hheld hloads, hapart', hfits, fun base out hw => by cases hw⟩
      exact horder.trans (runActs_jobStep hheld).symm
    case h_2 hjob =>
      obtain rfl := Option.some.inj hstep
      have hrest := rest_eq_nil_of_jobStep hjob
      refine ⟨?_, rfl, apart_idle _ _ _, h.fits, fun base out hw => by cases hw⟩
      simp only [jobOf] at horder
      rw [hrest] at horder
      exact horder
  case h_2 => cases hstep

theorem Inv.publisherStep (h : s.Inv) (hcareful : ∀ base out g, s.walk = .read base out → s.held.head? = some g →
      g.job.rest = [] → HeldWrite.Clear base out.length g) (hstep : s.publisherStep = some s') :
    s'.Inv ∧ ∀ g ∈ s.held.head?, LoadsOk s.memory g.job := by
  unfold OrderState.publisherStep at hstep
  split at hstep
  case h_2 => cases hstep
  case h_1 g hs hheld =>
    obtain ⟨horder, hloads, hapart, hfits, hread⟩ := h
    rw [hheld] at horder hloads hapart hfits hread hcareful
    obtain ⟨hok, hrest⟩ := hfits
    have hload : ∀ g' ∈ s.held.head?, LoadsOk s.memory g'.job := by
      intro g' hg'
      rw [hheld] at hg'
      obtain rfl := Option.some.inj hg'
      exact loadsOk_of_eq hok.loads fun _ _ _ => rfl
    refine ⟨?_, hload⟩
    split_ifs at hstep with hrunning
    split at hstep
    case h_1 m' j' hjob =>
      obtain rfl := Option.some.inj hstep
      have hrun := runActs_jobStep hjob
      have hsame : runHeld m' ({ g with job := j' } :: hs) = runHeld s.memory (g :: hs) :=
        congrArg (runHeld · hs) hrun
      refine ⟨?_, ?_, ?_, ⟨⟨hok.small, hok.hi_eq, storesIn_jobStep hjob hok.stores,
        loads_jobStep hjob hok.loads, fun hdata a hlo hlt => ?_⟩, ?_⟩, fun base out hw => ?_⟩
      · exact horder.trans (by rw [hsame])
      · exact hloads.trans (by rw [hsame])
      · obtain ⟨d, n, hin, hoff⟩ := hapart
        rw [List.forall_mem_cons] at hoff
        refine ⟨d, n, hin, List.forall_mem_cons.mpr ⟨⟨hoff.1.1, fun at_ k hmem => ?_, ?_⟩, hoff.2⟩⟩
        · exact hoff.1.2.1 at_ k (mem_of_jobStep hjob hmem)
        · exact hoff.1.2.2
      · rw [hrun]
        exact hok.known hdata a hlo hlt
      · rwa [hrun]
      · -- A byte that the step changes is one that the write covers.
        obtain ⟨hend, hbytes⟩ := hread base out hw
        refine ⟨hend, fun i b hb => ?_⟩
        by_cases hin : g.lo ≤ base + i ∧ base + i < g.hi
        · exact .inr ⟨hrunning, _, rfl, hin⟩
        · refine .inl ?_
          rcases hbytes i b hb with hmem | ⟨-, g', hg', hcover⟩
          · rw [hmem]
            exact (frame_jobStep hjob hok.stores (by omega)).symm
          · obtain rfl := Option.some.inj hg'
            exact absurd hcover hin
    case h_2 hjob =>
      obtain rfl := Option.some.inj hstep
      have hnil := rest_eq_nil_of_jobStep hjob
      have hsame : runHeld s.memory (g :: hs) = runHeld s.memory hs := by
        rw [runHeld, hnil]
        rfl
      rw [hnil] at hrest
      refine ⟨horder.trans (by rw [hsame]), hloads.trans (by rw [hsame]), ?_, hrest,
        fun base out hw => ?_⟩
      · obtain ⟨d, n, hin, hoff⟩ := hapart
        exact ⟨d, n, hin, fun g' hg' => hoff g' (List.mem_cons_of_mem _ hg')⟩
      · -- The write that is taken off covers none of the bytes read.
        obtain ⟨hend, hbytes⟩ := hread base out hw
        refine ⟨hend, fun i b hb => .inl ?_⟩
        rcases hbytes i b hb with hmem | ⟨-, g', hg', hlo, hhi⟩
        · exact hmem
        · obtain rfl := Option.some.inj hg'
          have hi := (List.getElem?_eq_some_iff.mp hb).1
          rcases hcareful base out _ hw rfl hnil with hbefore | hafter <;> omega

theorem Inv.overlay (h : s.Inv) {base : ℕ} {out out' : List UInt8} (hw : s.walk = .read base out)
    (hcareful : ∀ g ∈ s.held, ∀ a, g.lo + g.packet.stored ≤ a → a < g.hi → a < base ∨ base + out.length ≤ a)
    (hout : overlayHeld base out.length (s.held.map HeldWrite.toHeld) out = some out') :
    out' = loadBytes s.seq base out'.length ∧ out'.length = out.length := by
  obtain ⟨hend, hread⟩ := h.read base out hw
  have hseq : s.seq = runHeld s.memory s.held := h.seq_eq (by rw [hw]; rfl)
  have hok := h.fits.forall_fit
  obtain ⟨hlen, htells, hbytes⟩ := overlayHeld_spec hend
    (fun g hg hdata => by
      obtain ⟨f, hf, rfl⟩ := List.mem_map.mp hg
      exact hok f hf hdata) rfl hout
  refine ⟨List.ext_getElem? fun i => ?_, hlen⟩
  by_cases hi : i < out.length
  · have hbyte := h.fits.overlay (a := base + i)
      (fun g hg => htells _ (List.mem_map_of_mem hg) i hi)
      (fun g hg hstored => by
        by_contra hlt
        have := hcareful g hg (base + i) hstored (Nat.lt_of_not_le hlt)
        omega)
      (hread i out[i] (List.getElem?_eq_getElem hi) |>.imp_right And.right)
    rw [hbytes i, List.getElem?_eq_getElem hi, Option.map_some, ← hbyte, hseq, loadBytes, hlen,
      List.getElem?_map, List.getElem?_range hi, Option.map_some]
  · rw [List.getElem?_eq_none (by omega), List.getElem?_eq_none]
    rw [length_loadBytes]
    omega

theorem apart_largeCopy {src dst bytes : ℕ} {hs : List HeldWrite} (hsrc : ∀ h ∈ hs, HeldWrite.Clear src bytes h)
    (hdst : ∀ h ∈ hs, HeldWrite.Clear dst bytes h ∧ LoadsOff dst bytes h.job.rest)
    (loads : List (List UInt8)) : Apart ⟨⟨largeCopyActs src dst bytes, []⟩, loads⟩ hs := by
  refine ⟨dst, bytes, ?_, fun h hmem => ⟨(hdst h hmem).1, (hdst h hmem).2, fun at_ k hload => ?_⟩⟩
  · -- One byte is loaded before each store, whatever is loaded at the beginning.
    have hall : ∀ (is : List ℕ) (loaded : ℕ), (∀ i ∈ is, i < bytes) → StoresIn dst (dst + bytes)
          (is.flatMap fun i => [.load (src + i) 1, .store (dst + i) id]) loaded := by
      intro is
      induction is with
      | nil => exact fun _ _ => trivial
      | cons i is ih =>
        intro loaded hlt
        rw [List.forall_mem_cons] at hlt
        refine ⟨fun l hl => ⟨Nat.le_add_right _ _, ?_⟩, ih 1 hlt.2⟩
        rw [id, hl]
        omega
    exact hall _ _ fun i hi => List.mem_range.mp hi
  · obtain ⟨i, hi, hact⟩ := List.mem_flatMap.mp hload
    rw [List.mem_range] at hi
    have hat : at_ = src + i ∧ k = 1 := by simpa using hact
    obtain ⟨rfl, rfl⟩ := hat
    rcases hsrc h hmem with hbefore | hafter
    · exact .inl (by omega)
    · exact .inr (by omega)

theorem apart_fill {dst bytes fill : ℕ} {hs : List HeldWrite}
    (hdst : ∀ h ∈ hs, HeldWrite.Clear dst bytes h ∧ LoadsOff dst bytes h.job.rest) (loads : List (List UInt8)) :
    Apart ⟨⟨(CpWrite.dmaFill dst bytes fill).acts, []⟩, loads⟩ hs := by
  refine ⟨dst, bytes, CpWrite.storesIn (.dmaFill dst bytes fill) 0, fun h hmem =>
    ⟨(hdst h hmem).1, (hdst h hmem).2, fun at_ k hload => ?_⟩⟩
  obtain ⟨i, -, hact⟩ := List.mem_flatMap.mp hload
  split at hact <;> simp at hact

theorem flatten_map_singleton (bs : List UInt8) : (bs.map fun b => [b]).flatten = bs := by
  rw [← List.flatMap_def, List.flatMap_singleton']

theorem Inv.step (h : s.Inv) {e : OrderEvent} (hok : s.Careful e) (hstep : s.step e = some s') :
    s'.Inv ∧ s.InOrder e s' := by
  cases e with
  | publish p point =>
    obtain ⟨⟨hfree, hdma, hguest⟩, hs'⟩ := Option.ite_none_right_eq_some.mp hstep
    obtain rfl := Option.some.inj hs'
    have hsmall : p.Small := by
      cases p with
      | dmaCopy | dmaFill => cases hdma
      | _ => trivial
    exact ⟨h.publish hfree hguest hsmall point, trivial⟩
  | dmaCopy src dst bytes point =>
    obtain ⟨⟨hfree, hguest⟩, hs'⟩ := Option.ite_none_right_eq_some.mp hstep
    obtain rfl := Option.some.inj hs'
    have hsame : loadBytes s.memory src bytes = loadBytes s.seq src bytes := by
      rw [h.seq_eq (jobOf_of_free hfree)]
      exact (h.fits.loadBytes_eq hok.1).symm
    refine ⟨?_, fun _ => hsame⟩
    split_ifs with hle
    · have hcopy : smallCopy s.memory src dst bytes = smallCopy s.seq src dst bytes := by
        rw [smallCopy, smallCopy, hsame]
      have hbytes : (smallCopy s.seq src dst bytes).bytes = bytes := by
        simp [smallCopy, CpWrite.bytes, flatten_map_singleton]
      have hsmall : (smallCopy s.seq src dst bytes).Small := by
        show (List.map _ _).flatten.length ≤ kLabelBytes
        rwa [flatten_map_singleton, length_loadBytes]
      rw [hcopy]
      refine h.publish hfree ?_ hsmall point
      rw [hbytes]
      exact hguest
    · exact h.direct hfree (apart_largeCopy hok.1 (hok.2 (Nat.lt_of_not_le hle)))
  | dmaFill dst bytes fill point =>
    obtain ⟨⟨hfree, hguest⟩, hs'⟩ := Option.ite_none_right_eq_some.mp hstep
    obtain rfl := Option.some.inj hs'
    refine ⟨?_, trivial⟩
    split_ifs with hle
    · exact h.publish hfree (p := .dmaFill dst bytes fill) hguest hle point
    · exact h.direct hfree (apart_fill (hok (Nat.lt_of_not_le hle)))
  | write => exact h.writeStep hstep
  | condExec flag =>
    obtain ⟨⟨hfree, -⟩, hs'⟩ := Option.ite_none_right_eq_some.mp hstep
    obtain rfl := Option.some.inj hs'
    have hjob := jobOf_of_free hfree
    refine ⟨h.goto hjob rfl (fun _ _ hw => by cases hw), ?_⟩
    show loadBytes s.memory flag 4 = loadBytes s.seq flag 4
    rw [h.seq_eq hjob]
    exact (h.fits.loadBytes_eq hok).symm
  | read base bytes =>
    obtain ⟨⟨hfree, hguest⟩, hs'⟩ := Option.ite_none_right_eq_some.mp hstep
    obtain rfl := Option.some.inj hs'
    refine ⟨h.goto (jobOf_of_free hfree) rfl fun base' out hw => ?_, trivial⟩
    obtain ⟨rfl, rfl⟩ := OrderWalk.read.inj hw
    rw [length_loadBytes]
    refine ⟨?_, rfl⟩
    obtain ⟨⟨-, hbase⟩, hbytes⟩ := hguest
    unfold kGuestEnd at hbase
    omega
  | overlay =>
    simp only [OrderState.step] at hstep
    split at hstep
    case h_1 base out hw =>
      obtain rfl := Option.some.inj hstep
      have hjob : jobOf s.walk = ⟨⟨[], []⟩, []⟩ := by
        rw [hw]
        rfl
      refine ⟨h.goto hjob rfl (fun _ _ hw => by cases hw), fun base' bytes out' hanswer => ?_⟩
      obtain ⟨rfl, rfl, hout⟩ := OrderWalk.answered.inj hanswer
      obtain ⟨heq, hlen⟩ := h.overlay hw (hok base out hw) hout
      rwa [hlen] at heq
    case h_2 => cases hstep
  | take =>
    obtain ⟨⟨-, hidle⟩, hs'⟩ := Option.ite_none_right_eq_some.mp hstep
    obtain rfl := Option.some.inj hs'
    refine ⟨⟨h.order, h.loads, h.apart, h.fits, fun base out hw => ?_⟩, trivial⟩
    obtain ⟨hend, hbytes⟩ := h.read base out hw
    refine ⟨hend, fun i b hb => ?_⟩
    rcases hbytes i b hb with hmem | ⟨hrunning, -⟩
    · exact .inl hmem
    · rw [hidle] at hrunning
      cases hrunning
  | publisher =>
    obtain ⟨hinv, hload⟩ := h.publisherStep hok hstep
    exact ⟨hinv, fun g hg _ => hload g hg⟩

theorem Inv.drained (h : s.Inv) (hdrained : s.Drained) : s.memory = s.seq := by
  obtain ⟨hheld, hwalk⟩ := hdrained
  have hjob : jobOf s.walk = ⟨⟨[], []⟩, []⟩ := by
    cases hw : s.walk with
    | writing j => exact absurd hw (hwalk j)
    | idle | read | answered => rfl
  rw [h.seq_eq hjob, hheld]
  rfl

/-! ## Runs -/

theorem publish_seq (p p' : CpWrite) (point : ℕ) : (s.publish p p' point).seq = runActs p'.acts [] s.seq := by
  unfold OrderState.publish
  dsimp only
  split_ifs <;> rfl

theorem step_seq {e : OrderEvent} (h : s.step e = some s') : s'.seq = atOnce e s.seq := by
  cases e with
  | publish p point =>
    obtain ⟨-, hs'⟩ := Option.ite_none_right_eq_some.mp h
    obtain rfl := Option.some.inj hs'
    exact publish_seq p p point
  | dmaCopy src dst bytes point =>
    obtain ⟨-, hs'⟩ := Option.ite_none_right_eq_some.mp h
    obtain rfl := Option.some.inj hs'
    simp only [atOnce]
    split_ifs with hle
    · exact publish_seq _ _ point
    · rfl
  | dmaFill dst bytes fill point =>
    obtain ⟨-, hs'⟩ := Option.ite_none_right_eq_some.mp h
    obtain rfl := Option.some.inj hs'
    split_ifs with hle
    · exact publish_seq _ _ point
    · rfl
  | write =>
    simp only [OrderState.step, OrderState.writeStep] at h
    split at h
    · split at h <;> obtain rfl := Option.some.inj h <;> rfl
    · cases h
  | condExec flag | read flag bytes | take =>
    obtain ⟨-, hs'⟩ := Option.ite_none_right_eq_some.mp h
    obtain rfl := Option.some.inj hs'
    rfl
  | overlay =>
    simp only [OrderState.step] at h
    split at h
    · obtain rfl := Option.some.inj h
      rfl
    · cases h
  | publisher =>
    simp only [OrderState.step, OrderState.publisherStep] at h
    split at h
    · split_ifs at h
      split at h <;> obtain rfl := Option.some.inj h <;> rfl
    · cases h

theorem exec_seq {events : List OrderEvent} (h : system.exec s events = some s') :
    s'.seq = events.foldl (fun m e => atOnce e m) s.seq := by
  induction events generalizing s with
  | nil =>
    obtain rfl := Option.some.inj h
    rfl
  | cons e events ih =>
    obtain ⟨m, hm, hrest⟩ := Option.bind_eq_some_iff.mp h
    rw [ih hrest, step_seq hm]
    rfl

def heldLabelRun : List OrderEvent :=
  [.publish (.label 0x10000 1 false) 1, .read 0x10000 4, .overlay, .take, .publisher, .publisher, .publisher]

end OrderState

end Prosperity.Gpu
