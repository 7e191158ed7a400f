import Prosperity.Foundations.Diversions
import Prosperity.Foundations.IntervalTables

/-!
# The table of guest memory that shaders read directly

Shaders read the direct memory of the guest where it lives. The file that backs it is imported in chunks, and a
table gives the device address of each block of 64 KiB of guest addresses. A block that lives in the mirror is
redirected, and restored when the CPU writes it.
-/

namespace Prosperity.Gpu

/-- `kDirectBase` -/
def directBase : ℕ := 0x300000000

/-- `kDirectSize` -/
def directSize : ℕ := 0x1000000000

/-- `1 << kDirectBlockShift` -/
def blockBytes : ℕ := 0x10000

/-- `kBlocks` -/
def directBlocks : ℕ := 0x100000

/-- `kChunk` -/
def chunkBytes : ℕ := 0x200000

/-- `kDirectMissSlots` -/
def directMissSlots : ℕ := 63

/-- Guest addresses from `start` on that map the bytes of the file from `offset` on. -/
structure Mapping where
  start : ℕ
  stop : ℕ
  offset : ℕ
deriving DecidableEq

def Mapping.Maps (m : Mapping) (a f : ℕ) : Prop :=
  m.start ≤ a ∧ a < m.stop ∧ f = m.offset + (a - m.start)

def Mapped (maps : List Mapping) (a f : ℕ) : Prop := ∃ m ∈ maps, m.Maps a f

/-- The lines of `/proc/self/maps` about the file: in the order of their addresses, in whole pages. -/
structure Views where
  lines : List Mapping
  spaced : Spaced Mapping.start Mapping.stop lines
  aligned : ∀ m ∈ lines, m.start % 4096 = 0 ∧ m.stop % 4096 = 0 ∧ m.offset % 4096 = 0
  bounded : ∀ m ∈ lines, m.stop < 0x10000000000000000 ∧ m.offset + (m.stop - m.start) < 0x10000000000000000

/-- What is behind the table: the views, the size of the file, and the device address of the import of each
chunk, `0` where the chunk could not be imported. An import is kept, and so is that there is none. -/
structure DirectHost where
  views : Views
  aliasSize : ℕ
  chunkAddress : ℕ → ℕ

/-- One line of `ReadMaps`: it continues the view in front of it, or is one of its own. -/
def addView (maps : List Mapping) (m : Mapping) : List Mapping :=
  match maps.getLast? with
  | none => maps ++ [m]
  | some back =>
    if back.stop = m.start ∧ back.offset + (back.stop - back.start) = m.offset then
      maps.dropLast ++ [{ back with stop := m.stop }]
    else maps ++ [m]

def mergeViews (lines : List Mapping) : List Mapping := lines.foldl addView []

def findMapping (maps : List Mapping) (address : ℕ) : Option Mapping :=
  lookup? Mapping.start Mapping.stop maps address

/-- `EntryFor`: the device address of the first byte of the block. -/
def entryFor (host : DirectHost) (maps : List Mapping) (block : ℕ) : ℕ :=
  match findMapping maps block with
  | none => 0
  | some m =>
    let offset := m.offset + (block - m.start)
    if host.aliasSize ≤ offset then 0
    else if host.chunkAddress (offset - offset % chunkBytes) ≠ 0 then
      host.chunkAddress (offset - offset % chunkBytes) + offset % chunkBytes
    else 0

def blockIndex (block : ℕ) : ℕ := (block - directBase) / blockBytes

def blockAt (index : ℕ) : ℕ := directBase + index * blockBytes

def InWindow (address : ℕ) : Prop := directBase ≤ address ∧ address < directBase + directSize

instance (address : ℕ) : Decidable (InWindow address) := inferInstanceAs (Decidable (_ ∧ _))

structure Block where
  address : ℕ
  aligned : address % blockBytes = 0

structure GuestDirect where
  maps : List Mapping
  mapsReadAt : ℕ
  unmapped : List ℕ
  filled : List ℕ
  /-- The table, `g_saved` and `g_redirected`, by the index of the block. -/
  entries : Diversions ℕ ℕ
  syncs : ℕ

namespace GuestDirect

/-- `ReadMaps`, at most once a sync. -/
def readMaps (host : DirectHost) (s : GuestDirect) : GuestDirect :=
  if s.mapsReadAt = s.syncs then s
  else { s with mapsReadAt := s.syncs, unmapped := [], maps := mergeViews host.views.lines }

/-- What both `Fill` and `DirectRedirect` do before they look at a block. -/
def readMapsFor (host : DirectHost) (address : ℕ) (s : GuestDirect) : GuestDirect :=
  if (findMapping s.maps address).isSome then s else s.readMaps host

def refresh (host : DirectHost) (s : GuestDirect) (block : ℕ) : GuestDirect :=
  { s with entries := s.entries.store (blockIndex block) (entryFor host s.maps block) }

def noteFilled (block : ℕ) (s : GuestDirect) : GuestDirect := { s with filled := s.filled.insert block }

/-- The part of `DirectRedirect` for a block of the window that is not redirected yet: its entry is saved. -/
def prepare (host : DirectHost) (block : ℕ) (s : GuestDirect) : GuestDirect :=
  if s.entries.diverted (blockIndex block) then s else (s.readMapsFor host block).noteFilled block

def directRedirect (host : DirectHost) (block deviceAddress : ℕ) (s : GuestDirect) : GuestDirect :=
  if InWindow block then
    let s := s.prepare host block
    { s with entries := s.entries.divert (blockIndex block) (entryFor host s.maps block) deviceAddress }
  else s

def directRestore (block : ℕ) (s : GuestDirect) : GuestDirect :=
  if InWindow block then { s with entries := s.entries.restore (blockIndex block) } else s

/-- One turn of the loop of `Fill`. `cached` is what `MirrorCacheBlock` answers. -/
def fillBlock (host : DirectHost) (cached : ℕ → ℕ) (s : GuestDirect) (block : ℕ) : GuestDirect :=
  -- the index grows with the block, so that the `break` leaves out no block of the window
  if directBlocks ≤ blockIndex block then s
  else
    noteFilled block <|
      if s.entries.diverted (blockIndex block) = false ∧ cached block ≠ 0 then
        s.directRedirect host block (cached block)
      else s.refresh host block

def blocksAround (address : ℕ) : List ℕ :=
  (List.range (chunkBytes / blockBytes)).map fun k => address - address % chunkBytes + k * blockBytes

def fill (host : DirectHost) (address : ℕ) (cached : ℕ → ℕ) (s : GuestDirect) : GuestDirect :=
  if InWindow address ∧ address - address % blockBytes ∉ s.unmapped then
    let s := s.readMapsFor host address
    if (findMapping s.maps address).isSome then (blocksAround address).foldl (fillBlock host cached) s
    else { s with unmapped := s.unmapped.insert (address - address % blockBytes) }
  else s

def refreshAll (host : DirectHost) (s : GuestDirect) : GuestDirect :=
  if s.syncs % 256 = 0 then
    let s := s.readMaps host
    s.filled.foldl (refresh host) s
  else s

/-- `SyncGuestDirect`. `recached` are the blocks that `MirrorRecache` redirects, and `misses` the addresses that
the shaders missed, each with what `MirrorCacheBlock` answers while it is filled. -/
def sync (host : DirectHost) (recached : List (Block × ℕ)) (misses : List (ℕ × (ℕ → ℕ))) (s : GuestDirect) :
    GuestDirect :=
  let s := refreshAll host { s with syncs := (s.syncs + 1) % 0x100000000 }
  let s := recached.foldl (fun s r => s.directRedirect host r.1.address r.2) s
  (misses.take directMissSlots).foldl (fun s m => s.fill host m.1 m.2) s

/-- `InitGuestDirect` -/
def init (host : DirectHost) : GuestDirect :=
  readMaps host
    { maps := [], mapsReadAt := 0xFFFFFFFF, unmapped := [], filled := [], syncs := 0
      entries := { table := fun _ => 0, saved := fun _ => 0, diverted := fun _ => false } }

inductive Op
  | redirect (block : Block) (deviceAddress : ℕ)
  | restore (block : Block)
  | sync (recached : List (Block × ℕ)) (misses : List (ℕ × (ℕ → ℕ)))

def step (host : DirectHost) (s : GuestDirect) : Op → GuestDirect
  | .redirect block deviceAddress => s.directRedirect host block.address deviceAddress
  | .restore block => s.directRestore block.address
  | .sync recached misses => s.sync host recached misses

def run (host : DirectHost) (ops : List Op) : GuestDirect := ops.foldl (step host) (init host)

end GuestDirect

/-! ### The views -/

theorem Mapped.functional {maps : List Mapping} (h : Spaced Mapping.start Mapping.stop maps) {a f g : ℕ}
    (hf : Mapped maps a f) (hg : Mapped maps a g) : f = g := by
  obtain ⟨m, hm, hstart, hstop, rfl⟩ := hf
  obtain ⟨m', hm', hstart', hstop', rfl⟩ := hg
  rw [h.eq_of_covers hm ⟨hstart, hstop⟩ hm' ⟨hstart', hstop'⟩]

theorem findMapping_maps {maps : List Mapping} (h : Spaced Mapping.start Mapping.stop maps) {a : ℕ} {m : Mapping}
    (hm : findMapping maps a = some m) : Mapped maps a (m.offset + (a - m.start)) := by
  obtain ⟨hmem, hstart, hstop⟩ := h.lookup?_eq_some.mp hm
  exact ⟨m, hmem, hstart, hstop, rfl⟩

theorem Mapped.findMapping {maps : List Mapping} (h : Spaced Mapping.start Mapping.stop maps) {a f : ℕ}
    (hf : Mapped maps a f) : ∃ m, findMapping maps a = some m ∧ f = m.offset + (a - m.start) := by
  obtain ⟨m, hmem, hstart, hstop, rfl⟩ := hf
  exact ⟨m, h.lookup?_eq_some.mpr ⟨hmem, hstart, hstop⟩, rfl⟩

theorem maps_joined {back m : Mapping} (hback : back.start < back.stop) (hm : m.start < m.stop)
    (hstop : back.stop = m.start) (hoffset : back.offset + (back.stop - back.start) = m.offset) (a f : ℕ) :
    ({ back with stop := m.stop } : Mapping).Maps a f ↔ back.Maps a f ∨ m.Maps a f := by
  simp only [Mapping.Maps]
  omega

theorem addView_append {maps rest : List Mapping} {m : Mapping}
    (h : Spaced Mapping.start Mapping.stop (maps ++ m :: rest)) :
    Spaced Mapping.start Mapping.stop (addView maps m ++ rest) ∧
      ∀ a f, Mapped (addView maps m ++ rest) a f ↔ Mapped (maps ++ m :: rest) a f := by
  have hown : maps ++ [m] ++ rest = maps ++ m :: rest := by simp
  -- only the last mapping so far is looked at
  obtain rfl | ⟨front, back, rfl⟩ := List.eq_nil_or_concat' maps
  · simpa [addView] using h
  rw [addView, List.getLast?_concat]
  dsimp only
  split_ifs with hjoin
  · obtain ⟨hstop, hoffset⟩ := hjoin
    rw [List.dropLast_concat]
    obtain ⟨hnonempty, hapart⟩ := h
    have hback := hnonempty back (by simp)
    have hm := hnonempty m (by simp)
    refine ⟨⟨fun r hr => ?_, ?_⟩, fun a f => ?_⟩
    · simp only [List.append_assoc, List.mem_append, List.mem_cons, List.not_mem_nil, or_false] at hr
      obtain hr | rfl | hr := hr
      · exact hnonempty r (by simp [hr])
      · show back.start < m.stop
        omega
      · exact hnonempty r (by simp [hr])
    · simp only [List.append_assoc, List.cons_append, List.nil_append, List.pairwise_append,
        List.pairwise_cons, List.mem_cons] at hapart ⊢
      obtain ⟨hfront, ⟨hbackRest, hmRest, hrest⟩, hacross⟩ := hapart
      refine ⟨hfront, ⟨hmRest, hrest⟩, fun p hp q hq => ?_⟩
      obtain rfl | hq := hq
      · exact hacross p hp back (.inl rfl)
      · exact hacross p hp q (.inr (.inr hq))
    · -- the joined mapping maps what the two did
      have hjoined := maps_joined hback hm hstop hoffset a f
      simp only [Mapped, List.append_assoc, List.cons_append, List.nil_append, List.mem_append, List.mem_cons,
        or_and_right, exists_or, exists_eq_left, hjoined, or_assoc]
  · rw [hown]
    exact ⟨h, fun a f => Iff.rfl⟩

theorem foldl_addView {rest maps : List Mapping} (h : Spaced Mapping.start Mapping.stop (maps ++ rest)) :
    Spaced Mapping.start Mapping.stop (rest.foldl addView maps) ∧
      ∀ a f, Mapped (rest.foldl addView maps) a f ↔ Mapped (maps ++ rest) a f := by
  induction rest generalizing maps with
  | nil => simpa using h
  | cons m rest ih =>
    obtain ⟨hspaced, hmaps⟩ := addView_append h
    obtain ⟨hall, hallMaps⟩ := ih hspaced
    exact ⟨hall, fun a f => (hallMaps a f).trans (hmaps a f)⟩

namespace Views

variable (views : Views)

theorem mergeViews_spaced : Spaced Mapping.start Mapping.stop (mergeViews views.lines) :=
  (@foldl_addView views.lines [] views.spaced).1

theorem mergeViews_maps (a f : ℕ) : Mapped (mergeViews views.lines) a f ↔ Mapped views.lines a f :=
  (@foldl_addView views.lines [] views.spaced).2 a f

end Views

/-! ### The entries -/

namespace DirectHost

variable (host : DirectHost)

/-- The guest address maps this byte of the file. -/
def Backs (a f : ℕ) : Prop := Mapped host.views.lines a f ∧ f < host.aliasSize

def Backed (block : ℕ) : Prop := ∃ f, ∀ k < blockBytes, host.Backs (block + k) (f + k)

def importSize (chunk : ℕ) : ℕ := min (chunkBytes + blockBytes) (host.aliasSize - chunk)

def Reaches (deviceAddress f : ℕ) : Prop :=
  ∃ chunk, chunk % chunkBytes = 0 ∧ host.chunkAddress chunk ≠ 0 ∧ chunk ≤ f ∧ f < chunk + host.importSize chunk ∧
    deviceAddress = host.chunkAddress chunk + (f - chunk)

def Imported (f : ℕ) : Prop := host.chunkAddress (f - f % chunkBytes) ≠ 0

def rebuilt (index : ℕ) : ℕ := entryFor host (mergeViews host.views.lines) (blockAt index)

def Whole : Prop :=
  ∀ index < directBlocks, ∀ f, host.Backs (blockAt index) f → host.Imported f → host.Backed (blockAt index)

variable {host}

theorem Backs.functional {a f g : ℕ} (hf : host.Backs a f) (hg : host.Backs a g) : f = g :=
  hf.1.functional host.views.spaced hg.1

theorem rebuilt_eq {index f : ℕ} (hf : host.Backs (blockAt index) f) (himported : host.Imported f) :
    host.rebuilt index = host.chunkAddress (f - f % chunkBytes) + f % chunkBytes := by
  obtain ⟨m, hm, rfl⟩ := ((host.views.mergeViews_maps _ _).mpr hf.1).findMapping host.views.mergeViews_spaced
  simp only [rebuilt, entryFor, hm]
  rw [if_neg (Nat.not_le.mpr hf.2)]
  exact if_pos himported

theorem backs_of_rebuilt {index : ℕ} (h : host.rebuilt index ≠ 0) :
    ∃ f, host.Backs (blockAt index) f ∧ host.Imported f := by
  rw [rebuilt, entryFor] at h
  cases hm : findMapping (mergeViews host.views.lines) (blockAt index) with
  | none => simp [hm] at h
  | some m =>
    simp only [hm] at h
    split_ifs at h with hsize himported
    · exact absurd rfl h
    · have hmapped := findMapping_maps host.views.mergeViews_spaced hm
      exact ⟨_, ⟨(host.views.mergeViews_maps _ _).mp hmapped, Nat.lt_of_not_le hsize⟩, himported⟩
    · exact absurd rfl h

theorem rebuilt_reaches {index : ℕ} (hbacked : host.Backed (blockAt index)) (h : host.rebuilt index ≠ 0) {k : ℕ}
    (hk : k < blockBytes) : ∃ f, host.Backs (blockAt index + k) f ∧ host.Reaches (host.rebuilt index + k) f := by
  obtain ⟨first, hfirst, himported⟩ := backs_of_rebuilt h
  obtain ⟨f, hf⟩ := hbacked
  have hzero := hf 0 (by decide)
  rw [Nat.add_zero, Nat.add_zero] at hzero
  obtain rfl : f = first := hzero.functional hfirst
  refine ⟨f + k, hf k hk, f - f % chunkBytes, ?_, himported, ?_, ?_, ?_⟩
  · simp only [chunkBytes]
    omega
  · omega
  · have hsize := (hf k hk).2
    simp only [importSize, chunkBytes, blockBytes] at hk ⊢
    omega
  · rw [rebuilt_eq hfirst himported]
    have hle := Nat.mod_le f chunkBytes
    omega

end DirectHost

/-! ### The operations -/

theorem blockIndex_blockAt (index : ℕ) : blockIndex (blockAt index) = index := by
  simp only [blockIndex, blockAt, directBase, blockBytes]
  omega

theorem inWindow_blockAt {index : ℕ} : InWindow (blockAt index) ↔ index < directBlocks := by
  simp only [InWindow, blockAt, directBase, directSize, blockBytes, directBlocks]
  omega

def IsBlock (block : ℕ) : Prop := block = blockAt (blockIndex block)

theorem isBlock_of_aligned {block : ℕ} (haligned : block % blockBytes = 0) (hbase : directBase ≤ block) :
    IsBlock block := by
  simp only [IsBlock, blockAt, blockIndex, directBase, blockBytes] at haligned hbase ⊢
  omega

theorem isBlock_of_mem_blocksAround {address block : ℕ} (hwindow : InWindow address)
    (h : block ∈ GuestDirect.blocksAround address) : IsBlock block := by
  obtain ⟨k, -, rfl⟩ := List.mem_map.mp h
  obtain ⟨hbase, -⟩ := hwindow
  apply isBlock_of_aligned
  · simp only [chunkBytes, blockBytes]
    omega
  · simp only [directBase, chunkBytes, blockBytes] at hbase ⊢
    omega

namespace GuestDirect

theorem init_eq (host : DirectHost) : init host =
      { maps := mergeViews host.views.lines, mapsReadAt := 0, unmapped := [], filled := [], syncs := 0
        entries := { table := fun _ => 0, saved := fun _ => 0, diverted := fun _ => false } } := by
  simp [init, readMaps]

variable {host : DirectHost} {s : GuestDirect}

/-- What holds between the operations: a home is what a rebuild puts there, or still zero while the block is
not redirected. -/
structure Inv (host : DirectHost) (s : GuestDirect) : Prop where
  maps : s.maps = mergeViews host.views.lines
  home : ∀ i, s.entries.home i = 0 ∨ s.entries.home i = host.rebuilt i
  diverted : ∀ i, s.entries.diverted i = true → s.entries.home i = host.rebuilt i
  filled : ∀ block ∈ s.filled, IsBlock block

namespace Inv

theorem entryFor_eq (h : Inv host s) {block : ℕ} (hblock : IsBlock block) :
    entryFor host s.maps block = host.rebuilt (blockIndex block) := by
  rw [h.maps, DirectHost.rebuilt, ← hblock]

theorem of_update (h : Inv host s) {t : GuestDirect} {i : ℕ} (hmaps : t.maps = s.maps)
    (hhome : t.entries.home = s.entries.home ∨ t.entries.home = Function.update s.entries.home i (host.rebuilt i))
    (hdiverted : ∀ j, t.entries.diverted j = true → s.entries.diverted j = true ∨
      j = i ∧ t.entries.home i = host.rebuilt i)
    (hfilled : ∀ block ∈ t.filled, block ∈ s.filled ∨ IsBlock block) : Inv host t where
  maps := hmaps.trans h.maps
  home := by
    intro j
    obtain hsame | hnew := hhome
    · rw [hsame]
      exact h.home j
    · rw [hnew]
      obtain rfl | hij := eq_or_ne j i
      · right
        exact Function.update_self ..
      · rw [Function.update_of_ne hij]
        exact h.home j
  diverted := by
    intro j hj
    obtain hbefore | ⟨rfl, hnow⟩ := hdiverted j hj
    · obtain hsame | hnew := hhome
      · rw [hsame]
        exact h.diverted j hbefore
      · rw [hnew]
        obtain rfl | hij := eq_or_ne j i
        · exact Function.update_self ..
        · rw [Function.update_of_ne hij]
          exact h.diverted j hbefore
    · exact hnow
  filled := fun block hblock => (hfilled block hblock).elim (h.filled block) id

theorem readMaps (h : Inv host s) : Inv host (s.readMaps host) := by
  unfold GuestDirect.readMaps
  split_ifs
  · exact h
  · exact ⟨rfl, h.home, h.diverted, h.filled⟩

theorem readMapsFor (h : Inv host s) (address : ℕ) : Inv host (s.readMapsFor host address) := by
  unfold GuestDirect.readMapsFor
  split_ifs
  · exact h
  · exact h.readMaps

theorem noteFilled (h : Inv host s) {block : ℕ} (hblock : IsBlock block) : Inv host (s.noteFilled block) where
  maps := h.maps
  home := h.home
  diverted := h.diverted
  filled := by
    intro b hb
    obtain rfl | hb := List.mem_insert_iff.mp hb
    · exact hblock
    · exact h.filled b hb

theorem refresh (h : Inv host s) {block : ℕ} (hblock : IsBlock block) : Inv host (s.refresh host block) := by
  refine h.of_update rfl (i := blockIndex block) (.inr ?_) (fun j hj => .inl ?_) (fun b hb => .inl hb)
  · rw [GuestDirect.refresh, Diversions.home_store, h.entryFor_eq hblock]
  · simpa [GuestDirect.refresh] using hj

theorem prepare (h : Inv host s) {block : ℕ} (hblock : IsBlock block) : Inv host (s.prepare host block) := by
  unfold GuestDirect.prepare
  split_ifs
  · exact h
  · exact (h.readMapsFor block).noteFilled hblock

theorem directRedirect (h : Inv host s) {block : ℕ} (hblock : IsBlock block) (deviceAddress : ℕ) :
    Inv host (s.directRedirect host block deviceAddress) := by
  unfold GuestDirect.directRedirect
  split_ifs
  · have hprepared := h.prepare hblock
    have hentry := hprepared.entryFor_eq hblock
    refine hprepared.of_update rfl (i := blockIndex block) ?_ (fun j hj => ?_) (fun b hb => .inl hb)
    · dsimp only
      rw [Diversions.home_divert, hentry]
      split_ifs
      · exact .inl rfl
      · exact .inr rfl
    · dsimp only at hj ⊢
      rw [Diversions.diverted_divert] at hj
      obtain rfl | hij := eq_or_ne j (blockIndex block)
      · refine .inr ⟨rfl, ?_⟩
        rw [Diversions.home_divert, hentry]
        split_ifs with hbefore
        · exact hprepared.diverted _ hbefore
        · exact Function.update_self ..
      · rw [Function.update_of_ne hij] at hj
        exact .inl hj
  · exact h

theorem directRestore (h : Inv host s) (block : ℕ) : Inv host (s.directRestore block) := by
  unfold GuestDirect.directRestore
  split_ifs
  · refine h.of_update rfl (i := blockIndex block) (.inl ?_) (fun j hj => .inl ?_) (fun b hb => .inl hb)
    · exact Diversions.home_restore ..
    · dsimp only at hj
      rw [Diversions.diverted_restore] at hj
      obtain rfl | hij := eq_or_ne j (blockIndex block)
      · simp at hj
      · rwa [Function.update_of_ne hij] at hj
  · exact h

theorem fillBlock (h : Inv host s) {block : ℕ} (hblock : IsBlock block) (cached : ℕ → ℕ) :
    Inv host (s.fillBlock host cached block) := by
  unfold GuestDirect.fillBlock
  split_ifs
  · exact h
  · exact (h.directRedirect hblock _).noteFilled hblock
  · exact (h.refresh hblock).noteFilled hblock

theorem fill (h : Inv host s) (address : ℕ) (cached : ℕ → ℕ) : Inv host (s.fill host address cached) := by
  have hread := h.readMapsFor address
  unfold GuestDirect.fill
  dsimp only
  split_ifs with hlook
  · refine List.foldlRecOn _ _ hread fun t ht block hblock => ?_
    exact ht.fillBlock (isBlock_of_mem_blocksAround hlook.1 hblock) cached
  · exact ⟨hread.maps, hread.home, hread.diverted, hread.filled⟩
  · exact h

theorem refreshAll (h : Inv host s) : Inv host (s.refreshAll host) := by
  unfold GuestDirect.refreshAll
  split_ifs
  · have hread := h.readMaps
    refine List.foldlRecOn _ _ hread fun t ht block hblock => ?_
    exact ht.refresh (hread.filled block hblock)
  · exact h

theorem redirectBlock (h : Inv host s) (block : Block) (deviceAddress : ℕ) :
    Inv host (s.directRedirect host block.address deviceAddress) := by
  by_cases hwindow : InWindow block.address
  · exact h.directRedirect (isBlock_of_aligned block.aligned hwindow.1) deviceAddress
  · rwa [GuestDirect.directRedirect, if_neg hwindow]

theorem sync (h : Inv host s) (recached : List (Block × ℕ)) (misses : List (ℕ × (ℕ → ℕ))) :
    Inv host (s.sync host recached misses) := by
  have hcounted : Inv host { s with syncs := (s.syncs + 1) % 0x100000000 } :=
    ⟨h.maps, h.home, h.diverted, h.filled⟩
  refine List.foldlRecOn _ _ ?_ fun t ht miss _ => ht.fill miss.1 miss.2
  exact List.foldlRecOn _ _ hcounted.refreshAll fun t ht r _ => ht.redirectBlock r.1 r.2

theorem init (host : DirectHost) : Inv host (GuestDirect.init host) where
  maps := by rw [init_eq]
  home := fun i => .inl (by simp [init_eq, Diversions.home])
  diverted := by simp [init_eq]
  filled := by simp [init_eq]

theorem step (h : Inv host s) (op : Op) : Inv host (s.step host op) := by
  cases op with
  | redirect block deviceAddress => exact h.redirectBlock block deviceAddress
  | restore block => exact h.directRestore block.address
  | sync recached misses => exact h.sync recached misses

theorem run (host : DirectHost) (ops : List Op) : Inv host (GuestDirect.run host ops) :=
  List.foldlRecOn _ _ (init host) fun _ hs op _ => hs.step op

end Inv

/-! ### When the entries are right -/

/-- What the shaders count on: from an entry that is not zero, of a block that is not redirected, they reach
each byte of the block, and a block that no run of the file backs as a whole has none. -/
def Right (host : DirectHost) (s : GuestDirect) : Prop :=
  ∀ i < directBlocks, s.entries.diverted i = false →
    (s.entries.table i ≠ 0 → ∀ k < blockBytes, ∃ f, host.Backs (blockAt i + k) f ∧
      host.Reaches (s.entries.table i + k) f) ∧
    (¬ host.Backed (blockAt i) → s.entries.table i = 0)

def Restores (host : DirectHost) (s : GuestDirect) : Prop :=
  ∀ block : Block, InWindow block.address → s.entries.diverted (blockIndex block.address) = true →
    (s.directRestore block.address).entries.diverted (blockIndex block.address) = false ∧
      (s.directRestore block.address).entries.table (blockIndex block.address) =
        entryFor host (mergeViews host.views.lines) block.address

theorem Inv.restores (h : Inv host s) : Restores host s := by
  intro block hwindow hdiverted
  have hblock := isBlock_of_aligned block.aligned hwindow.1
  rw [GuestDirect.directRestore, if_pos hwindow]
  constructor
  · dsimp only
    rw [Diversions.diverted_restore]
    exact Function.update_self ..
  · dsimp only
    rw [Diversions.table_restore, h.diverted _ hdiverted, ← h.maps, h.entryFor_eq hblock]

theorem Inv.right (h : Inv host s) (hwhole : host.Whole) : Right host s := by
  intro i hi hdiverted
  rw [s.entries.table_of_not_diverted hdiverted]
  obtain hzero | hrebuilt := h.home i
  · rw [hzero]
    exact ⟨fun hne => absurd rfl hne, fun _ => rfl⟩
  rw [hrebuilt]
  have hbacked : host.rebuilt i ≠ 0 → host.Backed (blockAt i) := by
    intro hne
    obtain ⟨f, hf, himported⟩ := DirectHost.backs_of_rebuilt hne
    exact hwhole i hi f hf himported
  constructor
  · intro hne k hk
    exact DirectHost.rebuilt_reaches (hbacked hne) hne hk
  · intro hnot
    by_contra hne
    exact hnot (hbacked hne)

theorem fillBlock_eq (h : Inv host s) {block : ℕ} (hblock : IsBlock block)
    (hindex : blockIndex block < directBlocks) : (s.fillBlock host (fun _ => 0) block).entries =
      s.entries.store (blockIndex block) (host.rebuilt (blockIndex block)) := by
  rw [fillBlock, if_neg (Nat.not_le.mpr hindex), if_neg (by simp), noteFilled, refresh, h.entryFor_eq hblock]

theorem foldl_fillBlock (blocks : List ℕ) (h : Inv host s) (hnone : ∀ i, s.entries.diverted i = false)
    (hblocks : ∀ block ∈ blocks, IsBlock block) :
    (∀ i, (blocks.foldl (fillBlock host fun _ => 0) s).entries.diverted i = false) ∧
      ∀ i < directBlocks, (s.entries.home i = host.rebuilt i ∨ blockAt i ∈ blocks) →
        (blocks.foldl (fillBlock host fun _ => 0) s).entries.home i = host.rebuilt i := by
  induction blocks generalizing s with
  | nil => exact ⟨hnone, fun i _ hi => hi.resolve_right (by simp)⟩
  | cons block blocks ih =>
    have hblock := hblocks block (by simp)
    have hrest : ∀ b ∈ blocks, IsBlock b := fun b hb => hblocks b (by simp [hb])
    have hfilled := h.fillBlock hblock fun _ => 0
    obtain hbehind | hindex := Nat.lt_or_ge (blockIndex block) directBlocks |>.symm
    · -- behind the window nothing is filled
      have hsame : s.fillBlock host (fun _ => 0) block = s := if_pos hbehind
      rw [List.foldl_cons, hsame]
      obtain ⟨hnone', hhome⟩ := ih h hnone hrest
      refine ⟨hnone', fun i hi hor => hhome i hi ?_⟩
      refine hor.imp id fun hmem => (List.mem_cons.mp hmem).resolve_left ?_
      rintro rfl
      rw [blockIndex_blockAt] at hbehind
      exact absurd hi (Nat.not_lt.mpr hbehind)
    · -- the block has its entry now, and the later ones leave it or write it again
      have hentries := fillBlock_eq h hblock hindex
      obtain ⟨hnone', hhome⟩ := ih hfilled (by simpa [hentries] using hnone) hrest
      refine ⟨hnone', fun i hi hor => hhome i hi ?_⟩
      rw [hentries, Diversions.home_store]
      obtain rfl | hne := eq_or_ne i (blockIndex block)
      · exact .inl (Function.update_self ..)
      · rw [Function.update_of_ne hne]
        refine hor.imp id fun hmem => (List.mem_cons.mp hmem).resolve_left ?_
        rintro rfl
        exact hne (blockIndex_blockAt i).symm

theorem mem_blocksAround (i : ℕ) : blockAt i ∈ blocksAround (blockAt i) := by
  rw [blocksAround, List.mem_map]
  refine ⟨blockAt i % chunkBytes / blockBytes, ?_, ?_⟩
  · rw [List.mem_range]
    simp only [chunkBytes, blockBytes]
    omega
  · simp only [chunkBytes, blockBytes, blockAt, directBase]
    omega

theorem run_sync_one (host : DirectHost) (address : ℕ) (cached : ℕ → ℕ) :
    run host [.sync [] [(address, cached)]] = fill host address cached { init host with syncs := 1 } := by
  simp [run, step, sync, refreshAll, init_eq, directMissSlots]

theorem run_miss {i f : ℕ} (hi : i < directBlocks) (hf : host.Backs (blockAt i) f) :
    (run host [.sync [] [(blockAt i, fun _ => 0)]]).entries.diverted i = false ∧
      (run host [.sync [] [(blockAt i, fun _ => 0)]]).entries.table i = host.rebuilt i := by
  have hwindow := inWindow_blockAt.mpr hi
  rw [run_sync_one]
  have hinit := Inv.init host
  have hinv : Inv host { init host with syncs := 1 } := ⟨hinit.maps, hinit.home, hinit.diverted, hinit.filled⟩
  obtain ⟨m, hm, -⟩ := ((host.views.mergeViews_maps _ _).mpr hf.1).findMapping host.views.mergeViews_spaced
  rw [← hinit.maps] at hm
  have hfill : fill host (blockAt i) (fun _ => 0) { init host with syncs := 1 } =
      (blocksAround (blockAt i)).foldl (fillBlock host fun _ => 0) { init host with syncs := 1 } := by
    have hknown : (init host).unmapped = [] := by rw [init_eq]
    simp [fill, readMapsFor, hwindow, hknown, hm]
  obtain ⟨hnone, hhome⟩ := foldl_fillBlock (blocksAround (blockAt i)) hinv (by simp [init_eq])
    fun block hblock => isBlock_of_mem_blocksAround hwindow hblock
  rw [hfill]
  refine ⟨hnone i, ?_⟩
  rw [Diversions.table_of_not_diverted _ (hnone i)]
  exact hhome i hi (.inr (mem_blocksAround i))

/-- In every run a restored block has the entry of a rebuild. The entries of the other blocks are right in all
runs exactly if each block that begins in the file lies in one run of it as a whole. -/
theorem guestDirect_right_iff (host : DirectHost) :
    (∀ ops, Restores host (run host ops)) ∧ ((∀ ops, Right host (run host ops)) ↔ host.Whole) := by
  refine ⟨fun ops => (Inv.run host ops).restores, ⟨fun hright i hi f hf himported => ?_, fun hwhole ops => ?_⟩⟩
  · by_contra hnot
    obtain ⟨hdiverted, htable⟩ := run_miss hi hf
    have hzero := (hright _ i hi hdiverted).2 hnot
    rw [htable, DirectHost.rebuilt_eq hf himported] at hzero
    exact himported (by omega)
  · exact (Inv.run host ops).right hwhole

def splitBlock : DirectHost where
  views :=
    { lines := [⟨0x300000000, 0x300004000, 0⟩, ⟨0x300004000, 0x300008000, 0x100000⟩]
      spaced := ⟨by simp, by simp⟩
      aligned := by simp
      bounded := by simp }
  aliasSize := 0x200000
  chunkAddress chunk := 0x8000000000 + chunk

theorem splitBlock_backs {k f : ℕ} (h : splitBlock.Backs (0x300000000 + k) f) :
    k < 0x4000 ∧ f = k ∨ 0x4000 ≤ k ∧ k < 0x8000 ∧ f = 0x100000 + (k - 0x4000) := by
  obtain ⟨⟨m, hmem, hmaps⟩, -⟩ := h
  simp only [splitBlock, List.mem_cons, List.not_mem_nil, or_false] at hmem
  obtain rfl | rfl := hmem
  · simp only [Mapping.Maps] at hmaps
    omega
  · simp only [Mapping.Maps] at hmaps
    omega

/-- The entry of the block is that of its first page: through it the second page shows what follows the first
one in the file. -/
theorem splitBlock_not_right : ¬ Right splitBlock (run splitBlock [.sync [] [(0x300000000, fun _ => 0)]]) := by
  have hfirst : splitBlock.Backs (blockAt 0) 0 :=
    ⟨⟨⟨0x300000000, 0x300004000, 0⟩, by simp [splitBlock], by simp [Mapping.Maps, blockAt, directBase]⟩,
      by simp [splitBlock]⟩
  have hin : 0 < directBlocks := by simp [directBlocks]
  obtain ⟨hdiverted, htable⟩ := run_miss hin hfirst
  intro hright
  have hnot : ¬ splitBlock.Backed (blockAt 0) := by
    rintro ⟨f, hf⟩
    have hpage := splitBlock_backs (hf 0 (by simp [blockBytes]))
    have hnext := splitBlock_backs (hf 0x4000 (by simp [blockBytes]))
    omega
  have hzero := (hright 0 hin hdiverted).2 hnot
  have himported : splitBlock.Imported 0 := by simp [DirectHost.Imported, splitBlock]
  have hentry : (run splitBlock [.sync [] [(blockAt 0, fun _ => 0)]]).entries.table 0 = 0 := hzero
  rw [htable, DirectHost.rebuilt_eq hfirst himported] at hentry
  exact himported (by omega)

end GuestDirect

end Prosperity.Gpu
