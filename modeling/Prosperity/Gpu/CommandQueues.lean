import Prosperity.Gpu.CommandWalk

/-!
# Resuming command buffers

A walk that stalled in nested buffers and is polled again does what the stack of positions does,
for any number of queues and any interleaving of their polls with other changes of the memory.
-/

namespace Prosperity.Gpu

universe u v w

variable {ι : Type u} {ρ : Type v} {σ : Type w} {m : Processor ι ρ σ} {q : ι}

/-! ## Suspended positions -/

/-- From the depth `k` on the suspended positions are those of the frames, the outermost first. -/
def Linked (stall : RingStall) : ℕ → List Frame → Prop
  | k, [] => ∀ j, k ≤ j → stall.ib j = 0
  | k, f :: fs =>
    stall.ib k = f.base ∧ stall.ibDw k = f.off ∧ f.off < f.words ∧ Linked stall (k + 1) fs

def Intact (m : Processor ι ρ σ) (shared : σ) : List Frame → Prop
  | f :: g :: fs =>
    f.off < f.words ∧ f.packet m shared = .indirect g.ret g.base g.words ∧
      m.follows shared g.base g.words = true ∧ Intact m shared (g :: fs)
  | _ => True

theorem Linked.congr {stall stall' : RingStall} {k : ℕ} {fs : List Frame} (h : Linked stall k fs)
    (heq : ∀ j, k ≤ j → stall'.ib j = stall.ib j ∧ stall'.ibDw j = stall.ibDw j) : Linked stall' k fs := by
  induction fs generalizing k with
  | nil => exact fun j hj => (heq j hj).1.trans (h j hj)
  | cons f fs ih =>
    obtain ⟨hib, hdw, hlt, hrest⟩ := h
    obtain ⟨hib', hdw'⟩ := heq k (Nat.le_refl k)
    exact ⟨hib'.trans hib, hdw'.trans hdw, hlt, ih hrest fun j hj => heq j (by omega)⟩

def SameBelow (depth : ℕ) (stall stall' : RingStall) : Prop :=
  ∀ k, k ≤ depth → stall'.ib k = stall.ib k ∧ stall'.ibDw k = stall.ibDw k

theorem SameBelow.refl (depth : ℕ) (stall : RingStall) : SameBelow depth stall stall :=
  fun _ _ => ⟨rfl, rfl⟩

theorem SameBelow.trans {depth : ℕ} {s t r : RingStall} (h : SameBelow depth s t)
    (h' : SameBelow depth t r) : SameBelow depth s r :=
  fun k hk => ⟨(h' k hk).1.trans (h k hk).1, (h' k hk).2.trans (h k hk).2⟩

/-! ## One walk -/

/-- What a walk of the buffer of `f`, from the dword `i` behind it on and suspended through the
buffers `inner`, does to the stack: it gets to the end of the buffer, or stalls. -/
structure Advances (m : Processor ι ρ σ) (q : ι) (depth : ℕ) (f : Frame) (i : ℕ)
    (inner outer : List Frame) (s t : WalkState ρ σ) (done : ℕ) : Prop where
  below : SameBelow depth s.stall t.stall
  ends : t.stall.stalled = false → Linked t.stall (depth + 1) [] ∧ done = f.words - f.off ∧
    ∃ g : Frame, g.words ≤ g.off ∧ g.ret = f.ret ∧ Relation.ReflTransGen (Advance m q)
        ⟨(f.advance i :: inner).reverse ++ outer, s.regs, s.shared⟩ ⟨g :: outer, t.regs, t.shared⟩
  stalls : t.stall.stalled = true → done < f.words - f.off ∧
    ∃ inner' : List Frame, Linked t.stall (depth + 1) inner' ∧
      Blocks m q ⟨(f.advance i :: inner).reverse ++ outer, s.regs, s.shared⟩
        ⟨(f.advance done :: inner').reverse ++ outer, t.regs, t.shared⟩

structure Enters (m : Processor ι ρ σ) (q : ι) (depth : ℕ) (f : Frame) (size : ℕ)
    (inner outer : List Frame) (s t : WalkState ρ σ) : Prop where
  below : SameBelow depth s.stall t.stall
  ends : t.stall.stalled = false → Linked t.stall (depth + 1) [] ∧
    Relation.ReflTransGen (Advance m q) ⟨(f :: inner).reverse ++ outer, s.regs, s.shared⟩
      ⟨f.advance size :: outer, t.regs, t.shared⟩
  stalls : t.stall.stalled = true → ∃ inner' : List Frame, Linked t.stall (depth + 1) inner' ∧
    Blocks m q ⟨(f :: inner).reverse ++ outer, s.regs, s.shared⟩
      ⟨(f :: inner').reverse ++ outer, t.regs, t.shared⟩

def EntersAt (m : Processor ι ρ σ) (q : ι) (depth : ℕ)
    (enter : ℕ → ℕ → WalkState ρ σ → WalkState ρ σ) : Prop :=
  ∀ (f : Frame) (inner outer : List Frame) (s : WalkState ρ σ) (size ib ibWords : ℕ),
    f.off < f.words → s.stall.stalled = false → Linked s.stall (depth + 1) inner →
    Intact m s.shared (f :: inner) → outer.length = depth →
    depth + inner.length ≤ kMaxIbDepth →
    f.packet m s.shared = .indirect size ib ibWords → m.follows s.shared ib ibWords = true →
    Enters m q depth f size inner outer s (enter ib ibWords s)

def WalksAt (m : Processor ι ρ σ) (q : ι) (depth : ℕ)
    (sub : ℕ → ℕ → WalkState ρ σ → WalkState ρ σ × ℕ) : Prop :=
  ∀ (f : Frame) (inner outer : List Frame) (s : WalkState ρ σ), f.off ≤ f.words → f.base ≠ 0 → s.stall.stalled = false →
    Linked s.stall (depth + 1) inner → Intact m s.shared (f :: inner) → outer.length = depth →
    depth + inner.length ≤ kMaxIbDepth →
    Advances m q depth f 0 inner outer s (sub (f.base + 4 * f.off) (f.words - f.off) s).1
      (sub (f.base + 4 * f.off) (f.words - f.off) s).2

theorem Frame.advance_advance (f : Frame) (i j : ℕ) : (f.advance i).advance j = f.advance (i + j) := by
  simp only [advance, Nat.add_assoc]

theorem packet_advance (f : Frame) (i : ℕ) (shared : σ) :
    packetAt (m.word shared) (f.base + 4 * f.off + 4 * i) (f.words - f.off - i) = (f.advance i).packet m shared := by
  rw [Frame.packet, Frame.advance, Nat.mul_add, ← Nat.add_assoc, Nat.sub_sub]

theorem inner_eq_nil {f : Frame} {inner : List Frame} {shared : σ} (h : Intact m shared (f :: inner))
    (hpacket : ∀ size ib ibWords, f.packet m shared ≠ .indirect size ib ibWords) : inner = [] := by
  cases inner with
  | nil => rfl
  | cons g fs => exact absurd h.2.1 (hpacket _ _ _)

section Loop

variable {depth : ℕ} {f : Frame} {inner outer : List Frame} {s s₁ t : WalkState ρ σ}
  {done i j : ℕ}

theorem Advances.head (hbelow : SameBelow depth s.stall s₁.stall) (hsteps : Relation.ReflTransGen (Advance m q)
      ⟨(f.advance i :: inner).reverse ++ outer, s.regs, s.shared⟩ ⟨f.advance j :: outer, s₁.regs, s₁.shared⟩)
    (h : Advances m q depth f j [] outer s₁ t done) :
    Advances m q depth f i inner outer s t done where
  below := hbelow.trans h.below
  ends hend := by
    obtain ⟨hlinked, hdone, g, hg, hret, hrest⟩ := h.ends hend
    exact ⟨hlinked, hdone, g, hg, hret, hsteps.trans hrest⟩
  stalls hstall := by
    obtain ⟨hdone, inner', hlinked, hblocks⟩ := h.stalls hstall
    exact ⟨hdone, inner', hlinked, hblocks.trans hsteps⟩

theorem Advances.step {size : ℕ} (h : Advances m q depth f (i + size) [] outer s₁ t done)
    (hstep : Advance m q ⟨f.advance i :: outer, s.regs, s.shared⟩
      ⟨(f.advance i).advance size :: outer, s₁.regs, s₁.shared⟩)
    (hstall : s₁.stall = s.stall) :
    Advances m q depth f i [] outer s t done := by
  refine Advances.head (hstall ▸ SameBelow.refl depth s.stall) ?_ h
  rw [← Frame.advance_advance]
  exact .single hstep

theorem advances_end (hend : f.words - f.off ≤ i) (hs : s.stall.stalled = false)
    (hlinked : Linked s.stall (depth + 1) inner) (hintact : Intact m s.shared (f.advance i :: inner)) :
    Advances m q depth f i inner outer s s (f.words - f.off) := by
  have hinner : inner = [] := by
    cases inner with
    | nil => rfl
    | cons g fs =>
      have hlt : f.off + i < f.words := hintact.1
      omega
  subst hinner
  refine ⟨SameBelow.refl depth s.stall, fun _ => ⟨hlinked, rfl, f.advance i, ?_, rfl, .refl⟩,
    fun h => ?_⟩
  · change f.words ≤ f.off + i
    omega
  · rw [hs] at h
    cases h

/-- **The loop advances the stack** by one packet after the other. -/
theorem loop_advances {enter : ℕ → ℕ → WalkState ρ σ → WalkState ρ σ}
    (henter : EntersAt m q depth enter) (houter : outer.length = depth) (turns : ℕ)
    (hturns : f.words - f.off ≤ turns + i) (hs : s.stall.stalled = false) (hlinked : Linked s.stall (depth + 1) inner)
    (hintact : Intact m s.shared (f.advance i :: inner)) (hlen : depth + inner.length ≤ kMaxIbDepth) :
    Advances m q depth f i inner outer s (walkLoop m q enter (f.base + 4 * f.off) (f.words - f.off) turns i s).1
      (walkLoop m q enter (f.base + 4 * f.off) (f.words - f.off) turns i s).2 := by
  induction turns generalizing i s inner with
  | zero => exact advances_end (by omega) hs hlinked hintact
  | succ turns ih =>
    rw [walkLoop]
    by_cases hlt : i < f.words - f.off
    · rw [if_pos hlt, packet_advance]
      have hoff : (f.advance i).off < (f.advance i).words := by
        change f.off + i < f.words
        omega
      have hsize : 0 < ((f.advance i).packet m s.shared).size := packetAt_size_pos _ _ _
      cases hpacket : (f.advance i).packet m s.shared with
      | skip size =>
        rw [hpacket, Packet.size] at hsize
        obtain rfl := inner_eq_nil hintact fun _ _ _ h => by simp [hpacket] at h
        exact (ih (by omega) hs hlinked trivial hlen).step (.skip hoff hpacket) rfl
      | effect size hdr body =>
        rw [hpacket, Packet.size] at hsize
        obtain rfl := inner_eq_nil hintact fun _ _ _ h => by simp [hpacket] at h
        have h := ih (i := i + size)
          (s := { s with
            regs := (m.effect q hdr body (s.regs, s.shared)).1
            shared := (m.effect q hdr body (s.regs, s.shared)).2 })
          (by omega) hs hlinked trivial hlen
        exact h.step (.effect hoff hpacket) rfl
      | condExec size flag skip =>
        rw [hpacket, Packet.size] at hsize
        obtain rfl := inner_eq_nil hintact fun _ _ _ h => by simp [hpacket] at h
        dsimp only
        rw [Nat.add_assoc]
        exact (ih (by omega) hs hlinked trivial hlen).step (.condExec hoff hpacket) rfl
      | wait size hdr body =>
        rw [hpacket, Packet.size] at hsize
        obtain rfl := inner_eq_nil hintact fun _ _ _ h => by simp [hpacket] at h
        dsimp only
        by_cases hstalls : (m.stallOnWait q hdr body s.shared).1 = true
        · -- the walk stops at the wait
          rw [if_pos hstalls]
          refine ⟨fun _ _ => ⟨rfl, rfl⟩, fun h => (by cases h), fun _ => ⟨hlt, [], hlinked, ?_⟩⟩
          exact ⟨_, .refl, .intro hoff hpacket hstalls⟩
        · rw [if_neg hstalls]
          have h := ih (i := i + size)
            (s := { s with shared := (m.stallOnWait q hdr body s.shared).2 })
            (by omega) hs hlinked trivial hlen
          exact h.step (.wait hoff hpacket (by simpa using hstalls)) rfl
      | indirect size ib ibWords =>
        rw [hpacket, Packet.size] at hsize
        dsimp only
        by_cases hfollows : m.follows s.shared ib ibWords = true
        · rw [if_pos hfollows]
          -- the nested buffer is walked to its end, or stalls and the walk with it
          have h := henter (f.advance i) inner outer s size ib ibWords hoff hs hlinked hintact
            houter hlen hpacket hfollows
          by_cases hstalled : (enter ib ibWords s).stall.stalled = true
          · rw [if_pos hstalled]
            exact ⟨h.below, fun hend => Bool.noConfusion (hstalled.symm.trans hend),
              fun _ => ⟨hlt, h.stalls hstalled⟩⟩
          · rw [if_neg hstalled]
            have hfalse : (enter ib ibWords s).stall.stalled = false := by simpa using hstalled
            obtain ⟨hlinked', hsteps⟩ := h.ends hfalse
            rw [Frame.advance_advance] at hsteps
            exact .head h.below hsteps (ih (by omega) hfalse hlinked' trivial
              (Nat.le_trans (Nat.le_add_right _ _) hlen))
        · rw [if_neg hfollows]
          obtain rfl : inner = [] := by
            cases inner with
            | nil => rfl
            | cons g fs =>
              -- a buffer that was entered is followed
              obtain ⟨-, hcall, hfollowed, -⟩ := hintact
              rw [hpacket] at hcall
              injection hcall with _ hib hwords
              rw [← hib, ← hwords] at hfollowed
              exact absurd hfollowed hfollows
          exact (ih (by omega) hs hlinked trivial hlen).step (.pass hoff hpacket fun h => hfollows h.1) rfl
    · rw [if_neg hlt]
      exact advances_end (by omega) hs hlinked hintact

end Loop

section Enter

variable {depth : ℕ} {g : Frame} {outer : List Frame}
  {sub : ℕ → ℕ → WalkState ρ σ → WalkState ρ σ × ℕ} {size : ℕ}

theorem reverse_cons_append (f : Frame) (inner outer : List Frame) :
    (f :: inner).reverse ++ outer = inner.reverse ++ f :: outer := by
  rw [List.reverse_cons, List.append_assoc, List.singleton_append]

theorem Linked.update {stall : RingStall} {k ib dw : ℕ} {fs : List Frame}
    (h : Linked stall (k + 1) fs) (hib : ib = g.base) (hdw : dw = g.off) (hlt : g.off < g.words) :
    Linked { stall with
      ib := Function.update stall.ib k ib, ibDw := Function.update stall.ibDw k dw } k
      (g :: fs) := by
  refine ⟨by simp [hib], by simp [hdw], hlt, h.congr fun j hj => ?_⟩
  have hne : j ≠ k := by omega
  simp [hne]

theorem enters_of_walks (f g : Frame) (inner₀ inner : List Frame) (s s₁ : WalkState ρ σ) (hsub : WalksAt m q (depth + 1) sub) (hg : g.off ≤ g.words)
    (hbase : g.base ≠ 0) (hret : g.ret = size)
    (hs : s₁.stall.stalled = false) (hlinked : Linked s₁.stall (depth + 2) inner)
    (hclear : s₁.stall.ib (depth + 1) = 0) (hintact : Intact m s₁.shared (g :: inner)) (houter : outer.length = depth)
    (hlen : depth + 1 + inner.length ≤ kMaxIbDepth) (hbelow : SameBelow depth s.stall s₁.stall)
    (hsteps : Relation.ReflTransGen (Advance m q) ⟨(f :: inner₀).reverse ++ outer, s.regs, s.shared⟩
      ⟨(g :: inner).reverse ++ f :: outer, s₁.regs, s₁.shared⟩) : Enters m q depth f size inner₀ outer s
      (let t := sub (g.base + 4 * g.off) (g.words - g.off) s₁
       if t.1.stall.stalled then
        { t.1 with
          stall :=
            { t.1.stall with
              ib := Function.update t.1.stall.ib (depth + 1) g.base
              ibDw := Function.update t.1.stall.ibDw (depth + 1) (g.off + t.2) } }
       else t.1) := by
  have h := hsub g inner (f :: outer) s₁ hg hbase hs hlinked hintact (by simp [houter])
    hlen
  dsimp only
  by_cases hstalled : (sub (g.base + 4 * g.off) (g.words - g.off) s₁).1.stall.stalled = true
  · rw [if_pos hstalled]
    obtain ⟨hdone, inner', hlinked', hblocks⟩ := h.stalls hstalled
    refine ⟨fun k hk => ?_, fun hend => Bool.noConfusion (hstalled.symm.trans hend), fun _ => ?_⟩
    · -- only the position of this depth is written
      have hne : k ≠ depth + 1 := by omega
      have hb := h.below k (by omega)
      have hb' := hbelow k hk
      simp only [Function.update_of_ne hne]
      exact ⟨hb.1.trans hb'.1, hb.2.trans hb'.2⟩
    · refine ⟨g.advance _ :: inner', hlinked'.update (g := g.advance _) rfl rfl ?_, ?_⟩
      · change g.off + _ < g.words
        omega
      · rw [reverse_cons_append f (_ :: inner')]
        exact hblocks.trans hsteps
  · rw [if_neg hstalled]
    have hfalse : (sub (g.base + 4 * g.off) (g.words - g.off) s₁).1.stall.stalled = false := by
      simpa using hstalled
    obtain ⟨hlinked', -, e, he, heret, hrest⟩ := h.ends hfalse
    refine ⟨hbelow.trans fun k hk => h.below k (by omega), fun _ => ⟨fun j hj => ?_, ?_⟩,
      fun hstall => Bool.noConfusion (hfalse.symm.trans hstall)⟩
    · rcases Nat.lt_or_eq_of_le hj with hlt | rfl
      · exact hlinked' j hlt
      · rw [(h.below (depth + 1) (Nat.le_refl _)).1, hclear]
    · refine (hsteps.trans hrest).tail ?_
      rw [← hret, ← heret]
      exact .leave he

/-- **Entering an indirect buffer** advances the stack, whether it is entered at its beginning or
where a walk of it stalled. -/
theorem enterIb_enters (hsub : WalksAt m q (depth + 1) sub) (hdepth : depth < kMaxIbDepth) :
    EntersAt m q depth (enterIb sub depth) := by
  intro f inner outer s size ib ibWords hoff hs hlinked hintact houter hlen hpacket hfollows
  have hib := ne_zero_of_follows hfollows
  cases inner with
  | nil =>
    -- nothing is suspended here
    have hzero : s.stall.ib (depth + 1) = 0 := hlinked _ (Nat.le_refl _)
    have hne : ¬ s.stall.ib (depth + 1) = ib := fun h => hib (h ▸ hzero)
    have hsteps : Relation.ReflTransGen (Advance m q) ⟨f :: outer, s.regs, s.shared⟩
        ⟨⟨ib, ibWords, 0, size⟩ :: f :: outer, s.regs, s.shared⟩ :=
      .single (.enter hoff hpacket hfollows (houter ▸ hdepth))
    have h := enters_of_walks f ⟨ib, ibWords, 0, size⟩ [] [] s s hsub
      (Nat.zero_le _) hib rfl hs (fun j hj => hlinked j (by omega)) hzero trivial houter
      hdepth (SameBelow.refl depth s.stall) hsteps
    unfold enterIb
    simp only [if_neg hne]
    exact h
  | cons g rest =>
    obtain ⟨-, hcall, -, hrest⟩ := hintact
    obtain ⟨hgib, hgdw, hglt, hlinked⟩ := hlinked
    rw [hpacket] at hcall
    injection hcall with hret hbase hwords
    have hmin : min (s.stall.ibDw (depth + 1)) ibWords = g.off := by
      rw [hgdw, hwords]
      exact Nat.min_eq_left (Nat.le_of_lt hglt)
    have hclear : SameBelow depth s.stall
        { s.stall with ib := Function.update s.stall.ib (depth + 1) 0 } := by
      intro k hk
      have hne : k ≠ depth + 1 := by omega
      exact ⟨Function.update_of_ne hne _ _, rfl⟩
    have h := enters_of_walks f g (g :: rest) rest s
      { s with stall := { s.stall with ib := Function.update s.stall.ib (depth + 1) 0 } }
      hsub (Nat.le_of_lt hglt) (hbase ▸ hib) hret.symm hs
      (hlinked.congr fun j hj => ⟨Function.update_of_ne (by omega) _ _, rfl⟩)
      (Function.update_self _ _ _) hrest houter
      (by rw [List.length_cons] at hlen; omega) hclear
      (by rw [← reverse_cons_append])
    unfold enterIb
    simp only [if_pos (hgib.trans hbase.symm), hmin]
    rw [hbase, hwords]
    exact h

theorem enterIb_too_deep : EntersAt m q kMaxIbDepth (enterIb (walk m q 0 (kMaxIbDepth + 1)) kMaxIbDepth) := by
  intro f inner outer s size ib ibWords hoff hs hlinked hintact houter hlen hpacket hfollows
  obtain rfl : inner = [] := List.length_eq_zero_iff.mp (by omega)
  have hne : ¬ s.stall.ib (kMaxIbDepth + 1) = ib := fun h =>
    ne_zero_of_follows hfollows (h ▸ hlinked _ (Nat.le_refl _))
  have hsame : enterIb (walk m q 0 (kMaxIbDepth + 1)) kMaxIbDepth ib ibWords s = s := by
    simp only [enterIb, walk, if_neg hne, hs, Bool.false_eq_true, if_false]
  rw [hsame]
  refine ⟨SameBelow.refl _ _, fun _ => ⟨hlinked, ?_⟩,
    fun hstall => Bool.noConfusion (hs.symm.trans hstall)⟩
  refine .single (.pass hoff hpacket fun h => ?_)
  have hlt : outer.length < kMaxIbDepth := h.2
  omega

/-- **A walk advances the stack**, at every depth. -/
theorem walk_advances (levels depth : ℕ) (hdepth : depth + levels = kMaxIbDepth) :
    WalksAt m q depth (walk m q (levels + 1) depth) := by
  -- from the deepest buffers up
  induction levels generalizing depth with
  | zero =>
    obtain rfl : depth = kMaxIbDepth := hdepth
    intro f inner outer s hoff hbase hs hlinked hintact houter hlen
    rw [walk, if_neg (by omega)]
    exact loop_advances enterIb_too_deep houter _ (Nat.le_refl _) hs hlinked hintact hlen
  | succ levels ih =>
    intro f inner outer s hoff hbase hs hlinked hintact houter hlen
    rw [walk, if_neg (by omega)]
    exact loop_advances (enterIb_enters (ih (depth + 1) (by omega)) (by omega)) houter _
      (Nat.le_refl _) hs hlinked hintact hlen

end Enter

/-! ## All queues -/

variable [DecidableEq ι]

/-- The queues as the code has them. Of a stalled queue the caller of `SubmitDcbRing` keeps the
dwords that were not consumed. -/
structure Queues (ι : Type u) (ρ : Type v) (σ : Type w) where
  regs : ι → ρ
  stall : ι → RingStall
  rest : ι → Option (ℕ × ℕ)
  shared : σ

inductive Action (ι : Type u) (σ : Type w) where
  /-- A ring, of which nothing is suspended, is handed in. -/
  | submit (q : ι) (dcb words : ℕ)
  /-- What is left of a stalled ring is handed in again. -/
  | poll (q : ι)
  /-- Anything else that happens to the memory, such as a label write. -/
  | external (f : σ → σ)

def Action.queue : Action ι σ → Option ι
  | .submit q _ _ | .poll q => some q
  | .external _ => none

def Queues.start (regs : ι → ρ) (shared : σ) : Queues ι ρ σ :=
  ⟨regs, fun _ => .initial, fun _ => none, shared⟩

def Queues.handIn (m : Processor ι ρ σ) (s : Queues ι ρ σ) (q : ι) (dcb words : ℕ) : Queues ι ρ σ :=
  let t := submitDcbRing m q dcb words ⟨s.regs q, s.stall q, s.shared⟩
  { regs := Function.update s.regs q t.1.regs
    stall := Function.update s.stall q t.1.stall
    rest := Function.update s.rest q
      (if t.2 < words then some (dcb + 4 * t.2, words - t.2) else none)
    shared := t.1.shared }

def Queues.step (m : Processor ι ρ σ) (s : Queues ι ρ σ) : Action ι σ → Queues ι ρ σ
  | .submit q dcb words => s.handIn m q dcb words
  | .poll q =>
    match s.rest q with
    | none => s
    | some (dcb, words) => s.handIn m q dcb words
  | .external f => { s with shared := f s.shared }

def Queues.run (m : Processor ι ρ σ) : Queues ι ρ σ → List (Action ι σ) → Queues ι ρ σ :=
  List.foldl (Queues.step m)

/-- The queues as stacks of positions. -/
structure Machines (ι : Type u) (ρ : Type v) (σ : Type w) where
  frames : ι → List Frame
  regs : ι → ρ
  shared : σ

def Machines.start (regs : ι → ρ) (shared : σ) : Machines ι ρ σ := ⟨fun _ => [], regs, shared⟩

def Machines.config (u : Machines ι ρ σ) (q : ι) : Config ρ σ := ⟨u.frames q, u.regs q, u.shared⟩

def Machines.set (u : Machines ι ρ σ) (q : ι) (c : Config ρ σ) : Machines ι ρ σ where
  frames := Function.update u.frames q c.frames
  regs := Function.update u.regs q c.regs
  shared := c.shared

inductive Machines.Step (m : Processor ι ρ σ) (u : Machines ι ρ σ) : Action ι σ → Machines ι ρ σ → Prop where
  | submit {q : ι} {dcb words : ℕ} {c : Config ρ σ} : Polls m q ⟨[⟨dcb, words, 0, 0⟩], u.regs q, u.shared⟩ c →
      Step m u (.submit q dcb words) (u.set q c)
  | poll {q : ι} {c : Config ρ σ} : u.frames q ≠ [] → Polls m q (u.config q) c → Step m u (.poll q) (u.set q c)
  | idle {q : ι} : u.frames q = [] → Step m u (.poll q) u
  | external {f : σ → σ} : Step m u (.external f) { u with shared := f u.shared }

inductive Machines.Run (m : Processor ι ρ σ) : Machines ι ρ σ → List (Action ι σ) → Machines ι ρ σ → Prop where
  | nil {u : Machines ι ρ σ} : Run m u [] u
  | cons {u u₁ u' : Machines ι ρ σ} {a : Action ι σ} {as : List (Action ι σ)} :
      u.Step m a u₁ → Run m u₁ as u' → Run m u (a :: as) u'

/-- A new ring comes when the last one is done, and the packets through which a polled queue is
suspended are still there. -/
def Machines.Allowed (m : Processor ι ρ σ) (u : Machines ι ρ σ) : Action ι σ → Prop
  | .submit q dcb _ => u.frames q = [] ∧ dcb ≠ 0
  | .poll q => Intact m u.shared (u.frames q).reverse
  | .external _ => True

def Machines.Unchanged (m : Processor ι ρ σ) : Machines ι ρ σ → List (Action ι σ) → Prop
  | _, [] => True
  | u, a :: as => u.Allowed m a ∧ ∀ u', u.Step m a u' → Unchanged m u' as

/-- A queue of the code is where its stack is. -/
inductive Suspended (frames : List Frame) (stall : RingStall) : Option (ℕ × ℕ) → Prop where
  | idle : frames = [] → Linked stall 1 [] → Suspended frames stall none
  | stalled {f : Frame} {inner : List Frame} : frames = (f :: inner).reverse →
      f.off < f.words → f.base ≠ 0 → Linked stall 1 inner → inner.length ≤ kMaxIbDepth →
      Suspended frames stall (some (f.base + 4 * f.off, f.words - f.off))

structure Matches (s : Queues ι ρ σ) (u : Machines ι ρ σ) : Prop where
  shared : s.shared = u.shared
  regs : s.regs = u.regs
  suspended : ∀ q, Suspended (u.frames q) (s.stall q) (s.rest q)

omit [DecidableEq ι] in
theorem matches_start (regs : ι → ρ) (shared : σ) : Matches (Queues.start regs shared) (Machines.start regs shared) :=
  ⟨rfl, rfl, fun _ => .idle rfl fun _ _ => rfl⟩

section Refinement

variable {s : Queues ι ρ σ} {u u' : Machines ι ρ σ} {a : Action ι σ} {as : List (Action ι σ)}

theorem Machines.Step.unique {u₁ u₂ : Machines ι ρ σ} (h : u.Step m a u₁) (h' : u.Step m a u₂) : u₁ = u₂ := by
  cases h with
  | submit hpolls =>
    cases h' with
    | submit hpolls' => rw [polls_unique hpolls hpolls']
  | poll hne hpolls =>
    cases h' with
    | poll _ hpolls' => rw [polls_unique hpolls hpolls']
    | idle hnil => exact absurd hnil hne
  | idle hnil =>
    cases h' with
    | poll hne _ => exact absurd hnil hne
    | idle _ => rfl
  | external =>
    cases h'
    rfl

theorem Machines.Run.unique {u₁ u₂ : Machines ι ρ σ} (h : Machines.Run m u as u₁)
    (h' : Machines.Run m u as u₂) : u₁ = u₂ := by
  induction h with
  | nil =>
    cases h'
    rfl
  | cons hstep _ ih =>
    cases h' with
    | cons hstep' hrun' =>
      obtain rfl := hstep.unique hstep'
      exact ih hrun'

theorem handIn_refines (hshared : s.shared = u.shared) (hregs : s.regs = u.regs)
    (hothers : ∀ p, p ≠ q → Suspended (u.frames p) (s.stall p) (s.rest p))
    {f : Frame} {inner : List Frame} (hoff : f.off ≤ f.words) (hbase : f.base ≠ 0)
    (hlinked : Linked (s.stall q) 1 inner) (hlen : inner.length ≤ kMaxIbDepth)
    (hintact : Intact m u.shared (f :: inner)) : ∃ c, Polls m q ⟨(f :: inner).reverse, u.regs q, u.shared⟩ c ∧
      Matches (s.handIn m q (f.base + 4 * f.off) (f.words - f.off)) (u.set q c) := by
  rw [← hshared] at hintact
  have hsame : ∀ {x : RingStall} {y : Option (ℕ × ℕ)} {fs : List Frame}, Suspended fs x y →
      ∀ p, Suspended (Function.update u.frames q fs p) (Function.update s.stall q x p)
        (Function.update s.rest q y p) := by
    intro x y fs h p
    by_cases hp : p = q
    · subst hp
      simpa using h
    · simpa [hp] using hothers p hp
  by_cases hempty : f.words - f.off = 0
  · -- nothing is left
    have hinner : inner = [] := by
      cases inner with
      | nil => rfl
      | cons g fs =>
        have := hintact.1
        omega
    subst hinner
    refine ⟨⟨[], u.regs q, u.shared⟩, .inr ⟨.single (.finish (by omega)), rfl⟩, ?_⟩
    have hdone : submitDcbRing m q (f.base + 4 * f.off) (f.words - f.off)
        ⟨s.regs q, s.stall q, s.shared⟩ = (⟨s.regs q, s.stall q, s.shared⟩, f.words - f.off) := by
      rw [submitDcbRing, if_pos (.inr hempty)]
    refine ⟨?_, ?_, ?_⟩
    · rw [Queues.handIn, hdone]
      exact hshared
    · rw [Queues.handIn, hdone]
      simp only [Machines.set, ← hregs, Function.update_eq_self]
    · rw [Queues.handIn, hdone]
      dsimp only
      rw [if_neg (Nat.lt_irrefl _)]
      exact hsame (.idle rfl hlinked)
  · have hwalk := walk_advances (m := m) (q := q) kMaxIbDepth 0 (Nat.zero_add _) f inner []
      ⟨s.regs q, { s.stall q with stalled := false }, s.shared⟩ hoff hbase rfl
      (hlinked.congr fun _ _ => ⟨rfl, rfl⟩) hintact rfl (by omega)
    have hsubmit : submitDcbRing m q (f.base + 4 * f.off) (f.words - f.off)
        ⟨s.regs q, s.stall q, s.shared⟩ =
        walk m q (kMaxIbDepth + 1) 0 (f.base + 4 * f.off) (f.words - f.off)
          ⟨s.regs q, { s.stall q with stalled := false }, s.shared⟩ := by
      rw [submitDcbRing, if_neg (by omega)]
    unfold Queues.handIn
    rw [hsubmit]
    generalize walk m q (kMaxIbDepth + 1) 0 (f.base + 4 * f.off) (f.words - f.off)
      ⟨s.regs q, { s.stall q with stalled := false }, s.shared⟩ = t at hwalk ⊢
    obtain ⟨t, done⟩ := t
    dsimp only at hwalk ⊢
    rw [hshared, hregs] at hwalk
    cases hstalled : t.stall.stalled with
    | false =>
      obtain ⟨hlinked', hdone, g, hg, -, hsteps⟩ := hwalk.ends hstalled
      rw [List.append_nil] at hsteps
      refine ⟨⟨[], t.regs, t.shared⟩, .inr ⟨hsteps.tail (.finish hg), rfl⟩, rfl, ?_, ?_⟩
      · rw [hregs]
        rfl
      · rw [if_neg (by omega)]
        exact hsame (.idle rfl hlinked')
    | true =>
      obtain ⟨hdone, inner', hlinked', hblocks⟩ := hwalk.stalls hstalled
      rw [List.append_nil, List.append_nil] at hblocks
      have hlen' := Polls.length_le (.inl hblocks) (by simp; omega)
      refine ⟨_, .inl hblocks, rfl, ?_, ?_⟩
      · rw [hregs]
        rfl
      · rw [if_pos hdone]
        have hrest : (f.base + 4 * f.off + 4 * done, f.words - f.off - done) =
            ((f.advance done).base + 4 * (f.advance done).off,
              (f.advance done).words - (f.advance done).off) := by
          simp only [Frame.advance, Nat.mul_add, Nat.add_assoc, Nat.sub_sub]
        rw [hrest]
        refine hsame (.stalled rfl ?_ hbase hlinked' ?_)
        · change f.off + done < f.words
          omega
        · simp only [List.length_reverse, List.length_cons] at hlen'
          omega

/-- **Every action of the code is one of the stacks.** -/
theorem step_refines (h : Matches s u) (hallowed : u.Allowed m a) : ∃ u', u.Step m a u' ∧ Matches (s.step m a) u' := by
  cases a with
  | submit q dcb words =>
    obtain ⟨hnil, hdcb⟩ := hallowed
    have hlinked : Linked (s.stall q) 1 [] := by
      have hq := h.suspended q
      rw [hnil] at hq
      cases hrest : s.rest q with
      | none =>
        rw [hrest] at hq
        cases hq with
        | idle _ hlinked => exact hlinked
      | some r =>
        rw [hrest] at hq
        cases hq with
        | stalled hframes => simp at hframes
    obtain ⟨c, hpolls, hmatches⟩ := handIn_refines (m := m) (q := q) h.shared h.regs
      (fun p _ => h.suspended p) (f := ⟨dcb, words, 0, 0⟩) (Nat.zero_le _) hdcb hlinked
      (Nat.zero_le _) trivial
    exact ⟨_, .submit hpolls, hmatches⟩
  | poll q =>
    have hq := h.suspended q
    cases hrest : s.rest q with
    | none =>
      rw [hrest] at hq
      cases hq with
      | idle hnil _ =>
        refine ⟨u, .idle hnil, ?_⟩
        simpa only [Queues.step, hrest] using h
    | some r =>
      rw [hrest] at hq
      generalize hframes : u.frames q = frames at hq
      cases hq with
      | @stalled f inner heq hlt hbase hlinked hlen =>
        rw [heq] at hframes
        have hintact : Intact m u.shared (f :: inner) := by
          have : Intact m u.shared (u.frames q).reverse := hallowed
          rwa [hframes, List.reverse_reverse] at this
        obtain ⟨c, hpolls, hmatches⟩ := handIn_refines (m := m) (q := q) h.shared h.regs
          (fun p _ => h.suspended p) (Nat.le_of_lt hlt) hbase hlinked hlen hintact
        refine ⟨u.set q c, .poll (by simp [hframes]) ?_, ?_⟩
        · rw [Machines.config, hframes]
          exact hpolls
        · simpa only [Queues.step, hrest] using hmatches
  | external f =>
    refine ⟨_, .external, ?_, h.regs, h.suspended⟩
    exact congrArg f h.shared

/-- **Every schedule of the code is one of the stacks.** -/
theorem run_refines (h : Matches s u) (hunchanged : u.Unchanged m as) :
    ∃ u', Machines.Run m u as u' ∧ Matches (s.run m as) u' := by
  induction as generalizing s u with
  | nil => exact ⟨u, .nil, h⟩
  | cons a as ih =>
    obtain ⟨u₁, hstep, hmatches⟩ := step_refines h hunchanged.1
    obtain ⟨u', hrun, hmatches'⟩ := ih hmatches (hunchanged.2 u₁ hstep)
    exact ⟨u', .cons hstep hrun, hmatches'⟩

end Refinement

/-! ## Uninterrupted walks -/

def Processor.satisfied (m : Processor ι ρ σ) : Processor ι ρ σ :=
  { m with stallOnWait := fun _ _ _ shared => (false, shared) }

/-- The packets of a queue in some buffers depend on no more of the shared state than `view`, and
the waits leave that alone. -/
structure Sees {V : Type} (m : Processor ι ρ σ) (q : ι) (view : σ → V) (inBuffers : Frame → Prop) : Prop where
  packet : ∀ f shared shared', inBuffers f → view shared = view shared' → f.packet m shared = f.packet m shared'
  follows : ∀ ib ibWords shared shared', view shared = view shared' →
    m.follows shared ib ibWords = m.follows shared' ib ibWords
  flagClear : ∀ flag shared shared', view shared = view shared' → m.flagClear shared flag = m.flagClear shared' flag
  effect : ∀ hdr body regs shared shared', view shared = view shared' →
    (m.effect q hdr body (regs, shared)).1 = (m.effect q hdr body (regs, shared')).1 ∧
      view (m.effect q hdr body (regs, shared)).2 = view (m.effect q hdr body (regs, shared')).2
  wait : ∀ hdr body shared, view (m.stallOnWait q hdr body shared).2 = view shared
  enter : ∀ f shared size ib ibWords, inBuffers f →
    f.packet m shared = .indirect size ib ibWords → inBuffers ⟨ib, ibWords, 0, size⟩
  advance : ∀ f size, inBuffers f → inBuffers (f.advance size)

def Queues.Quiet {V : Type} (m : Processor ι ρ σ) (q : ι) (view : σ → V) : Queues ι ρ σ → List (Action ι σ) → Prop
  | _, [] => True
  | s, a :: as =>
    (∀ dcb words, a ≠ .submit q dcb words) ∧
      (a.queue ≠ some q → view (s.step m a).shared = view s.shared) ∧ Quiet m q view (s.step m a) as

section Uninterrupted

variable {V : Type} {view : σ → V} {inBuffers : Frame → Prop} {c d c₀ : Config ρ σ}

/-- The queue is where a walk with satisfied waits from `c₀` gets, as far as it sees. -/
def Follows (m : Processor ι ρ σ) (q : ι) (view : σ → V) (inBuffers : Frame → Prop)
    (c₀ c : Config ρ σ) : Prop :=
  (∀ f ∈ c.frames, inBuffers f) ∧ ∃ shared, view shared = view c.shared ∧
    Relation.ReflTransGen (Advance m.satisfied q) c₀ ⟨c.frames, c.regs, shared⟩

omit [DecidableEq ι] in
theorem Follows.advance (hsees : Sees m q view inBuffers) (h : Follows m q view inBuffers c₀ c)
    (hstep : Advance m q c d) : Follows m q view inBuffers c₀ d := by
  obtain ⟨hin, shared', hview, hsteps⟩ := h
  cases hstep with
  | @leave f g fs regs shared hend =>
    refine ⟨fun e he => ?_, shared', hview, hsteps.tail (.leave hend)⟩
    rcases List.mem_cons.mp he with rfl | he
    · exact hsees.advance g _ (hin g (by simp))
    · exact hin e (by simp [he])
  | finish hend => exact ⟨fun e he => by simp at he, shared', hview, hsteps.tail (.finish hend)⟩
  | @skip f fs regs shared size hlt hpacket =>
    have hf := hin f List.mem_cons_self
    rw [← hsees.packet f _ _ hf hview] at hpacket
    refine ⟨fun e he => ?_, shared', hview, hsteps.tail (.skip hlt hpacket)⟩
    rcases List.mem_cons.mp he with rfl | he
    · exact hsees.advance f _ hf
    · exact hin e (List.mem_cons_of_mem _ he)
  | @effect f fs regs shared size hdr body hlt hpacket =>
    have hf := hin f List.mem_cons_self
    rw [← hsees.packet f _ _ hf hview] at hpacket
    obtain ⟨hregs, hview'⟩ := hsees.effect hdr body regs _ _ hview
    refine ⟨fun e he => ?_, (m.effect q hdr body (regs, shared')).2, hview', ?_⟩
    · rcases List.mem_cons.mp he with rfl | he
      · exact hsees.advance f _ hf
      · exact hin e (List.mem_cons_of_mem _ he)
    · rw [← hregs]
      exact hsteps.tail (.effect (m := m.satisfied) hlt hpacket)
  | @enter f fs regs shared size ib ibWords hlt hpacket hfollows hdepth =>
    have hf := hin f List.mem_cons_self
    have hpacket' := hpacket
    rw [← hsees.packet f _ _ hf hview] at hpacket
    rw [← hsees.follows _ _ _ _ hview] at hfollows
    refine ⟨fun e he => ?_, shared', hview, hsteps.tail (.enter hlt hpacket hfollows hdepth)⟩
    rcases List.mem_cons.mp he with rfl | he
    · exact hsees.enter f _ _ _ _ hf hpacket'
    · exact hin e he
  | @pass f fs regs shared size ib ibWords hlt hpacket hnot =>
    have hf := hin f List.mem_cons_self
    rw [← hsees.packet f _ _ hf hview] at hpacket
    rw [← hsees.follows _ _ _ _ hview] at hnot
    refine ⟨fun e he => ?_, shared', hview, hsteps.tail (.pass hlt hpacket hnot)⟩
    rcases List.mem_cons.mp he with rfl | he
    · exact hsees.advance f _ hf
    · exact hin e (List.mem_cons_of_mem _ he)
  | @condExec f fs regs shared size flag skip hlt hpacket =>
    have hf := hin f List.mem_cons_self
    rw [← hsees.packet f _ _ hf hview] at hpacket
    rw [← hsees.flagClear _ _ _ hview]
    refine ⟨fun e he => ?_, shared', hview,
      hsteps.tail (.condExec (m := m.satisfied) hlt hpacket)⟩
    rcases List.mem_cons.mp he with rfl | he
    · exact hsees.advance f _ hf
    · exact hin e (List.mem_cons_of_mem _ he)
  | @wait f fs regs shared size hdr body hlt hpacket _ =>
    have hf := hin f List.mem_cons_self
    rw [← hsees.packet f _ _ hf hview] at hpacket
    refine ⟨fun e he => ?_, shared', hview.trans (hsees.wait hdr body shared).symm,
      hsteps.tail (.wait (m := m.satisfied) hlt hpacket rfl)⟩
    rcases List.mem_cons.mp he with rfl | he
    · exact hsees.advance f _ hf
    · exact hin e (List.mem_cons_of_mem _ he)

omit [DecidableEq ι] in
theorem Follows.polls (hsees : Sees m q view inBuffers) (h : Follows m q view inBuffers c₀ c)
    (hpolls : Polls m q c d) : Follows m q view inBuffers c₀ d := by
  have hrun : ∀ {e}, Relation.ReflTransGen (Advance m q) c e →
      Follows m q view inBuffers c₀ e := by
    intro e he
    induction he with
    | refl => exact h
    | tail _ hstep ih => exact ih.advance hsees hstep
  rcases hpolls with ⟨e, he, hstops⟩ | ⟨hd, -⟩
  · obtain ⟨hin, shared', hview, hsteps⟩ := hrun he
    cases hstops
    -- looking at the wait leaves alone what the queue sees
    exact ⟨hin, shared', hview.trans (hsees.wait _ _ _).symm, hsteps⟩
  · exact hrun hd

theorem follows_run (hsees : Sees m q view inBuffers) {s : Queues ι ρ σ} {u u' : Machines ι ρ σ}
    {as : List (Action ι σ)} (hmatches : Matches s u) (hunchanged : u.Unchanged m as)
    (hquiet : s.Quiet m q view as) (hrun : Machines.Run m u as u') (h : Follows m q view inBuffers c₀ (u.config q)) :
    Follows m q view inBuffers c₀ (u'.config q) := by
  induction hrun generalizing s with
  | nil => exact h
  | @cons u u₁ u' a as hstep _ ih =>
    obtain ⟨hnew, hothers, hquiet⟩ := hquiet
    obtain ⟨u₂, hstep', hmatches'⟩ := step_refines hmatches hunchanged.1
    obtain rfl := hstep.unique hstep'
    refine ih hmatches' (hunchanged.2 _ hstep) hquiet ?_
    by_cases hq : a.queue = some q
    · -- a poll of the queue
      cases hstep with
      | submit _ =>
        obtain rfl : _ = q := Option.some.inj hq
        exact absurd rfl (hnew _ _)
      | poll _ hpolls =>
        obtain rfl : _ = q := Option.some.inj hq
        simpa [Machines.config, Machines.set] using h.polls hsees hpolls
      | idle _ => exact h
      | external => cases hq
    · have hview : view u₁.shared = view u.shared := by
        rw [← hmatches'.shared, ← hmatches.shared]
        exact hothers hq
      have hsame : u₁.frames q = u.frames q ∧ u₁.regs q = u.regs q := by
        cases hstep with
        | submit _ | poll _ _ =>
          have hne : q ≠ _ := fun h => hq (congrArg some h.symm)
          exact ⟨Function.update_of_ne hne _ _, Function.update_of_ne hne _ _⟩
        | idle _ => exact ⟨rfl, rfl⟩
        | external => exact ⟨rfl, rfl⟩
      obtain ⟨hin, shared', hview', hsteps⟩ := h
      refine ⟨?_, shared', hview'.trans hview.symm, ?_⟩
      · intro f hf
        change f ∈ u₁.frames q at hf
        rw [hsame.1] at hf
        exact hin f hf
      · simpa only [Machines.config, hsame] using hsteps

theorem regs_of_uninterrupted (s : Queues ι ρ σ) {dcb words : ℕ} (hdcb : dcb ≠ 0) {regs : ρ} {shared : σ}
    (hrun : Relation.ReflTransGen (Advance m.satisfied q)
      ⟨[⟨dcb, words, 0, 0⟩], s.regs q, s.shared⟩ ⟨[], regs, shared⟩) :
    (submitDcbRing m.satisfied q dcb words ⟨s.regs q, .initial, s.shared⟩).1.regs = regs := by
  obtain ⟨c, hpolls, hmatches⟩ := handIn_refines (m := m.satisfied) (q := q)
    (s := Queues.start s.regs s.shared) (u := Machines.start s.regs s.shared) rfl rfl
    (fun p _ => .idle rfl fun _ _ => rfl) (f := ⟨dcb, words, 0, 0⟩) (Nat.zero_le _) hdcb
    (show Linked RingStall.initial 1 [] from fun _ _ => rfl) (Nat.zero_le _) trivial
  obtain rfl := polls_unique hpolls (.inr ⟨hrun, rfl⟩)
  have h := congrFun hmatches.regs q
  simpa [Queues.handIn, Machines.set, Queues.start] using h

end Uninterrupted

theorem Machines.Run.split {u u' : Machines ι ρ σ} {before after : List (Action ι σ)}
    (h : Machines.Run m u (before ++ after) u') : ∃ u₁, Machines.Run m u before u₁ ∧ Machines.Run m u₁ after u' := by
  induction before generalizing u with
  | nil => exact ⟨u, .nil, h⟩
  | cons a before ih =>
    cases h with
    | cons hstep hrun =>
      obtain ⟨u₁, hbefore, hafter⟩ := ih hrun
      exact ⟨u₁, .cons hstep hbefore, hafter⟩

theorem Machines.Unchanged.after {u u₁ : Machines ι ρ σ} {before after : List (Action ι σ)}
    (h : u.Unchanged m (before ++ after)) (hrun : Machines.Run m u before u₁) : u₁.Unchanged m after := by
  induction hrun with
  | nil => exact h
  | cons hstep _ ih => exact ih (h.2 _ hstep)

theorem Machines.Unchanged.before {u : Machines ι ρ σ} {before after : List (Action ι σ)}
    (h : u.Unchanged m (before ++ after)) : u.Unchanged m before := by
  induction before generalizing u with
  | nil => trivial
  | cons a before ih => exact ⟨h.1, fun u' hstep => ih (h.2 u' hstep)⟩

/-- A ring at `0x10000` that calls a buffer at `0x20000`: a packet, a wait for the label at
`0x30000` and another packet. -/
def nestedMemory : ℕ → ℕ := fun a =>
  ([(0x10000, 0xC0023F00), (0x10004, 0x20000), (0x1000C, 11), (0x20000, 0xC0002F00), (0x20004, 1),
    (0x20008, 0xC0053C00), (0x2000C, 3), (0x20010, 0x30000), (0x20018, 1), (0x2001C, 0xFFFFFFFF),
    (0x20024, 0xC0002F00), (0x20028, 2)].lookup a).getD 0

/-- The registers of a queue are the values its packets carried; a wait compares for equality. -/
def nestedProcessor : Processor Unit (List ℕ) (ℕ → ℕ) where
  word memory := memory
  readable _ _ _ := true
  effect _ _ body s := (body ++ s.1, s.2)
  stallOnWait _ _ body memory := (memory (body.getD 1 0) != body.getD 3 0, memory)

def labelWrite (memory : ℕ → ℕ) : ℕ → ℕ := Function.update memory 0x30000 1

theorem nested_stops : Polls nestedProcessor () ⟨[⟨0x10000, 4, 0, 0⟩], [], nestedMemory⟩
    ⟨[⟨0x20000, 11, 2, 4⟩, ⟨0x10000, 4, 0, 0⟩], [1], nestedMemory⟩ := by
  have hcall : Frame.packet nestedProcessor ⟨0x10000, 4, 0, 0⟩ nestedMemory =
      .indirect 4 0x20000 11 := by
    decide +kernel
  have hfirst : Frame.packet nestedProcessor ⟨0x20000, 11, 0, 4⟩ nestedMemory =
      .effect 2 0xC0002F00 [1] := by
    decide +kernel
  have hwait : Frame.packet nestedProcessor ⟨0x20000, 11, 2, 4⟩ nestedMemory =
      .wait 7 0xC0053C00 [3, 0x30000, 0, 1, 0xFFFFFFFF, 0] := by
    decide +kernel
  refine .inl ⟨⟨[⟨0x20000, 11, 2, 4⟩, ⟨0x10000, 4, 0, 0⟩], [1], nestedMemory⟩, ?_,
    .intro (by decide) hwait (by decide +kernel)⟩
  exact (Relation.ReflTransGen.single (.enter (by decide) hcall (by decide +kernel)
    (by decide))).tail (.effect (by decide) hfirst)

/-- The ring is polled again after the label is written. -/
def nestedSchedule : List (Action Unit (ℕ → ℕ)) :=
  [.submit () 0x10000 4, .external labelWrite, .poll ()]

theorem nested_unchanged : (Machines.start (fun _ => []) nestedMemory).Unchanged nestedProcessor nestedSchedule := by
  refine ⟨⟨rfl, by decide⟩, fun u₁ h₁ => ⟨trivial, fun u₂ h₂ => ⟨?_, fun _ _ => trivial⟩⟩⟩
  obtain rfl := h₁.unique (.submit nested_stops)
  cases h₂
  -- the packet that called the buffer is still there
  have hcall : Frame.packet nestedProcessor ⟨0x10000, 4, 0, 0⟩ (labelWrite nestedMemory) =
      .indirect 4 0x20000 11 := by
    decide +kernel
  exact ⟨by decide, hcall, by decide +kernel, trivial⟩

end Prosperity.Gpu
