import Prosperity.Formats.RarSession
import Prosperity.Foundations.Ring

/-!
# Runs of the RAR sessions

A read that succeeds delivers the bytes of the decoded entry at its offset, whatever the other
readers and the workers do in between: each session drains its stream in order, without a gap and
without a byte twice, and its counters stay a ring apart.

`Streams` says what a session has of its stream: the ring holds what is produced and not consumed,
the worker what is handed to `Push` and not produced. A reader that consumes has the `read_lock`, so
that `consumed` stands still under everyone else (`ReaderOk`).
-/

set_option linter.unusedSectionVars false

namespace Prosperity.Formats

theorem kRingSize_pos : 0 < kRingSize := by decide

/-! ## A session -/

structure RarSession.Streams (stream : List UInt8) (s : RarSession) : Prop where
  le : s.consumed ≤ s.produced
  room : s.produced ≤ s.consumed + kRingSize
  bound : s.produced ≤ stream.length
  ring : RingHolds kRingSize s.ring (stream.take s.produced) s.consumed
  drained : s.drained = stream.take s.consumed
  decoding : s.worker = .decoding → s.given = s.produced
  push : ∀ rest, s.worker = .push rest →
    rest = (stream.drop s.produced).take rest.length ∧ s.given = s.produced + rest.length

namespace RarSession

variable {stream : List UInt8} {s s' : RarSession}

theorem Streams.start (headerOff : ℕ) : Streams stream (RarSession.start headerOff) where
  le := Nat.le_refl _
  room := Nat.zero_le _
  bound := Nat.zero_le _
  ring := RingHolds.nil _ _ _
  drained := rfl
  decoding _ := rfl
  push _ h := by cases h

theorem Streams.processData (h : Streams stream s) {n : ℕ} (hs : s.processData stream n = some s') :
    Streams stream s' ∧ s'.consumed = s.consumed ∧ s'.headerOff = s.headerOff := by
  rw [RarSession.processData, Option.ite_none_right_eq_some] at hs
  obtain ⟨hw, hs⟩ := hs
  obtain rfl := Option.some.inj hs
  refine ⟨⟨h.le, h.room, h.bound, h.ring, h.drained, by rintro ⟨⟩, ?_⟩, rfl, rfl⟩
  rintro _ ⟨⟩
  have hgiven := h.decoding hw
  refine ⟨?_, by rw [hgiven]⟩
  rw [hgiven, List.length_take]
  apply List.take_eq_take_iff.mpr
  omega

theorem Streams.finish (h : Streams stream s) {success : Bool} (hs : s.finish success = some s') :
    Streams stream s' ∧ s'.consumed = s.consumed ∧ s'.headerOff = s.headerOff := by
  rw [RarSession.finish] at hs
  split at hs
  case h_1 hw =>
    obtain rfl := Option.some.inj hs
    exact ⟨⟨h.le, h.room, h.bound, h.ring, h.drained, by rintro ⟨⟩, by rintro _ ⟨⟩⟩, rfl, rfl⟩
  case h_2 hw =>
    rw [Option.ite_none_left_eq_some] at hs
    obtain rfl := Option.some.inj hs.2
    exact ⟨⟨h.le, h.room, h.bound, h.ring, h.drained, by rintro ⟨⟩, by rintro _ ⟨⟩⟩, rfl, rfl⟩
  case h_3 => cases hs

theorem Streams.stop (h : Streams stream s) : Streams stream { s with stop := true } :=
  ⟨h.le, h.room, h.bound, h.ring, h.drained, h.decoding, h.push⟩

theorem Streams.pushStep (h : Streams stream s) (hs : s.pushStep = some s') :
    Streams stream s' ∧ s'.consumed = s.consumed ∧ s'.headerOff = s.headerOff := by
  rw [RarSession.pushStep] at hs
  split at hs
  case h_1 hw =>
    obtain rfl := Option.some.inj hs
    obtain ⟨-, hgiven⟩ := h.push [] hw
    exact ⟨⟨h.le, h.room, h.bound, h.ring, h.drained, fun _ => hgiven, by rintro _ ⟨⟩⟩, rfl, rfl⟩
  case h_2 rest hne hw =>
    obtain ⟨hrest, hgiven⟩ := h.push rest hw
    dsimp only at hs
    split_ifs at hs with hstop hroom
    · obtain rfl := Option.some.inj hs
      exact ⟨⟨h.le, h.room, h.bound, h.ring, h.drained, by rintro ⟨⟩, by rintro _ ⟨⟩⟩, rfl, rfl⟩
    · obtain rfl := Option.some.inj hs
      set n := min rest.length
        (min (kRingSize - (s.produced - s.consumed)) (kRingSize - s.produced % kRingSize)) with hn
      have hle := h.le
      have hfits : s.produced + rest.length ≤ stream.length := by
        have hlen := congrArg List.length hrest
        rw [List.length_take, List.length_drop] at hlen
        have hbound := h.bound
        omega
      have hmod := Nat.mod_lt s.produced kRingSize_pos
      have htake : stream.take (s.produced + n) = stream.take s.produced ++ rest.take n := by
        rw [List.take_add, hrest, List.take_take]
        congr 2
        omega
      have hlen : (stream.take s.produced).length = s.produced := List.length_take_of_le h.bound
      have hblock : (rest.take n).length = n := List.length_take_of_le (by omega)
      refine ⟨⟨?_, ?_, ?_, ?_, h.drained, by rintro ⟨⟩, ?_⟩, rfl, rfl⟩
      · show s.consumed ≤ s.produced + n
        omega
      · show s.produced + n ≤ s.consumed + kRingSize
        omega
      · show s.produced + n ≤ stream.length
        omega
      · show RingHolds kRingSize
          (copyBytes s.ring (s.produced % kRingSize) (fun i => rest.getD i 0) 0 n)
          (stream.take (s.produced + n)) s.consumed
        rw [htake]
        refine h.ring.append ?_ ?_ (fun k a ha => ?_) (fun j hj => ?_)
        · rw [hlen, hblock]
          omega
        · rw [hlen, hblock]
          omega
        · obtain ⟨hk, hget⟩ := List.getElem?_eq_some_iff.mp ha
          rw [hblock] at hk
          rw [hlen, copyBytes_inside _ _ hk, Nat.zero_add, List.getD_eq_getElem?_getD, List.getElem?_eq_getElem (by omega), Option.getD_some,
            ← hget, List.getElem_take]
        · rw [hlen, hblock] at hj
          exact copyBytes_outside _ _ hj
      · rintro _ ⟨⟩
        show rest.drop n = (stream.drop (s.produced + n)).take (rest.drop n).length ∧
          s.given = s.produced + n + (rest.drop n).length
        rw [List.length_drop]
        refine ⟨?_, by omega⟩
        conv_lhs => rw [hrest]
        rw [List.drop_take, List.drop_drop]
  case h_3 => cases hs

theorem Streams.read (h : Streams stream s) {i k : ℕ} (hi : s.consumed ≤ i)
    (hlt : i + k < s.produced) (hwrap : i % kRingSize + k < kRingSize) :
    some (s.ring (i % kRingSize + k)) = stream[i + k]? := by
  have hlen : (stream.take s.produced).length = s.produced := List.length_take_of_le h.bound
  rw [h.ring.read hi (by omega) hwrap, List.getElem?_take_of_lt hlt]

theorem Streams.drain (h : Streams stream s) {n : ℕ} (hn : s.consumed + n ≤ s.produced)
    {bytes : List UInt8} (hlen : bytes.length = n) (hbytes : ∀ i < n, bytes[i]? = stream[s.consumed + i]?) :
    Streams stream { s with consumed := s.consumed + n, drained := s.drained ++ bytes } := by
  have hroom := h.room
  refine ⟨hn, by show s.produced ≤ s.consumed + n + kRingSize; omega, h.bound,
    h.ring.mono (Nat.le_add_right _ _), ?_, h.decoding, h.push⟩
  show s.drained ++ bytes = stream.take (s.consumed + n)
  rw [h.drained, List.take_add]
  congr 1
  apply List.ext_getElem?
  intro i
  by_cases hi : i < n
  · rw [hbytes i hi, List.getElem?_take_of_lt hi, List.getElem?_drop]
  · rw [List.getElem?_eq_none (by omega), List.getElem?_take_eq_none (by omega)]

/-- What a turn of `Consume` keeps: `out` holds the bytes from `off` on that were consumed. -/
structure Taken (stream : List UInt8) (s : RarSession) (off len : ℕ) (out : ℕ → UInt8) : Prop where
  le : s.consumed ≤ off + len
  bytes : ∀ i, off + i < s.consumed → some (out i) = stream[off + i]?

theorem Streams.consumeStep (h : Streams stream s) {off len : ℕ} {out out' : ℕ → UInt8}
    (ht : Taken stream s off len out) (hs : s.consumeStep off len out = some (.again s' out')) :
    Streams stream s' ∧ s'.headerOff = s.headerOff ∧ Taken stream s' off len out' := by
  rw [RarSession.consumeStep] at hs
  have hle := h.le
  have hroom := h.room
  dsimp only at hs
  split_ifs at hs with hmore hempty hdone hbad hskip
  · cases hs
  · cases hs
  · -- The bytes before `off` are discarded.
    obtain ⟨rfl, rfl⟩ := ConsumeTurn.again.inj (Option.some.inj hs)
    set n := min (s.produced - s.consumed) (off - s.consumed) with hn
    refine ⟨h.drain (by omega) (by rw [List.length_map, List.length_range]) (fun i hi => ?_), rfl,
      ?_, fun i hi => ?_⟩
    · rw [List.getElem?_map, List.getElem?_range hi, Option.map_some]
      have hread := h.read (k := 0) (Nat.le_add_right s.consumed i) (by omega)
        (Nat.mod_lt _ kRingSize_pos)
      exact hread
    · show s.consumed + n ≤ off + len
      omega
    · replace hi : off + i < s.consumed + n := hi
      omega
  · obtain ⟨rfl, rfl⟩ := ConsumeTurn.again.inj (Option.some.inj hs)
    set n := min (s.produced - s.consumed)
      (min (off + len - s.consumed) (kRingSize - s.consumed % kRingSize)) with hn
    have hmod := Nat.mod_lt s.consumed kRingSize_pos
    have hbyte : ∀ i < n, some (s.ring (s.consumed % kRingSize + i)) = stream[s.consumed + i]? :=
      fun i hi => h.read (Nat.le_refl _) (by omega) (by omega)
    refine ⟨h.drain (by omega) (by rw [List.length_map, List.length_range]) (fun i hi => ?_), rfl,
      ?_, fun i hi => ?_⟩
    · rw [List.getElem?_map, List.getElem?_range hi, Option.map_some]
      exact hbyte i hi
    · show s.consumed + n ≤ off + len
      omega
    · replace hi : off + i < s.consumed + n := hi
      by_cases hold : off + i < s.consumed
      · rw [copyBytes_outside _ _ (.inl (by omega))]
        exact ht.bytes i hold
      · -- A byte of this turn's copy.
        obtain ⟨k, rfl⟩ : ∃ k, i = s.consumed - off + k := ⟨i - (s.consumed - off), by omega⟩
        rw [copyBytes_inside _ _ (by omega), hbyte k (by omega)]
        congr 1
        omega
  · cases hs

theorem Taken.all {off len : ℕ} {out : ℕ → UInt8} (ht : Taken stream s off len out)
    (hs : s.consumeStep off len out = some .success) : ∀ i < len, some (out i) = stream[off + i]? := by
  rw [RarSession.consumeStep] at hs
  dsimp only at hs
  split_ifs at hs with hmore hempty hdone hbad hskip
  · cases hs
  · cases hs
  · cases hs
  · cases hs
  · exact fun i hi => ht.bytes i (by omega)

end RarSession

namespace RarState

variable {ι : Type*} [DecidableEq ι] {stream : ℕ → List UInt8} {s s' : RarState ι}

/-! ## What the backend promises -/

structure Sound (stream : ℕ → List UInt8) (s : RarState ι) : Prop where
  counters : ∀ sid < s.count, (s.session sid).consumed ≤ (s.session sid).produced ∧
    (s.session sid).produced ≤ (s.session sid).consumed + kRingSize
  order : ∀ sid < s.count, (s.session sid).drained = (stream (s.session sid).headerOff).take (s.session sid).consumed
  delivered : ∀ t e off len out, s.thread t = .returned e off len (some out) →
    out.length = len ∧ out = ((stream e.extra).drop off).take len

/-- What holds of a reader. One that consumes has the `read_lock` of its session. -/
def ReaderOk (stream : ℕ → List UInt8) (s : RarState ι) (t : ι) : RarReader → Prop
  | .lock e _ _ _ sid => sid < s.count ∧ (s.session sid).headerOff = e.extra
  | .check e _ _ _ sid =>
    sid < s.count ∧ (s.session sid).headerOff = e.extra ∧ s.readLock sid = some t
  | .consume e off len sid out =>
    sid < s.count ∧ (s.session sid).headerOff = e.extra ∧ s.readLock sid = some t ∧
      RarSession.Taken (stream e.extra) (s.session sid) off len out
  | .returned e off len (some out) =>
    out.length = len ∧ out = ((stream e.extra).drop off).take len
  | _ => True

structure Inv (stream : ℕ → List UInt8) (s : RarState ι) : Prop where
  streams : ∀ sid < s.count, (s.session sid).Streams (stream (s.session sid).headerOff)
  cached : ∀ sid ∈ s.sessions, sid < s.count
  readers : ∀ t, ReaderOk stream s t (s.thread t)

theorem Inv.init : Inv stream (init : RarState ι) where
  streams _ h := absurd h (Nat.not_lt_zero _)
  cached := by simp [RarState.init]
  readers _ := trivial

theorem Inv.sound (h : Inv stream s) : Sound stream s where
  counters sid hsid := ⟨(h.streams sid hsid).le, (h.streams sid hsid).room⟩
  order sid hsid := (h.streams sid hsid).drained
  delivered t e off len out ht := by
    have hok := h.readers t
    rw [ht] at hok
    exact hok

theorem ReaderOk.frame {t : ι} {c : RarReader} (h : ReaderOk stream s t c) (hcount : s.count ≤ s'.count)
    (hhead : ∀ sid < s.count, (s'.session sid).headerOff = (s.session sid).headerOff)
    (hown : ∀ sid < s.count, s.readLock sid = some t →
      s'.readLock sid = some t ∧ (s'.session sid).consumed = (s.session sid).consumed) : ReaderOk stream s' t c := by
  cases c with
  | lock e off len n sid => exact ⟨Nat.lt_of_lt_of_le h.1 hcount, (hhead sid h.1).trans h.2⟩
  | check e off len n sid =>
    obtain ⟨hsid, hextra, hlock⟩ := h
    exact ⟨Nat.lt_of_lt_of_le hsid hcount, (hhead sid hsid).trans hextra, (hown sid hsid hlock).1⟩
  | consume e off len sid out =>
    obtain ⟨hsid, hextra, hlock, ht⟩ := h
    obtain ⟨hlock', hconsumed⟩ := hown sid hsid hlock
    refine ⟨Nat.lt_of_lt_of_le hsid hcount, (hhead sid hsid).trans hextra, hlock', ?_, ?_⟩
    · rw [hconsumed]
      exact ht.le
    · rw [hconsumed]
      exact ht.bytes
  | returned e off len result =>
    cases result with
    | none => trivial
    | some out => exact h
  | idle | attempt _ _ _ _ => trivial

theorem Inv.reader (h : Inv stream s) (t : ι) (c : RarReader)
    (hthread : s'.thread = Function.update s.thread t c) (hcount : s.count ≤ s'.count)
    (hstreams : ∀ sid < s'.count, (s'.session sid).Streams (stream (s'.session sid).headerOff))
    (hcached : ∀ sid ∈ s'.sessions, sid < s'.count)
    (hhead : ∀ sid < s.count, (s'.session sid).headerOff = (s.session sid).headerOff)
    (hown : ∀ u ≠ t, ∀ sid < s.count, s.readLock sid = some u →
      s'.readLock sid = some u ∧ (s'.session sid).consumed = (s.session sid).consumed)
    (hc : ReaderOk stream s' t c) : Inv stream s' := by
  refine ⟨hstreams, hcached, fun u => ?_⟩
  rw [hthread]
  by_cases hut : u = t
  · subst hut
    rwa [Function.update_self]
  · rw [Function.update_of_ne hut]
    exact (h.readers u).frame hcount hhead (hown u hut)

theorem Inv.worker (h : Inv stream s) {sid : ℕ} (hsid : sid < s.count) {r : RarSession}
    (hr : r.Streams (stream (s.session sid).headerOff) ∧ r.consumed = (s.session sid).consumed ∧
      r.headerOff = (s.session sid).headerOff) : Inv stream (s.setSession sid r) := by
  obtain ⟨hstreams, hconsumed, hhead⟩ := hr
  have hsession : ∀ i, ((s.setSession sid r).session i).consumed = (s.session i).consumed ∧
      ((s.setSession sid r).session i).headerOff = (s.session i).headerOff := by
    intro i
    by_cases hi : i = sid
    · subst hi
      simp only [setSession, Function.update_self]
      exact ⟨hconsumed, hhead⟩
    · simp only [setSession, Function.update_of_ne hi, and_self]
  refine ⟨fun i hi => ?_, h.cached, fun t => ?_⟩
  · rw [(hsession i).2]
    by_cases his : i = sid
    · subst his
      simp only [setSession, Function.update_self]
      exact hstreams
    · simp only [setSession, Function.update_of_ne his]
      exact h.streams i hi
  · exact (h.readers t).frame (Nat.le_refl _) (fun i _ => (hsession i).2)
      fun i _ hlock => ⟨hlock, (hsession i).1⟩

/-! ## The readers -/

theorem Inv.extract (h : Inv stream s) {t : ι} {e : RarEntry} {off len : ℕ}
    (hs : s.extract t e off len = some s') : Inv stream s' := by
  have hgoto : ∀ c, ReaderOk stream s t c → Inv stream (s.goto t c) := fun c hc =>
    h.reader t c rfl (Nat.le_refl _) h.streams h.cached (fun _ _ => rfl)
      (fun _ _ _ _ hlock => ⟨hlock, rfl⟩) (hc.frame (Nat.le_refl _) (fun _ _ => rfl)
      fun _ _ hlock => ⟨hlock, rfl⟩)
  rw [RarState.extract] at hs
  split at hs
  all_goals try cases hs
  all_goals
    split_ifs at hs
    · obtain rfl := Option.some.inj hs
      exact hgoto _ ⟨rfl, by simp⟩
    · obtain rfl := Option.some.inj hs
      exact hgoto _ trivial

theorem mem_cache {sid : ℕ} {sessions : List ℕ} {x : ℕ} (hx : x ∈ cache sid sessions) : x = sid ∨ x ∈ sessions := by
  unfold cache at hx
  split_ifs at hx
  · exact List.mem_cons.mp (List.dropLast_subset _ hx)
  · exact List.mem_cons.mp hx

theorem bestSession_mem {headerOff pos : ℕ → ℕ} {extra off : ℕ} {sessions : List ℕ} {b : ℕ × ℕ}
    (h : bestSession headerOff pos extra off sessions = some b) : b.1 ∈ sessions ∧ headerOff b.1 = extra := by
  have hgo : ∀ (l : List ℕ) (best : Option (ℕ × ℕ)), l ⊆ sessions →
      (∀ b ∈ best, b.1 ∈ sessions ∧ headerOff b.1 = extra) →
      ∀ b ∈ l.foldl (fun best sid =>
        if headerOff sid ≠ extra then best
        else if pos sid ≤ off ∧ (best.all fun b => b.2 ≤ pos sid) then some (sid, pos sid)
        else best) best, b.1 ∈ sessions ∧ headerOff b.1 = extra := by
    intro l
    induction l with
    | nil => exact fun best _ hbest => hbest
    | cons sid l ih =>
      intro best hsub hbest
      rw [List.foldl_cons]
      refine ih _ (List.subset_of_cons_subset hsub) ?_
      split_ifs with hne hpos
      · exact hbest
      · rintro _ ⟨⟩
        exact ⟨hsub List.mem_cons_self, not_not.mp hne⟩
      · exact hbest
  exact hgo sessions none (List.Subset.refl _) (by rintro _ ⟨⟩) b h

theorem streams_startSession (h : Inv stream s) (extra : ℕ) :
    ∀ sid < s.count + 1, ((s.startSession extra).session sid).Streams
      (stream ((s.startSession extra).session sid).headerOff) := by
  intro sid hsid
  by_cases hlast : sid = s.count
  · subst hlast
    simp only [startSession, Function.update_self]
    exact RarSession.Streams.start _
  · simp only [startSession, Function.update_of_ne hlast]
    exact h.streams sid (by omega)

theorem startSession_self (extra : ℕ) : (s.startSession extra).session s.count = .start extra := Function.update_self ..

theorem startSession_of_lt (extra : ℕ) {sid : ℕ} (hsid : sid < s.count) :
    (s.startSession extra).session sid = s.session sid :=
  Function.update_of_ne (Nat.ne_of_lt hsid) ..

theorem Inv.acquire (h : Inv stream s) {t : ι} {pos : ℕ → ℕ} (hs : s.acquire t pos = some s') : Inv stream s' := by
  have hfresh : ∀ (extra : ℕ), ∀ sid ∈ cache s.count s.sessions, sid < s.count + 1 := by
    intro _ sid hsid
    rcases mem_cache hsid with rfl | hsid
    · exact Nat.lt_succ_self _
    · exact Nat.lt_succ_of_lt (h.cached sid hsid)
  rw [RarState.acquire] at hs
  split at hs
  case h_1 e off len n ht =>
    split_ifs at hs with hn hpos
    · split at hs
      case h_1 sid p hbest =>
        obtain rfl := Option.some.inj hs
        obtain ⟨hmem, hextra⟩ := bestSession_mem hbest
        have hsid := h.cached sid hmem
        refine h.reader t _ rfl (Nat.le_refl _) h.streams (fun x hx => ?_) (fun _ _ => rfl)
          (fun _ _ _ _ hlock => ⟨hlock, rfl⟩) ⟨hsid, hextra⟩
        rcases mem_cache hx with rfl | hx
        · exact hsid
        · exact h.cached x (List.mem_of_mem_erase hx)
      case h_2 =>
        -- No session of the entry is behind `off`: a decode of its own.
        obtain rfl := Option.some.inj hs
        refine h.reader t _ rfl (Nat.le_succ _) (streams_startSession h e.extra)
          (hfresh e.extra) (fun sid hsid => congrArg _ (startSession_of_lt e.extra hsid))
          (fun _ _ sid hsid hlock => ⟨hlock, congrArg _ (startSession_of_lt e.extra hsid)⟩)
          ⟨Nat.lt_succ_self _, ?_⟩
        exact congrArg RarSession.headerOff (startSession_self e.extra)
    · obtain rfl := Option.some.inj hs
      refine h.reader t _ rfl (Nat.le_succ _) (streams_startSession h e.extra)
        (hfresh e.extra) (fun sid hsid => congrArg _ (startSession_of_lt e.extra hsid))
        (fun _ _ sid hsid hlock => ⟨?_, congrArg _ (startSession_of_lt e.extra hsid)⟩)
        ⟨Nat.lt_succ_self _, ?_, Function.update_self .., ?_⟩
      · exact (Function.update_of_ne (Nat.ne_of_lt hsid) ..).trans hlock
      · exact congrArg RarSession.headerOff (startSession_self e.extra)
      · show RarSession.Taken _ ((s.startSession e.extra).session s.count) _ _ _
        rw [startSession_self]
        exact ⟨Nat.zero_le _, fun i hi => absurd hi (Nat.not_lt_zero _)⟩
  case h_2 => cases hs

theorem readLock_update {t u : ι} (hut : u ≠ t) {sid i : ℕ} {o : Option ι}
    (hfree : s.readLock sid = none ∨ s.readLock sid = some t) (hlock : s.readLock i = some u) :
    Function.update s.readLock sid o i = some u := by
  rw [Function.update_of_ne, hlock]
  rintro rfl
  rw [hlock] at hfree
  rcases hfree with hfree | hfree
  · cases hfree
  · exact hut (Option.some.inj hfree)

theorem Inv.lockStep (h : Inv stream s) {t : ι} (hs : s.lockStep t = some s') : Inv stream s' := by
  rw [RarState.lockStep] at hs
  split at hs
  case h_1 e off len n sid ht =>
    rw [Option.ite_none_right_eq_some] at hs
    obtain ⟨hfree, hs⟩ := hs
    obtain rfl := Option.some.inj hs
    have hok := h.readers t
    rw [ht] at hok
    exact h.reader t _ rfl (Nat.le_refl _) h.streams h.cached (fun _ _ => rfl)
      (fun u hut i _ hlock => ⟨readLock_update hut (.inl hfree) hlock, rfl⟩)
      ⟨hok.1, hok.2, Function.update_self ..⟩
  case h_2 => cases hs

theorem Inv.checkStep (h : Inv stream s) {t : ι} (hs : s.checkStep t = some s') : Inv stream s' := by
  rw [RarState.checkStep] at hs
  split at hs
  case h_1 e off len n sid ht =>
    have hok := h.readers t
    rw [ht] at hok
    obtain ⟨hsid, hextra, hlock⟩ := hok
    split_ifs at hs with hpast
    · obtain rfl := Option.some.inj hs
      exact h.reader t _ rfl (Nat.le_refl _) h.streams h.cached (fun _ _ => rfl)
        (fun u hut i _ hu => ⟨readLock_update hut (.inr hlock) hu, rfl⟩) trivial
    · obtain rfl := Option.some.inj hs
      refine h.reader t _ rfl (Nat.le_refl _) h.streams h.cached (fun _ _ => rfl)
        (fun _ _ _ _ hu => ⟨hu, rfl⟩) ⟨hsid, hextra, hlock, ?_, fun i hi => ?_⟩
      · exact Nat.le_trans (Nat.not_lt.mp hpast) (Nat.le_add_right _ _)
      · -- Nothing behind `off` is consumed yet.
        exact absurd (Nat.lt_of_le_of_lt (Nat.le_add_right _ _) hi) hpast
  case h_2 => cases hs

theorem Inv.consumeStep (h : Inv stream s) {t : ι} (hs : s.consumeStep t = some s') : Inv stream s' := by
  rw [RarState.consumeStep] at hs
  split at hs
  case h_1 e off len sid out ht =>
    have hok := h.readers t
    rw [ht] at hok
    obtain ⟨hsid, hextra, hlock, htaken⟩ := hok
    have hstreams := h.streams sid hsid
    rw [hextra] at hstreams
    obtain ⟨turn, hturn, rfl⟩ := Option.map_eq_some_iff.mp hs
    -- The return gives up the `read_lock`.
    have hreturn : ∀ result, ReaderOk stream s t (.returned e off len result) →
        Inv stream ({ s with readLock := Function.update s.readLock sid none }.goto t
          (.returned e off len result)) := by
      intro result hresult
      refine h.reader t _ rfl (Nat.le_refl _) h.streams h.cached (fun _ _ => rfl)
        (fun u hut i _ hu => ⟨readLock_update hut (.inr hlock) hu, rfl⟩) ?_
      cases result with
      | none => trivial
      | some out => exact hresult
    cases turn with
    | fail => exact hreturn none trivial
    | success =>
      refine hreturn _ ⟨by rw [List.length_map, List.length_range], ?_⟩
      have hall := htaken.all hturn
      apply List.ext_getElem?
      intro i
      by_cases hi : i < len
      · rw [List.getElem?_map, List.getElem?_range hi, Option.map_some, hall i hi,
          List.getElem?_take_of_lt hi, List.getElem?_drop]
      · rw [List.getElem?_eq_none (by rw [List.length_map, List.length_range]; omega),
          List.getElem?_take_eq_none (by omega)]
    | again r out' =>
      obtain ⟨hr, hhead, htaken'⟩ := hstreams.consumeStep htaken hturn
      have hof : ∀ i, i ≠ sid → (Function.update s.session sid r) i = s.session i :=
        fun i hi => Function.update_of_ne hi ..
      have hself : (Function.update s.session sid r) sid = r := Function.update_self ..
      have hheads : ∀ i, ((Function.update s.session sid r) i).headerOff =
          (s.session i).headerOff := by
        intro i
        by_cases hi : i = sid
        · rw [hi, hself, hhead]
        · rw [hof i hi]
      refine h.reader t (.consume e off len sid out') rfl (Nat.le_refl _) (fun i hi => ?_) h.cached
        (fun i _ => hheads i) (fun u hut i _ hu => ⟨hu, ?_⟩) ⟨hsid, ?_, hlock, ?_⟩
      · show ((Function.update s.session sid r) i).Streams _
        by_cases his : i = sid
        · subst his
          show ((Function.update s.session i r) i).Streams
            (stream ((Function.update s.session i r) i).headerOff)
          rw [hheads, hextra, hself]
          exact hr
        · show ((Function.update s.session sid r) i).Streams
            (stream ((Function.update s.session sid r) i).headerOff)
          rw [hof i his]
          exact h.streams i hi
      · -- Another reader has locked another session.
        refine congrArg RarSession.consumed (hof i ?_)
        rintro rfl
        exact hut (Option.some.inj (hu.symm.trans hlock))
      · exact (hheads sid).trans hextra
      · show RarSession.Taken _ ((Function.update s.session sid r) sid) _ _ _
        rw [hself]
        exact htaken'
  case h_2 => cases hs

/-! ## Runs -/

theorem Inv.workerStep (h : Inv stream s) {sid : ℕ} {r : Option RarSession}
    (hr : ∀ s' ∈ r, (s.session sid).Streams (stream (s.session sid).headerOff) →
      s'.Streams (stream (s.session sid).headerOff) ∧ s'.consumed = (s.session sid).consumed ∧
        s'.headerOff = (s.session sid).headerOff) (hs : s.workerStep sid r = some s') : Inv stream s' := by
  rw [RarState.workerStep, Option.ite_none_right_eq_some] at hs
  obtain ⟨hsid, hs⟩ := hs
  obtain ⟨r', hr', rfl⟩ := Option.map_eq_some_iff.mp hs
  exact h.worker hsid (hr r' hr' (h.streams sid hsid))

/-- **What every step keeps.** -/
theorem Inv.step [Fintype ι] (h : Inv stream s) {e : RarEvent ι}
    (hs : s.step stream e = some s') : Inv stream s' := by
  cases e with
  | extract t e off len => exact h.extract hs
  | acquire t pos => exact h.acquire hs
  | lock t => exact h.lockStep hs
  | check t => exact h.checkStep hs
  | consume t => exact h.consumeStep hs
  | processData sid n => exact h.workerStep (fun r hr hstreams => hstreams.processData hr) hs
  | push sid => exact h.workerStep (fun r hr hstreams => hstreams.pushStep hr) hs
  | finish sid success => exact h.workerStep (fun r hr hstreams => hstreams.finish hr) hs
  | destroy sid =>
    rw [RarState.step, RarState.destroy, Option.ite_none_right_eq_some] at hs
    obtain ⟨⟨hsid, -⟩, hs⟩ := hs
    obtain rfl := Option.some.inj hs
    exact h.worker hsid ⟨(h.streams sid hsid).stop, rfl, rfl⟩

/-- **The sessions deliver their streams.** In every interleaving of readers, workers and
destructors, the counters of a session stay a ring apart, a session drains its stream in order, and a
read that succeeds has the bytes of the entry at its offset. -/
theorem rar_sessions_sound [Fintype ι] (stream : ℕ → List UInt8) (ls : List (RarEvent ι)) :
    (system ι stream).Always (Sound stream) RarState.init ls :=
  (system ι stream).always_of_invariant (fun _ _ _ h _ hs => Inv.step h hs) (fun _ h => h.sound)
    Inv.init ((system ι stream).meets_true _ _)

end RarState

end Prosperity.Formats
