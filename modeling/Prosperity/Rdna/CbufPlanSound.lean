import Prosperity.Rdna.BindingPlansSound

/-!
# What the windows of RDNA scalar loads tell apart

`RdnaPlanCbufs` names the buffer of a scalar load by a key: the last writes of the registers that hold its
descriptor, or a hash of the table entry that a load of four dwords took it from. The hash leaves out the
offset register of that load, and the map from quads to hashes keeps some that are written.
-/

namespace Prosperity.Rdna

open Gcn (Enc ScalarMemory)

/-! ## Scalar loads -/

/-- An instruction that `RdnaPlanCbufs` looks at. -/
def isCbufLoad (inst : Inst) : Bool := isSbufload inst || isSload inst

section Loads

variable {inst : Inst}

theorem isCbufLoad_iff : isCbufLoad inst = true ↔ isSbufload inst = true ∨ isSload inst = true := by
  simp [isCbufLoad]

theorem enc_of_isCbufLoad (h : isCbufLoad inst = true) : inst.enc = .kSmrd := by
  rcases isCbufLoad_iff.mp h with h | h
  · simp only [isSbufload, Bool.and_eq_true, decide_eq_true_eq] at h
    exact h.1.1
  · simp only [isSload, Bool.and_eq_true, decide_eq_true_eq] at h
    exact h.1

theorem count_of_isCbufLoad (h : isCbufLoad inst = true) :
    0 < smemLoadCount inst.opcode ∧ smemLoadCount inst.opcode ≤ 16 := by
  have hop : inst.opcode ≤ 0x04 ∨ (0x08 ≤ inst.opcode ∧ inst.opcode ≤ 0x0C) := by
    rcases isCbufLoad_iff.mp h with h | h
    · simp only [isSbufload, Bool.and_eq_true, decide_eq_true_eq] at h
      exact .inr ⟨h.1.2, h.2⟩
    · simp only [isSload, Bool.and_eq_true, decide_eq_true_eq] at h
      exact .inl h.2
  rcases hop with hle | ⟨hge, hle⟩
  · interval_cases inst.opcode <;> decide
  · interval_cases inst.opcode <;> decide

theorem smemDwords_le (inst : Inst) : smemDwords inst ≤ 4 := by
  unfold smemDwords
  split <;> decide

theorem isSload_dwords (h : isSload inst = true) : smemDwords inst = 2 := by
  simp only [isSload, Bool.and_eq_true, decide_eq_true_eq] at h
  unfold smemDwords
  rw [if_neg (by omega)]

end Loads

/-! ## Keys -/

section Keys

variable {P : ListedProgram} {u v : ℕ} {a b : Inst}

/-- **An address has the key of its load.** -/
theorem bufferVersionKeys_pc (ha : P.insts[u]? = some a) (hload : isCbufLoad a = true) :
    bufferVersionKeys P.insts a.pc = some (bufferVersionKey P.insts u a) := by
  have hmem : (a, u) ∈ P.insts.zipIdx := List.mem_zipIdx_iff_getElem?.mpr ha
  have hsat : (a.pc = a.pc && a.enc = .kSmrd && smemLoadCount a.opcode ≠ 0 : Bool) = true := by
    have hcount := (count_of_isCbufLoad hload).1
    simp [enc_of_isCbufLoad hload, Nat.pos_iff_ne_zero.mp hcount]
  unfold bufferVersionKeys
  generalize hfind : List.find? _ P.insts.zipIdx = first
  cases first with
  | none => exact absurd hsat (List.find?_eq_none.mp hfind _ hmem)
  | some found =>
    obtain ⟨b, v⟩ := found
    have hb : P.insts[v]? = some b := List.mem_zipIdx_iff_getElem?.mp (List.mem_of_find?_eq_some hfind)
    have hpc := List.find?_some hfind
    simp only [Bool.and_eq_true, decide_eq_true_eq] at hpc
    obtain rfl := P.index_eq hb ha hpc.1.1
    obtain rfl := Option.some.inj (hb.symm.trans ha)
    rfl

end Keys

def packed (fields : ℕ → ℕ) (low n : ℕ) : ℕ :=
  (List.range n).foldl (fun key i => key ||| (fields i <<< (8 + i * 13)) % 2 ^ 64) low

section Packed

variable {f g : ℕ → ℕ} {l m n : ℕ}

theorem packed_succ (hf : ∀ i, f i < 2 ^ 13) (hn : n < 4) :
    packed f l (n + 1) = packed f l n ||| f n <<< (8 + n * 13) := by
  have hfits : f n <<< (8 + n * 13) < 2 ^ 64 := by
    rw [Nat.shiftLeft_eq]
    calc f n * 2 ^ (8 + n * 13) < 2 ^ 13 * 2 ^ (8 + n * 13) :=
          Nat.mul_lt_mul_of_pos_right (hf n) (Nat.two_pow_pos _)
      _ = 2 ^ (13 + (8 + n * 13)) := (Nat.pow_add ..).symm
      _ ≤ 2 ^ 64 := Nat.pow_le_pow_right (by decide) (by omega)
  unfold packed
  rw [List.range_succ, List.foldl_append, List.foldl_cons, List.foldl_nil, Nat.mod_eq_of_lt hfits]

theorem packed_lt (hf : ∀ i, f i < 2 ^ 13) (hl : l < 2 ^ 8) (hn : n ≤ 4) : packed f l n < 2 ^ (8 + n * 13) := by
  induction n with
  | zero => exact hl
  | succ n ih =>
    rw [packed_succ hf hn]
    have hput := or_shiftLeft_lt (ih (Nat.le_of_lt hn)) (hf n)
    rwa [show 13 + (8 + n * 13) = 8 + (n + 1) * 13 by omega] at hput

/-- **What is put together can be read back.** -/
theorem packed_inj (hf : ∀ i, f i < 2 ^ 13) (hg : ∀ i, g i < 2 ^ 13) (hl : l < 2 ^ 8) (hm : m < 2 ^ 8)
    (hn : n ≤ 4) (h : packed f l n = packed g m n) : l = m ∧ ∀ i < n, f i = g i := by
  induction n with
  | zero => exact ⟨h, fun i hi => absurd hi (Nat.not_lt_zero i)⟩
  | succ n ih =>
    rw [packed_succ hf hn, packed_succ hg hn] at h
    obtain ⟨htop, hrest⟩ := or_shiftLeft_injective (packed_lt hf hl (Nat.le_of_lt hn))
      (packed_lt hg hm (Nat.le_of_lt hn)) h
    obtain ⟨heq, hbelow⟩ := ih (Nat.le_of_lt hn) hrest
    refine ⟨heq, ?_⟩
    intro i hi
    rcases Nat.lt_or_eq_of_le (Nat.le_of_lt_succ hi) with hlt | rfl
    · exact hbelow i hlt
    · exact htop

theorem packed_pad (f : ℕ → ℕ) (l : ℕ) : packed f l 2 = packed (fun i => if i < 2 then f i else 0) l 4 := by
  simp [packed, List.range_succ]

end Packed

section Keys

variable {program : Program} {u v : ℕ} {a b : Inst}

theorem sbase_lt (inst : Inst) : (decodeSmem inst).sbase < 2 ^ 7 := by
  have hand : inst.word0 &&& 0x3F ≤ 0x3F := Nat.and_le_right
  change (inst.word0 &&& 0x3F) * 2 < 2 ^ 7
  omega

def keyFlag (inst : Inst) : ℕ := if smemDwords inst = 4 then 1 else 0

theorem keyFlag_lt (inst : Inst) : keyFlag inst < 2 ^ 1 := by
  unfold keyFlag
  split <;> decide

theorem smemDwords_eq (h : keyFlag a = keyFlag b) : smemDwords a = smemDwords b := by
  unfold keyFlag smemDwords at *
  split_ifs at * <;> simp_all

theorem bufferVersionKey_eq (program : Program) (k : ℕ) (inst : Inst) : bufferVersionKey program k inst =
      packed (fun i => if i < smemDwords inst then bufferVersion program k ((decodeSmem inst).sbase + i) else 0)
        ((decodeSmem inst).sbase ||| keyFlag inst <<< 7) 4 := by
  change packed _ _ (smemDwords inst) = _
  by_cases hbuffer : inst.opcode ≥ 0x08
  · have hfour : smemDwords inst = 4 := if_pos hbuffer
    rw [hfour]
    simp [packed, List.range_succ, keyFlag, hfour]
  · have htwo : smemDwords inst = 2 := if_neg hbuffer
    rw [htwo, packed_pad]
    simp [keyFlag, htwo]

/-- **Equal keys name the same registers, each with the same last write.** -/
theorem bufferVersionKey_inj (hshort : program.length < 2 ^ 13) (hu : u ≤ program.length)
    (hv : v ≤ program.length) (h : bufferVersionKey program u a = bufferVersionKey program v b) :
    (decodeSmem a).sbase = (decodeSmem b).sbase ∧ smemDwords a = smemDwords b ∧
      ∀ i < smemDwords a, bufferVersion program u ((decodeSmem a).sbase + i) =
        bufferVersion program v ((decodeSmem a).sbase + i) := by
  have hfield : ∀ (k : ℕ) (inst : Inst), k ≤ program.length → ∀ i,
      (if i < smemDwords inst then bufferVersion program k ((decodeSmem inst).sbase + i) else 0) < 2 ^ 13 := by
    intro k inst hk i
    have hle : bufferVersion program k ((decodeSmem inst).sbase + i) ≤ k := stamp_le _ _
    split
    · omega
    · decide
  have hlow : ∀ inst : Inst, (decodeSmem inst).sbase ||| keyFlag inst <<< 7 < 2 ^ 8 := fun inst =>
    or_shiftLeft_lt (sbase_lt inst) (keyFlag_lt inst)
  rw [bufferVersionKey_eq, bufferVersionKey_eq] at h
  obtain ⟨hbytes, hfields⟩ := packed_inj (hfield u a hu) (hfield v b hv) (hlow a) (hlow b) (Nat.le_refl 4) h
  obtain ⟨hflag, hbase⟩ := or_shiftLeft_injective (sbase_lt a) (sbase_lt b) hbytes
  have hdwords := smemDwords_eq hflag
  refine ⟨hbase, hdwords, ?_⟩
  intro i hi
  have hi' := hfields i (Nat.lt_of_lt_of_le hi (smemDwords_le a))
  rw [if_pos hi, if_pos (hdwords ▸ hi), ← hbase] at hi'
  exact hi'

end Keys

/-! ## Quads -/

section Quads

variable {P : ListedProgram} {program : Program} {first limit j k u s hash : ℕ} {inst a : Inst}
  {plan plan' : CbufPlan}

/-- A load of four dwords to the registers from `s` on, which `desc_src` notes. -/
def isQuadLoad (inst : Inst) (s : ℕ) : Bool :=
  isSload inst && smemLoadCount inst.opcode = 4 && (decodeSmem inst).sdst = s

/-- A load that reads data: the others are a descriptor's or the base of a load. -/
def isLeaf (program : Program) (k : ℕ) (inst : Inst) : Bool :=
  isCbufLoad inst && !isDescriptorFetch program inst && !isBaseLoad program k inst

theorem isCbufLoad_of_isLeaf (h : isLeaf program k inst = true) : isCbufLoad inst = true := by
  simp only [isLeaf, Bool.and_eq_true] at h
  exact h.1.1

/-- The instruction takes the quad `s` out of `desc_src`. -/
def dropsQuad (program : Program) (k : ℕ) (inst : Inst) (s : ℕ) : Bool :=
  if inst.enc ≠ .kSmrd then
    (decodeScalarWrite inst).2 ≠ 0 && overlaps s 4 (decodeScalarWrite inst).1 (decodeScalarWrite inst).2
  else
    (isLeaf program k inst || (isSload inst && smemLoadCount inst.opcode = 4)) &&
      overlaps s 4 (decodeSmem inst).sdst (smemLoadCount inst.opcode)

/-- `desc_src` keeps from the load `j` up to `k` what it notes of the quad `s`. -/
def KeepsQuad (program : Program) (j k s : ℕ) : Prop :=
  ∀ i b, j < i → i < k → program[i]? = some b → dropsQuad program i b s = false

/-- What `desc_src` has of the first `k` instructions. -/
def QuadInv (program : Program) (k : ℕ) (src : ℕ → Option ℕ) : Prop :=
  ∀ s hash, src s = some hash → ∃ j inst, j < k ∧ program[j]? = some inst ∧ isQuadLoad inst s = true ∧
    isLeaf program j inst = false ∧ hash = descHash (bufferVersionKey program j inst) inst ∧ KeepsQuad program j k s

theorem invalidateDescSrc_some {src : ℕ → Option ℕ} {write : ℕ × ℕ} (h : invalidateDescSrc src write s = some hash) :
    src s = some hash ∧ (write.2 ≠ 0 → overlaps s 4 write.1 write.2 = false) := by
  unfold invalidateDescSrc at h
  split at h
  · rename_i hzero
    exact ⟨h, fun hne => absurd hzero hne⟩
  · obtain ⟨hthere, hclean⟩ := Option.filter_eq_some_iff.mp h
    exact ⟨hthere, fun _ => by simpa using hclean⟩

theorem noteQuad_some {key : ℕ} (h : (noteQuad key inst plan).descSrc s = some hash) :
    (isQuadLoad inst s = true ∧ hash = descHash key inst) ∨
      (plan.descSrc s = some hash ∧ ((isSload inst && smemLoadCount inst.opcode = 4) = true →
        overlaps s 4 (decodeSmem inst).sdst (smemLoadCount inst.opcode) = false)) := by
  unfold noteQuad at h
  split at h
  · rename_i hquad
    dsimp only at h
    by_cases hs : s = (decodeSmem inst).sdst
    · subst hs
      rw [Function.update_self] at h
      exact .inl ⟨by simp [isQuadLoad, hquad], (Option.some.inj h).symm⟩
    · rw [Function.update_of_ne hs] at h
      obtain ⟨hthere, hclean⟩ := invalidateDescSrc_some h
      refine .inr ⟨hthere, fun _ => ?_⟩
      rw [hquad.2]
      exact hclean (Nat.succ_ne_zero 3)
  · rename_i hquad
    refine .inr ⟨h, fun hyes => absurd ?_ hquad⟩
    simpa using hyes

structure Joined (plan plan' : CbufPlan) (key lo hi binding : ℕ) : Prop where
  mem : binding ∈ plan.byDescriptor key
  fits : max (plan.span binding).2 hi - min (plan.span binding).1 lo ≤ kCbufDwords
  byDescriptor : plan'.byDescriptor = plan.byDescriptor
  span : plan'.span = (plan.widen binding lo hi).span
  cbufs : plan'.cbufs = (plan.widen binding lo hi).cbufs

structure Opened (plan plan' : CbufPlan) (key lo hi binding : ℕ) : Prop where
  byDescriptor : plan'.byDescriptor = Function.update plan.byDescriptor key (plan.byDescriptor key ++ [binding])
  span : plan'.span = Function.update plan.span binding (lo, hi)
  cbufs : ∃ cb : ShaderCbuf, cb.binding = binding ∧ cb.firstDword = lo ∧ cb.numDwords = hi - lo ∧
    plan'.cbufs = plan.cbufs ++ [cb]

/-- **What a load that reads data does to the plan.** -/
theorem cbufLeaf_cases {key : ℕ} (h : cbufLeaf first limit key inst plan = some plan') :
    ∃ binding, plan'.byPc = Function.update plan.byPc inst.pc (some binding) ∧ plan'.descSrc =
        invalidateDescSrc plan.descSrc ((decodeSmem inst).sdst, smemLoadCount inst.opcode) ∧
      (Joined plan plan' (plan.keyOf key inst) (cbufLo inst) (cbufHi inst) binding ∨
        (binding = first + plan.cbufs.length ∧
          Opened plan plan' (plan.keyOf key inst) (cbufLo inst) (cbufHi inst) binding)) := by
  unfold cbufLeaf at h
  dsimp only at h
  generalize traceCbufChain plan.loads 3 (decodeSmem inst).sbase [] = trace at h
  obtain ⟨root, chain⟩ := trace
  dsimp only at h
  cases hfind : (plan.byDescriptor (plan.keyOf key inst)).find? fun b =>
      max (plan.span b).2 (cbufHi inst) - min (plan.span b).1 (cbufLo inst) ≤ kCbufDwords with
  | some binding =>
    rw [hfind] at h
    obtain rfl := Option.some.inj h
    exact ⟨binding, rfl, rfl, .inl ⟨List.mem_of_find?_eq_some hfind, by simpa using List.find?_some hfind,
      rfl, rfl, rfl⟩⟩
  | none =>
    rw [hfind] at h
    dsimp only at h
    split at h
    · cases h
    · obtain rfl := Option.some.inj h
      exact ⟨_, rfl, rfl, .inr ⟨rfl, rfl, rfl, _, rfl, rfl, rfl, rfl⟩⟩

theorem cbufTurn_descSrc (hget : P.insts[k]? = some inst)
    (h : cbufTurn P.insts first limit k inst plan = some plan') (hsome : plan'.descSrc s = some hash) :
    (isQuadLoad inst s = true ∧ isLeaf P.insts k inst = false ∧
        hash = descHash (bufferVersionKey P.insts k inst) inst) ∨
      (plan.descSrc s = some hash ∧ dropsQuad P.insts k inst s = false) := by
  unfold cbufTurn at h
  dsimp only at h
  split at h
  · -- no scalar memory access: the range of `DecodeScalarWrite`
    rename_i henc
    obtain rfl := Option.some.inj h
    obtain ⟨hthere, hclean⟩ := invalidateDescSrc_some hsome
    refine .inr ⟨hthere, ?_⟩
    unfold dropsQuad
    rw [if_pos henc]
    simpa using hclean
  · rename_i henc
    split at h
    · -- no load
      rename_i hload
      obtain rfl := Option.some.inj h
      have hnot : isCbufLoad inst = false := by
        rw [← isCbufLoad_iff] at hload
        simpa using hload
      have hsload : isSload inst = false := by
        have := hload
        simp only [not_or, Bool.not_eq_true] at this
        exact this.2
      refine .inr ⟨hsome, ?_⟩
      simp [dropsQuad, henc, isLeaf, hnot, hsload]
    · rename_i hload
      have hcbuf : isCbufLoad inst = true := isCbufLoad_iff.mpr (not_not.mp hload)
      rw [bufferVersionKeys_pc hget hcbuf, Option.getD_some] at h
      -- a load that reads no data leaves what its note leaves
      have hnoted : isLeaf P.insts k inst = false →
          (noteQuad (bufferVersionKey P.insts k inst) inst plan).descSrc s = some hash →
          (isQuadLoad inst s = true ∧ isLeaf P.insts k inst = false ∧
              hash = descHash (bufferVersionKey P.insts k inst) inst) ∨
            (plan.descSrc s = some hash ∧ dropsQuad P.insts k inst s = false) := by
        intro hleaf hnote
        refine (noteQuad_some hnote).imp (fun hnew => ⟨hnew.1, hleaf, hnew.2⟩) fun hold => ⟨hold.1, ?_⟩
        unfold dropsQuad
        rw [if_neg henc, hleaf, Bool.false_or]
        simpa using hold.2
      split at h
      · rename_i hfetch
        obtain rfl := Option.some.inj h
        exact hnoted (by simp [isLeaf, hfetch]) hsome
      · split at h
        · cases h
        · split at h
          · rename_i hbase
            obtain rfl := Option.some.inj h
            exact hnoted (by simp [isLeaf, hbase]) hsome
          · obtain ⟨binding, -, hsrc, -⟩ := cbufLeaf_cases h
            rw [hsrc] at hsome
            obtain ⟨hthere, hclean⟩ := invalidateDescSrc_some hsome
            have hcount := (count_of_isCbufLoad hcbuf).1
            have hapart := hclean (Nat.pos_iff_ne_zero.mp hcount)
            rcases noteQuad_some hthere with ⟨hquad, -⟩ | ⟨hold, -⟩
            · -- the write of the load itself drops what it noted
              simp only [isQuadLoad, Bool.and_eq_true, decide_eq_true_eq] at hquad
              rw [hquad.2] at hapart
              simp only [overlaps, Bool.and_eq_false_iff, decide_eq_false_iff_not] at hapart
              omega
            · refine .inr ⟨hold, ?_⟩
              unfold dropsQuad
              rw [if_neg henc, hapart, Bool.and_false]

theorem QuadInv.turn (hinv : QuadInv P.insts k plan.descSrc) (hget : P.insts[k]? = some inst)
    (h : cbufTurn P.insts first limit k inst plan = some plan') : QuadInv P.insts (k + 1) plan'.descSrc := by
  intro s hash hsome
  rcases cbufTurn_descSrc hget h hsome with ⟨hquad, hleaf, hhash⟩ | ⟨hthere, hkept⟩
  · exact ⟨k, inst, Nat.lt_succ_self k, hget, hquad, hleaf, hhash, fun i b hki hik _ => by omega⟩
  · obtain ⟨j, a, hj, ha, hquad, hleaf, hhash, hbefore⟩ := hinv s hash hthere
    refine ⟨j, a, Nat.lt_succ_of_lt hj, ha, hquad, hleaf, hhash, ?_⟩
    intro i b hji hik hb
    rcases Nat.lt_or_eq_of_le (Nat.le_of_lt_succ hik) with hlt | rfl
    · exact hbefore i b hji hlt hb
    · obtain rfl := Option.some.inj (hb.symm.trans hget)
      exact hkept

/-- The load `u` that reads data names a quad which `desc_src` has from the load `j`. A load to its own
base has itself. -/
structure Origin (program : Program) (j : ℕ) (maker : Inst) (u : ℕ) (inst : Inst) : Prop where
  made : program[j]? = some maker
  used : program[u]? = some inst
  leaf : isLeaf program u inst = true
  quad : isQuadLoad maker (decodeSmem inst).sbase = true
  earlier : j = u ∨ (j < u ∧ isLeaf program j maker = false)
  kept : KeepsQuad program j u (decodeSmem inst).sbase

def Keyed (program : Program) (u : ℕ) (inst : Inst) (key : ℕ) : Prop :=
  key = bufferVersionKey program u inst ∨
    ∃ j a, Origin program j a u inst ∧ key = descHash (bufferVersionKey program j a) a

theorem QuadInv.keyed (hinv : QuadInv P.insts k plan.descSrc) (hget : P.insts[k]? = some inst)
    (hleaf : isLeaf P.insts k inst = true) : Keyed P.insts k inst
      ((noteQuad (bufferVersionKey P.insts k inst) inst plan).keyOf (bufferVersionKey P.insts k inst) inst) := by
  unfold CbufPlan.keyOf
  cases hsrc : (noteQuad (bufferVersionKey P.insts k inst) inst plan).descSrc (decodeSmem inst).sbase with
  | none => exact .inl rfl
  | some hash =>
    rw [Option.getD_some]
    rcases noteQuad_some hsrc with ⟨hquad, rfl⟩ | ⟨hthere, -⟩
    · exact .inr ⟨k, inst, ⟨hget, hget, hleaf, hquad, .inl rfl, fun i b hki hik _ => by omega⟩, rfl⟩
    · obtain ⟨j, a, hj, ha, hquad, hother, rfl, hbefore⟩ := hinv _ _ hthere
      exact .inr ⟨j, a, ⟨ha, hget, hleaf, hquad, .inr ⟨hj, hother⟩, hbefore⟩, rfl⟩

end Quads

/-! ## Windows -/

section Windows

variable {P : ListedProgram} {program : Program} {first limit k u s key lo hi binding : ℕ} {inst a : Inst}
  {plan plan' : CbufPlan}

structure TableInv (first : ℕ) (plan : CbufPlan) : Prop where
  apart : ∀ key key' b, b ∈ plan.byDescriptor key → b ∈ plan.byDescriptor key' → key = key'
  bound : ∀ key b, b ∈ plan.byDescriptor key → first ≤ b ∧ b < first + plan.cbufs.length
  numbered : ∀ i cb, plan.cbufs[i]? = some cb → cb.binding = first + i
  windows : ∀ cb ∈ plan.cbufs, cb.firstDword = (plan.span cb.binding).1 ∧
    cb.numDwords = (plan.span cb.binding).2 - (plan.span cb.binding).1 ∧ cb.numDwords ≤ kCbufDwords

structure Bound (program : Program) (plan : CbufPlan) (u : ℕ) (inst : Inst) (binding : ℕ) : Prop where
  leaf : isLeaf program u inst = true
  offset : isDynamic inst = false → isSload inst = true → 0 ≤ cbufOff inst
  keyed : ∃ key, binding ∈ plan.byDescriptor key ∧ Keyed program u inst key
  within : (plan.span binding).1 ≤ cbufLo inst ∧ cbufHi inst ≤ (plan.span binding).2

theorem TableInv.joined (hinv : TableInv first plan) (h : Joined plan plan' key lo hi binding) :
    TableInv first plan' := by
  obtain ⟨hmem, hfits, hby, hspan, hcbufs⟩ := h
  have hlen : plan'.cbufs.length = plan.cbufs.length := by rw [hcbufs]; exact List.length_map _
  refine ⟨?_, ?_, ?_, ?_⟩
  · rw [hby]
    exact hinv.apart
  · rw [hby, hlen]
    exact hinv.bound
  · intro i cb hcb
    rw [hcbufs, CbufPlan.widen, List.getElem?_map, Option.map_eq_some_iff] at hcb
    obtain ⟨old, hold, rfl⟩ := hcb
    rw [← hinv.numbered i old hold]
    split <;> rfl
  · intro cb hcb
    rw [hcbufs] at hcb
    obtain ⟨old, hold, rfl⟩ := List.mem_map.mp hcb
    rw [hspan]
    by_cases hb : old.binding = binding
    · -- the window of this binding is its widened span
      subst hb
      rw [if_pos rfl]
      dsimp only [CbufPlan.widen]
      rw [Function.update_self]
      exact ⟨rfl, rfl, hfits⟩
    · rw [if_neg hb]
      dsimp only [CbufPlan.widen]
      rw [Function.update_of_ne hb]
      exact hinv.windows old hold

theorem TableInv.opened (hinv : TableInv first plan)
    (h : Opened plan plan' key lo hi (first + plan.cbufs.length)) (hfits : hi - lo ≤ kCbufDwords) :
    TableInv first plan' := by
  obtain ⟨hby, hspan, new, hbinding, hfirst, hnum, hcbufs⟩ := h
  have hlen : plan'.cbufs.length = plan.cbufs.length + 1 := by rw [hcbufs]; exact List.length_append
  have hold : ∀ {key' b}, b ∈ plan'.byDescriptor key' → (b ∈ plan.byDescriptor key' ∧ b < first + plan.cbufs.length) ∨
        (key' = key ∧ b = first + plan.cbufs.length) := by
    intro key' b hb
    rw [hby] at hb
    by_cases hkey : key' = key
    · subst hkey
      rw [Function.update_self] at hb
      rcases List.mem_append.mp hb with hb | hb
      · exact .inl ⟨hb, (hinv.bound _ _ hb).2⟩
      · exact .inr ⟨rfl, List.mem_singleton.mp hb⟩
    · rw [Function.update_of_ne hkey] at hb
      exact .inl ⟨hb, (hinv.bound _ _ hb).2⟩
  refine ⟨?_, ?_, ?_, ?_⟩
  · intro key₁ key₂ b h₁ h₂
    rcases hold h₁ with ⟨h₁, hlt₁⟩ | ⟨rfl, heq₁⟩
    · rcases hold h₂ with ⟨h₂, -⟩ | ⟨-, heq₂⟩
      · exact hinv.apart _ _ b h₁ h₂
      · omega
    · rcases hold h₂ with ⟨-, hlt₂⟩ | ⟨rfl, -⟩
      · omega
      · rfl
  · intro key' b hb
    rw [hlen]
    rcases hold hb with ⟨hb, -⟩ | ⟨-, rfl⟩
    · have := hinv.bound _ _ hb
      omega
    · omega
  · intro i cb hcb
    rw [hcbufs] at hcb
    by_cases hi : i < plan.cbufs.length
    · rw [List.getElem?_append_left hi] at hcb
      exact hinv.numbered i cb hcb
    · have hlt := (List.getElem?_eq_some_iff.mp hcb).1
      rw [List.length_append, List.length_singleton] at hlt
      obtain rfl : i = plan.cbufs.length := by omega
      rw [List.getElem?_concat_length] at hcb
      obtain rfl := Option.some.inj hcb
      exact hbinding
  · intro cb hcb
    rw [hcbufs] at hcb
    rw [hspan]
    rcases List.mem_append.mp hcb with hcb | hcb
    · obtain ⟨i, hi⟩ := List.mem_iff_getElem?.mp hcb
      have hne : cb.binding ≠ first + plan.cbufs.length := by
        have hnumber := hinv.numbered i cb hi
        have hlt := (List.getElem?_eq_some_iff.mp hi).1
        omega
      rw [Function.update_of_ne hne]
      exact hinv.windows cb hcb
    · obtain rfl := List.mem_singleton.mp hcb
      rw [hbinding, Function.update_self]
      exact ⟨hfirst, hnum, hnum ▸ hfits⟩

structure Grown (plan plan' : CbufPlan) (binding : ℕ) : Prop where
  mem : ∀ key, binding ∈ plan.byDescriptor key → binding ∈ plan'.byDescriptor key
  span : (plan'.span binding).1 ≤ (plan.span binding).1 ∧ (plan.span binding).2 ≤ (plan'.span binding).2

theorem grown_iff : Grown plan plan' binding ↔
    (∀ key, binding ∈ plan.byDescriptor key → binding ∈ plan'.byDescriptor key) ∧
      (plan'.span binding).1 ≤ (plan.span binding).1 ∧ (plan.span binding).2 ≤ (plan'.span binding).2 :=
  ⟨fun h => ⟨h.mem, h.span⟩, fun h => ⟨h.1, h.2⟩⟩

theorem Bound.grown (h : Bound program plan u inst binding) (hgrown : Grown plan plan' binding) :
    Bound program plan' u inst binding := by
  obtain ⟨key, hmem, hkeyed⟩ := h.keyed
  exact ⟨h.leaf, h.offset, ⟨key, hgrown.mem key hmem, hkeyed⟩, Nat.le_trans hgrown.span.1 h.within.1,
    Nat.le_trans h.within.2 hgrown.span.2⟩

theorem Joined.grown (h : Joined plan plan' key lo hi binding) (b : ℕ) : Grown plan plan' b := by
  refine ⟨fun key' hb => by rw [h.byDescriptor]; exact hb, ?_⟩
  rw [h.span]
  by_cases hb : b = binding
  · subst hb
    dsimp only [CbufPlan.widen]
    rw [Function.update_self]
    exact ⟨Nat.min_le_left _ _, Nat.le_max_left _ _⟩
  · dsimp only [CbufPlan.widen]
    rw [Function.update_of_ne hb]
    exact ⟨Nat.le_refl _, Nat.le_refl _⟩

theorem Opened.grown (h : Opened plan plan' key lo hi binding) {b : ℕ} (hb : b ≠ binding) : Grown plan plan' b := by
  refine ⟨?_, ?_⟩
  · intro key' hmem
    rw [h.byDescriptor]
    by_cases hkey : key' = key
    · subst hkey
      rw [Function.update_self]
      exact List.mem_append_left _ hmem
    · rwa [Function.update_of_ne hkey]
  · rw [h.span, Function.update_of_ne hb]
    exact ⟨Nat.le_refl _, Nat.le_refl _⟩

/-- What `RdnaPlanCbufs` has made of the first `k` instructions. -/
structure CbufInv (program : Program) (first k : ℕ) (plan : CbufPlan) : Prop where
  quads : QuadInv program k plan.descSrc
  tables : TableInv first plan
  used : ∀ u inst b, u < k → program[u]? = some inst → plan.byPc inst.pc = some b → Bound program plan u inst b
  closed : ∀ pc b, plan.byPc pc = some b → ∃ u inst, u < k ∧ program[u]? = some inst ∧ inst.pc = pc

theorem cbufTurn_cases (hget : P.insts[k]? = some inst) (h : cbufTurn P.insts first limit k inst plan = some plan') :
    (plan'.byDescriptor = plan.byDescriptor ∧ plan'.span = plan.span ∧ plan'.cbufs = plan.cbufs ∧
      plan'.byPc = plan.byPc) ∨
    (isLeaf P.insts k inst = true ∧ (isDynamic inst = false → isSload inst = true → 0 ≤ cbufOff inst) ∧
      ∃ noted : CbufPlan, noted = noteQuad (bufferVersionKey P.insts k inst) inst plan ∧
        cbufLeaf first limit (bufferVersionKey P.insts k inst) inst noted = some plan') := by
  have hnote : ∀ key, (noteQuad key inst plan).byDescriptor = plan.byDescriptor ∧
      (noteQuad key inst plan).span = plan.span ∧ (noteQuad key inst plan).cbufs = plan.cbufs ∧
      (noteQuad key inst plan).byPc = plan.byPc := by
    intro key
    unfold noteQuad
    split <;> exact ⟨rfl, rfl, rfl, rfl⟩
  unfold cbufTurn at h
  dsimp only at h
  split at h
  · obtain rfl := Option.some.inj h
    exact .inl ⟨rfl, rfl, rfl, rfl⟩
  · split at h
    · obtain rfl := Option.some.inj h
      exact .inl ⟨rfl, rfl, rfl, rfl⟩
    · rename_i hload
      have hcbuf : isCbufLoad inst = true := isCbufLoad_iff.mpr (not_not.mp hload)
      rw [bufferVersionKeys_pc hget hcbuf, Option.getD_some] at h
      split at h
      · obtain rfl := Option.some.inj h
        exact .inl (hnote _)
      · rename_i hfetch
        split at h
        · cases h
        · rename_i hreject
          split at h
          · obtain rfl := Option.some.inj h
            exact .inl (hnote _)
          · rename_i hbase
            refine .inr ⟨by simp [isLeaf, hcbuf, hfetch, hbase], ?_, _, rfl, h⟩
            intro hstatic hsload
            by_contra hneg
            exact hreject ⟨hsload, by simpa [isDynamic] using hstatic, not_le.mp hneg⟩

theorem CbufInv.turn (hinv : CbufInv P.insts first k plan) (hget : P.insts[k]? = some inst)
    (h : cbufTurn P.insts first limit k inst plan = some plan') : CbufInv P.insts first (k + 1) plan' := by
  have hother : ∀ {u a}, u < k + 1 → P.insts[u]? = some a → a.pc ≠ inst.pc → u < k := by
    intro u a hu ha hpc
    rcases Nat.lt_or_eq_of_le (Nat.le_of_lt_succ hu) with hlt | rfl
    · exact hlt
    · exact absurd (by rw [Option.some.inj (ha.symm.trans hget)]) hpc
  have hquads := hinv.quads.turn hget h
  rcases cbufTurn_cases hget h with ⟨hby, hspan, hcbufs, hpc⟩ | ⟨hreads, hoffset, noted, hnoted, hleaf⟩
  · -- no data is read
    have hgrown : ∀ b, Grown plan plan' b := by
      intro b
      rw [grown_iff, hby, hspan]
      exact ⟨fun _ hb => hb, Nat.le_refl _, Nat.le_refl _⟩
    refine ⟨hquads, ?_, ?_, ?_⟩
    · obtain ⟨hapart, hbound, hnumbered, hwindows⟩ := hinv.tables
      rw [← hby] at hapart hbound
      rw [← hcbufs] at hbound hnumbered hwindows
      rw [← hspan] at hwindows
      exact ⟨hapart, hbound, hnumbered, hwindows⟩
    · intro u a b hu ha hb
      rw [hpc] at hb
      have hu' : u < k := by
        obtain ⟨w, c, hw, hc, heq⟩ := hinv.closed _ _ hb
        have := P.index_eq hc ha heq
        omega
      exact (hinv.used u a b hu' ha hb).grown (hgrown b)
    · intro pc b hb
      rw [hpc] at hb
      obtain ⟨u, a, hu, ha, heq⟩ := hinv.closed pc b hb
      exact ⟨u, a, Nat.lt_succ_of_lt hu, ha, heq⟩
  · have hsame : noted.byDescriptor = plan.byDescriptor ∧ noted.span = plan.span ∧ noted.cbufs = plan.cbufs ∧
        noted.byPc = plan.byPc := by
      rw [hnoted]
      unfold noteQuad
      split <;> exact ⟨rfl, rfl, rfl, rfl⟩
    obtain ⟨hby, hspan, hcbufs, hpc⟩ := hsame
    have htables : TableInv first noted := by
      obtain ⟨hapart, hbound, hnumbered, hwindows⟩ := hinv.tables
      rw [← hby] at hapart hbound
      rw [← hcbufs] at hbound hnumbered hwindows
      rw [← hspan] at hwindows
      exact ⟨hapart, hbound, hnumbered, hwindows⟩
    have hload := isCbufLoad_of_isLeaf hreads
    have hkeyed := hinv.quads.keyed hget hreads
    rw [← hnoted] at hkeyed
    have hold : ∀ {u a b}, u < k → P.insts[u]? = some a → noted.byPc a.pc = some b → Bound P.insts noted u a b := by
      intro u a b hu ha hb
      rw [hpc] at hb
      refine (hinv.used u a b hu ha hb).grown ?_
      rw [grown_iff, hby, hspan]
      exact ⟨fun _ hmem => hmem, Nat.le_refl _, Nat.le_refl _⟩
    obtain ⟨binding, hbyPc, -, hcases⟩ := cbufLeaf_cases hleaf
    have htaken : TableInv first plan' ∧ Bound P.insts plan' k inst binding ∧
        ∀ b, (∃ key, b ∈ noted.byDescriptor key) → Grown noted plan' b := by
      rcases hcases with hjoined | ⟨rfl, hopened⟩
      · refine ⟨htables.joined hjoined, ⟨hreads, hoffset, ⟨_, ?_, hkeyed⟩, ?_⟩, fun b _ => hjoined.grown b⟩
        · rw [hjoined.byDescriptor]
          exact hjoined.mem
        · rw [hjoined.span]
          dsimp only [CbufPlan.widen]
          rw [Function.update_self]
          exact ⟨Nat.min_le_right _ _, Nat.le_max_right _ _⟩
      · have hfits : cbufHi inst - cbufLo inst ≤ kCbufDwords := by
          have hcount := (count_of_isCbufLoad hload).2
          unfold cbufHi
          split
          · exact Nat.sub_le _ _
          · rw [Nat.add_sub_cancel_left]
            exact Nat.le_trans hcount (by decide)
        refine ⟨htables.opened hopened hfits, ⟨hreads, hoffset, ⟨_, ?_, hkeyed⟩, ?_⟩, fun b hb => ?_⟩
        · rw [hopened.byDescriptor, Function.update_self]
          exact List.mem_append_right _ (List.mem_singleton_self _)
        · rw [hopened.span, Function.update_self]
          exact ⟨Nat.le_refl _, Nat.le_refl _⟩
        · obtain ⟨key, hmem⟩ := hb
          have hlt := (htables.bound key b hmem).2
          exact hopened.grown (by omega)
    obtain ⟨htables', hown, hgrown⟩ := htaken
    refine ⟨hquads, htables', ?_, ?_⟩
    · intro u a b hu ha hb
      rw [hbyPc] at hb
      by_cases heq : a.pc = inst.pc
      · obtain rfl := P.index_eq ha hget heq
        obtain rfl := Option.some.inj (ha.symm.trans hget)
        rw [Function.update_self] at hb
        obtain rfl := Option.some.inj hb
        exact hown
      · rw [Function.update_of_ne heq] at hb
        have hbound := hold (hother hu ha heq) ha hb
        obtain ⟨key, hmem, -⟩ := hbound.keyed
        exact hbound.grown (hgrown b ⟨key, hmem⟩)
    · intro pc b hb
      rw [hbyPc] at hb
      by_cases heq : pc = inst.pc
      · exact ⟨k, inst, Nat.lt_succ_self k, hget, heq.symm⟩
      · rw [Function.update_of_ne heq, hpc] at hb
        obtain ⟨u, a, hu, ha, heq'⟩ := hinv.closed pc b hb
        exact ⟨u, a, Nat.lt_succ_of_lt hu, ha, heq'⟩

theorem CbufInv.loop {rest : Program} (hrest : P.insts.drop k = rest) (hinv : CbufInv P.insts first k plan)
    (h : cbufLoop P.insts first limit k rest plan = some plan') : CbufInv P.insts first (k + rest.length) plan' := by
  induction rest generalizing k plan with
  | nil =>
    obtain rfl := Option.some.inj h
    exact hinv
  | cons inst rest ih =>
    have hget := head_of_drop hrest
    have hlen : k + (inst :: rest).length = k + 1 + rest.length := by
      rw [List.length_cons]
      omega
    rw [hlen]
    obtain ⟨m, hturn, hloop⟩ := Option.bind_eq_some_iff.mp h
    exact ih (tail_of_drop hrest) (hinv.turn hget hturn) hloop

/-- **What the windows of a plan are made of.** -/
theorem rdnaPlanCbufs_inv (h : rdnaPlanCbufs P.insts first limit = some plan) :
    CbufInv P.insts first P.insts.length plan := by
  have hinv : CbufInv P.insts first 0 {} := by
    refine ⟨?_, ⟨?_, ?_, ?_, ?_⟩, ?_, ?_⟩
    · intro s hash hsome
      cases hsome
    · intro key key' b hb
      cases hb
    · intro key b hb
      cases hb
    · intro i cb hcb
      cases hcb
    · intro cb hcb
      cases hcb
    · intro u a b hu
      cases hu
    · intro pc b hb
      cases hb
  have hrun : cbufLoop P.insts first limit 0 P.insts {} = some plan := h
  have hend := hinv.loop rfl hrun
  rwa [Nat.zero_add] at hend

end Windows
/-! ## Keeping descriptors apart -/

section Apart

variable {P : ListedProgram} {isa : ScalarIsa} {guest : ℕ → ScalarMemory} {codeAddr : ℕ} {st : ℕ → ScalarState}
  {first limit i j u v : ℕ} {a b c d inst : Inst} {plan : CbufPlan}

/-- The registers that a load names. -/
def cbufRegs (inst : Inst) : ℕ × ℕ := ((decodeSmem inst).sbase, smemDwords inst)

/-- **The keys of `RdnaPlanCbufs` tell the descriptors of a run apart.** -/
structure CbufTold (program : Program) (guest : ℕ → ScalarMemory) (st : ℕ → ScalarState) : Prop where
  /-- A version has 13 bits in a key. -/
  short : program.length < 2 ^ 13
  /-- `DecodeScalarWrite` has the writes between loads that name the same registers. -/
  versions : ∀ u v a b, u < v → program[u]? = some a → program[v]? = some b → isCbufLoad a = true →
    isCbufLoad b = true → cbufRegs a = cbufRegs b →
    Told program st (decodedWrite program) u v (cbufRegs a).1 (cbufRegs a).2
  /-- Nothing writes a quad as long as `desc_src` has it. -/
  fresh : ∀ j u a b, j < u → Origin program j a u b → Unwritten program st (j + 1) u (cbufRegs b).1 (cbufRegs b).2
  /-- A quad ends below the null register. -/
  whole : ∀ j u a b, Origin program j a u b → (cbufRegs b).1 + (cbufRegs b).2 ≤ 125
  /-- The hashes of table entries are none of the other keys. -/
  apart : ∀ j u v a b c, Origin program j a u b → program[v]? = some c → isLeaf program v c = true →
    descHash (bufferVersionKey program j a) a ≠ bufferVersionKey program v c
  /-- They tell apart the pointers and the immediates of the entries. -/
  hashes : ∀ i j u v a b c d, Origin program i a u c → Origin program j b v d →
    descHash (bufferVersionKey program i a) a = descHash (bufferVersionKey program j b) b →
    bufferVersionKey program i a = bufferVersionKey program j b ∧ cbufOff a = cbufOff b
  kinds : ∀ i j u v a b c d, u < v → Origin program i a u c → Origin program j b v d →
    bufferVersionKey program i a = bufferVersionKey program j b → cbufOff a = cbufOff b →
    smemDwords c = smemDwords d ∧ i < u ∧ j < v
  /-- Loads through the same pointer with the same immediate have the same offset in their register, and find
  the same in memory. -/
  entries : ∀ i j u v a b c d, Origin program i a u c → Origin program j b v d →
    bufferVersionKey program i a = bufferVersionKey program j b → cbufOff a = cbufOff b →
    (st i).read (decodeSmem a).soffset = (st j).read (decodeSmem b).soffset ∧
      ∀ n < 4, loadResult (guest i) a (st i) n = loadResult (guest j) a (st i) n

theorem isQuadLoad_iff {s : ℕ} : isQuadLoad inst s = true ↔
    isSload inst = true ∧ smemLoadCount inst.opcode = 4 ∧ (decodeSmem inst).sdst = s := by
  simp [isQuadLoad, and_assoc]

theorem CbufTold.version_dwords (htold : CbufTold P.insts guest st)
    (hrun : StraightRun isa guest codeAddr P.insts st) (huv : u < v) (ha : P.insts[u]? = some a)
    (hb : P.insts[v]? = some b) (hloadA : isCbufLoad a = true) (hloadB : isCbufLoad b = true)
    (hkey : bufferVersionKey P.insts u a = bufferVersionKey P.insts v b) :
    cbufRegs a = cbufRegs b ∧ ∀ n < smemDwords a,
      (st u).read ((decodeSmem a).sbase + n) = (st v).read ((decodeSmem a).sbase + n) := by
  have hv := (List.getElem?_eq_some_iff.mp hb).1
  obtain ⟨hbase, hdwords, hversions⟩ :=
    bufferVersionKey_inj htold.short (Nat.le_of_lt (Nat.lt_trans huv hv)) (Nat.le_of_lt hv) hkey
  have hregs : cbufRegs a = cbufRegs b := Prod.ext hbase hdwords
  refine ⟨hregs, ?_⟩
  intro n hn
  refine hrun.unwritten (Nat.le_of_lt huv) (Nat.le_of_lt hv)
    (htold.versions u v a b huv ha hb hloadA hloadB hregs ?_) hn
  intro j r hj hlt hle hr
  obtain ⟨m, rfl⟩ := Nat.exists_eq_add_of_le hle
  exact not_written_of_stamp_eq (hversions m (Nat.lt_of_add_lt_add_left hr)) hj hlt

theorem loadResult_congr {s s' : ScalarState} {g : ScalarMemory} (ha : isSload a = true) (hb : isSload b = true)
    (hbase : ∀ n < 2, s.read ((decodeSmem a).sbase + n) = s'.read ((decodeSmem b).sbase + n))
    (hoff : cbufOff a = cbufOff b) (hsoffset : s.read (decodeSmem a).soffset = s'.read (decodeSmem b).soffset)
    (n : ℕ) : loadResult g a s n = loadResult g b s' n := by
  have hop : ∀ {inst : Inst}, isSload inst = true → ¬(decodeSmem inst).op ≥ 0x08 ∧ isSbufload inst = false := by
    intro inst h
    simp only [isSload, Bool.and_eq_true, decide_eq_true_eq] at h
    have hle : (decodeSmem inst).op ≤ 0x04 := h.2
    refine ⟨by omega, ?_⟩
    simp only [isSbufload, Bool.and_eq_false_iff, decide_eq_false_iff_not]
    omega
  have hoffset : (decodeSmem a).offset = (decodeSmem b).offset := by
    unfold cbufOff at hoff
    rwa [(hop ha).2, (hop hb).2, if_neg Bool.false_ne_true, if_neg Bool.false_ne_true] at hoff
  have hlo := hbase 0 (by decide)
  have hhi := hbase 1 (by decide)
  rw [Nat.add_zero, Nat.add_zero] at hlo
  unfold loadResult
  dsimp only
  rw [if_neg (fun h => (hop ha).1 h.1), if_neg (fun h => (hop hb).1 h.1), hlo, hhi, hsoffset, hoffset]

/-- **A load through a quad reads what the load of the quad found.** -/
theorem CbufTold.origin_read (htold : CbufTold P.insts guest st)
    (hrun : StraightRun isa guest codeAddr P.insts st) (horigin : Origin P.insts j a u b) (hju : j < u) {n : ℕ}
    (hn : n < smemDwords b) : (st u).read ((decodeSmem b).sbase + n) = loadResult (guest j) a (st j) n := by
  obtain ⟨hload, hcount, hsdst⟩ := isQuadLoad_iff.mp horigin.quad
  have henc : a.enc = .kSmrd := enc_of_isCbufLoad (isCbufLoad_iff.mpr (.inr hload))
  have hu := (List.getElem?_eq_some_iff.mp horigin.used).1
  have hwhole := htold.whole j u a b horigin
  have hfour := smemDwords_le b
  have hkept : (st (j + 1)).read ((decodeSmem b).sbase + n) = (st u).read ((decodeSmem b).sbase + n) :=
    hrun.unwritten hju (Nat.le_of_lt hu) (htold.fresh j u a b hju horigin) hn
  have hdest : destField a = (decodeSmem b).sbase := by
    unfold destField
    rw [if_pos henc, hsdst]
  have hwidth : destWidth a = 4 := by
    unfold destWidth smemWidth
    rw [henc]
    dsimp only
    rw [hcount, if_pos (by decide)]
  change (decodeSmem b).sbase + smemDwords b ≤ 125 at hwhole
  have hgiven := (hrun.step j a horigin.made).result n (loadResult (guest j) a (st j) n)
    (by rw [hdest, hwidth]; exact ⟨by omega, by omega, by omega⟩)
    (not_implicitWrites (.inr (.inr (.inr henc))) _)
    (by unfold scalarResult; rw [henc]; dsimp only; rw [if_pos (by rw [hcount]; decide)])
  rw [← hkept, ← hgiven, hdest]
  unfold ScalarState.read
  rw [if_neg (by omega)]

theorem CbufTold.entry_dwords (htold : CbufTold P.insts guest st)
    (hrun : StraightRun isa guest codeAddr P.insts st) (huv : u < v) (ha : Origin P.insts i a u c)
    (hb : Origin P.insts j b v d)
    (hhash : descHash (bufferVersionKey P.insts i a) a = descHash (bufferVersionKey P.insts j b) b) :
    registerDwords (st u) (decodeSmem c).sbase (smemDwords c) =
      registerDwords (st v) (decodeSmem d).sbase (smemDwords d) := by
  obtain ⟨hkey, hoff⟩ := htold.hashes i j u v a b c d ha hb hhash
  obtain ⟨hdwords, hiu, hjv⟩ := htold.kinds i j u v a b c d huv ha hb hkey hoff
  obtain ⟨hsoffset, hmemory⟩ := htold.entries i j u v a b c d ha hb hkey hoff
  have hloadA := (isQuadLoad_iff.mp ha.quad).1
  have hloadB := (isQuadLoad_iff.mp hb.quad).1
  have hcbufA : isCbufLoad a = true := isCbufLoad_iff.mpr (.inr hloadA)
  have hcbufB : isCbufLoad b = true := isCbufLoad_iff.mpr (.inr hloadB)
  -- the pointer is the same at both loads, whichever is the first
  have hpointer : ∀ n < 2, (st i).read ((decodeSmem a).sbase + n) = (st j).read ((decodeSmem b).sbase + n) := by
    intro n hn
    rcases Nat.lt_trichotomy i j with hij | rfl | hji
    · obtain ⟨hregs, hread⟩ := htold.version_dwords hrun hij ha.made hb.made hcbufA hcbufB hkey
      have hbase : (decodeSmem a).sbase = (decodeSmem b).sbase := (Prod.mk.inj hregs).1
      rw [← hbase]
      exact hread n ((isSload_dwords hloadA).symm ▸ hn)
    · obtain rfl := Option.some.inj (ha.made.symm.trans hb.made)
      rfl
    · obtain ⟨hregs, hread⟩ := htold.version_dwords hrun hji hb.made ha.made hcbufB hcbufA hkey.symm
      have hbase : (decodeSmem b).sbase = (decodeSmem a).sbase := (Prod.mk.inj hregs).1
      rw [← hbase]
      exact (hread n ((isSload_dwords hloadB).symm ▸ hn)).symm
  rw [← hdwords]
  refine registerDwords_eq fun n hn => ?_
  have hfour := smemDwords_le c
  calc (st u).read ((decodeSmem c).sbase + n)
      = loadResult (guest i) a (st i) n := htold.origin_read hrun ha hiu hn
    _ = loadResult (guest j) a (st i) n := hmemory n (by omega)
    _ = loadResult (guest j) b (st j) n := loadResult_congr hloadA hloadB hpointer hoff hsoffset n
    _ = (st v).read ((decodeSmem d).sbase + n) := (htold.origin_read hrun hb hjv (hdwords ▸ hn)).symm

/-- **Windows of one binding have the same descriptor.** -/
theorem rdnaPlanCbufs_unmerged (hrun : StraightRun isa guest codeAddr P.insts st)
    (htold : CbufTold P.insts guest st) (h : rdnaPlanCbufs P.insts first limit = some plan) :
    Unmerged P.insts st plan.byPc cbufRegs := by
  have hinv := rdnaPlanCbufs_inv h
  refine .of_lt fun u v a b n huv ha hb hna hnb => ?_
  have hv := (List.getElem?_eq_some_iff.mp hb).1
  have hboundA := hinv.used u a n (Nat.lt_trans huv hv) ha hna
  have hboundB := hinv.used v b n hv hb hnb
  obtain ⟨key, hmem, hkeyA⟩ := hboundA.keyed
  obtain ⟨key', hmem', hkeyB⟩ := hboundB.keyed
  obtain rfl := hinv.tables.apart key key' n hmem hmem'
  rcases hkeyA with rfl | ⟨i, maker, horigin, rfl⟩
  · rcases hkeyB with heq | ⟨j, maker, horigin, heq⟩
    · obtain ⟨hregs, hread⟩ := htold.version_dwords hrun huv ha hb (isCbufLoad_of_isLeaf hboundA.leaf)
        (isCbufLoad_of_isLeaf hboundB.leaf) heq
      rw [← hregs]
      exact registerDwords_eq fun m hm => hread m hm
    · exact absurd heq.symm (htold.apart j v u maker b a horigin ha hboundA.leaf)
  · rcases hkeyB with heq | ⟨j, maker', horigin', heq⟩
    · exact absurd heq (htold.apart i u v maker a b horigin hb hboundB.leaf)
    · exact htold.entry_dwords hrun huv horigin horigin' heq

end Apart

/-! ## Reading inside the windows -/

section Reading

variable {P : ListedProgram} {first limit : ℕ} {inst : Inst} {plan : CbufPlan}

def WindowsHold (program : Program) (plan : CbufPlan) : Prop :=
  (∀ cb ∈ plan.cbufs, cb.numDwords ≤ kCbufDwords) ∧
    ∀ (u : ℕ) (inst : Inst) (n : ℕ), program[u]? = some inst → plan.byPc inst.pc = some n → isDynamic inst = false →
      ∃ cb ∈ plan.cbufs, cb.binding = n ∧ ∀ i < smemLoadCount inst.opcode,
        cb.firstDword ≤ emittedDword inst + i ∧ emittedDword inst + i < cb.firstDword + cb.numDwords

theorem emittedDword_eq (hload : isCbufLoad inst = true) (hstatic : isDynamic inst = false)
    (hoffset : isSload inst = true → 0 ≤ cbufOff inst) : emittedDword inst = cbufLo inst := by
  unfold cbufLo
  rw [hstatic, if_neg Bool.false_ne_true]
  rcases isCbufLoad_iff.mp hload with hbuf | hsload
  · have hoff : cbufOff inst = ((inst.word1 &&& 0xFFFFF : ℕ) : ℤ) := if_pos hbuf
    simp only [isSbufload, Bool.and_eq_true, decide_eq_true_eq] at hbuf
    unfold emittedDword
    rw [if_pos hbuf.1.2, hoff, max_eq_left (Int.natCast_nonneg _), Int.toNat_natCast, ← Nat.shiftRight_eq_div_pow _ 2,
      Nat.shiftRight_and_distrib, Nat.shiftRight_and_distrib]
    rfl
  · have hnonneg := hoffset hsload
    have hnot : isSbufload inst = false := by
      simp only [isSload, Bool.and_eq_true, decide_eq_true_eq] at hsload
      simp only [isSbufload, Bool.and_eq_false_iff, decide_eq_false_iff_not]
      omega
    have hoff : cbufOff inst = (decodeSmem inst).offset := if_neg (hnot ▸ Bool.false_ne_true)
    simp only [isSload, Bool.and_eq_true, decide_eq_true_eq] at hsload
    have hsmall : (decodeSmem inst).offset < 2 ^ 20 := by
      change simm21 inst.word1 < 2 ^ 20
      have hand : inst.word1 &&& 0x1FFFFF ≤ 0x1FFFFF := Nat.and_le_right
      unfold simm21
      split <;> omega
    rw [hoff] at hnonneg ⊢
    obtain ⟨n, hn⟩ := Int.eq_ofNat_of_zero_le hnonneg
    unfold emittedDword
    rw [if_neg (by omega), max_eq_left hnonneg, hn, Int.toNat_natCast]
    rw [hn] at hsmall
    have hmod : ((n : ℤ) % 2 ^ 32).toNat = n := by omega
    rw [hmod, Nat.shiftRight_and_distrib, Nat.shiftRight_eq_div_pow]
    have hmask : (0xFFFFFFFC : ℕ) >>> 2 = 2 ^ 30 - 1 := by decide
    rw [hmask, Nat.and_two_pow_sub_one_eq_mod]
    exact Nat.mod_eq_of_lt (by omega)

theorem rdnaPlanCbufs_windows (h : rdnaPlanCbufs P.insts first limit = some plan) : WindowsHold P.insts plan := by
  have hinv := rdnaPlanCbufs_inv h
  refine ⟨fun cb hcb => (hinv.tables.windows cb hcb).2.2, ?_⟩
  intro u inst n hget hn hstatic
  have hbound := hinv.used u inst n (List.getElem?_eq_some_iff.mp hget).1 hget hn
  obtain ⟨key, hmem, -⟩ := hbound.keyed
  obtain ⟨hle, hlt⟩ := hinv.tables.bound key n hmem
  obtain ⟨i, rfl⟩ := Nat.exists_eq_add_of_le hle
  have hi : i < plan.cbufs.length := Nat.lt_of_add_lt_add_left hlt
  have hcb := List.getElem?_eq_getElem hi
  have hnumber := hinv.tables.numbered i _ hcb
  obtain ⟨hfirst, hnum, -⟩ := hinv.tables.windows _ (List.getElem_mem hi)
  refine ⟨_, List.getElem_mem hi, hnumber, ?_⟩
  intro m hm
  obtain ⟨hlo, hhi⟩ := hbound.within
  rw [emittedDword_eq (isCbufLoad_of_isLeaf hbound.leaf) hstatic (hbound.offset hstatic), hfirst, hnum, hnumber]
  unfold cbufHi at hhi
  rw [hstatic, if_neg Bool.false_ne_true] at hhi
  omega

end Reading

/-! ## The plans -/

/-- The planners tell the descriptors of a run apart. -/
structure BindingsTold (program : Program) (guest : ℕ → ScalarMemory) (st : ℕ → ScalarState) (claimed : ℕ → Bool)
    (ldsDwords : ℕ) : Prop where
  cbufs : CbufTold program guest st
  buffers : BuffersTold program st claimed
  resources : ResourcesTold program st ldsDwords

section Tables

variable {isa : ScalarIsa} {guest : ScalarMemory} {codeAddr : ℕ} {inst : Inst} {s s' : ScalarState}

theorem step_of_load (henc : inst.enc = .kSmrd) (hcount : smemLoadCount inst.opcode ≠ 0)
    (hkept : ∀ r, ¬InDest (decodeSmem inst).sdst (smemLoadCount inst.opcode) r → s'.sgpr r = s.sgpr r)
    (hgiven : ∀ i < smemLoadCount inst.opcode, s'.sgpr ((decodeSmem inst).sdst + i) = loadResult guest inst s i)
    (hscc : s'.scc = s.scc) : isa.Step guest codeAddr inst s s' := by
  have hdest : destField inst = (decodeSmem inst).sdst := if_pos henc
  have hwidth : destWidth inst = smemLoadCount inst.opcode := by
    unfold destWidth smemWidth
    rw [henc]
    exact if_pos hcount
  refine ⟨?_, ?_, fun _ => hscc, ?_⟩
  · intro r hr
    refine hkept r fun hin => hr (.inr ?_)
    rwa [hdest, hwidth]
  · intro i v hin _ hv
    rw [hdest, hwidth] at hin
    rw [hdest]
    simp only [scalarResult, henc, hcount, ne_eq, not_false_eq_true, if_true, Option.some.injEq] at hv
    rw [← hv]
    exact hgiven i (by have := hin.2.2; omega)
  · intro b hb
    simp [sccResult, henc] at hb

/-- `s_load_dwordx4 s[8:11], s[4:5]`, by the offset register. -/
def quadLoad (pc soffset : ℕ) : Inst :=
  ⟨.kSmrd, 0x02, [0xF4080202, soffset <<< 25], 2, pc, false, 0, .kNone⟩

theorem quadLoad_sdst (pc soffset : ℕ) : (decodeSmem (quadLoad pc soffset)).sdst = 8 := by
  change (0xF4080202 >>> 6) &&& 0x7F = 8
  decide

/-- `s_buffer_load_dword`, `s[8:11]`. -/
def bufferLoad (pc sdst : ℕ) : Inst :=
  ⟨.kSmrd, 0x08, [0xF4200004 + sdst <<< 6, 0xFA000000], 2, pc, false, 0, .kNone⟩

def tableInsts (first second : ℕ) : Program :=
  [quadLoad 0 first, bufferLoad 2 12, quadLoad 4 second, bufferLoad 6 13]

/-- The instructions, one behind the other. -/
def tableProgram (first second : ℕ) : ListedProgram where
  insts := tableInsts first second
  size_pos := by
    intro inst hinst
    simp only [tableInsts, List.mem_cons, List.not_mem_nil, or_false] at hinst
    rcases hinst with rfl | rfl | rfl | rfl <;> exact Nat.zero_lt_two
  apart := by simp [tableInsts, quadLoad, bufferLoad]

theorem tableInsts_cases {first second u : ℕ} {a : Inst} (h : (tableInsts first second)[u]? = some a) :
    (u = 0 ∧ a = quadLoad 0 first) ∨ (u = 1 ∧ a = bufferLoad 2 12) ∨ (u = 2 ∧ a = quadLoad 4 second) ∨
      (u = 3 ∧ a = bufferLoad 6 13) := by
  have hu := (List.getElem?_eq_some_iff.mp h).1
  change u < 4 at hu
  interval_cases u
  · exact .inl ⟨rfl, (Option.some.inj h).symm⟩
  · exact .inr (.inl ⟨rfl, (Option.some.inj h).symm⟩)
  · exact .inr (.inr (.inl ⟨rfl, (Option.some.inj h).symm⟩))
  · exact .inr (.inr (.inr ⟨rfl, (Option.some.inj h).symm⟩))

def zeroMemory : ScalarMemory := ⟨fun _ _ => true, fun _ => 0⟩

def zeroState : ScalarState := ⟨fun _ => 0, false⟩

theorem zeroState_read (r : ℕ) : zeroState.read r = 0 := ite_self 0

theorem zeroState_run (first second : ℕ) :
    StraightRun plainIsa (fun _ => zeroMemory) 0 (tableInsts first second) fun _ => zeroState := by
  refine ⟨fun k inst hget => ?_⟩
  have hload : inst.enc = .kSmrd ∧ smemLoadCount inst.opcode ≠ 0 := by
    rcases tableInsts_cases hget with ⟨-, rfl⟩ | ⟨-, rfl⟩ | ⟨-, rfl⟩ | ⟨-, rfl⟩ <;> exact ⟨rfl, Nat.succ_ne_zero _⟩
  refine step_of_load hload.1 hload.2 (fun _ _ => rfl) (fun i _ => ?_) rfl
  unfold loadResult
  dsimp only
  split <;> rfl

theorem tableInsts_origin {j u : ℕ} {a b : Inst} (h : Origin (tableInsts 125 125) j a u b) :
    (j = 0 ∧ a = quadLoad 0 125 ∧ u = 1 ∧ b = bufferLoad 2 12) ∨
      (j = 2 ∧ a = quadLoad 4 125 ∧ u = 3 ∧ b = bufferLoad 6 13) := by
  obtain ⟨hmade, hused, hleaf, hquad, hearlier, hkept⟩ := h
  -- only a load of four dwords makes a quad, and only a buffer load reads data
  have hmaker : (j = 0 ∧ a = quadLoad 0 125) ∨ (j = 2 ∧ a = quadLoad 4 125) := by
    have hsload := (isQuadLoad_iff.mp hquad).1
    rcases tableInsts_cases hmade with h | ⟨-, rfl⟩ | h | ⟨-, rfl⟩
    · exact .inl h
    · exact absurd hsload (by decide)
    · exact .inr h
    · exact absurd hsload (by decide)
  have huser : (u = 1 ∧ b = bufferLoad 2 12) ∨ (u = 3 ∧ b = bufferLoad 6 13) := by
    rcases tableInsts_cases hused with ⟨rfl, rfl⟩ | h | ⟨rfl, rfl⟩ | h
    · exact absurd hleaf (by decide +kernel)
    · exact .inl h
    · exact absurd hleaf (by decide +kernel)
    · exact .inr h
  rcases hmaker with ⟨rfl, rfl⟩ | ⟨rfl, rfl⟩
  · rcases huser with ⟨rfl, rfl⟩ | ⟨rfl, rfl⟩
    · exact .inl ⟨rfl, rfl, rfl, rfl⟩
    · -- the second load drops what the first one made
      have hdrop := hkept 2 (quadLoad 4 125) (by decide) (by decide) rfl
      exact absurd hdrop (by decide +kernel)
  · rcases huser with ⟨rfl, rfl⟩ | ⟨rfl, rfl⟩
    · omega
    · exact .inr ⟨rfl, rfl, rfl, rfl⟩

theorem quadLoad_mayWrite {pc offset r : ℕ} {s : ScalarState} (hmay : mayWrite (quadLoad pc offset) s r) :
    8 ≤ r ∧ r < 12 := by
  obtain ⟨-, hle, hlt⟩ := hmay.resolve_left (not_implicitWrites (.inr (.inr (.inr rfl))) _)
  change (decodeSmem (quadLoad _ _)).sdst ≤ r at hle
  change r < (decodeSmem (quadLoad _ _)).sdst + 4 at hlt
  rw [quadLoad_sdst] at hle hlt
  exact ⟨hle, hlt⟩

theorem tableInsts_mayWrite {first second j r : ℕ} {inst : Inst} {s : ScalarState}
    (h : (tableInsts first second)[j]? = some inst) (hmay : mayWrite inst s r) :
    (j % 2 = 0 ∧ 8 ≤ r ∧ r < 12) ∨ r = 12 ∨ r = 13 := by
  rcases tableInsts_cases h with ⟨rfl, rfl⟩ | ⟨rfl, rfl⟩ | ⟨rfl, rfl⟩ | ⟨rfl, rfl⟩
  · exact .inl ⟨rfl, quadLoad_mayWrite hmay⟩
  · obtain ⟨-, hle, hlt⟩ := hmay.resolve_left (not_implicitWrites (.inr (.inr (.inr rfl))) _)
    change 12 ≤ r at hle
    change r < 12 + 1 at hlt
    omega
  · exact .inl ⟨rfl, quadLoad_mayWrite hmay⟩
  · obtain ⟨-, hle, hlt⟩ := hmay.resolve_left (not_implicitWrites (.inr (.inr (.inr rfl))) _)
    change 13 ≤ r at hle
    change r < 13 + 1 at hlt
    omega

theorem tableInsts_told {seen : ℕ → ℕ → Bool} {regs : Inst → ℕ × ℕ} (hseen : seen 2 8 = true)
    (hfirst : regs (quadLoad 0 125) = (4, 2))
    (hsecond : regs (quadLoad 4 125) = (4, 2)) (hbuffer : regs (bufferLoad 2 12) = (8, 4))
    {u v : ℕ} {a b : Inst} (huv : u < v) (ha : (tableInsts 125 125)[u]? = some a)
    (hb : (tableInsts 125 125)[v]? = some b) (hregs : regs a = regs b) :
    Told (tableInsts 125 125) (fun _ => zeroState) seen u v (regs a).1 (regs a).2 := by
  intro hunseen j inst r hj hlt hget hle hr hmay
  have hwrites := tableInsts_mayWrite hget hmay
  rcases tableInsts_cases ha with ⟨rfl, rfl⟩ | ⟨rfl, rfl⟩ | ⟨rfl, rfl⟩ | ⟨rfl, rfl⟩
  · rw [hfirst] at hr
    change r < 6 at hr
    omega
  · rw [hbuffer] at hunseen hregs
    rcases tableInsts_cases hb with ⟨rfl, rfl⟩ | ⟨rfl, rfl⟩ | ⟨rfl, rfl⟩ | ⟨rfl, rfl⟩
    · omega
    · omega
    · rw [hsecond] at hregs
      cases hregs
    · have hclash := hunseen 2 8 (by decide) (by decide) (Nat.le_refl 8) (by decide)
      rw [hseen] at hclash
      cases hclash
  · rw [hsecond] at hr
    change r < 6 at hr
    omega
  · have hv := (List.getElem?_eq_some_iff.mp hb).1
    change v < 4 at hv
    omega

theorem tableInsts_cbufTold : CbufTold (tableInsts 125 125) (fun _ => zeroMemory) fun _ => zeroState where
  short := by decide
  versions u v a b huv ha hb _ _ hregs :=
    tableInsts_told (by decide +kernel) rfl rfl rfl huv ha hb hregs
  fresh j u a b hju horigin := by
    intro i inst r hi hlt
    rcases tableInsts_origin horigin with ⟨rfl, -, rfl, -⟩ | ⟨rfl, -, rfl, -⟩
    · omega
    · omega
  whole j u a b horigin := by
    rcases tableInsts_origin horigin with ⟨-, -, -, rfl⟩ | ⟨-, -, -, rfl⟩
    · exact Nat.le_add_right 12 113
    · exact Nat.le_add_right 12 113
  apart j u v a b c horigin hc hleaf := by
    have huser : (v = 1 ∧ c = bufferLoad 2 12) ∨ (v = 3 ∧ c = bufferLoad 6 13) := by
      rcases tableInsts_cases hc with ⟨rfl, rfl⟩ | h | ⟨rfl, rfl⟩ | h
      · exact absurd hleaf (by decide +kernel)
      · exact .inl h
      · exact absurd hleaf (by decide +kernel)
      · exact .inr h
    rcases tableInsts_origin horigin with ⟨rfl, rfl, -, -⟩ | ⟨rfl, rfl, -, -⟩
    · rcases huser with ⟨rfl, rfl⟩ | ⟨rfl, rfl⟩
      · decide +kernel
      · decide +kernel
    · rcases huser with ⟨rfl, rfl⟩ | ⟨rfl, rfl⟩
      · decide +kernel
      · decide +kernel
  hashes i j u v a b c d ha hb _ := by
    rcases tableInsts_origin ha with ⟨rfl, rfl, -, -⟩ | ⟨rfl, rfl, -, -⟩
    · rcases tableInsts_origin hb with ⟨rfl, rfl, -, -⟩ | ⟨rfl, rfl, -, -⟩
      · exact ⟨rfl, rfl⟩
      · exact ⟨by decide +kernel, rfl⟩
    · rcases tableInsts_origin hb with ⟨rfl, rfl, -, -⟩ | ⟨rfl, rfl, -, -⟩
      · exact ⟨by decide +kernel, rfl⟩
      · exact ⟨rfl, rfl⟩
  kinds i j u v a b c d huv ha hb _ _ := by
    rcases tableInsts_origin ha with ⟨rfl, -, rfl, rfl⟩ | ⟨rfl, -, rfl, rfl⟩
    · rcases tableInsts_origin hb with ⟨rfl, -, rfl, rfl⟩ | ⟨rfl, -, rfl, rfl⟩
      · omega
      · exact ⟨rfl, by decide, by decide⟩
    · rcases tableInsts_origin hb with ⟨rfl, -, rfl, rfl⟩ | ⟨rfl, -, rfl, rfl⟩
      · omega
      · omega
  entries i j u v a b c d _ _ _ _ := by
    exact ⟨(zeroState_read _).trans (zeroState_read _).symm, fun _ _ => rfl⟩

def offsetState (k : ℕ) : ScalarState :=
  ⟨fun r => if r = 21 then 16 else if r = 8 ∧ 3 ≤ k then 1 else 0, false⟩

/-- A table whose second entry is not zero. -/
def offsetMemory : ScalarMemory := ⟨fun _ _ => true, fun address => if address = 16 then 1 else 0⟩

theorem offsetState_run : StraightRun plainIsa (fun _ => offsetMemory) 0 (tableInsts 20 21) offsetState := by
  refine ⟨fun k inst hget => ?_⟩
  rcases tableInsts_cases hget with ⟨rfl, rfl⟩ | ⟨rfl, rfl⟩ | ⟨rfl, rfl⟩ | ⟨rfl, rfl⟩
  · refine step_of_load rfl (Nat.succ_ne_zero _) (fun _ _ => by simp [offsetState]) (fun i hi => ?_) rfl
    change i < 4 at hi
    interval_cases i <;> decide +kernel
  · refine step_of_load rfl (Nat.succ_ne_zero _) (fun _ _ => by simp [offsetState]) (fun i hi => ?_) rfl
    change i < 1 at hi
    interval_cases i
    decide +kernel
  · refine step_of_load rfl (Nat.succ_ne_zero _) (fun r hr => ?_) (fun i hi => ?_) rfl
    · have hr8 : r ≠ 8 := by
        rintro rfl
        exact hr ⟨by decide, by decide, by decide⟩
      simp [offsetState, hr8]
    · change i < 4 at hi
      interval_cases i <;> decide +kernel
  · refine step_of_load rfl (Nat.succ_ne_zero _) (fun _ _ => by simp [offsetState]) (fun i hi => ?_) rfl
    change i < 1 at hi
    interval_cases i
    decide +kernel

end Tables

end Prosperity.Rdna
