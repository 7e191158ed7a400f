import Mathlib.Algebra.Group.Nat.Defs
import Mathlib.Data.List.Nodup
import Mathlib.Logic.Function.Basic
import Prosperity.Foundations.Digits

/-!
# The SPIR-V module builder

The builder appends instructions to eleven sections and keeps three caches of what it has defined. Assembled, a
module reads back as its instructions, its ids are distinct, and a cached request has an id of its own, as long
as the fields of a request fit the packed key, the operands fit a word count, a label is opened once and the
ids do not run out.
-/

namespace Prosperity.Spirv

inductive Section
  | caps | exts | extImports | memModel | entries | execModes | strings | debug | decos | typesConsts | fnBody
  deriving DecidableEq

def sectionOrder : List Section :=
  [.caps, .exts, .extImports, .memModel, .entries, .execModes, .strings, .debug, .decos, .typesConsts, .fnBody]

structure Instruction where
  op : UInt16
  ops : List UInt32
  deriving DecidableEq

/-- `Instr`: the word count stands above the opcode. -/
def Instruction.words (i : Instruction) : List UInt32 :=
  ((1 + UInt32.ofNat i.ops.length) <<< 16 ||| i.op.toUInt32) :: i.ops

structure Emitted where
  sec : Section
  inst : Instruction
  result : Option UInt32

/-- The keys of `cache_`, `struct_cache_` and `fn_type_cache_`. -/
inductive CacheKey
  | packed (n : ℕ)
  | members (ids : List UInt32)
  | signature (ids : List UInt32)
  deriving DecidableEq

structure Module where
  bound : UInt32
  globals : List UInt32
  words : Section → List UInt32
  cache : CacheKey → Option UInt32
  emitted : List Emitted

namespace Module

def alloc (m : Module) : UInt32 × Module := (m.bound, { m with bound := m.bound + 1 })

def instr (sec : Section) (op : UInt16) (ops : List UInt32) (result : Option UInt32) (m : Module) : Module :=
  { m with
    words := Function.update m.words sec (m.words sec ++ Instruction.words ⟨op, ops⟩)
    emitted := m.emitted ++ [⟨sec, ⟨op, ops⟩, result⟩] }

/-- The loop of `PutString` over the bytes, with the word under way. -/
def putBytes (w : UInt32) (b : ℕ) : List UInt8 → List UInt32
  | [] => if b ≠ 0 then [w] else []
  | c :: rest =>
    let w := w ||| c.toUInt32 <<< (8 * UInt32.ofNat b)
    if b + 1 = 4 then w :: putBytes 0 0 rest else putBytes w (b + 1) rest

def putString (s : List UInt8) : List UInt32 := putBytes 0 0 (s ++ [0])

/-! ## Cached requests -/

/-- `Key`: eight bits of kind, then `a`, then 24 bits of `b`. -/
def key (kind a b : ℕ) : CacheKey := .packed (kind <<< 56 ||| a <<< 24 ||| (b &&& 0xFFFFFF))

def defineCached (k : CacheKey) (op : UInt16) (ops : UInt32 → List UInt32) (m : Module) : UInt32 × Module :=
  let (id, m) := m.alloc
  let m := m.instr .typesConsts op (ops id) (some id)
  (id, { m with cache := Function.update m.cache k (some id) })

def cached (k : CacheKey) (op : UInt16) (ops : UInt32 → List UInt32) (m : Module) : UInt32 × Module :=
  match m.cache k with
  | some id => (id, m)
  | none => m.defineCached k op ops

def constant (k : CacheKey) (type : Module → UInt32 × Module) (op : UInt16) (ops : List UInt32) (m : Module) :
    UInt32 × Module :=
  match m.cache k with
  | some id => (id, m)
  | none =>
    let (t, m) := type m
    m.defineCached k op fun id => t :: id :: ops

inductive Entity
  | typeVoid
  | typeBool
  | typeInt (width : UInt32) (sign : Bool)
  | typeFloat (width : UInt32)
  | typeVec (comp count : UInt32)
  | typeArray (elem len : UInt32)
  | typeRuntimeArray (elem : UInt32)
  | typeStruct (members : List UInt32)
  | typePointer (sc pointee : UInt32)
  | typeFunction (ret : UInt32) (params : List UInt32)
  | constU32 (v : UInt32)
  | constI32 (v : UInt32)
  | constF32 (bits : UInt32)
  | constBool (v : Bool)
  | constNull (type : UInt32)
  deriving DecidableEq

def Entity.key : Entity → CacheKey
  | typeVoid => Module.key 0 0 0
  | typeBool => Module.key 1 0 0
  | typeInt width sign => Module.key 2 width.toNat sign.toNat
  | typeFloat width => Module.key 3 width.toNat 0
  | typeVec comp count => Module.key 4 comp.toNat count.toNat
  | typeArray elem len => Module.key 5 elem.toNat len.toNat
  | typeRuntimeArray elem => Module.key 6 elem.toNat 0
  | typeStruct members => .members members
  | typePointer sc pointee => Module.key 7 pointee.toNat sc.toNat
  | typeFunction ret params => .signature (ret :: params)
  | constU32 v => Module.key 8 v.toNat 0
  | constI32 v => Module.key 9 v.toNat 0
  | constF32 bits => Module.key 10 bits.toNat 0
  | constBool v => Module.key 11 v.toNat 0
  | constNull type => Module.key 12 type.toNat 0

def typeBool : Module → UInt32 × Module := cached Entity.typeBool.key 20 fun id => [id]

def typeInt (width : UInt32) (sign : Bool) : Module → UInt32 × Module :=
  cached (Entity.typeInt width sign).key 21 fun id => [id, width, if sign then 1 else 0]

def typeFloat (width : UInt32) : Module → UInt32 × Module :=
  cached (Entity.typeFloat width).key 22 fun id => [id, width]

def constU32 (v : UInt32) : Module → UInt32 × Module :=
  constant (Entity.constU32 v).key (typeInt 32 false) 43 [v]

def request (m : Module) : Entity → UInt32 × Module
  | .typeVoid => m.cached Entity.typeVoid.key 19 fun id => [id]
  | .typeBool => m.typeBool
  | .typeInt width sign => m.typeInt width sign
  | .typeFloat width => m.typeFloat width
  | .typeVec comp count => m.cached (Entity.typeVec comp count).key 23 fun id => [id, comp, count]
  | .typeArray elem len =>
    let (lenId, m) := m.constU32 len
    m.cached (Entity.typeArray elem len).key 28 fun id => [id, elem, lenId]
  | .typeRuntimeArray elem => m.cached (Entity.typeRuntimeArray elem).key 29 fun id => [id, elem]
  | .typeStruct members => m.cached (Entity.typeStruct members).key 30 fun id => id :: members
  | .typePointer sc pointee => m.cached (Entity.typePointer sc pointee).key 32 fun id => [id, sc, pointee]
  | .typeFunction ret params => m.cached (Entity.typeFunction ret params).key 33 fun id => id :: ret :: params
  | .constU32 v => m.constU32 v
  | .constI32 v => m.constant (Entity.constI32 v).key (typeInt 32 true) 43 [v]
  | .constF32 bits => m.constant (Entity.constF32 bits).key (typeFloat 32) 43 [bits]
  | .constBool v => m.constant (Entity.constBool v).key typeBool (if v then 41 else 42) []
  | .constNull type => m.cached (Entity.constNull type).key 46 fun id => [type, id]

/-! ## Calls -/

def new : Module :=
  let m : Module := ⟨1, [], fun _ => [], fun _ => none, []⟩
  let m := m.instr .caps 17 [1] none
  let (glslExt, m) := m.alloc
  -- "GLSL.std.450"
  let m := m.instr .extImports 11
    (glslExt :: putString [0x47, 0x4c, 0x53, 0x4c, 0x2e, 0x73, 0x74, 0x64, 0x2e, 0x34, 0x35, 0x30]) (some glslExt)
  m.instr .memModel 14 [0, 1] none

inductive Call
  | request (e : Entity)
  /-- `Alloc`, `NewBlock`. -/
  | alloc
  /-- A new id, which the instruction defines between `pre` and `post`. -/
  | define (sec : Section) (op : UInt16) (pre post : List UInt32)
  /-- An instruction that defines no id. -/
  | put (sec : Section) (op : UInt16) (ops : List UInt32)
  | variable (ptrType sc init : UInt32)
  | entryPoint (model fn : UInt32) (name : List UInt8)
  | physicalStorageBuffers
  | beginFunction (retType fnType : UInt32) (parameterTypes : List UInt32)
  | openBlock (label : UInt32)

def define (sec : Section) (op : UInt16) (pre post : List UInt32) (m : Module) : UInt32 × Module :=
  let (id, m) := m.alloc
  (id, m.instr sec op (pre ++ id :: post) (some id))

def parameters : List UInt32 → Module → List UInt32 × Module
  | [], m => ([], m)
  | type :: rest, m =>
    let (id, m) := m.define .fnBody 55 [type] []
    let (ids, m) := parameters rest m
    (id :: ids, m)

def beginFunction (retType fnType : UInt32) (parameterTypes : List UInt32) (m : Module) :
    (UInt32 × List UInt32) × Module :=
  let (fn, m) := m.define .fnBody 54 [retType] [0, fnType]
  let (ids, m) := parameters parameterTypes m
  let (_, m) := m.define .fnBody 248 [] []
  ((fn, ids), m)

def clearMemModel (m : Module) : Module :=
  { m with
    words := Function.update m.words .memModel []
    emitted := m.emitted.filter (·.sec ≠ .memModel) }

def storageBufferExtension : List UInt8 :=
  [0x53, 0x50, 0x56, 0x5f, 0x4b, 0x48, 0x52, 0x5f, 0x70, 0x68, 0x79, 0x73, 0x69, 0x63, 0x61, 0x6c, 0x5f, 0x73,
    0x74, 0x6f, 0x72, 0x61, 0x67, 0x65, 0x5f, 0x62, 0x75, 0x66, 0x66, 0x65, 0x72]

def physicalStorageBuffers (m : Module) : Module :=
  let m := (m.instr .caps 17 [11] none).instr .caps 17 [5347] none
  let m := m.instr .exts 10 (putString storageBufferExtension) none
  m.clearMemModel.instr .memModel 14 [5348, 1] none

def step (m : Module) : Call → Option (Entity × UInt32) × Module
  | .request e =>
    let (id, m) := m.request e
    (some (e, id), m)
  | .alloc => (none, m.alloc.2)
  | .define sec op pre post => (none, (m.define sec op pre post).2)
  | .put sec op ops => (none, m.instr sec op ops none)
  | .variable ptrType sc init =>
    let (id, m) := m.define .typesConsts 59 [ptrType] (sc :: if init ≠ 0 then [init] else [])
    (none, { m with globals := m.globals ++ [id] })
  | .entryPoint model fn name => (none, m.instr .entries 15 (model :: fn :: putString name ++ m.globals) none)
  | .physicalStorageBuffers => (none, m.physicalStorageBuffers)
  | .beginFunction retType fnType parameterTypes => (none, (m.beginFunction retType fnType parameterTypes).2)
  | .openBlock label => (none, m.instr .fnBody 248 [label] (some label))

namespace Call

def typeImage (sampledType dim depth arrayed ms sampled fmt : UInt32) : Call :=
  .define .typesConsts 25 [] [sampledType, dim, depth, arrayed, ms, sampled, fmt]
def typeSampledImage (imageType : UInt32) : Call := .define .typesConsts 27 [] [imageType]
def constComposite (type : UInt32) (parts : List UInt32) : Call := .define .typesConsts 44 [type] parts
def decorate (target dec : UInt32) (operands : List UInt32) : Call := .put .decos 71 (target :: dec :: operands)
def memberDecorate (structType member dec : UInt32) (operands : List UInt32) : Call :=
  .put .decos 72 (structType :: member :: dec :: operands)
def name (target : UInt32) (n : List UInt8) : Call := .put .debug 5 (target :: putString n)
def memberName (structType member : UInt32) (n : List UInt8) : Call :=
  .put .debug 6 (structType :: member :: putString n)
def string (s : List UInt8) : Call := .define .strings 7 [] (putString s)
def line (file line : UInt32) : Call := .put .fnBody 8 [file, line, 0]
def execMode (fn mode : UInt32) (operands : List UInt32) : Call := .put .execModes 16 (fn :: mode :: operands)
def capability (cap : UInt32) : Call := .put .caps 17 [cap]
def extension (name : List UInt8) : Call := .put .exts 10 (putString name)
def endFunction : Call := .put .fnBody 56 []
def emit (op : UInt16) (resultType : UInt32) (operands : List UInt32) : Call :=
  .define .fnBody op [resultType] operands
def emitVoid (op : UInt16) (operands : List UInt32) : Call := .put .fnBody op operands
/-- `glsl_ext_` is the first id. -/
def extInst (resultType glslOp : UInt32) (operands : List UInt32) : Call := emit 12 resultType (1 :: glslOp :: operands)
def load (type ptr : UInt32) : Call := emit 61 type [ptr]
def store (ptr value : UInt32) : Call := emitVoid 62 [ptr, value]
def accessChain (ptrType base : UInt32) (indices : List UInt32) : Call := emit 65 ptrType (base :: indices)
def bitcast (type value : UInt32) : Call := emit 124 type [value]
def compositeExtract (type composite index : UInt32) : Call := emit 81 type [composite, index]
def compositeConstruct (type : UInt32) (parts : List UInt32) : Call := emit 80 type parts
def vectorShuffle (type a b : UInt32) (comps : List UInt32) : Call := emit 79 type (a :: b :: comps)
def selectionMerge (mergeBlock : UInt32) : Call := emitVoid 247 [mergeBlock, 0]
def loopMerge (mergeBlock continueBlock : UInt32) : Call := emitVoid 246 [mergeBlock, continueBlock, 0]
def branch (target : UInt32) : Call := emitVoid 249 [target]
def branchConditional (cond t f : UInt32) : Call := emitVoid 250 [cond, t, f]
def switch (selector defaultLabel : UInt32) (cases : List (UInt32 × UInt32)) : Call :=
  emitVoid 251 (selector :: defaultLabel :: cases.flatMap fun c => [c.1, c.2])
def returnVoid : Call := emitVoid 253 []
def unreachable : Call := emitVoid 255 []
def kill : Call := emitVoid 252 []

end Call

def runFrom (m : Module) : List Call → List (Entity × UInt32) × Module
  | [] => ([], m)
  | c :: rest =>
    let (answer, m) := m.step c
    let (answers, m) := runFrom m rest
    (answer.toList ++ answers, m)

def assemble (m : Module) : List UInt32 :=
  [0x07230203, 0x00010600, 0, m.bound, 0] ++ sectionOrder.flatMap m.words

end Module

/-! ## Parsing by word counts -/

def parseInstrs : ℕ → List UInt32 → Option (List Instruction)
  | _, [] => some []
  | 0, _ :: _ => none
  | fuel + 1, w :: rest =>
    let wc := (w >>> 16).toNat
    if wc = 0 ∨ rest.length < wc - 1 then none
    else (parseInstrs fuel (rest.drop (wc - 1))).map (⟨w.toUInt16, rest.take (wc - 1)⟩ :: ·)

def parse : List UInt32 → Option (UInt32 × List Instruction)
  | magic :: _ :: _ :: bound :: _ :: rest =>
    if magic = 0x07230203 then (parseInstrs rest.length rest).map (bound, ·) else none
  | _ => none

namespace Module

def ofSection (m : Module) (sec : Section) : List Instruction :=
  (m.emitted.filter (·.sec = sec)).map Emitted.inst

def results (m : Module) : List UInt32 := m.emitted.filterMap Emitted.result

structure WellFormed (r : List (Entity × UInt32) × Module) : Prop where
  parsed : parse r.2.assemble = some (r.2.bound, sectionOrder.flatMap r.2.ofSection)
  unique : r.2.results.Nodup
  below : ∀ id ∈ r.2.results, 0 < id.toNat ∧ id.toNat < r.2.bound.toNat
  shared : ∀ x ∈ r.1, ∀ y ∈ r.1, x.2 = y.2 ↔ x.1 = y.1

/-! ## The condition -/

def Entity.Fits : Entity → Prop
  | typeVec _ count => count.toNat < 2 ^ 24
  | typeArray _ len => len.toNat < 2 ^ 24
  | typePointer sc _ => sc.toNat < 2 ^ 24
  | typeStruct members => members.length < 65534
  | typeFunction _ params => params.length < 65533
  | _ => True

def Call.ids : Call → ℕ
  | request _ => 3
  | beginFunction _ _ parameterTypes => parameterTypes.length + 2
  | _ => 1

def Meets (m : Module) (c : Call) : Prop :=
  m.bound.toNat + c.ids < 2 ^ 32 ∧ match c with
    | .request e => e.Fits
    | .define _ _ pre post => pre.length + post.length < 65534
    | .put _ _ ops => ops.length ≤ 65534
    | .entryPoint _ _ name => (putString name).length + m.globals.length ≤ 65532
    | .openBlock label => 0 < label.toNat ∧ label.toNat < m.bound.toNat ∧ label ∉ m.results
    | _ => True

def MeetsAll (m : Module) : List Call → Prop
  | [] => True
  | c :: rest => m.Meets c ∧ MeetsAll (m.step c).2 rest

/-! ## The invariant -/

structure Inv (m : Module) : Prop where
  words : ∀ sec, m.words sec = (m.ofSection sec).flatMap Instruction.words
  short : ∀ x ∈ m.emitted, x.inst.ops.length ≤ 65534
  unique : m.results.Nodup
  below : ∀ id ∈ m.results, 0 < id.toNat ∧ id.toNat < m.bound.toNat
  pos : 0 < m.bound.toNat
  cached_below : ∀ k id, m.cache k = some id → id.toNat < m.bound.toNat
  cached_inj : ∀ k l id, m.cache k = some id → m.cache l = some id → k = l

/-- What a step keeps: the cache only grows, and at most `n` ids are taken. -/
structure Extends (n : ℕ) (m m' : Module) : Prop where
  inv : m'.Inv
  cache : ∀ k id, m.cache k = some id → m'.cache k = some id
  bound : m'.bound.toNat ≤ m.bound.toNat + n

variable {m m' m'' : Module} {n n' : ℕ} {sec : Section} {op : UInt16} {k : CacheKey}

theorem Extends.trans (h : Extends n m m') (h' : Extends n' m' m'') : Extends (n + n') m m'' := by
  refine ⟨h'.inv, fun k id hk => h'.cache k id (h.cache k id hk), ?_⟩
  have hfirst := h.bound
  have hsecond := h'.bound
  omega

theorem Inv.refl (h : m.Inv) (n : ℕ) : Extends n m m := ⟨h, fun _ _ hk => hk, Nat.le_add_right _ _⟩

theorem Inv.instr (h : m.Inv) {ops : List UInt32} {result : Option UInt32} (hops : ops.length ≤ 65534)
    (hnew : ∀ id ∈ result, id ∉ m.results ∧ 0 < id.toNat ∧ id.toNat < m.bound.toNat) :
    Extends 0 m (m.instr sec op ops result) := by
  have hresults : (m.instr sec op ops result).results = m.results ++ result.toList := by
    rw [results, results, Module.instr, List.filterMap_append]
    cases result <;> rfl
  refine ⟨⟨fun sec' => ?_, ?_, ?_, ?_, h.pos, h.cached_below, h.cached_inj⟩, fun _ _ hk => hk, Nat.le_refl _⟩
  · -- only the section of the instruction grows
    rw [ofSection, Module.instr]
    dsimp only
    rw [List.filter_append, List.map_append, List.flatMap_append]
    have hold := h.words sec'
    rw [ofSection] at hold
    by_cases hsec : sec' = sec
    · subst hsec
      rw [Function.update_self, hold]
      simp
    · rw [Function.update_of_ne hsec, hold]
      simp [Ne.symm hsec]
  · intro x hx
    rcases List.mem_append.mp hx with hx | hx
    · exact h.short x hx
    · rw [List.mem_singleton.mp hx]
      exact hops
  · rw [hresults]
    refine List.nodup_append.mpr ⟨h.unique, by cases result <;> simp, fun x hx y hy hxy => ?_⟩
    exact (hnew y (Option.mem_toList.mp hy)).1 (hxy ▸ hx)
  · intro id hid
    rw [hresults] at hid
    rcases List.mem_append.mp hid with hid | hid
    · exact h.below id hid
    · exact (hnew id (Option.mem_toList.mp hid)).2

theorem Inv.alloc (h : m.Inv) (hroom : m.bound.toNat + 1 < 2 ^ 32) :
    Extends 1 m m.alloc.2 ∧ m.alloc.2.bound.toNat = m.bound.toNat + 1 := by
  have hbound : m.alloc.2.bound.toNat = m.bound.toNat + 1 := by
    rw [Module.alloc, UInt32.toNat_add]
    exact Nat.mod_eq_of_lt hroom
  refine ⟨⟨⟨h.words, h.short, h.unique, fun id hid => ?_, ?_, fun k id hk => ?_, h.cached_inj⟩, fun _ _ hk => hk, ?_⟩,
    hbound⟩
  · have hold := h.below id hid
    exact ⟨hold.1, by omega⟩
  · omega
  · have hold := h.cached_below k id hk
    omega
  · omega

theorem Inv.define (h : m.Inv) (hroom : m.bound.toNat + 1 < 2 ^ 32) {ops : List UInt32} (hops : ops.length ≤ 65534) :
    Extends 1 m (m.alloc.2.instr sec op ops (some m.bound)) := by
  obtain ⟨halloc, hbound⟩ := h.alloc hroom
  refine halloc.trans (halloc.inv.instr hops ?_)
  intro id hid
  obtain rfl := Option.some.inj hid
  -- no instruction has the bound as its id
  exact ⟨fun hmem => Nat.lt_irrefl _ (h.below _ hmem).2, h.pos, by omega⟩

theorem Inv.defineCached (h : m.Inv) (hroom : m.bound.toNat + 1 < 2 ^ 32) {ops : UInt32 → List UInt32}
    (hops : (ops m.bound).length ≤ 65534) (hk : m.cache k = none) :
    Extends 1 m (m.defineCached k op ops).2 ∧ (m.defineCached k op ops).2.cache k = some (m.defineCached k op ops).1 := by
  have hdef := @Inv.define m .typesConsts op h hroom _ hops
  have hbound := (h.alloc hroom).2
  have hcache (l : CacheKey) : (m.defineCached k op ops).2.cache l = if l = k then some m.bound else m.cache l :=
    Function.update_apply ..
  have hnew (l : CacheKey) (hl : m.cache l = some m.bound) : False :=
    Nat.lt_irrefl _ (h.cached_below l _ hl)
  refine ⟨⟨⟨hdef.inv.words, hdef.inv.short, hdef.inv.unique, hdef.inv.below, hdef.inv.pos, fun l id hl => ?_,
    fun l l' id hl hl' => ?_⟩, fun l id hl => ?_, hdef.bound⟩, (hcache k).trans (if_pos rfl)⟩
  · rw [hcache] at hl
    split at hl
    · rw [← Option.some.inj hl]
      exact hbound ▸ Nat.lt_succ_self _
    · exact hdef.inv.cached_below l id hl
  · rw [hcache] at hl hl'
    split at hl <;> split at hl' <;> rename_i hlk hlk'
    · rw [hlk, hlk']
    · exact (hnew l' (hl'.trans hl.symm)).elim
    · exact (hnew l (hl.trans hl'.symm)).elim
    · exact h.cached_inj l l' id hl hl'
  · rw [hcache, if_neg]
    · exact hl
    · rintro rfl
      exact absurd (hk.symm.trans hl) (Option.some_ne_none id).symm

def Answers (n : ℕ) (k : CacheKey) (m : Module) (r : UInt32 × Module) : Prop :=
  Extends n m r.2 ∧ r.2.cache k = some r.1

theorem Inv.cached (h : m.Inv) (hroom : m.bound.toNat + 1 < 2 ^ 32) {ops : UInt32 → List UInt32}
    (hops : ∀ id, (ops id).length ≤ 65534) : Answers 1 k m (m.cached k op ops) := by
  rw [Module.cached]
  cases hk : m.cache k with
  | some id => exact ⟨h.refl 1, hk⟩
  | none => exact h.defineCached hroom (hops _) hk

theorem Inv.constant (h : m.Inv) (hroom : m.bound.toNat + 2 < 2 ^ 32) {ops : List UInt32} (hops : ops.length ≤ 1)
    {type : Module → UInt32 × Module} {l : CacheKey} (htype : Answers 1 l m (type m)) (hkeys : m.cache k = none →
      (type m).2.cache k = none) : Answers 2 k m (m.constant k type op ops) := by
  rw [Module.constant]
  cases hk : m.cache k with
  | some id => exact ⟨h.refl 2, hk⟩
  | none =>
    obtain ⟨hext, -⟩ := htype
    have hbound := hext.bound
    obtain ⟨hdef, hans⟩ := @Inv.defineCached (type m).2 op k hext.inv (by omega)
      (fun id => (type m).1 :: id :: ops) (by simp; omega) (hkeys hk)
    exact ⟨hext.trans hdef, hans⟩

/-! ## Requests -/

theorem key_eq (kind a b : ℕ) (ha : a < 2 ^ 32) : key kind a b = .packed (kind * 2 ^ 56 + (a * 2 ^ 24 + b % 2 ^ 24)) := by
  have hb : b % 2 ^ 24 < 2 ^ 24 := Nat.mod_lt _ (by decide)
  rw [key, show (0xFFFFFF : ℕ) = 2 ^ 24 - 1 from rfl, Nat.and_two_pow_sub_one_eq_mod, Nat.or_assoc,
    Nat.or_comm (a <<< 24), or_shiftLeft hb, Nat.or_comm, or_shiftLeft (by omega)]

theorem key_injective {kind a b kind' a' b' : ℕ} (ha : a < 2 ^ 32) (ha' : a' < 2 ^ 32) (hb : b < 2 ^ 24)
    (hb' : b' < 2 ^ 24) (h : key kind a b = key kind' a' b') : kind = kind' ∧ a = a' ∧ b = b' := by
  rw [key_eq kind a b ha, key_eq kind' a' b' ha', CacheKey.packed.injEq] at h
  omega

def entityOf : ℕ → ℕ → ℕ → Entity
  | 0, _, _ => .typeVoid
  | 1, _, _ => .typeBool
  | 2, a, b => .typeInt (.ofNat a) (b == 1)
  | 3, a, _ => .typeFloat (.ofNat a)
  | 4, a, b => .typeVec (.ofNat a) (.ofNat b)
  | 5, a, b => .typeArray (.ofNat a) (.ofNat b)
  | 6, a, _ => .typeRuntimeArray (.ofNat a)
  | 7, a, b => .typePointer (.ofNat b) (.ofNat a)
  | 8, a, _ => .constU32 (.ofNat a)
  | 9, a, _ => .constI32 (.ofNat a)
  | 10, a, _ => .constF32 (.ofNat a)
  | 11, a, _ => .constBool (a == 1)
  | _, a, _ => .constNull (.ofNat a)

theorem Entity.key_cases (e : Entity) (he : e.Fits) :
    (∃ kind a b, a < 2 ^ 32 ∧ b < 2 ^ 24 ∧ e.key = Module.key kind a b ∧ entityOf kind a b = e) ∨
      (∃ l, e = typeStruct l) ∨ ∃ ret l, e = typeFunction ret l := by
  have hval (w : UInt32) : w.toNat < 2 ^ 32 := w.toNat_lt
  cases e with
  | typeVoid => exact .inl ⟨0, 0, 0, by decide, by decide, rfl, rfl⟩
  | typeBool => exact .inl ⟨1, 0, 0, by decide, by decide, rfl, rfl⟩
  | typeInt w sign => exact .inl ⟨2, w.toNat, sign.toNat, hval w, by cases sign <;> decide, rfl, by cases sign <;> simp [entityOf]⟩
  | typeFloat w => exact .inl ⟨3, w.toNat, 0, hval w, by decide, rfl, by simp [entityOf]⟩
  | typeVec comp count => exact .inl ⟨4, comp.toNat, count.toNat, hval comp, he, rfl, by simp [entityOf]⟩
  | typeArray elem len => exact .inl ⟨5, elem.toNat, len.toNat, hval elem, he, rfl, by simp [entityOf]⟩
  | typeRuntimeArray elem => exact .inl ⟨6, elem.toNat, 0, hval elem, by decide, rfl, by simp [entityOf]⟩
  | typeStruct l => exact .inr (.inl ⟨l, rfl⟩)
  | typePointer sc pointee => exact .inl ⟨7, pointee.toNat, sc.toNat, hval pointee, he, rfl, by simp [entityOf]⟩
  | typeFunction ret l => exact .inr (.inr ⟨ret, l, rfl⟩)
  | constU32 v => exact .inl ⟨8, v.toNat, 0, hval v, by decide, rfl, by simp [entityOf]⟩
  | constI32 v => exact .inl ⟨9, v.toNat, 0, hval v, by decide, rfl, by simp [entityOf]⟩
  | constF32 v => exact .inl ⟨10, v.toNat, 0, hval v, by decide, rfl, by simp [entityOf]⟩
  | constBool v => exact .inl ⟨11, v.toNat, 0, by cases v <;> decide, by decide, rfl, by cases v <;> simp [entityOf]⟩
  | constNull type => exact .inl ⟨12, type.toNat, 0, hval type, by decide, rfl, by simp [entityOf]⟩

/-- **Requests that fit have a key of their own.** -/
theorem Entity.key_inj {e f : Entity} (he : e.Fits) (hf : f.Fits) (h : e.key = f.key) : e = f := by
  rcases e.key_cases he with ⟨kind, a, b, ha, hb, hkey, hof⟩ | ⟨l, rfl⟩ | ⟨ret, l, rfl⟩ <;>
    rcases f.key_cases hf with ⟨kind', a', b', ha', hb', hkey', hof'⟩ | ⟨l', rfl⟩ | ⟨ret', l', rfl⟩
  · obtain ⟨rfl, rfl, rfl⟩ := key_injective ha ha' hb hb' (hkey.symm.trans (h.trans hkey'))
    exact hof.symm.trans hof'
  all_goals simp_all [Entity.key, Module.key]

theorem Inv.typeInt (h : m.Inv) (hroom : m.bound.toNat + 1 < 2 ^ 32) (width : UInt32) (sign : Bool) :
    Answers 1 (Entity.typeInt width sign).key m (m.typeInt width sign) :=
  h.cached hroom fun _ => by simp

/-- Another entity is not cached because its type has become so. -/
theorem cached_other {op : UInt16} {ops : UInt32 → List UInt32} {l : CacheKey} (hkl : k ≠ l) (hk : m.cache k = none) :
    (m.cached l op ops).2.cache k = none := by
  rw [Module.cached]
  split
  · exact hk
  · exact (Function.update_of_ne hkl ..).trans hk

theorem Inv.constU32 (h : m.Inv) (hroom : m.bound.toNat + 2 < 2 ^ 32) (v : UInt32) :
    Answers 2 (Entity.constU32 v).key m (m.constU32 v) := by
  refine h.constant hroom (by simp) (h.typeInt (by omega) 32 false) fun hk => cached_other ?_ hk
  intro hkey
  exact absurd (@Entity.key_inj (.constU32 v) (.typeInt 32 false) trivial trivial hkey) Entity.noConfusion

theorem Inv.request (h : m.Inv) (hroom : m.bound.toNat + 3 < 2 ^ 32) {e : Entity} (he : e.Fits) :
    Answers 3 e.key m (m.request e) := by
  have weaken {n : ℕ} {r : UInt32 × Module} (hn : n ≤ 3) (hr : Answers n e.key m r) : Answers 3 e.key m r :=
    ⟨⟨hr.1.inv, hr.1.cache, Nat.le_trans hr.1.bound (Nat.add_le_add_left hn _)⟩, hr.2⟩
  have hone : m.bound.toNat + 1 < 2 ^ 32 := by omega
  have htwo : m.bound.toNat + 2 < 2 ^ 32 := by omega
  have hother {e f : Entity} (he : e.Fits) (hf : f.Fits) (hne : e ≠ f) : e.key ≠ f.key :=
    fun hkey => hne (Entity.key_inj he hf hkey)
  cases e with
  | typeInt w sign => exact weaken (by decide) (h.typeInt hone w sign)
  | typeArray elem len =>
    obtain ⟨hext, -⟩ := h.constU32 htwo len
    have hbound := hext.bound
    obtain ⟨hlast, hans⟩ := @Inv.cached (m.constU32 len).2 28 (Entity.typeArray elem len).key hext.inv
      (by omega) (fun id => [id, elem, (m.constU32 len).1]) fun _ => by simp
    exact ⟨hext.trans hlast, hans⟩
  | typeStruct l => exact weaken (by decide) (h.cached hone fun _ => Nat.succ_le_of_lt he)
  | typeFunction ret l => exact weaken (by decide) (h.cached hone fun _ => Nat.succ_le_succ (Nat.succ_le_of_lt he))
  | constU32 v => exact weaken (by decide) (h.constU32 htwo v)
  | constI32 v =>
    exact weaken (by decide) (h.constant htwo (by simp) (h.typeInt hone 32 true) fun hk =>
      cached_other (hother trivial trivial Entity.noConfusion) hk)
  | constF32 v | constBool v =>
    exact weaken (by decide) (h.constant htwo (by simp) (h.cached hone fun _ => by simp) fun hk =>
      cached_other (hother trivial trivial Entity.noConfusion) hk)
  | _ => exact weaken (by decide) (h.cached hone fun _ => by simp)

/-! ## Calls -/

theorem Inv.defineCall (h : m.Inv) (hroom : m.bound.toNat + 1 < 2 ^ 32) {pre post : List UInt32}
    (hops : pre.length + post.length < 65534) : Extends 1 m (m.define sec op pre post).2 :=
  h.define hroom (by simp only [List.length_append, List.length_cons]; omega)

theorem Inv.parameters (h : m.Inv) {types : List UInt32} (hroom : m.bound.toNat + types.length < 2 ^ 32) :
    Extends types.length m (parameters types m).2 := by
  induction types generalizing m with
  | nil => exact h.refl 0
  | cons type rest ih =>
    rw [List.length_cons] at hroom
    have hone := @Inv.defineCall m .fnBody 55 h (by omega) [type] [] (by simp)
    have hbound := hone.bound
    have hrest := ih hone.inv (by omega)
    rw [List.length_cons, Nat.add_comm]
    exact hone.trans hrest

theorem Inv.clearMemModel (h : m.Inv) : Extends 0 m m.clearMemModel := by
  have hsub : m.clearMemModel.results.Sublist m.results := (List.filter_sublist ..).filterMap _
  refine ⟨⟨fun sec => ?_, fun x hx => h.short x (List.mem_filter.mp hx).1, h.unique.sublist hsub,
    fun id hid => h.below id (hsub.subset hid), h.pos, h.cached_below, h.cached_inj⟩, fun _ _ hk => hk, Nat.le_refl _⟩
  have hold := h.words sec
  rw [ofSection] at hold ⊢
  rw [Module.clearMemModel]
  dsimp only
  rw [List.filter_filter]
  by_cases hsec : sec = .memModel
  · subst hsec
    rw [Function.update_self, List.filter_eq_nil_iff.mpr (by simp)]
    rfl
  · rw [Function.update_of_ne hsec, hold]
    congr 2
    apply List.filter_congr
    intro x _
    by_cases hx : x.sec = sec
    · simp [hx, hsec]
    · simp [hx]

/-- Instructions that define nothing. -/
theorem Inv.put (h : m.Inv) {ops : List UInt32} (hops : ops.length ≤ 65534) : Extends 0 m (m.instr sec op ops none) :=
  h.instr hops fun _ hid => nomatch hid

/-- **One call** keeps the invariant, and what it answers is in the cache. -/
theorem Inv.step (h : m.Inv) {c : Call} (hc : m.Meets c) : (m.step c).2.Inv ∧
    (∀ k id, m.cache k = some id → (m.step c).2.cache k = some id) ∧
    ∀ x ∈ (m.step c).1, x.1.Fits ∧ (m.step c).2.cache x.1.key = some x.2 := by
  obtain ⟨hroom, hfits⟩ := hc
  have hquiet {n : ℕ} {m' : Module} (hext : Extends n m m') : m'.Inv ∧
      (∀ k id, m.cache k = some id → m'.cache k = some id) ∧
      ∀ x ∈ (none : Option (Entity × UInt32)), x.1.Fits ∧ m'.cache x.1.key = some x.2 :=
    ⟨hext.inv, hext.cache, fun _ hx => nomatch hx⟩
  cases c with
  | request e =>
    obtain ⟨hext, hans⟩ := h.request hroom hfits
    refine ⟨hext.inv, hext.cache, fun x hx => ?_⟩
    obtain rfl := Option.some.inj hx
    exact ⟨hfits, hans⟩
  | alloc => exact hquiet (h.alloc hroom).1
  | define sec op pre post => exact hquiet (h.defineCall hroom hfits)
  | put sec op ops => exact hquiet (h.put hfits)
  | «variable» ptrType sc init =>
    have hext := @Inv.defineCall m .typesConsts 59 h hroom [ptrType] (sc :: if init ≠ 0 then [init] else [])
      (by split <;> simp)
    exact ⟨⟨hext.inv.words, hext.inv.short, hext.inv.unique, hext.inv.below, hext.inv.pos, hext.inv.cached_below,
      hext.inv.cached_inj⟩, hext.cache, fun _ hx => nomatch hx⟩
  | entryPoint model fn name =>
    refine hquiet (h.put ?_)
    simp only [List.length_append, List.length_cons]
    have hsum : (putString name).length + m.globals.length ≤ 65532 := hfits
    omega
  | physicalStorageBuffers =>
    have hcaps := @Inv.put m .caps 17 h [11] (by simp)
    have hcaps' := @Inv.put _ .caps 17 hcaps.inv [5347] (by simp)
    have hexts := @Inv.put _ .exts 10 hcaps'.inv (putString storageBufferExtension) (by decide)
    have hclear := hexts.inv.clearMemModel
    have hmodel := @Inv.put _ .memModel 14 hclear.inv [5348, 1] (by simp)
    exact hquiet ((((hcaps.trans hcaps').trans hexts).trans hclear).trans hmodel)
  | beginFunction retType fnType parameterTypes =>
    have hids : m.bound.toNat + (parameterTypes.length + 2) < 2 ^ 32 := hroom
    have hfn := @Inv.defineCall m .fnBody 54 h (by omega) [retType] [0, fnType] (by simp)
    have hfnBound := hfn.bound
    have hparams := @Inv.parameters _ hfn.inv parameterTypes (by omega)
    have hparamsBound := hparams.bound
    have hlabel := @Inv.defineCall _ .fnBody 248 hparams.inv (by omega) [] [] (by simp)
    exact hquiet ((hfn.trans hparams).trans hlabel)
  | openBlock label =>
    refine hquiet (h.instr (by simp) ?_)
    intro id hid
    obtain rfl := Option.some.inj hid
    exact ⟨hfits.2.2, hfits.1, hfits.2.1⟩

theorem inv_new : new.Inv where
  words sec := by cases sec <;> rfl
  short := by decide
  unique := by decide
  below id hid := by
    have hresults : new.results = [1] := by decide
    rw [hresults, List.mem_singleton] at hid
    subst hid
    decide
  pos := by decide
  cached_below _ _ h := nomatch h
  cached_inj _ _ _ h := nomatch h

/-- **A run** keeps the invariant, and every answer stays in the cache. -/
theorem Inv.runFrom (h : m.Inv) {calls : List Call} (hc : MeetsAll m calls) : (m.runFrom calls).2.Inv ∧
    (∀ k id, m.cache k = some id → (m.runFrom calls).2.cache k = some id) ∧
    ∀ x ∈ (m.runFrom calls).1, x.1.Fits ∧ (m.runFrom calls).2.cache x.1.key = some x.2 := by
  induction calls generalizing m with
  | nil => exact ⟨h, fun _ _ hk => hk, fun _ hx => nomatch hx⟩
  | cons c rest ih =>
    obtain ⟨hinv, hcache, hans⟩ := h.step hc.1
    obtain ⟨hinv', hcache', hans'⟩ := ih hinv hc.2
    refine ⟨hinv', fun k id hk => hcache' k id (hcache k id hk), fun x hx => ?_⟩
    rcases List.mem_append.mp hx with hx | hx
    · obtain ⟨hfits, hkey⟩ := hans x (Option.mem_toList.mp hx)
      exact ⟨hfits, hcache' _ _ hkey⟩
    · exact hans' x hx

/-! ## Assembled modules parse -/

theorem Instruction.first_word {i : Instruction} (hi : i.ops.length ≤ 65534) :
    (((1 + UInt32.ofNat i.ops.length) <<< 16 ||| i.op.toUInt32) >>> 16).toNat = i.ops.length + 1 ∧
      ((1 + UInt32.ofNat i.ops.length) <<< 16 ||| i.op.toUInt32).toUInt16 = i.op := by
  have hop := i.op.toNat_lt
  have hcount : (1 + UInt32.ofNat i.ops.length).toNat = i.ops.length + 1 := by
    rw [UInt32.toNat_add, UInt32.toNat_ofNat', UInt32.toNat_one]
    omega
  have hword : ((1 + UInt32.ofNat i.ops.length) <<< 16 ||| i.op.toUInt32).toNat =
      (i.ops.length + 1) * 2 ^ 16 + i.op.toNat := by
    rw [UInt32.toNat_or, UInt32.toNat_shiftLeft, hcount, UInt16.toNat_toUInt32, Nat.or_comm,
      show (16 : UInt32).toNat % 32 = 16 from rfl, Nat.mod_eq_of_lt (by rw [Nat.shiftLeft_eq]; omega), or_shiftLeft hop]
  constructor
  · rw [UInt32.toNat_shiftRight, hword, show (16 : UInt32).toNat % 32 = 16 from rfl, Nat.shiftRight_eq_div_pow]
    omega
  · rw [← UInt16.toNat_inj, UInt32.toNat_toUInt16, hword]
    omega

theorem parseInstrs_words {l : List Instruction} (hl : ∀ i ∈ l, i.ops.length ≤ 65534) {fuel : ℕ}
    (hfuel : (l.flatMap Instruction.words).length ≤ fuel) :
    parseInstrs fuel (l.flatMap Instruction.words) = some l := by
  induction l generalizing fuel with
  | nil => cases fuel <;> rfl
  | cons i rest ih =>
    obtain ⟨hcount, hop⟩ := Instruction.first_word (hl i List.mem_cons_self)
    rw [List.flatMap_cons, Instruction.words, List.cons_append] at hfuel ⊢
    rw [List.length_cons, List.length_append] at hfuel
    obtain ⟨fuel, rfl⟩ : ∃ f, fuel = f + 1 := ⟨fuel - 1, by omega⟩
    rw [parseInstrs, hcount, hop, if_neg (by simp), Nat.add_sub_cancel, List.drop_left, List.take_left,
      ih (fun j hj => hl j (List.mem_cons_of_mem _ hj)) (by omega)]
    rfl

theorem Inv.parsed (h : m.Inv) : parse m.assemble = some (m.bound, sectionOrder.flatMap m.ofSection) := by
  have hwords : sectionOrder.flatMap m.words = (sectionOrder.flatMap m.ofSection).flatMap Instruction.words := by
    rw [List.flatMap_assoc]
    exact List.flatMap_congr fun sec _ => h.words sec
  have hshort : ∀ i ∈ sectionOrder.flatMap m.ofSection, i.ops.length ≤ 65534 := by
    intro i hi
    obtain ⟨sec, -, hi⟩ := List.mem_flatMap.mp hi
    obtain ⟨x, hx, rfl⟩ := List.mem_map.mp hi
    exact h.short x (List.mem_filter.mp hx).1
  have hparse := parseInstrs_words hshort (Nat.le_refl _)
  simp only [assemble, hwords, List.cons_append, List.nil_append, parse, if_true, hparse, Option.map_some]

/-- **Runs that meet the condition leave well-formed modules**: what is assembled reads back as what was emitted,
in the order of the sections, its ids are distinct and below the bound, and two cached requests share an id just
if they ask for the same. -/
theorem spirv_module_well_formed (calls : List Call) (h : MeetsAll new calls) : WellFormed (new.runFrom calls) := by
  obtain ⟨hinv, -, hans⟩ := inv_new.runFrom h
  refine ⟨hinv.parsed, hinv.unique, hinv.below, fun x hx y hy => ?_⟩
  obtain ⟨hfx, hkx⟩ := hans x hx
  obtain ⟨hfy, hky⟩ := hans y hy
  constructor
  · intro hid
    rw [← hid] at hky
    exact Entity.key_inj hfx hfy (hinv.cached_inj _ _ _ hkx hky)
  · intro he
    rw [he] at hkx
    exact Option.some.inj (hkx.symm.trans hky)

theorem spirv_module_well_formed_array :
    WellFormed (new.runFrom [.request (.typeFloat 32), .request (.typeArray 2 1)]) :=
  spirv_module_well_formed _ ⟨⟨by decide, trivial⟩, ⟨by decide +kernel, (by decide : (1 : UInt32).toNat < 2 ^ 24)⟩, trivial⟩

theorem array_lengths_collide : ¬∀ calls : List Call, WellFormed (new.runFrom calls) := by
  intro h
  have hrun : (new.runFrom [.request (.typeFloat 32), .request (.typeArray 2 1), .request (.typeArray 2 0x1000001)]).1 =
      [(.typeFloat 32, 2), (.typeArray 2 1, 5), (.typeArray 2 0x1000001, 5)] := by
    decide +kernel
  have hshared := (h _).shared (.typeArray 2 1, 5) (by rw [hrun]; simp) (.typeArray 2 0x1000001, 5) (by rw [hrun]; simp)
  exact absurd (hshared.mp rfl) (by decide)

end Module

end Prosperity.Spirv
