import Prosperity.Rdna.ScheduledDispatch

/-!
# The unscheduled control-flow lowerings

`EmitCfg` gives a program that no scheduler runs structured control flow if `Structurizer::Run` finds it, and
else a loop over a switch whose state is the number of a block. Both are compared with the program's own
control flow, which goes from instruction to instruction.
-/

namespace Prosperity.Rdna

open Gcn (Enc)

universe u v

variable {ρ : Type u} {μ : Type v}

/-! ## Blocks -/

section Blocks

variable (program : Program)

/-- `starts` of a program that is not scheduled. -/
def cfgStarts : List ℕ := blockStarts program (maxPc program)

def cfgExit : ℕ := (cfgStarts program).length

def cfgBlock (pc : ℕ) : ℕ := blockIn program (cfgStarts program) pc

def cfgStart (block : ℕ) : ℕ := startIn program (cfgStarts program) block

def cfgFall (block : ℕ) : ℕ := fallIn (cfgStarts program) block

def cfgBody (block : ℕ) : Program := between program (cfgStart program block) (cfgStart program (block + 1))

def cfgLink (inst : Inst) : ℕ := cfgFall program (cfgBlock program inst.pc)

/-- The pair holds what a call may have left. -/
def CfgLinked (r : WaveRegs ρ) (ssrc : ℕ) : Prop := ssrc < 125 ∧ r.sg ssrc ≤ cfgExit program ∧ r.sg (ssrc + 1) = 0

instance (r : WaveRegs ρ) (ssrc : ℕ) : Decidable (CfgLinked program r ssrc) :=
  inferInstanceAs (Decidable (_ ∧ _ ∧ _))

end Blocks

/-! ## The program's own control flow -/

section Own

variable (isa : WaveIsa ρ μ Unit) (program : Program)

def ownTransferRegs (inst : Inst) (r : WaveRegs ρ) : WaveRegs ρ :=
  if isCall inst = true ∧ callSdst inst ≠ 125 then
    (r.setSg (callSdst inst) (cfgLink program inst)).setSg (callSdst inst + 1) 0
  else r

def ownTransferPc (inst : Inst) (r : WaveRegs ρ) : ℕ :=
  if isCall inst then branchTarget inst
  else if isSetpc inst then
    if CfgLinked program r (returnSsrc inst) then cfgStart program (r.sg (returnSsrc inst)) else isa.elsewhere inst r
  else
    match branchKind inst with
    | .uncond => branchTarget inst
    | kind => if guestTaken kind r then branchTarget inst else inst.behind

/-- A run from an address to the end of the program, with the instructions that take effect. `meets` holds of each
instruction that is executed. -/
inductive OwnRun (meets : Inst → WaveRegs ρ → Prop) : ℕ → WaveRegs ρ × μ → List Inst → WaveRegs ρ × μ → Prop
  | past {pc s} : fetch program pc = none → OwnRun meets pc s [] s
  | stop {pc s inst} : fetch program pc = some inst → branchKind inst = .endpgm → OwnRun meets pc s [] s
  | plain {pc s inst t s'} : fetch program pc = some inst → meets inst s.1 → transfers inst = false →
      OwnRun meets (if goesElsewhere inst then isa.elsewhere inst s.1 else inst.behind) (isa.effect inst () s) t s' →
      OwnRun meets pc s (inst :: t) s'
  | transfer {pc s inst t s'} : fetch program pc = some inst → meets inst s.1 → transfers inst = true →
      branchKind inst ≠ .endpgm →
      OwnRun meets (ownTransferPc isa program inst s.1) (ownTransferRegs program inst s.1, s.2) t s' →
      OwnRun meets pc s t s'

/-- The lowerings send the control where the instruction does: it is no branch of the debugger, subvector loop,
`s_swappc_b64` or `s_rfe_b64`, a call names a register, and a return reads what a call may have left. -/
def Lowered (inst : Inst) (r : WaveRegs ρ) : Prop :=
  goesElsewhere inst = false ∧ (isCall inst = true → callSdst inst ≠ 125) ∧
    (isSetpc inst = true → CfgLinked program r (returnSsrc inst))

end Own

/-! ## The state machine -/

section Machine

variable (isa : WaveIsa ρ μ Unit) (program : Program)

def ordinary (body : Program) : Program := body.takeWhile fun inst => !transfers inst

/-- What instructions do, one behind the other. -/
def runAll (body : Program) (s : WaveRegs ρ × μ) : WaveRegs ρ × μ := body.foldl (fun s inst => isa.effect inst () s) s

def machineState (block : ℕ) (inst : Inst) (r : WaveRegs ρ) : ℕ :=
  if isCall inst then cfgBlock program (branchTarget inst)
  else if isSetpc inst then r.sg (returnSsrc inst)
  else
    match branchKind inst with
    | .endpgm => cfgExit program
    | .uncond => cfgBlock program (branchTarget inst)
    | kind => if branchTaken kind r then cfgBlock program (branchTarget inst) else cfgFall program block

/-- The registers behind it. -/
def machineRegs (block : ℕ) (inst : Inst) (r : WaveRegs ρ) : WaveRegs ρ :=
  if isCall inst then (r.setSg (callSdst inst) (cfgFall program block)).setSg (callSdst inst + 1) 0 else r

def blockNext (block : ℕ) (body : Program) (s : WaveRegs ρ × μ) : ℕ × (WaveRegs ρ × μ) :=
  let behind := runAll isa (ordinary body) s
  match body.find? transfers with
  | none => (cfgFall program block, behind)
  | some inst => (machineState program block inst behind.1, (machineRegs program block inst behind.1, behind.2))

/-- The loop over the switch, whose default leaves it. -/
inductive MachineRun (cap : ℕ) : ℕ → ℕ → WaveRegs ρ × μ → List Inst → WaveRegs ρ × μ → Prop
  | exit {it block s} : cfgExit program ≤ block → MachineRun cap it block s [] s
  | cut {it block s} : overCap cap it = true → MachineRun cap it block s [] s
  | block {it block s t s'} : overCap cap it = false → block < cfgExit program →
      MachineRun cap (it + 1) (blockNext isa program block (cfgBody program block) s).1
        (blockNext isa program block (cfgBody program block) s).2 t s' →
      MachineRun cap it block s (ordinary (cfgBody program block) ++ t) s'

end Machine

/-! ## `Structurizer::Build` -/

section Build

variable (program : Program)

def structKind (block : ℕ) : BranchKind := (((cfgBody program block).find? transfers).map branchKind).getD .none

def structSucc (block : ℕ) : List ℕ :=
  match (cfgBody program block).find? transfers with
  | none => [cfgFall program block]
  | some inst =>
    let target := cfgBlock program (branchTarget inst)
    if branchKind inst = .endpgm then [cfgExit program]
    else if branchKind inst = .uncond ∨ target = cfgFall program block then [target]
    else [target, cfgFall program block]

end Build

/-! ## `Structurizer::Analyze` -/

/-- The walk for an order of the nodes. -/
structure Dfs where
  stack : List (ℕ × ℕ)
  seen : List ℕ
  order : List ℕ

def Dfs.turn (out : ℕ → List ℕ) (d : Dfs) : Dfs :=
  match d.stack with
  | [] => d
  | (b, i) :: rest =>
    match (out b)[i]? with
    | none => { d with stack := rest, order := d.order ++ [b] }
    | some s =>
      if d.seen.contains s then { d with stack := (b, i + 1) :: rest }
      else { d with stack := (s, 0) :: (b, i + 1) :: rest, seen := s :: d.seen }

def dfs (fuel : ℕ) (out : ℕ → List ℕ) (root : ℕ) : Dfs := (Dfs.turn out)^[fuel] ⟨[(root, 0)], [root], []⟩

/-- The first node that both chains of dominators have. -/
def meetDoms (index : ℕ → ℕ) (dom : ℕ → Option ℕ) : ℕ → ℕ → ℕ → ℕ
  | 0, x, _ => x
  | fuel + 1, x, y =>
    if x = y then x
    else if index x > index y then meetDoms index dom fuel ((dom x).getD x) y
    else meetDoms index dom fuel x ((dom y).getD y)

/-- `Structurizer::Dominators`, of nodes in reverse postorder. -/
def structDominators (fuel nodes : ℕ) (rpo : List ℕ) (pred : ℕ → List ℕ) (root : ℕ) : List (Option ℕ) :=
  let turn := fun (dom : List (Option ℕ)) b =>
    if b = root then dom
    else
      dom.set b ((pred b).foldl (fun d p =>
        if rpo.contains p = false ∨ dom.getD p none = none then d
        else
          match d with
          | none => some p
          | some d => some (meetDoms (fun b => rpo.idxOf b) (fun x => dom.getD x none) fuel p d)) none)
  (fun dom => rpo.foldl turn dom)^[fuel] ((List.replicate nodes none).set root (some root))

/-- `Structurizer::Dominates` -/
def structDominates (idom : ℕ → Option ℕ) (a : ℕ) : ℕ → ℕ → Bool
  | 0, _ => false
  | fuel + 1, x =>
    if x = a then true
    else
      match idom x with
      | none => false
      | some next => if x = 0 ∨ next = x then false else structDominates idom a fuel next

def growLoop (pred : ℕ → List ℕ) (reachable : ℕ → Bool) : ℕ → List ℕ → List ℕ → List ℕ
  | 0, _, nodes => nodes
  | _, [], nodes => nodes
  | fuel + 1, x :: work, nodes =>
    if nodes.contains x then growLoop pred reachable fuel work nodes
    else growLoop pred reachable fuel (((pred x).filter reachable).reverse ++ work) (x :: nodes)

/-- What `Analyze` finds. -/
structure Shape where
  ipdom : ℕ → Option ℕ
  inLoop : ℕ → List ℕ
  exitOf : ℕ → ℕ

def analyze (fuel : ℕ) (program : Program) : Option Shape :=
  let n := cfgExit program
  let succ := fun b => if b < n then structSucc program b else []
  let pred := fun s => (List.range n).flatMap fun b => (structSucc program b).filterMap fun x => if x = s then some b else none
  let walk := dfs fuel succ 0
  let reachable := fun b => walk.seen.contains b
  if !reachable n then none
  else
    let rpo := walk.order.reverse
    let idom := structDominators fuel (n + 1) rpo pred 0
    let back := dfs fuel (fun b => (pred b).filter reachable) n
    if (List.range (n + 1)).any fun b => reachable b && !back.seen.contains b then none
    else
      let ipdom := structDominators fuel (n + 1) back.order.reverse (fun b => if reachable b then succ b else []) n
      let edges := (List.range n).flatMap fun b => (structSucc program b).map fun s => (b, s)
      let retreating := edges.filter fun (b, s) => reachable b && s ≠ n && rpo.idxOf s ≤ rpo.idxOf b
      if retreating.any fun (b, s) => !structDominates (fun x => idom.getD x none) s (n + 2) b then none
      else
        let loops := retreating.foldl (fun (loops : List (List ℕ)) (b, s) =>
          let nodes := loops.getD s []
          loops.set s (growLoop pred reachable fuel [b] (if nodes.contains s then nodes else s :: nodes)))
          (List.replicate (n + 1) [])
        let inLoop := fun h => loops.getD h []
        let exits := fun h => (edges.filter fun (x, s) => (inLoop h).contains x && !(inLoop h).contains s).map Prod.snd
        if (List.range n).any fun h =>
            !(inLoop h).isEmpty && ((exits h).isEmpty || (exits h).any fun s => s ≠ (exits h).headD 0) then none
        else some ⟨fun b => ipdom.getD b none, inLoop, fun h => (exits h).headD 0⟩

/-! ## `Structurizer::Emit` -/

/-- Structured code. A branch to a merge block is the end of an arm, and stands for itself where it leaves. -/
inductive Emitted where
  /-- The block stays open: it falls into what follows. -/
  | done
  /-- `OpBranch` to a label of the enclosing loop. -/
  | leave (label : ℕ)
  | unreachable
  | block (number : ℕ) (rest : Emitted)
  | select (kind : BranchKind) (merge : ℕ) (taken other rest : Emitted)
  | loop (header cont brk : ℕ) (body rest : Emitted)

def Emitted.falls : Emitted → Bool
  | done => true
  | leave _ => false
  | unreachable => false
  | block _ rest => rest.falls
  | select _ _ _ _ rest => rest.falls
  | loop _ _ _ _ rest => rest.falls

/-- `Structurizer::Loop` -/
structure LoopCtx where
  header : ℕ
  exit : ℕ
  cont : ℕ
  brk : ℕ

section Emit

variable (program : Program) (shape : Shape)

/-- `InLoop` -/
def inLoopCtx (loop : Option LoopCtx) (b : ℕ) : Bool := loop.all fun ctx => (shape.inLoop ctx.header).contains b

/-- `merge` of a selection: the immediate post-dominator where it lies in the construct. -/
def mergeOf (b : ℕ) (stop : Option ℕ) (loop : Option LoopCtx) : Option ℕ :=
  match shape.ipdom b with
  | none => stop
  | some m => if inLoopCtx shape loop m && loop.all fun ctx => m ≠ ctx.header && m ≠ ctx.exit then some m else stop

/-- `Emit`, `EmitLoop` and `EmitBlock`, with the next label and how much is emitted; the dry run makes the same.
`enter` has `b` emitted as the header of its own loop. -/
def emit : ℕ → ℕ → Bool → ℕ → Option ℕ → Option LoopCtx → ℕ → Option (Emitted × ℕ × ℕ)
  | 0, _, _, _, _, _, _ => none
  | fuel + 1, guard, enter, b, stop, loop, label =>
    if !enter && stop = some b then some (.done, label, 0)
    else if !enter && guard > 4 * cfgExit program + 16 then none
    else
      match if enter then none else loop.filter fun ctx => b = ctx.header || b = ctx.exit with
      | some ctx => some (.leave (if b = ctx.header then ctx.cont else ctx.brk), label, 0)
      | none =>
        let guard := if enter then 0 else guard + 1
        if b = cfgExit program then none
        else if !enter && !(shape.inLoop b).isEmpty then
          let exit := shape.exitOf b
          if loop.any fun o => exit ≠ o.exit && exit ≠ o.header && !inLoopCtx shape loop exit then none
          else
            (emit fuel 0 true b none (some ⟨b, exit, label + 2, label + 3⟩) (label + 4)).bind fun (body, label', k) =>
              (emit fuel guard false exit stop loop label').map fun (rest, label'', k') =>
                (.loop label (label + 2) (label + 3) body rest, label'', k + k')
        else
          let size := (ordinary (cfgBody program b)).length + 1
          match structSucc program b with
          | [target, fall] =>
            let merge := mergeOf shape b stop loop
            (emit fuel 0 false target merge loop (label + 3)).bind fun (taken, label', k) =>
              (emit fuel 0 false fall merge loop label').bind fun (other, label'', k') =>
                if !taken.falls && !other.falls then
                  some (.block b (.select (structKind program b) label taken other .unreachable), label'', size + k + k')
                else
                  merge.bind fun m => (emit fuel guard false m stop loop label'').map fun (rest, label''', k'') =>
                    (.block b (.select (structKind program b) label taken other rest), label''', size + k + k' + k'')
          | next :: _ =>
            (emit fuel guard false next stop loop label).map fun (rest, label', k) => (.block b rest, label', size + k)
          | [] => none

end Emit

/-- `Structurizer::Run` -/
def structurize (fuel : ℕ) (program : Program) : Option Emitted :=
  if program.any fun inst => isCall inst || isSetpc inst then none
  else if cfgExit program = 0 ∨ cfgExit program > 2048 then none
  else
    (analyze fuel program).bind fun shape =>
      (emit program shape fuel 0 false 0 (some (cfgExit program)) none 0).bind fun (code, _, emitted) =>
        if emitted > 2 * program.length + 64 then none else some code

/-! ## Runs of structured code -/

/-- How structured code ends. -/
inductive Outcome where
  | fall
  | jump (label : ℕ)

section Exec

variable (isa : WaveIsa ρ μ Unit) (program : Program)

/-- A run of structured code, with the turns of the loops that have been counted. -/
inductive Exec (cap : ℕ) : Emitted → ℕ → WaveRegs ρ × μ → List Inst → Outcome → ℕ → WaveRegs ρ × μ → Prop
  | done {it s} : Exec cap .done it s [] .fall it s
  | leave {label it s} : Exec cap (.leave label) it s [] (.jump label) it s
  | block {b rest it s t o it' s'} : Exec cap rest it (runAll isa (ordinary (cfgBody program b)) s) t o it' s' →
      Exec cap (.block b rest) it s (ordinary (cfgBody program b) ++ t) o it' s'
  | merge {kind label taken other rest it s t it₁ s₁ t' o it' s'} :
      Exec cap (if branchTaken kind s.1 then taken else other) it s t .fall it₁ s₁ → Exec cap rest it₁ s₁ t' o it' s' →
      Exec cap (.select kind label taken other rest) it s (t ++ t') o it' s'
  | arm {kind label taken other rest it s t l it' s'} :
      Exec cap (if branchTaken kind s.1 then taken else other) it s t (.jump l) it' s' →
      Exec cap (.select kind label taken other rest) it s t (.jump l) it' s'
  | again {header cont brk body rest it s t it₁ s₁ t' o it' s'} :
      Exec cap body it s t (.jump cont) it₁ s₁ → overCap cap it₁ = false →
      Exec cap (.loop header cont brk body rest) (it₁ + 1) s₁ t' o it' s' →
      Exec cap (.loop header cont brk body rest) it s (t ++ t') o it' s'
  | cut {header cont brk body rest it s t it₁ s₁ t' o it' s'} :
      Exec cap body it s t (.jump cont) it₁ s₁ → overCap cap it₁ = true → Exec cap rest (it₁ + 1) s₁ t' o it' s' →
      Exec cap (.loop header cont brk body rest) it s (t ++ t') o it' s'
  | brk {header cont brk body rest it s t it₁ s₁ t' o it' s'} :
      Exec cap body it s t (.jump brk) it₁ s₁ → Exec cap rest it₁ s₁ t' o it' s' →
      Exec cap (.loop header cont brk body rest) it s (t ++ t') o it' s'
  | out {header cont brk body rest it s t l it' s'} : Exec cap body it s t (.jump l) it' s' → l ≠ cont → l ≠ brk →
      Exec cap (.loop header cont brk body rest) it s t (.jump l) it' s'

end Exec

/-- Each branch leaves its construct to the construct's merge, or to the continue or the break of the enclosing loop,
which are blocks of their own; the body of a loop leaves by such a branch. -/
def Structured : Option (ℕ × ℕ) → Emitted → Prop
  | _, .done => True
  | loop, .leave label => ∃ labels, loop = some labels ∧ (label = labels.1 ∨ label = labels.2)
  | _, .unreachable => True
  | loop, .block _ rest => Structured loop rest
  | loop, .select _ _ taken other rest => Structured loop taken ∧ Structured loop other ∧ Structured loop rest
  | loop, .loop header cont brk body rest =>
    header ≠ cont ∧ header ≠ brk ∧ cont ≠ brk ∧ body.falls = false ∧ Structured (some (cont, brk)) body ∧
      Structured loop rest

def Emitted.labels : Emitted → List ℕ
  | done => []
  | leave _ => []
  | unreachable => []
  | block _ rest => rest.labels
  | select _ merge taken other rest => merge :: (taken.labels ++ (other.labels ++ rest.labels))
  | loop header cont brk body rest => header :: cont :: brk :: (body.labels ++ rest.labels)

end Prosperity.Rdna
