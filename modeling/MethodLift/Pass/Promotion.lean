import MethodLift.Expr.Traversal
import MethodLift.Machine.Convention
import MethodLift.Machine.Register
import MethodLift.Pass.Basic
import MethodLift.Table

/-!
# Promoting registers to variables

Blocks are visited depth-first from the entry. A write to a register makes a new variable, a read
takes the variable that the register is bound to, or makes one. A block starts with the bindings
at the end of the block it was first reached from; bindings of its other predecessors play no
part. Blocks that cannot be reached come last and start without bindings. The stack pointer stays
a register.
-/

namespace MethodLift

/-- The variable that each register is bound to. -/
abbrev Bindings := Table String VarId

namespace Promotion

/-! ## Statements -/

/-- The state of a promotion: the variables, the current bindings, and whether a register was
promoted. -/
structure State where
  vars : Variables := {}
  bindings : Bindings := {}
  changed : Bool := false

/-- Makes a variable for a register and binds it. -/
def define (register : String) : StateM State VarId := fun s =>
  (s.vars.size,
    { vars := s.vars.create register
      bindings := s.bindings.insert register s.vars.size
      changed := true })

/-- The variable that a read of a register stands for. -/
def use (register : String) : StateM State VarId := fun s =>
  match s.bindings.get? register with
  | some id => (id, { s with changed := true })
  | none => define register s

def readNode (sp : String) : Expr → StateM State Expr
  | .leaf (.register register) =>
    if register = sp then pure (.register register)
    else do
      let id ← use register
      pure (.var id)
  | e => pure e

/-- Promotes all register reads. -/
def reads (sp : String) (e : Expr) : StateM State Expr := e.bottomUpM (readNode sp)

def target (sp : String) : Expr → StateM State Expr
  | .leaf (.register register) =>
    if register = sp then reads sp (.register register)
    else do
      let id ← define register
      pure (.var id)
  | e => reads sp e

/-- Promotes a statement: what it reads first, then the register it assigns to. -/
def statement (sp : String) : Expr → StateM State Expr
  | .assign place value => do
    let value ← reads sp value
    let place ← target sp place
    pure (.assign place value)
  | e => reads sp e

def statements (sp : String) (ss : List Statement) : StateM State (List Statement) :=
  ss.mapM fun s => do
    let expr ← statement sp s.expr
    pure { s with expr }

/-! ## Blocks -/

/-- Progress of the visit of a graph. -/
structure Tour where
  graph : Graph
  vars : Variables
  visited : List BlockId := []
  changed : Bool := false

/-- Promotes one block, starting with some bindings; gives the bindings at its end. -/
def visitBlock (sp : String) (id : BlockId) (bindings : Bindings) (t : Tour) : Tour × Bindings :=
  match t.graph.block? id with
  | none => ({ t with visited := t.visited ++ [id] }, bindings)
  | some b =>
    let (body, s) := (statements sp b.statements).run { vars := t.vars, bindings }
    ({ graph := t.graph.modify id fun b => { b with statements := body }
       vars := s.vars
       visited := t.visited ++ [id]
       changed := t.changed || s.changed }, s.bindings)

/-- Visits blocks depth-first. Each step visits the first block of the stack that was not visited
before, so a step per block is enough. -/
def visitReachable (sp : String) : Nat → List (BlockId × Bindings) → Tour → Tour
  | 0, _, t => t
  | steps + 1, stack, t =>
    match stack.dropWhile fun entry => t.visited.contains entry.1 with
    | [] => t
    | (id, bindings) :: rest =>
      let (t, bindings) := visitBlock sp id bindings t
      visitReachable sp steps ((t.graph.successors id).map (·, bindings) ++ rest) t

/-- Visits the blocks that were not reached, each without bindings. -/
def visitRest (sp : String) (t : Tour) : Tour :=
  (List.range t.graph.size).foldl
    (fun t id => if t.visited.contains id then t else (visitBlock sp id {} t).1) t

/-! ## Parameters -/

def receiver (m : Method) (register : String) : Variable where
  name := "this"
  type := m.thisType?
  isKeyword := true
  register := register

def parameter (p : Parameter) (position : Nat) (register : String) : Variable where
  name := p.name
  type := some p.type
  register := register
  parameter := some position

/-- The variables that hold a method's arguments at its entry: the receiver, then the parameters
that have a register. -/
def entryVariables (c : Convention) (m : Method) : List Variable :=
  let makers : List (String → Variable) :=
    (if m.isStatic then [] else [receiver m]) ++ m.parameters.zipIdx.map fun p => parameter p.1 p.2
  (makers.zip (c.assign m.passedTypes)).filterMap fun p => p.2.map p.1

/-- Binds the registers of variables that are appended to a table. -/
def seed (vars : Variables) (vs : List Variable) : Variables × Bindings :=
  vs.foldl
    (fun s v => (s.1.insert v, s.2.insert v.register s.1.size)) (vars, {})

/-! ## Names -/

/-- The name of the `k`-th definition of a register. -/
def candidate (register : String) (k : Nat) : String :=
  if k = 0 then "var_" ++ register else "var_" ++ register ++ "_" ++ toString k

/-- The first number from `k` on whose name is free. One of `tries + 1` numbers in a row is free
when at most `tries` names are taken. -/
def firstFree (register : String) (taken : List String) : Nat → Nat → Nat
  | 0, k => k
  | tries + 1, k =>
    if taken.contains (candidate register k) then firstFree register taken tries (k + 1) else k

/-- Names in use, and for each register the number to try next. -/
structure Naming where
  taken : List String
  next : Table String Nat := {}

/-- Names a variable that has no name. -/
def nameVariable (n : Naming) (v : Variable) : Naming × Variable :=
  if v.name.isEmpty then
    let k := firstFree v.register n.taken n.taken.length ((n.next.get? v.register).getD 0)
    let name := candidate v.register k
    ({ taken := name :: n.taken, next := n.next.insert v.register (k + 1) }, { v with name })
  else (n, v)

def nameAll (n : Naming) : List Variable → List Variable
  | [] => []
  | v :: rest =>
    let (n, v) := nameVariable n v
    v :: nameAll n rest

/-- Names all variables without name after their registers, with a number from the second
definition of a register on. -/
def assignNames (t : Variables) : Variables :=
  ⟨nameAll { taken := (t.entries.map (·.name)).filter fun name => !name.isEmpty } t.entries⟩

end Promotion

open Promotion in
/-- Replaces registers by variables and names the variables. -/
def Context.promote (ctx : Context) : Context × Bool :=
  let sp := Register.stackPointer ctx.image.isa
  let (vars, bindings) :=
    if ctx.options.enabled .seedParameters then
      seed ctx.vars (entryVariables (Convention.of ctx.image.isa) ctx.method)
    else (ctx.vars, {})
  let start : Tour := { graph := ctx.graph, vars }
  let stack := if ctx.graph.blocks.isEmpty then [] else [(0, bindings)]
  let t := visitRest sp (visitReachable sp ctx.graph.size stack start)
  let ctx := { ctx with graph := t.graph, vars := assignNames t.vars }
  (ctx.say .debug ("promoted to " ++ toString ctx.vars.size ++ " variables"), t.changed)

def Pass.promotion : Pass :=
  .ofStep "variables" "Promote registers to variables" (fun _ => true) Context.promote

end MethodLift
