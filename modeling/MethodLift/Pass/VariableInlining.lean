import MethodLift.Expr.Traversal
import MethodLift.Pass.Basic
import MethodLift.Table

/-!
# Inlining variables

A variable that is assigned once, used once, and holds a constant or another variable is replaced
by its value, and its assignment is eliminated. Uses as an argument of a call are counted apart
from other reads.
-/

namespace MethodLift

namespace VariableInlining

def passName : String := "inliner"

/-! ## Counting uses -/

/-- How often a variable is written, read, and passed to a call, and where it was written last:
the block and the position in it. -/
structure Use where
  writes : Nat := 0
  reads : Nat := 0
  arguments : Nat := 0
  definition : Option (BlockId × Nat) := none
deriving DecidableEq, Repr

def Use.isSingle (u : Use) : Bool :=
  u.writes == 1 && ((u.reads == 1 && u.arguments == 0) || (u.reads == 0 && u.arguments == 1))

/-- The uses of all variables. -/
abbrev Uses := Table VarId Use

/-- The uses counted so far, and how many occurrences of a variable are still to come that were
counted as arguments already. -/
structure Count where
  uses : Uses := {}
  pending : Table VarId Nat := {}

/-- Counts a variable that is passed to a call. -/
def Count.argument (c : Count) (id : VarId) : Count where
  uses := c.uses.update id {} fun u => { u with arguments := u.arguments + 1 }
  pending := c.pending.update id 0 (· + 1)

/-- Counts an occurrence of a variable, unless one was counted in advance. -/
def Count.occurrence (c : Count) (id : VarId) : Count :=
  match c.pending.get? id with
  | some (n + 1) => { c with pending := c.pending.insert id n }
  | _ => { c with uses := c.uses.update id {} fun u => { u with reads := u.reads + 1 } }

/-- Counts one part of an expression. The arguments of a call are counted at the call, before
they occur themselves. -/
def Count.node (c : Count) : Expr → Count
  | .call _ arguments _ => (arguments.filterMap Expr.var?).foldl Count.argument c
  | .leaf (.var id) => c.occurrence id
  | _ => c

/-- Counts the uses in an expression, going through its parts once. -/
def countUses (uses : Uses) (e : Expr) : Uses := (e.nodes.foldl Count.node { uses }).uses

/-- Counts a statement; the variable it assigns to is written and not read. -/
def countStatement (block : BlockId) (position : Nat) (uses : Uses) : Expr → Uses
  | .assign (.leaf (.var id)) value =>
    countUses
      (uses.update id {} fun u =>
        { u with writes := u.writes + 1, definition := some (block, position) })
      value
  | e => countUses uses e

def countBlock (uses : Uses) (b : Block) : Uses :=
  b.statements.zipIdx.foldl
    (fun uses s => if s.1.eliminated then uses else countStatement b.id s.2 uses s.1.expr) uses

def countGraph (g : Graph) : Uses := g.blocks.foldl countBlock {}

/-! ## Replacing variables -/

/-- What each inlined variable is replaced by. -/
abbrev Replacements := Table VarId Expr

/-- Values that may be moved to another place: constants and variables. -/
def isMovable : Expr → Bool
  | .leaf (.var _) => true
  | .leaf v => v.isConstant
  | _ => false

/-- The single uses with a definition, by variable. -/
def candidates (uses : Uses) : List (VarId × BlockId × Nat) :=
  let single := uses.entries.filterMap fun (id, u) =>
    if u.isSingle then u.definition.map fun d => (id, d.1, d.2) else none
  single.mergeSort fun a b => a.1 ≤ b.1

/-- The value that a statement assigns, when it may be moved. -/
def movable? (g : Graph) (block : BlockId) (position : Nat) : Option Expr :=
  match (g.block? block).bind fun b => b.statements[position]? with
  | some ⟨.assign _ value, _, _⟩ => if isMovable value then some value else none
  | _ => none

def eliminate (g : Graph) (block : BlockId) (position : Nat) : Graph :=
  g.modify block fun b =>
    { b with statements := b.statements.modify position fun s => { s with eliminated := true } }

def inlined (vars : Variables) (block : BlockId) (id : VarId) : Event where
  kind := .variableInlined
  block := some block
  pass := some passName
  message := vars.name id

/-- The graph with assignments eliminated so far, and their values. -/
structure State where
  graph : Graph
  replacements : Replacements := {}
  events : Events := []

/-- Eliminates the assignment of one candidate. -/
def take (vars : Variables) (s : State) (c : VarId × BlockId × Nat) : State :=
  match movable? s.graph c.2.1 c.2.2 with
  | none => s
  | some value =>
    { graph := eliminate s.graph c.2.1 c.2.2
      replacements := s.replacements.insert c.1 value
      events := s.events ++ [inlined vars c.2.1 c.1] }

/-- Follows replacements of variables by variables to the end, at most one step per replacement.
A circle ends where it comes back to its start. -/
def resolve (r : Replacements) : Nat → VarId → Option Expr
  | 0, _ => none
  | steps + 1, id =>
    match r.get? id with
    | none => none
    | some (.leaf (.var next)) => some ((resolve (r.erase id) steps next).getD (.var next))
    | some value => some value

def node (r : Replacements) : Expr → Expr
  | .leaf (.var id) => (resolve r r.size id).getD (.var id)
  | e => e

def replaceAll (r : Replacements) (g : Graph) : Graph :=
  Id.run (g.mapLiveM fun _ s => pure (s.expr.bottomUp (node r)))

end VariableInlining

open VariableInlining in
/-- Replaces the variables that are assigned and used once. -/
def Context.inlineVariables (ctx : Context) : Context × Bool :=
  let s := (candidates (countGraph ctx.graph)).foldl (take ctx.vars) { graph := ctx.graph }
  if s.events.isEmpty then (ctx, false)
  else
    ({ ctx with
        graph := replaceAll s.replacements s.graph
        journal := ctx.journal.recordAll s.events }, true)

def Pass.variableInlining : Pass :=
  .ofStep VariableInlining.passName "Inline single-use variables" (·.enabled .inlining)
    Context.inlineVariables

end MethodLift
