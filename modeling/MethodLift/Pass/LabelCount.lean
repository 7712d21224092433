import MethodLift.Expr.Traversal
import MethodLift.Pass.Basic

/-!
# Counting jumps to labels

A block is written with a label when some jump names it.
-/

namespace MethodLift

namespace LabelCount

def passName : String := "labels"

def target? : Expr → Option Nat
  | .jump target => some target
  | .jumpIf _ target => some target
  | _ => none

/-- The targets of all jumps in the live statements of the blocks that are written. -/
def targets (g : Graph) : List Nat :=
  (g.blocks.filter fun b => !b.ignored).flatMap fun b =>
    b.live.flatMap fun s => s.expr.nodes.filterMap target?

/-- The number of targets that lead to a block. -/
def references (g : Graph) (ts : List Nat) (id : BlockId) : Nat :=
  ts.countP fun t => g.startingAt? t == some id

/-- A log line for each target that leads nowhere. -/
def sayMissing (g : Graph) (ts : List Nat) (j : Journal) : Journal :=
  ts.foldl
    (fun j t =>
      if (g.startingAt? t).isSome then j
      else j.say .debug ("jump to " ++ toString t ++ " names no block start")) j

end LabelCount

open LabelCount in
def Context.countLabels (ctx : Context) : Context × Bool :=
  let ts := targets ctx.graph
  let blocks := ctx.graph.blocks.map fun b => { b with references := references ctx.graph ts b.id }
  let changed := (ctx.graph.blocks.zip blocks).any fun p => p.1.references != p.2.references
  ({ ctx with graph := { blocks }, journal := sayMissing ctx.graph ts ctx.journal }, changed)

def Pass.labelCount : Pass :=
  .ofStep LabelCount.passName "Count jump references per block" (fun _ => true)
    Context.countLabels

end MethodLift
