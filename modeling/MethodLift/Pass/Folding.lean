import MethodLift.Expr.Traversal
import MethodLift.Pass.Basic

/-!
# Folding constants

Arithmetic on numbers is replaced by its result, where it has one.
-/

namespace MethodLift

namespace Folding

def passName : String := "fold"

/-- The number that an operation on numbers yields. -/
def fold? : Expr → Option Int64
  | .arith op (.leaf (.immediate left)) (.leaf (.immediate right)) => op.eval? left right
  | .complement (.leaf (.immediate v)) => some (~~~v)
  | _ => none

def folded (block : BlockId) : Event where
  kind := .constantFolded
  block := some block
  pass := some passName

def node (block : BlockId) (e : Expr) : Refine Expr :=
  match fold? e with
  | some v => do
    Refine.note (folded block)
    pure (.immediate v)
  | none => pure e

end Folding

def Context.foldConstants (ctx : Context) : Context × Bool :=
  ctx.refineLive fun b s => s.expr.bottomUpM (Folding.node b.id)

def Pass.folding : Pass :=
  .ofStep Folding.passName "Fold constant arithmetic" (·.enabled .foldConstants)
    Context.foldConstants

end MethodLift
