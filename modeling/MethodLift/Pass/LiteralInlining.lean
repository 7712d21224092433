import MethodLift.Expr.Traversal
import MethodLift.Pass.UsageInlining

/-!
# Inlining string literals

A load from an address where a printable string is stored is replaced by the string. A store
through such an address stays one.
-/

namespace MethodLift

namespace LiteralInlining

def passName : String := "strings"

def literal? (image : Program) (options : Options) (value : Int64) : Option String :=
  (options.address? value).bind image.literalAt?

def inlined (block : BlockId) (text : String) : Event where
  kind := .stringInlined
  block := some block
  pass := some passName
  message := debugQuote text

/-- Replaces one load. A load of a string that is replaced already is the string itself. -/
def node (image : Program) (options : Options) (block : BlockId) : Expr → Refine Expr
  | .deref (.leaf (.literal text)) => do
    Refine.mark
    pure (.leaf (.literal text))
  | .deref (.leaf (.immediate v)) =>
    match literal? image options v with
    | some text => do
      Refine.note (inlined block text)
      pure (.leaf (.literal text))
    | none => pure (.deref (.immediate v))
  | e => pure e

end LiteralInlining

open LiteralInlining in
def Context.inlineLiterals (ctx : Context) : Context × Bool :=
  ctx.refineLive fun b s => s.expr.bottomUpLoadsM (node ctx.image ctx.options b.id)

def Pass.literalInlining : Pass :=
  .ofStep LiteralInlining.passName "Inline string literals" (·.enabled .strings)
    Context.inlineLiterals

end MethodLift
