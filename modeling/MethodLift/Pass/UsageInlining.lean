import MethodLift.Expr.Traversal
import MethodLift.Pass.Basic

/-!
# Inlining metadata usages

A number that names a global slot, directly or through the pointer stored at it, is replaced by
what the slot stands for. Only numbers in the place of a value count: loaded from, assigned,
passed, or compared; operands of arithmetic are offsets. A store to a slot still goes through
memory.
-/

namespace MethodLift

/-- A number that may be an address: it is above the least address. -/
def Options.address? (o : Options) (value : Int64) : Option UInt64 :=
  if 0 ≤ value ∧ o.minAddress < value.toUInt64 then some value.toUInt64 else none

/-- What the slot at an address stands for, or else the slot that a pointer at it leads to. -/
def Program.usageAt? (image : Program) (address : UInt64) : Option Usage :=
  match image.globalAt? address with
  | some usage => some usage
  | none => (image.pointerAt? address).bind image.globalAt?

namespace UsageInlining

def passName : String := "metadata"

def usage? (image : Program) (options : Options) (value : Int64) : Option Usage :=
  (options.address? value).bind image.usageAt?

def inlined (block : BlockId) (value : Int64) (usage : Usage) : Event where
  kind := .metadataInlined
  block := some block
  pass := some passName
  message := hexWord value ++ " -> " ++ usage.describe

section

variable (image : Program) (options : Options) (block : BlockId)

/-- What a number becomes; `none` when it names no slot. -/
def inline? (value : Int64) : Refine (Option Expr) :=
  match usage? image options value with
  | none => pure none
  | some usage => do
    Refine.note (inlined block value usage)
    pure (some (.leaf (.usage usage)))

def value : Expr → Refine Expr
  | .leaf (.immediate v) => do
    let replaced ← inline? image options block v
    pure (replaced.getD (.immediate v))
  | e => pure e

/-- The target of an assignment: the address of a store is in the place of a value. -/
def storeTarget : Expr → Refine Expr
  | .deref address => do
    let address ← value image options block address
    pure (.deref address)
  | e => pure e

/-- Replaces the numbers in the places of values of one part. A load of a slot that is replaced
already is the slot itself. -/
def node : Expr → Refine Expr
  | .deref (.leaf (.immediate v)) => do
    let replaced ← inline? image options block v
    pure (replaced.getD (.deref (.immediate v)))
  | .deref (.leaf (.usage u)) => pure (.leaf (.usage u))
  | .assign target assigned => do
    let target ← storeTarget image options block target
    let assigned ← value image options block assigned
    pure (.assign target assigned)
  | .call target arguments returns => do
    let arguments ← arguments.mapM (value image options block)
    pure (.call target arguments returns)
  | .compare kind left right => do
    let left ← value image options block left
    let right ← value image options block right
    pure (.compare kind left right)
  | e => pure e

end

end UsageInlining

open UsageInlining in
def Context.inlineUsages (ctx : Context) : Context × Bool :=
  ctx.refineLive fun b s => s.expr.bottomUpLoadsM (node ctx.image ctx.options b.id)

def Pass.usageInlining : Pass :=
  .ofStep UsageInlining.passName "Inline metadata usages" (·.enabled .metadata)
    Context.inlineUsages

end MethodLift
