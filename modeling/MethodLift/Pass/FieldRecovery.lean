import MethodLift.Expr.Traversal
import MethodLift.Pass.Basic

/-!
# Recovering fields and types

Two rules feed each other. Memory at a constant offset from a value of known type is a field,
where the type or one of its bases declares one at that offset. A variable gets the type of the
value that is assigned to it.
-/

namespace MethodLift

def Expr.type? (vars : Variables) : Expr → Option TypeRef
  | .leaf (.var id) => vars.type? id
  | .leaf (.literal _) => some .string
  | .member _ field => some field.type
  | .call (.leaf (.method m)) _ true => some m.returns
  | _ => none

namespace FieldRecovery

def passName : String := "dataflow"

/-- A recovered field, recorded at the block and the instruction of its statement. -/
def recovered (block : BlockId) (source : Option Nat) (field : Field) : Event where
  kind := .fieldResolved
  block := some block
  instruction := source
  pass := some passName
  message := "+" ++ hexWord field.offset ++ " -> " ++ field.fullName

/-- The field that lies at a constant offset from a value. -/
def field? (image : Program) (vars : Variables) (object : Expr) (offset : Int64) : Option Field :=
  (object.type? vars).bind fun type => image.fieldAt? type offset

def node (image : Program) (vars : Variables) (block : BlockId) (source : Option Nat) :
    Expr → Refine Expr
  | .deref (.arith .add object (.leaf (.immediate offset))) =>
    match field? image vars object offset with
    | some field => do
      Refine.note (recovered block source field)
      pure (.member object field)
    | none => pure (.deref (.arith .add object (.immediate offset)))
  | e => pure e

/-- The variable and the type that a statement gives to it. -/
def inferred? (vars : Variables) : Expr → Option (VarId × TypeRef)
  | .assign (.leaf (.var id)) value =>
    if (vars.type? id).isSome then none
    else ((value.type? vars).filter fun type => !type.isVoid).map fun type => (id, type)
  | _ => none

/-- A type that a variable got. -/
def propagated (vars : Variables) (id : VarId) (type : TypeRef) : Event where
  kind := .typePropagated
  pass := some passName
  message := vars.name id ++ " : " ++ type.describe

/-- Gives types to variables that have none; the first type that is found for one stays. -/
def applyTypes (vars : Variables) : List (VarId × TypeRef) → Variables × Events
  | [] => (vars, [])
  | (id, type) :: rest =>
    let (result, events) := applyTypes (vars.refine id type) rest
    (result, if vars.isUntyped id then propagated vars id type :: events else events)

end FieldRecovery

open FieldRecovery in
def Context.recoverFields (ctx : Context) : Context × Bool :=
  ctx.refineLive fun b s => s.expr.bottomUpM (node ctx.image ctx.vars b.id s.source)

open FieldRecovery in
/-- Gives types to the variables that live statements assign to. All types are found before the
first one is given. -/
def Context.propagateTypes (ctx : Context) : Context × Bool :=
  let found := ctx.graph.blocks.flatMap fun b =>
    b.live.filterMap fun s => inferred? ctx.vars s.expr
  let (vars, events) := applyTypes ctx.vars found
  ({ ctx with vars, journal := ctx.journal.recordAll events }, !events.isEmpty)

/-- Recovers fields, then propagates types. -/
def Context.recoverData (ctx : Context) : Context × Bool :=
  let (ctx, resolved) := ctx.recoverFields
  let (ctx, typed) := ctx.propagateTypes
  (ctx, resolved || typed)

def Pass.fieldRecovery : Pass :=
  .ofStep FieldRecovery.passName "Recover field accesses and propagate types"
    (·.enabled .dataflow) Context.recoverData

end MethodLift
