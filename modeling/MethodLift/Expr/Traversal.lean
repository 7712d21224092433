import MethodLift.Expr.Basic

/-!
# Walking through expressions

`Expr.nodes` lists all parts of an expression from the top down. `Expr.bottomUpM` rebuilds an
expression from the bottom up, handing every rebuilt part to a function that may replace it. Both
visit the value of an assignment before its target, and go through the bodies of structured
conditionals, statement by statement.
-/

namespace MethodLift.Expr

/-! ## From the top down -/

mutual

/-- All parts of an expression, the whole first. -/
def nodes : Expr → List Expr
  | .assign target value => .assign target value :: (value.nodes ++ target.nodes)
  | .compare kind left right => .compare kind left right :: (left.nodes ++ right.nodes)
  | .arith op left right => .arith op left right :: (left.nodes ++ right.nodes)
  | .complement operand => .complement operand :: operand.nodes
  | .deref address => .deref address :: address.nodes
  | .member object field => .member object field :: object.nodes
  | .jumpIf condition target => .jumpIf condition target :: condition.nodes
  | .guarded condition head body =>
    .guarded condition head body :: (condition.nodes ++ bodyNodes body)
  | .call target arguments returns =>
    .call target arguments returns :: (target.nodes ++ argumentNodes arguments)
  | .ret value => .ret value :: value.nodes
  | .lane vector index => .lane vector index :: vector.nodes
  | .leaf value => [.leaf value]
  | .jump target => [.jump target]
  | .retVoid => [.retVoid]
  | .nop => [.nop]
  | .unsupported text => [.unsupported text]
  | .comment text => [.comment text]

/-- All parts of the arguments of a call. -/
def argumentNodes : List Expr → List Expr
  | [] => []
  | e :: rest => e.nodes ++ argumentNodes rest

/-- All parts of the statements of a body, eliminated ones included. -/
def bodyNodes : List Statement → List Expr
  | [] => []
  | ⟨e, _, _⟩ :: rest => e.nodes ++ bodyNodes rest

end

def any (e : Expr) (p : Expr → Bool) : Bool := e.nodes.any p

/-! ## From the bottom up -/

section BottomUp

variable {m : Type → Type} [Monad m]

mutual

/-- Rebuilds an expression with `f` applied to every part after its own parts. -/
def bottomUpM (f : Expr → m Expr) : Expr → m Expr
  | .assign target value => do
    let value ← value.bottomUpM f
    let target ← target.bottomUpM f
    f (.assign target value)
  | .compare kind left right => do
    let left ← left.bottomUpM f
    let right ← right.bottomUpM f
    f (.compare kind left right)
  | .arith op left right => do
    let left ← left.bottomUpM f
    let right ← right.bottomUpM f
    f (.arith op left right)
  | .complement operand => do
    let operand ← operand.bottomUpM f
    f (.complement operand)
  | .deref address => do
    let address ← address.bottomUpM f
    f (.deref address)
  | .member object field => do
    let object ← object.bottomUpM f
    f (.member object field)
  | .jumpIf condition target => do
    let condition ← condition.bottomUpM f
    f (.jumpIf condition target)
  | .guarded condition head body => do
    let condition ← condition.bottomUpM f
    let body ← bottomUpBodyM f body
    f (.guarded condition head body)
  | .call target arguments returns => do
    let target ← target.bottomUpM f
    let arguments ← bottomUpArgumentsM f arguments
    f (.call target arguments returns)
  | .ret value => do
    let value ← value.bottomUpM f
    f (.ret value)
  | .lane vector index => do
    let vector ← vector.bottomUpM f
    f (.lane vector index)
  | .leaf value => f (.leaf value)
  | .jump target => f (.jump target)
  | .retVoid => f .retVoid
  | .nop => f .nop
  | .unsupported text => f (.unsupported text)
  | .comment text => f (.comment text)

/-- Rebuilds the arguments of a call from left to right. -/
def bottomUpArgumentsM (f : Expr → m Expr) : List Expr → m (List Expr)
  | [] => pure []
  | e :: rest => do
    let e ← e.bottomUpM f
    let rest ← bottomUpArgumentsM f rest
    pure (e :: rest)

/-- Rebuilds the statements of a body in order, eliminated ones included. -/
def bottomUpBodyM (f : Expr → m Expr) : List Statement → m (List Statement)
  | [] => pure []
  | ⟨e, eliminated, source⟩ :: rest => do
    let e ← e.bottomUpM f
    let rest ← bottomUpBodyM f rest
    pure (⟨e, eliminated, source⟩ :: rest)

end

/-- Rebuilds a statement, keeping the memory access of a store: `f` sees the address that is
stored to and the whole assignment, but not the access itself. -/
def bottomUpLoadsM (f : Expr → m Expr) : Expr → m Expr
  | .assign (.deref address) value => do
    let value ← value.bottomUpM f
    let address ← address.bottomUpM f
    f (.assign (.deref address) value)
  | e => e.bottomUpM f

end BottomUp

/-- Rebuilds an expression with a function that only looks at the parts. -/
def bottomUp (f : Expr → Expr) (e : Expr) : Expr := Id.run (e.bottomUpM fun part => pure (f part))

/-- Rebuilds a statement with such a function, keeping the memory access of a store. -/
def bottomUpLoads (f : Expr → Expr) (e : Expr) : Expr :=
  Id.run (e.bottomUpLoadsM fun part => pure (f part))

end MethodLift.Expr
