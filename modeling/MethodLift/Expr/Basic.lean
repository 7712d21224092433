import MethodLift.Block.Head
import MethodLift.Expr.Leaf
import MethodLift.Expr.Operator

/-!
# Expressions and statements

An expression is a value, an effect or a jump. A structured conditional holds the statements of
the block that was moved into it, together with the head of that block, so expressions and
statements contain each other.
-/

namespace MethodLift

/-- A statement: an expression that is executed in its place. -/
structure Stmt (ε : Type) where
  expr : ε
  /-- The value was moved to its only use; the statement stands for nothing any more. -/
  eliminated : Bool := false
  /-- Index of the instruction that the statement came from. -/
  source : Option Nat := none

/-- Expressions. -/
inductive Expr where
  | leaf (value : Leaf)
  | assign (target value : Expr)
  | compare (kind : Comparison) (left right : Expr)
  | arith (op : ArithOp) (left right : Expr)
  /-- The bitwise complement, or the negation of a condition. -/
  | complement (operand : Expr)
  /-- The memory at an address. -/
  | deref (address : Expr)
  | member (object : Expr) (field : Field)
  /-- A jump that is taken when the condition holds. -/
  | jumpIf (condition : Expr) (target : Nat)
  /-- Statements that are executed when the condition holds. -/
  | guarded (condition : Expr) (head : BlockHead) (body : List (Stmt Expr))
  | jump (target : Nat)
  | call (target : Expr) (arguments : List Expr) (returns : Bool)
  | ret (value : Expr)
  | retVoid
  /-- One lane of a vector. -/
  | lane (vector : Expr) (index : Nat)
  | nop
  /-- A placeholder for what could not be lifted. -/
  | unsupported (text : String)
  | comment (text : String)

/-- A statement of a block. -/
abbrev Statement := Stmt Expr

namespace Expr

abbrev register (name : String) : Expr := .leaf (.register name)
abbrev var (id : VarId) : Expr := .leaf (.var id)
abbrev immediate (value : Int64) : Expr := .leaf (.immediate value)

def leaf? : Expr → Option Leaf
  | .leaf v => some v
  | _ => none

def var? : Expr → Option VarId
  | .leaf (.var v) => some v
  | _ => none

def immediate? : Expr → Option Int64
  | .leaf (.immediate v) => some v
  | _ => none

/-- Statements that are written without a semicolon. -/
def isCompound : Expr → Bool
  | .jumpIf _ _ | .guarded _ _ _ | .nop | .comment _ | .unsupported _ => true
  | _ => false

/-- Expressions written with an operator between their parts. -/
def isOperation : Expr → Bool
  | .arith _ _ _ | .compare _ _ _ | .assign _ _ => true
  | _ => false

end Expr

end MethodLift
