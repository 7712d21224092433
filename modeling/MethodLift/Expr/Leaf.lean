import MethodLift.Program.RuntimeFunction
import MethodLift.Program.Usage

/-!
# Leaves of expressions
-/

namespace MethodLift

/-- Identity of a variable: its position in the table of variables. -/
abbrev VarId := Nat

/-- A value without operands. -/
inductive Leaf where
  /-- A register by its canonical name. -/
  | register (name : String)
  | var (id : VarId)
  | immediate (value : Int64)
  /-- An instruction, by its index. -/
  | label (index : Nat)
  /-- A string literal read from memory. -/
  | literal (text : String)
  | method (method : Method)
  /-- A function known by its address only. -/
  | address (address : UInt64)
  | runtime (function : RuntimeFunction)
  | usage (usage : Usage)
deriving DecidableEq, Repr

namespace Leaf

/-- The value does not depend on the state of the program. -/
def isConstant : Leaf → Bool
  | .immediate _ | .literal _ | .usage _ | .label _ => true
  | _ => false

end Leaf

end MethodLift
