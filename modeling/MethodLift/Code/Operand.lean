import MethodLift.Program.Method
import MethodLift.Program.RuntimeFunction
import MethodLift.Text.Digits

/-!
# Operands
-/

namespace MethodLift

/-- A memory reference `[base + addend + index * scale]`. -/
structure MemoryRef where
  base : Option String := none
  addend : Int64 := 0
  index : Option String := none
  /-- Counts only together with an index. -/
  scale : Int64 := 1
deriving DecidableEq, Repr

/-- The parts are joined by plus signs; the addend is left out when it is zero and there is
another part. -/
def MemoryRef.render (m : MemoryRef) : String :=
  let registers := m.base.toList ++ (m.index.map fun i => i ++ "*" ++ decimal m.scale).toList
  let parts :=
    if m.addend != 0 || registers.isEmpty then registers ++ [hexWord m.addend] else registers
  "[" ++ "+".intercalate parts ++ "]"

/-- What an instruction works on. -/
inductive Operand where
  /-- A number, also used for raw addresses. -/
  | immediate (value : Int64)
  /-- A register by any of its names. -/
  | register (name : String)
  | memory (ref : MemoryRef)
  /-- A slot relative to the stack pointer. -/
  | stack (offset : Int64)
  /-- A jump target, as an instruction index. -/
  | target (index : Nat)
  | method (method : Method)
  | runtime (function : RuntimeFunction)
  /-- One lane of a vector register. -/
  | lane (register : String) (index : Nat)
deriving DecidableEq, Repr

def Operand.render : Operand → String
  | .immediate v => if 0xFFFF < v.toInt then hexWord v else decimal v
  | .register r => r
  | .memory m => m.render
  | .stack v => "stack:" ++ hexWord v
  | .target n => "\x7b" ++ toString n ++ "\x7d"
  | .method m => m.fullName
  | .runtime f => f.symbol
  | .lane r n => r ++ "[" ++ toString n ++ "]"

end MethodLift
