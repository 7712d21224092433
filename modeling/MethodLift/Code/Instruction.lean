import MethodLift.Code.Operand

/-!
# Instructions

A method's code is a list of instructions of one abstract machine. Jump targets are instruction
indexes; call targets are resolved as far as the decoder could.
-/

namespace MethodLift

/-- How an instruction passes control on. -/
inductive Flow where
  /-- To the next instruction. -/
  | next
  /-- To the jump target. -/
  | jump
  /-- To the jump target or to the next instruction. -/
  | branch
  /-- Through a table, to targets that are not known. -/
  | indexed
  /-- To a function, and back to the next instruction. -/
  | call
  /-- Out of the method. -/
  | ret
  /-- Nowhere: the instruction traps. -/
  | trap
deriving DecidableEq, Repr

/-- Operations. -/
inductive Mnemonic where
  | move
  | loadAddress
  | call
  | callNoReturn
  | exchange
  | add
  | subtract
  | multiply
  | divide
  | shiftLeft
  | shiftRight
  | and
  | or
  | xor
  | not
  | compare
  | push
  | pop
  | ret
  | goto
  | jumpIfEqual
  | jumpIfNotEqual
  | jumpIfGreater
  | jumpIfGreaterOrEqual
  | jumpIfLess
  | jumpIfLessOrEqual
  | interrupt
  | shiftStack
  | signExtend
  | notImplemented
deriving DecidableEq, Repr

namespace Mnemonic

def all : List Mnemonic :=
  [.move, .loadAddress, .call, .callNoReturn, .exchange, .add, .subtract, .multiply, .divide,
    .shiftLeft, .shiftRight, .and, .or, .xor, .not, .compare, .push, .pop, .ret, .goto,
    .jumpIfEqual, .jumpIfNotEqual, .jumpIfGreater, .jumpIfGreaterOrEqual, .jumpIfLess,
    .jumpIfLessOrEqual, .interrupt, .shiftStack, .signExtend, .notImplemented]

def name : Mnemonic → String
  | .move => "Move"
  | .loadAddress => "LoadAddress"
  | .call => "Call"
  | .callNoReturn => "CallNoReturn"
  | .exchange => "Exchange"
  | .add => "Add"
  | .subtract => "Subtract"
  | .multiply => "Multiply"
  | .divide => "Divide"
  | .shiftLeft => "ShiftLeft"
  | .shiftRight => "ShiftRight"
  | .and => "And"
  | .or => "Or"
  | .xor => "Xor"
  | .not => "Not"
  | .compare => "Compare"
  | .push => "Push"
  | .pop => "Pop"
  | .ret => "Return"
  | .goto => "Goto"
  | .jumpIfEqual => "JumpIfEqual"
  | .jumpIfNotEqual => "JumpIfNotEqual"
  | .jumpIfGreater => "JumpIfGreater"
  | .jumpIfGreaterOrEqual => "JumpIfGreaterOrEqual"
  | .jumpIfLess => "JumpIfLess"
  | .jumpIfLessOrEqual => "JumpIfLessOrEqual"
  | .interrupt => "Interrupt"
  | .shiftStack => "ShiftStack"
  | .signExtend => "SignExtend"
  | .notImplemented => "NotImplemented"

/-- The flow that an operation implies. -/
def flow : Mnemonic → Flow
  | .call | .callNoReturn => .call
  | .ret => .ret
  | .goto => .jump
  | .jumpIfEqual | .jumpIfNotEqual | .jumpIfGreater | .jumpIfGreaterOrEqual | .jumpIfLess
  | .jumpIfLessOrEqual => .branch
  | .interrupt => .trap
  | _ => .next

def isBranch (m : Mnemonic) : Bool := m.flow == .branch

end Mnemonic

/-- One instruction. -/
structure Instruction where
  /-- The index by which jumps name the instruction. -/
  index : Nat
  mnemonic : Mnemonic
  operands : List Operand := []
  flow : Flow := mnemonic.flow
deriving DecidableEq, Repr

namespace Instruction

/-- The first jump target among the operands. -/
def target? (i : Instruction) : Option Nat :=
  i.operands.findSome? fun
    | .target index => some index
    | _ => none

/-- The flow is a jump, conditional or not. -/
def jumps (i : Instruction) : Bool := i.flow == .branch || i.flow == .jump

/-- No instruction of the same block comes after this one. -/
def endsBlock (i : Instruction) : Bool :=
  i.mnemonic == .callNoReturn || !(i.flow == .next || i.flow == .call)

def renderOperands (i : Instruction) : String := ", ".intercalate (i.operands.map Operand.render)

/-- The text of the operands behind the mnemonic: a blank before the first, commas between. -/
def operandTail : Bool → List Operand → String
  | _, [] => ""
  | first, operand :: rest =>
    (if first then " " else ", ") ++ operand.render ++ operandTail false rest

/-- The line of an instruction: its index in at least three digits, the mnemonic, the operands. -/
def render (i : Instruction) : String :=
  padded 3 i.index ++ " " ++ i.mnemonic.name ++ operandTail true i.operands

end Instruction

end MethodLift
