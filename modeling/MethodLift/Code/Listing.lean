import MethodLift.Code.Instruction
import MethodLift.Text.Buffer

/-!
# Tagged listings

A listing shows one instruction per line, with every part tagged by its kind.
-/

namespace MethodLift

def Operand.textKind : Operand → TextKind
  | .register _ => .register
  | .immediate _ => .number
  | .target _ => .label
  | .method _ | .runtime _ => .method
  | .memory _ | .stack _ | .lane _ _ => .plain

/-- The operands of a line, each behind its separator. -/
def Instruction.operandPieces : Bool → List Operand → List Piece
  | _, [] => []
  | first, operand :: rest =>
    .punct (if first then " " else ", ") :: .text operand.render operand.textKind ::
      operandPieces false rest

def Instruction.pieces (i : Instruction) : List Piece :=
  .text (padded 3 i.index) .address :: .text " " .plain :: .text i.mnemonic.name .mnemonic ::
    (operandPieces true i.operands ++ [.newline])

def listing (code : List Instruction) : List Piece := code.flatMap Instruction.pieces

end MethodLift
