/-!
# Instruction sets
-/

namespace MethodLift

/-- The family of machine code a program was compiled to. -/
inductive InstructionSet where
  | x64
  | arm64
deriving DecidableEq, Repr

def InstructionSet.name : InstructionSet → String
  | .x64 => "x86-64"
  | .arm64 => "arm64"

end MethodLift
