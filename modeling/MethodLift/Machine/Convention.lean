import MethodLift.Machine.InstructionSet
import MethodLift.Program.TypeRef

/-!
# Calling conventions

Which registers carry arguments and results. Only arguments passed in registers are modelled.
-/

namespace MethodLift

/-- The registers a call uses. -/
structure Convention where
  /-- Registers for integers and pointers, in order. -/
  integer : List String
  /-- Registers for floating-point values, in order. -/
  float : List String
  /-- Both banks advance together, by the position of the argument; otherwise each bank counts
  its own arguments. -/
  positional : Bool
  integerReturn : String
  floatReturn : String
deriving DecidableEq, Repr

namespace Convention

def x64 : Convention where
  integer := ["rcx", "rdx", "r8", "r9"]
  float := ["xmm0", "xmm1", "xmm2", "xmm3"]
  positional := true
  integerReturn := "rax"
  floatReturn := "xmm0"

def arm64 : Convention where
  integer := ["X0", "X1", "X2", "X3", "X4", "X5", "X6", "X7"]
  float := ["V0", "V1", "V2", "V3", "V4", "V5", "V6", "V7"]
  positional := false
  integerReturn := "X0"
  floatReturn := "V0"

def of : InstructionSet → Convention
  | .x64 => x64
  | .arm64 => arm64

/-- Assigns registers when `ints` integer and `floats` floating-point arguments have been passed
before. -/
def assignFrom (c : Convention) (ints floats : Nat) : List TypeRef → List (Option String)
  | [] => []
  | type :: rest =>
    if type.isFloat then
      c.float[if c.positional then ints + floats else floats]? ::
        c.assignFrom ints (floats + 1) rest
    else
      c.integer[if c.positional then ints + floats else ints]? ::
        c.assignFrom (ints + 1) floats rest

/-- The register of each argument, where it has one. -/
def assign (c : Convention) (types : List TypeRef) : List (Option String) :=
  c.assignFrom 0 0 types

def returnRegister (c : Convention) (type : TypeRef) : String :=
  if type.isFloat then c.floatReturn else c.integerReturn

end Convention

end MethodLift
