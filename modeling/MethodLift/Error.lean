import MethodLift.Block.Head

/-!
# Errors

Why a method could not be lifted. Most difficulties are no errors: what has no lifting rule
becomes a placeholder, and only control flow that makes no sense ends a lift.
-/

namespace MethodLift

/-- The causes of failure. -/
inductive Error where
  /-- There are no instructions. -/
  | empty
  /-- A jump has no target operand. -/
  | branchWithoutTarget (index : Nat)
  /-- A jump names an instruction that does not exist. -/
  | branchToMissing (index target : Nat)
  /-- A jump goes into the middle of a block. -/
  | branchIntoBlock (index target : Nat)
  /-- A range of a partition does not continue the ranges before it. -/
  | partitionGap (expected : Nat) (range : CodeRange)
  /-- A partition does not cover the code. -/
  | partitionCoverage (covered count : Nat)
  /-- An edge names a block that does not exist. -/
  | edgeToMissing (source target : BlockId)
  /-- A block claims code that does not exist. -/
  | rangeOutside (block : BlockHead) (count : Nat)
  /-- A pass gave up. -/
  | passFailed (text : String)
  /-- A failure that was turned into a comment in place of the method's code. -/
  | contained (method text : String)
deriving DecidableEq, Repr

/-- Families of errors. -/
inductive ErrorKind where
  | malformed
  | empty
  | graph
  | contained
deriving DecidableEq, Repr

namespace Error

def kind : Error → ErrorKind
  | .empty => .empty
  | .branchWithoutTarget _ | .branchToMissing _ _ | .branchIntoBlock _ _ | .partitionGap _ _
  | .partitionCoverage _ _ => .malformed
  | .edgeToMissing _ _ | .rangeOutside _ _ | .passFailed _ => .graph
  | .contained _ _ => .contained

def message : Error → String
  | .empty => "Provided instruction stream was empty"
  | .branchWithoutTarget index => "Branch at " ++ toString index ++ " has no target"
  | .branchToMissing index target =>
    "Branch at " ++ toString index ++ " targets missing instruction " ++ toString target
  | .branchIntoBlock index target =>
    "Branch at " ++ toString index ++ " targets instruction " ++ toString target ++
      " inside a block"
  | .partitionGap expected range =>
    "Block partition is not contiguous at position " ++ toString expected ++ " (" ++
      range.describe ++ ")"
  | .partitionCoverage covered count =>
    "Block partition covers " ++ toString covered ++ " of " ++ toString count ++ " instructions"
  | .edgeToMissing source target =>
    "edge B" ++ toString source ++ " -> B" ++ toString target ++ " references a missing block"
  | .rangeOutside block count =>
    block.label ++ " covers instructions " ++ block.range.describe ++ " of " ++ toString count
  | .passFailed text => text
  | .contained method text => "Lifting " ++ method ++ " failed: " ++ text

/-- The printed form: malformed input is announced as such. The place in the lifter's own source
where the malformation was noticed, which the program prints between the announcement and the
message (as `file:line: `), is left out. -/
def text (e : Error) : String :=
  if e.kind = .malformed then "Malformed - " ++ e.message else e.message

end Error

end MethodLift
