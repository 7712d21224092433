/-!
# Block heads

Everything about a basic block but its statements: where its code lies, how it ends, its edges,
and what structuring and label counting found out about it.
-/

namespace MethodLift

/-- Identity of a block: its position in the graph. -/
abbrev BlockId := Nat

/-- A half-open range of positions in a method's code. -/
structure CodeRange where
  start : Nat
  stop : Nat
deriving DecidableEq, Repr

def CodeRange.length (r : CodeRange) : Nat := r.stop - r.start

def CodeRange.describe (r : CodeRange) : String := toString r.start ++ ".." ++ toString r.stop

/-- How a block ends. -/
inductive BlockKind where
  /-- By running into the next block. -/
  | fallthrough
  /-- By a jump. -/
  | jump
  /-- By a conditional jump; the taken target is the first successor. -/
  | branch
  /-- By leaving the method, or by a jump to somewhere unknown. -/
  | exit
deriving DecidableEq, Repr

/-- What structuring did with a block. -/
inductive BlockState where
  | unvisited
  | candidate
  /-- Moved into the body of a conditional. -/
  | absorbed
  /-- Left in the list of blocks. -/
  | retained
deriving DecidableEq, Repr

/-- A block without its statements. -/
structure BlockHead where
  id : BlockId := 0
  kind : BlockKind := .fallthrough
  /-- Index of the first instruction; jumps and labels use it. -/
  start : Nat := 0
  range : CodeRange := ⟨0, 0⟩
  successors : List BlockId := []
  predecessors : List BlockId := []
  /-- The block is not written. -/
  ignored : Bool := false
  /-- How many jumps name the block. -/
  references : Nat := 0
  state : BlockState := .unvisited
deriving DecidableEq, Repr

def BlockHead.label (b : BlockHead) : String :=
  "B" ++ toString b.id ++ "@" ++ toString b.start ++ ":"

end MethodLift
