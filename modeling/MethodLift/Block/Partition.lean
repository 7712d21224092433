import MethodLift.Block.Graph

/-!
# Control flow of code

Code is cut into blocks at jump targets and after instructions that end a block. The edges of a
block come from its last instruction: a conditional jump has the taken target and then the next
block, a jump its target, a block that falls through the next block. Running past the end of the
code has no edge.
-/

namespace MethodLift.ControlFlow

/-! ## Jump targets -/

/-- The last position with an instruction index. -/
def lastPosition? (index : Nat) : List Instruction → Option Nat
  | [] => none
  | i :: rest =>
    match lastPosition? index rest with
    | some p => some (p + 1)
    | none => if i.index = index then some 0 else none

def targetPosition (code : List Instruction) (i : Instruction) : Except Error Nat :=
  match i.target? with
  | none => .error (.branchWithoutTarget i.index)
  | some target =>
    match lastPosition? target code with
    | none => .error (.branchToMissing i.index target)
    | some p => .ok p

/-- The positions that jumps go to, or the error of the first jump that goes nowhere. -/
def jumpTargets (code : List Instruction) : List Instruction → Except Error (List Nat)
  | [] => .ok []
  | i :: rest =>
    if i.jumps then do
      let p ← targetPosition code i
      let others ← jumpTargets code rest
      .ok (p :: others)
    else jumpTargets code rest

/-! ## Cutting code into blocks -/

/-- The instruction before a position ends its block. -/
def followsEnd (code : List Instruction) : Nat → Bool
  | 0 => false
  | p + 1 =>
    match code[p]? with
    | some i => i.endsBlock
    | none => false

def isLeader (code : List Instruction) (targets : List Nat) (p : Nat) : Bool :=
  p == 0 || targets.contains p || followsEnd code p

/-- The ranges from each start to the next one, and from the last to the end. -/
def ranges (stop : Nat) : List Nat → List CodeRange
  | [] => []
  | start :: rest => ⟨start, rest.head?.getD stop⟩ :: ranges stop rest

def partition (code : List Instruction) : Except Error (List CodeRange) :=
  if code.isEmpty then .error .empty
  else do
    let targets ← jumpTargets code code
    .ok (ranges code.length ((List.range code.length).filter (isLeader code targets)))

/-! ## Linking blocks -/

/-- How a block with a given last instruction ends. -/
def kindOf (last : Instruction) : BlockKind :=
  if last.mnemonic = .callNoReturn then .exit
  else
    match last.flow with
    | .branch => .branch
    | .jump => .jump
    | .ret | .trap | .indexed => .exit
    | .next | .call => .fallthrough

/-- The ranges are not empty and follow each other without gaps; gives the position after them. -/
def checkRanges (expected : Nat) : List CodeRange → Except Error Nat
  | [] => .ok expected
  | r :: rest =>
    if r.start ≠ expected ∨ r.stop ≤ r.start then .error (.partitionGap expected r)
    else checkRanges r.stop rest

/-- The block that starts at a position. -/
def blockAt? (parts : List CodeRange) (p : Nat) : Option BlockId :=
  parts.findIdx? fun r => r.start == p

def targetBlock (code : List Instruction) (parts : List CodeRange) (i : Instruction) :
    Except Error BlockId := do
  let p ← targetPosition code i
  match blockAt? parts p with
  | some block => .ok block
  | none => .error (.branchIntoBlock i.index (i.target?.getD 0))

def last? (code : List Instruction) (r : CodeRange) : Option Instruction := code[r.stop - 1]?

/-- The block of a range, without statements and edges. -/
def blockOf (code : List Instruction) (r : CodeRange) : Block where
  kind := ((last? code r).map kindOf).getD .fallthrough
  start := ((code[r.start]?).map (·.index)).getD 0
  range := r

/-- The successors of the block of a range, the taken target of a conditional jump first. -/
def successorsOf (code : List Instruction) (parts : List CodeRange) (r : CodeRange) :
    Except Error (List BlockId) :=
  let next := (blockAt? parts r.stop).toList
  match last? code r with
  | none => .ok []
  | some last =>
    match kindOf last with
    | .branch => do
      let taken ← targetBlock code parts last
      .ok (taken :: next)
    | .jump => do
      let target ← targetBlock code parts last
      .ok [target]
    | .fallthrough => .ok next
    | .exit => .ok []

/-- Adds the edges of all blocks, in order. -/
def link (code : List Instruction) (parts : List CodeRange) (g : Graph) (id : BlockId) :
    List CodeRange → Except Error Graph
  | [] => .ok g
  | r :: rest => do
    let successors ← successorsOf code parts r
    let g ← g.addEdges id successors
    link code parts g (id + 1) rest

end MethodLift.ControlFlow

namespace MethodLift.Graph

open ControlFlow

def ofPartition (code : List Instruction) (parts : List CodeRange) : Except Error Graph :=
  if code.isEmpty then .error .empty
  else do
    let covered ← checkRanges 0 parts
    if covered = code.length then
      let g := parts.foldl (fun g r => g.push (blockOf code r)) {}
      link code parts g 0 parts
    else .error (.partitionCoverage covered code.length)

def ofCode (code : List Instruction) : Except Error Graph := do
  let parts ← partition code
  ofPartition code parts

end MethodLift.Graph
