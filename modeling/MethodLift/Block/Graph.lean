import MethodLift.Block.Basic
import MethodLift.Error

/-!
# Block graphs

The blocks of a method, by identity, with edges stored at both ends. The first block is the entry.
-/

namespace MethodLift

/-- Appends an element unless it is there already. -/
def appendNew (xs : List Nat) (x : Nat) : List Nat := if xs.contains x then xs else xs ++ [x]

/-- The blocks of a method. -/
structure Graph where
  blocks : List Block := []

namespace Graph

def size (g : Graph) : Nat := g.blocks.length

def block? (g : Graph) (id : BlockId) : Option Block := g.blocks[id]?

def modify (g : Graph) (id : BlockId) (f : Block → Block) : Graph := ⟨g.blocks.modify id f⟩

/-- Appends a block, whose identity becomes its position. -/
def push (g : Graph) (b : Block) : Graph := ⟨g.blocks ++ [{ b with id := g.size }]⟩

/-- The first block that starts at an instruction index. -/
def startingAt? (g : Graph) (start : Nat) : Option BlockId :=
  g.blocks.findIdx? fun b => b.start == start

/-- Adds an edge; an edge that is there already changes nothing. -/
def addEdge (g : Graph) (source target : BlockId) : Except Error Graph :=
  if source < g.size ∧ target < g.size then
    .ok <| (g.modify source fun b =>
        { b with successors := appendNew b.successors target }).modify target fun b =>
        { b with predecessors := appendNew b.predecessors source }
  else .error (.edgeToMissing source target)

/-- Adds edges in order, up to the first that names a missing block. -/
def addEdges (g : Graph) (source : BlockId) : List BlockId → Except Error Graph
  | [] => .ok g
  | target :: rest => do
    let g ← g.addEdge source target
    g.addEdges source rest

def successors (g : Graph) (id : BlockId) : List BlockId :=
  match g.block? id with
  | some b => b.successors
  | none => []

/-- Depth-first search with an explicit stack. Each step visits the first block of the stack that
was not visited before, so a step per block is enough. -/
def visit (g : Graph) : Nat → List BlockId → List BlockId → List BlockId
  | 0, _, visited => visited
  | steps + 1, stack, visited =>
    match stack.dropWhile visited.contains with
    | [] => visited
    | id :: rest => g.visit steps (g.successors id ++ rest) (visited ++ [id])

/-- The blocks that can be reached from the entry, in depth-first order. -/
def reachable (g : Graph) : List BlockId :=
  if g.blocks.isEmpty then [] else g.visit g.size [0] []

def instructionCount (g : Graph) : Nat := g.blocks.foldl (fun n b => n + b.range.length) 0

section Live

variable {m : Type → Type} [Monad m]

def mapLiveM (f : Block → Statement → m Expr) (g : Graph) : m Graph := do
  let blocks ← g.blocks.mapM fun b => b.mapLiveM (f b)
  pure { blocks }

end Live

/-! ## Sizes and look-ups -/

@[simp] theorem size_push (g : Graph) (b : Block) : (g.push b).size = g.size + 1 := by
  simp [push, size]

@[simp] theorem size_modify (g : Graph) (id : BlockId) (f : Block → Block) :
    (g.modify id f).size = g.size := by
  simp [modify, size]

@[simp] theorem block?_push_size (g : Graph) (b : Block) :
    (g.push b).block? g.size = some { b with id := g.size } := by
  simp [push, block?, size]

@[simp] theorem block?_modify_self (g : Graph) (id : BlockId) (f : Block → Block) :
    (g.modify id f).block? id = (g.block? id).map f := by
  simp [modify, block?]

theorem block?_modify_of_ne (g : Graph) {id other : BlockId} (f : Block → Block)
    (h : id ≠ other) : (g.modify id f).block? other = g.block? other := by
  simp [modify, block?, h]

end Graph

end MethodLift
