import MethodLift.Proofs.Block.Wiring

/-!
# Graphs that are built request by request

A graph starts empty and is built by requests to push a block or to add an edge, of which any may
name blocks that do not exist. `Graph.edited` is the graph after all of them. It represents what was
asked for: its blocks are the pushed ones in order, and a block lists the ends of its edges in the
order in which they were first added. A request that fails changes nothing.
-/

namespace MethodLift

/-- One more element at the end is new or a repetition. -/
theorem eraseDups_concat (xs : List Nat) (x : Nat) :
    (xs ++ [x]).eraseDups = appendNew xs.eraseDups x := by
  rw [List.eraseDups_append]
  by_cases h : x ∈ xs
  · rw [appendNew_of_mem (List.mem_eraseDups.mpr h)]
    simp [List.removeAll, h]
  · simp [List.removeAll, appendNew, h, List.eraseDups_cons]

namespace Graph

variable {g : Graph}

/-! ## Requests -/

/-- A request to change a graph. Blocks are pushed without edges. -/
inductive Edit where
  | push (b : Block) (isolated : b.successors = [] ∧ b.predecessors = [])
  | edge (source target : BlockId)

/-- The answer to a request, and the graph that it leaves: where an edge cannot be added, there is
no other graph than before. -/
def Edit.attempt (g : Graph) : Edit → Except Error Unit × Graph
  | .push b _ => (.ok (), g.push b)
  | .edge source target =>
    match g.addEdge source target with
    | .ok g' => (.ok (), g')
    | .error e => (.error e, g)

/-- The graph after requests were made, whatever their answers were. -/
def edit (g : Graph) (edits : List Edit) : Graph := edits.foldl (fun g e => (e.attempt g).2) g

def edited (edits : List Edit) : Graph := edit {} edits

theorem addEdge_of_not_lt {source target : BlockId} (h : ¬(source < g.size ∧ target < g.size)) :
    g.addEdge source target = .error (.edgeToMissing source target) :=
  if_neg h

/-- A request for an edge between blocks that exist is granted. -/
theorem attempt_edge_of_lt {source target : BlockId} (h : source < g.size ∧ target < g.size) :
    ∃ g', g.addEdge source target = .ok g' ∧
      (Edit.edge source target).attempt g = (.ok (), g') := by
  rw [Edit.attempt, addEdge, if_pos h]
  exact ⟨_, rfl, rfl⟩

/-- A request for an edge of a missing block is refused, and the graph stays as it was. -/
theorem attempt_edge_of_not_lt {source target : BlockId}
    (h : ¬(source < g.size ∧ target < g.size)) :
    (Edit.edge source target).attempt g = (.error (.edgeToMissing source target), g) := by
  rw [Edit.attempt, addEdge_of_not_lt h]

/-! ## Edges are stored at both ends -/

/-- A request keeps the invariant, also where it fails. -/
theorem Wired.attempt (h : g.Wired) (e : Edit) : (e.attempt g).2.Wired := by
  cases e with
  | push b isolated => exact h.push isolated.1 isolated.2
  | edge source target =>
    by_cases hlt : source < g.size ∧ target < g.size
    · obtain ⟨g', hadd, hattempt⟩ := attempt_edge_of_lt hlt
      rw [hattempt]
      exact h.addEdge hadd
    · rw [attempt_edge_of_not_lt hlt]
      exact h

theorem Wired.edit (h : g.Wired) (edits : List Edit) : (g.edit edits).Wired := by
  induction edits generalizing g with
  | nil => exact h
  | cons e rest ih => exact ih (h.attempt e)

/-! ## What was asked for -/

def Edit.pushed : Edit → List Block
  | .push b _ => [b]
  | .edge _ _ => []

/-- The edges that a request adds to a graph with some number of blocks. -/
def Edit.added (size : Nat) : Edit → List (BlockId × BlockId)
  | .push _ _ => []
  | .edge source target => if source < size ∧ target < size then [(source, target)] else []

/-- The edges that requests add to a graph with some number of blocks, in order: an edge counts
where both of its blocks were pushed before. -/
def added (size : Nat) : List Edit → List (BlockId × BlockId)
  | [] => []
  | e :: rest => e.added size ++ added (size + e.pushed.length) rest

/-- The ends of the edges out of a block, in order. -/
def outgoing (edges : List (BlockId × BlockId)) (i : BlockId) : List BlockId :=
  (edges.filter fun e => e.1 == i).map Prod.snd

/-- The starts of the edges into a block, in order. -/
def incoming (edges : List (BlockId × BlockId)) (i : BlockId) : List BlockId :=
  (edges.filter fun e => e.2 == i).map Prod.fst

/-- A pushed block at its position, with the edges that were added to it. An edge that was added
more than once stands where it was added first. -/
def placed (edges : List (BlockId × BlockId)) (i : Nat) (b : Block) : Block :=
  { b with
    id := i
    successors := (outgoing edges i).eraseDups
    predecessors := (incoming edges i).eraseDups }

/-- A block that is pushed behind all edges so far has none of them. -/
theorem placed_of_forall_lt {edges : List (BlockId × BlockId)} {i : Nat}
    (h : ∀ e ∈ edges, e.1 < i ∧ e.2 < i) {b : Block}
    (isolated : b.successors = [] ∧ b.predecessors = []) :
    placed edges i b = { b with id := i } := by
  have hout : outgoing edges i = [] := by
    simp only [outgoing, List.map_eq_nil_iff, List.filter_eq_nil_iff, beq_iff_eq]
    exact fun e he => Nat.ne_of_lt (h e he).1
  have hin : incoming edges i = [] := by
    simp only [incoming, List.map_eq_nil_iff, List.filter_eq_nil_iff, beq_iff_eq]
    exact fun e he => Nat.ne_of_lt (h e he).2
  simp only [placed, hout, hin, List.eraseDups_nil, isolated.1, isolated.2]

/-- One more edge, whether it is new or not, is stored at both of its ends. -/
theorem placed_concat (edges : List (BlockId × BlockId)) (source target : BlockId) (i : Nat)
    (b : Block) :
    placed (edges ++ [(source, target)]) i b = wired source [target] i (placed edges i b) := by
  have hout : outgoing (edges ++ [(source, target)]) i =
      if i = source then outgoing edges i ++ [target] else outgoing edges i := by
    by_cases h : i = source
    · simp [outgoing, h]
    · simp [outgoing, h, Ne.symm h]
  have hin : incoming (edges ++ [(source, target)]) i =
      if i = target then incoming edges i ++ [source] else incoming edges i := by
    by_cases h : i = target
    · simp [incoming, h]
    · simp [incoming, h, Ne.symm h]
  simp only [placed, wired, hout, hin, List.mem_singleton, List.foldl_cons, List.foldl_nil]
  congr 1
  congr 1
  · split
    · exact eraseDups_concat _ _
    · rfl
  · split
    · exact eraseDups_concat _ _
    · rfl

/-- The graph has blocks that were pushed, with edges that were added between them. -/
structure Represents (g : Graph) (blocks : List Block) (edges : List (BlockId × BlockId)) :
    Prop where
  blocks_eq : g.blocks = blocks.mapIdx (placed edges)
  edges_lt : ∀ e ∈ edges, e.1 < blocks.length ∧ e.2 < blocks.length

namespace Represents

variable {blocks : List Block} {edges : List (BlockId × BlockId)}

theorem size_eq (h : g.Represents blocks edges) : g.size = blocks.length := by
  rw [size, h.blocks_eq, List.length_mapIdx]

theorem block?_eq (h : g.Represents blocks edges) (i : Nat) :
    g.block? i = blocks[i]?.map (placed edges i) := by
  rw [block?, h.blocks_eq, List.getElem?_mapIdx]

/-- A pushed block is represented by itself at the end, since no edge could name it before. -/
theorem push (h : g.Represents blocks edges) {b : Block}
    (isolated : b.successors = [] ∧ b.predecessors = []) :
    (g.push b).Represents (blocks ++ [b]) edges := by
  constructor
  · rw [Graph.push, List.mapIdx_append, ← h.blocks_eq, h.size_eq]
    simp [placed_of_forall_lt h.edges_lt isolated]
  · intro e he
    obtain ⟨hsource, htarget⟩ := h.edges_lt e he
    rw [List.length_append, List.length_singleton]
    exact ⟨Nat.lt_succ_of_lt hsource, Nat.lt_succ_of_lt htarget⟩

/-- An edge that is added stands behind the edges before it, or changes nothing if it is one of
them. -/
theorem addEdge (h : g.Represents blocks edges) {source target : BlockId} {g' : Graph}
    (hadd : g.addEdge source target = .ok g') :
    g'.Represents blocks (edges ++ [(source, target)]) := by
  constructor
  · apply List.ext_getElem?
    intro i
    have hblock := block?_addEdge hadd i
    rw [h.block?_eq, Option.map_map] at hblock
    rw [List.getElem?_mapIdx]
    refine hblock.trans (congrArg (fun f => blocks[i]?.map f) ?_)
    funext b
    exact (placed_concat edges source target i b).symm
  · have hlt := addEdge_lt hadd
    rw [h.size_eq] at hlt
    intro e he
    rcases List.mem_append.mp he with he | he
    · exact h.edges_lt e he
    · rw [List.mem_singleton.mp he]
      exact hlt

/-- What a request asks for is represented after it. -/
theorem attempt (h : g.Represents blocks edges) (e : Edit) :
    (e.attempt g).2.Represents (blocks ++ e.pushed) (edges ++ e.added blocks.length) := by
  cases e with
  | push b isolated =>
    rw [Edit.added, List.append_nil]
    exact h.push isolated
  | edge source target =>
    rw [Edit.pushed, List.append_nil, Edit.added, ← h.size_eq]
    by_cases hlt : source < g.size ∧ target < g.size
    · obtain ⟨g', hadd, hattempt⟩ := attempt_edge_of_lt hlt
      rw [if_pos hlt, hattempt]
      exact h.addEdge hadd
    · rw [if_neg hlt, List.append_nil, attempt_edge_of_not_lt hlt]
      exact h

/-- Requests extend what a graph represents by the blocks that they push and the edges that they
add. -/
theorem edit (h : g.Represents blocks edges) (edits : List Edit) :
    (g.edit edits).Represents (blocks ++ edits.flatMap Edit.pushed)
      (edges ++ added blocks.length edits) := by
  induction edits generalizing g blocks edges with
  | nil => simpa [added, Graph.edit] using h
  | cons e rest ih =>
    have hrest := ih (h.attempt e)
    rw [List.append_assoc, List.append_assoc, List.length_append] at hrest
    exact hrest

end Represents

/-! ## Every run -/

/-- What requests build from nothing is told by the requests alone. -/
theorem represents_edited (edits : List Edit) :
    (edited edits).Represents (edits.flatMap Edit.pushed) (added 0 edits) := by
  have hempty : Represents {} [] [] := ⟨rfl, by simp⟩
  exact hempty.edit edits

/-- Whatever is asked for and whatever fails, blocks know their positions, edges lead to blocks that
exist, no edge is listed twice, and an edge is listed at one end exactly where it is listed at the
other. The blocks are the pushed ones, and each lists its edges in the order in which they were
first added. One more request for an edge of a missing block is refused and leaves the graph as it
is. -/
theorem wired_edited (edits : List Edit) :
    (edited edits).Wired ∧
      (edited edits).blocks = (edits.flatMap Edit.pushed).mapIdx (placed (added 0 edits)) ∧
      ∀ source target, ¬(source < (edited edits).size ∧ target < (edited edits).size) →
        ∃ e, e.kind = .graph ∧ (edited edits).addEdge source target = .error e ∧
          (Edit.edge source target).attempt (edited edits) = (.error e, edited edits) := by
  refine ⟨wired_empty.edit edits, (represents_edited edits).blocks_eq, ?_⟩
  intro source target hmissing
  exact ⟨.edgeToMissing source target, rfl, addEdge_of_not_lt hmissing,
    attempt_edge_of_not_lt hmissing⟩

def Edit.pushEmpty (kind : BlockKind) : Edit := .push { kind } ⟨rfl, rfl⟩

/-- Two blocks: the first one has an edge to itself, one of its edges is added twice, and the first
and the fifth request name blocks that do not exist yet or never will. -/
def tangledEdits : List Edit :=
  [.edge 0 0, .pushEmpty .branch, .pushEmpty .jump, .edge 0 1, .edge 1 2, .edge 0 0, .edge 0 1,
    .edge 1 0]

/-- The edge to the block itself is listed once in both directions, and the missing block is
refused. -/
theorem wired_edited_tangled :
    (edited tangledEdits).blocks.map (fun b => (b.id, b.successors, b.predecessors)) =
        [(0, [1, 0], [0, 1]), (1, [0], [0])] ∧
      ∃ e, e.kind = .graph ∧
        (Edit.edge 2 0).attempt (edited tangledEdits) = (.error e, edited tangledEdits) := by
  obtain ⟨-, hblocks, hmissing⟩ := wired_edited tangledEdits
  constructor
  · rw [hblocks]
    decide
  · obtain ⟨e, hkind, -, hattempt⟩ := hmissing 2 0 (by decide)
    exact ⟨e, hkind, hattempt⟩

end Graph

end MethodLift
