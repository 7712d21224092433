import MethodLift.Proofs.Structuring.Edges
import MethodLift.Proofs.Structuring.Gathering
import Mathlib.Logic.Function.Iterate
import Mathlib.Logic.Relation

/-!
# Who owns absorbed blocks

Structuring is safe on any graph, whatever its statements are: blocks that are not reachable, loops
of a block on itself and cycles of blocks that are each other's only predecessors included. All
walks along a plan come to an end, since ranks grow from owners to children. Every absorbed block is
the body of one conditional, its owner is the only block that leads to it, and owners lead up to a
block that stays, so every block is still written once.
-/

namespace MethodLift

namespace Graph

/-- Graphs that are built block by block and edge by edge. -/
inductive Built : Graph → Prop
  | empty : Built {}
  | push {g : Graph} (h : Built g) (b : Block) : Built (g.push b)
  | addEdge {g g' : Graph} (h : Built g) (source target : BlockId)
    (he : g.addEdge source target = .ok g') : Built g'

/-- Building numbers the blocks. -/
theorem Built.numbered {g : Graph} (h : g.Built) : g.Numbered := by
  induction h with
  | empty => exact wired_empty.numbered
  | @push g h b ih =>
    intro i c hc
    rw [block?_push] at hc
    split at hc
    · cases hc
      exact (‹i = g.size›).symm
    · exact ih hc
  | addEdge h source target he ih =>
    intro i c hc
    rw [block?_addEdge he, Option.map_eq_some_iff] at hc
    obtain ⟨b, hb, rfl⟩ := hc
    exact show b.id = i from ih hb

end Graph

/-- The structured conditionals among the statements of a block: the block, and the block that is
their body. -/
def Block.guards (b : Block) : List (BlockId × BlockId) :=
  b.statements.filterMap fun s => s.expr.body?.map fun body => (b.id, body.id)

/-- The blocks that are written: all that are not ignored, with the blocks inside them. -/
def Graph.written (g : Graph) : List Block :=
  (g.blocks.filter fun b => !b.ignored).flatMap Block.sections

namespace Structuring

variable {g g' : Graph} {p done : Plan} {a : Absorption} {i : Nat}

/-! ## Walks along a plan -/

/-- The block that moves into a block. -/
def child? (plan : Plan) (owner : BlockId) : Option BlockId :=
  (plan.find? fun a => a.owner == owner).map fun a => a.child

/-- All walks along a plan come to an end, with a step for each absorption. -/
structure Bounded (p : Plan) : Prop where
  /-- A walk from owner to owner. -/
  up : ∀ i, (fun at? => Option.bind at? (owner? p))^[p.length + 1] (some i) = none
  /-- A walk from child to child. -/
  down : ∀ i, (fun at? => Option.bind at? (child? p))^[p.length + 1] (some i) = none
  /-- More steps make no difference when a block is looked for among the owners. -/
  isInside_eq : ∀ outer inner steps, p.length ≤ steps →
    isInside p outer steps inner = isInside p outer p.length inner
  /-- More steps make no difference when a block is absorbed after all that lies inside it. -/
  insideOut_eq : ∀ done owner steps, p.length ≤ steps →
    insideOut p steps done owner = insideOut p p.length done owner

/-- A walk whose measure falls has ended when the measure is used up. -/
theorem iterate_bind_eq_none {next : Nat → Option Nat} {measure : Nat → Nat}
    (h : ∀ i j, next i = some j → measure j < measure i) {n : Nat} (hn : measure i < n) :
    (fun at? => Option.bind at? next)^[n] (some i) = none := by
  induction n generalizing i with
  | zero => omega
  | succ n ih =>
    rw [Function.iterate_succ_apply, Option.bind_some]
    cases hi : next i with
    | none => exact Function.iterate_fixed rfl n
    | some j =>
      have hlt := h i j hi
      exact ih (by omega)

/-- With a step for each absorption below a block, the steps make no difference. -/
theorem insideOut_eq_of_below (h : Forest p) {rank : Nat → Nat} (hr : Ranked rank p)
    {steps steps' : Nat} {owner : Nat} (hsteps : below rank p owner ≤ steps)
    (hsteps' : below rank p owner ≤ steps') :
    insideOut p steps done owner = insideOut p steps' done owner := by
  -- An owner needs a step for its own absorption.
  have hone : ∀ {n owner}, below rank p owner ≤ n →
      n = 0 → p.find? (fun a => a.owner == owner) = none := by
    intro n owner hn hzero
    refine List.find?_eq_none.mpr fun a ha ho => ?_
    rw [beq_iff_eq] at ho
    have := below_lt hr ha
    rw [ho] at this
    omega
  induction steps generalizing steps' owner with
  | zero =>
    have hnone := hone hsteps rfl
    cases steps' with
    | zero => rfl
    | succ steps' => simp [insideOut, hnone]
  | succ steps ih =>
    cases steps' with
    | zero => simp [insideOut, hone hsteps' rfl]
    | succ steps' =>
      unfold insideOut
      split
      · rfl
      · split
        · rfl
        · rename_i a hfind
          obtain ⟨ha, rfl⟩ := (find?_key_iff h.owners).mp hfind
          have hdown := below_lt hr ha
          have hless : below rank p a.child ≤ steps := by omega
          have hless' : below rank p a.child ≤ steps' := by omega
          rw [ih hless hless']

/-- Walks in a forest are no longer than the forest is large, since ranks rise along them. -/
theorem Forest.bounded (h : Forest p) : Bounded p := by
  obtain ⟨rank, hr⟩ := h.ranked
  constructor
  · intro i
    have hle : above rank p i ≤ p.length := above_le i
    refine iterate_bind_eq_none ?_ (Nat.lt_succ_of_le hle)
    intro i j hj
    obtain ⟨a, ha, rfl, rfl⟩ := h.owner?_eq_some_iff.mp hj
    exact above_lt hr ha
  · intro i
    have hle : below rank p i ≤ p.length := List.countP_le_length
    refine iterate_bind_eq_none ?_ (Nat.lt_succ_of_le hle)
    intro i j hj
    obtain ⟨a, hfind, rfl⟩ := Option.map_eq_some_iff.mp hj
    obtain ⟨ha, rfl⟩ := (find?_key_iff h.owners).mp hfind
    exact below_lt hr ha
  · intro outer inner steps hsteps
    have hle : above rank p inner ≤ p.length := above_le inner
    rw [Bool.eq_iff_iff, isInside_iff_of_above h hr (Nat.le_trans hle hsteps),
      isInside_iff_of_above h hr hle]
  · intro done owner steps hsteps
    have hle : below rank p owner ≤ p.length := List.countP_le_length
    exact insideOut_eq_of_below h hr (Nat.le_trans hle hsteps) hle

/-! ## Conditionals and written blocks -/

/-- An absorption creates one conditional, with the child as its body. -/
theorem adds_guards : Adds Block.guards fun a => [(a.owner, a.child)] := by
  intro a b c condition target hbranch hb hc g taken
  obtain ⟨before, s, after, test, tail, hss, hs, -, -, htail, hnest⟩ :=
    statements_nest hbranch (asBody g c) a.negated taken
  obtain ⟨tail', htail', hasBody⟩ := statements_asBody g c
  have hbody : (asBody g c).guards = c.guards := by
    rw [Block.guards, hasBody, toBlockHead_asBody, List.filterMap_append]
    rcases htail' with rfl | ⟨start, rfl⟩ <;> exact List.append_nil _
  have hid : (asBody g c).id = a.child := by rw [toBlockHead_asBody, hc]
  have hjump : s.expr.body? = none := by
    rw [hs]
    rfl
  have hguarded : (Expr.guarded test (asBody g c).toBlockHead (asBody g c).statements).body? =
      some (asBody g c) := rfl
  have hnone : tail.filterMap (fun s => s.expr.body?.map fun body => (a.owner, body.id)) = [] := by
    rcases htail with rfl | ⟨start, rfl⟩ <;> rfl
  have hempty : (vacate c).guards = [] := rfl
  rw [hbody, hempty]
  simp only [Block.guards, hnest, toBlockHead_nest, hss, hb, List.filterMap_append, hnone,
    List.filterMap_cons, hjump, hguarded, Option.map_some, Option.map_none, hid]
  refine List.perm_iff_count.mpr fun x => ?_
  simp only [List.count_append, List.count_cons, List.count_nil]
  omega

/-- An absorption leaves an empty block behind, besides the body. -/
theorem adds_id : Adds (fun b => [b.id]) fun a => [a.child] := by
  intro a b c condition target _ _ hc g taken
  show List.Perm [(nest b condition (asBody g c) a.negated taken).id, (asBody g c).id, c.id]
    [b.id, c.id, a.child]
  rw [toBlockHead_nest, toBlockHead_asBody, hc]

/-- The sections after structuring are those from before and the blocks that were left behind. -/
theorem perm_ids {ctx : Context} (hg : ctx.graph.Numbered) :
    (ctx.structureBranches.1.graph.sections.map fun b => b.id).Perm
      ((ctx.graph.sections.map fun b => b.id) ++ (plan ctx.graph).map fun a => a.child) := by
  have hids : ∀ g : Graph, g.gather (fun b => [b.id]) = g.sections.map fun b => b.id :=
    fun g => List.map_eq_flatMap.symm
  have hgathered := gather_structureBranches ctx hg adds_id fun _ _ => rfl
  rwa [hids, hids, ← List.map_eq_flatMap] at hgathered

/-! ## The structured graph -/

/-- The head of a block after structuring: an absorbed block is left behind empty and ignored, and
any other is retained. -/
theorem head_structureBranches {ctx : Context} (hg : ctx.graph.Numbered) {b' : Block}
    (hb' : ctx.structureBranches.1.graph.block? i = some b') : ∃ b, ctx.graph.block? i = some b ∧
      ((∃ a ∈ plan ctx.graph, a.child = i) ∧ b'.statements = [] ∧
          b'.toBlockHead = { b.toBlockHead with ignored := true, state := .absorbed } ∨
        (∀ a ∈ plan ctx.graph, a.child ≠ i) ∧
          b'.toBlockHead = { b.toBlockHead with state := .retained }) := by
  obtain ⟨c, hc, hcases⟩ := (structured_structureBranches ctx hg).cases hb'
  have hmarked := hc
  rw [block?_markBlocks] at hc
  obtain ⟨b, hb, rfl⟩ := Option.map_eq_some_iff.mp hc
  refine ⟨b, hb, hcases.imp ?_ ?_⟩
  · rintro ⟨hchild, rfl⟩
    exact ⟨hchild, rfl, rfl⟩
  · rintro ⟨hfree, hnested⟩
    obtain ⟨c, hc, hhead⟩ := hnested.head
    cases hmarked.symm.trans hc
    have hstate : plannedState (plan ctx.graph) b = .retained := by
      have hnone : owner? (plan ctx.graph) b.id = none := by
        rw [owner?_eq_none_iff, hg hb]
        exact hfree
      rw [plannedState, hnone]
    refine ⟨hfree, hhead.trans ?_⟩
    rw [hstate]

/-- Owners lead up to a block that is not absorbed. -/
theorem Forest.exists_top (h : Forest p) (ha : a ∈ p) :
    ∃ top ∈ p, (∀ x ∈ p, x.child ≠ top.owner) ∧
      Relation.TransGen (fun child owner => (owner, child) ∈ p.map fun x => (x.owner, x.child))
        a.child top.owner := by
  obtain ⟨rank, hr⟩ := h.ranked
  -- ranks fall on the way up
  generalize hn : rank a.child = n
  induction n using Nat.strongRecOn generalizing a with
  | ind n ih =>
    have hstep : (a.owner, a.child) ∈ p.map fun x => (x.owner, x.child) := List.mem_map_of_mem ha
    by_cases hup : ∃ x ∈ p, x.child = a.owner
    · obtain ⟨x, hx, hxa⟩ := hup
      have hlt : rank x.child < n := hxa ▸ hn ▸ hr a ha
      obtain ⟨top, htop, hfree, hchain⟩ := ih _ hlt hx rfl
      exact ⟨top, htop, hfree, .head hstep (hxa ▸ hchain)⟩
    · exact ⟨a, ha, fun x hx hxa => hup ⟨x, hx, hxa⟩, .single hstep⟩

/-- What structuring does to a graph, in terms of the conditionals that it creates: each a pair of
the block that owns it and the block that is its body. -/
structure Absorbs (g g' : Graph) (created : List (BlockId × BlockId)) : Prop where
  /-- The conditionals afterwards are those that were there and the created ones. -/
  guards : (g'.gather Block.guards).Perm (g.gather Block.guards ++ created)
  /-- No block absorbs more than one block. -/
  owners : (created.map Prod.fst).Nodup
  /-- No block is the body of more than one conditional. -/
  children : (created.map Prod.snd).Nodup
  /-- The owner is a conditional jump and the only block that leads to the body. -/
  edges : ∀ owner child, (owner, child) ∈ created → ∃ b c, g.block? owner = some b ∧
    g.block? child = some c ∧ b.kind = .branch ∧ 2 ≤ b.successors.length ∧
    child ∈ b.successors ∧ c.predecessors = [owner]
  entry : ∀ owner, (owner, 0) ∉ created
  /-- Heads are as before, but for what is noted about absorption. -/
  heads : ∀ i : Nat,
    (g'.block? i).map (fun b => { b.toBlockHead with ignored := false, state := .unvisited }) =
      (g.block? i).map fun b => { b.toBlockHead with ignored := false, state := .unvisited }
  absorbed_iff : ∀ {i b'}, g'.block? i = some b' →
    (b'.state = .absorbed ↔ i ∈ created.map Prod.snd)
  ignored_iff : ∀ {i b'}, g'.block? i = some b' →
    (b'.ignored = true ↔ i ∈ created.map Prod.snd)
  /-- Owners lead up to a block that stays. -/
  rooted : ∀ child ∈ created.map Prod.snd, ∃ root b',
    Relation.TransGen (fun child owner => (owner, child) ∈ created) child root ∧
      g'.block? root = some b' ∧ b'.state = .retained ∧ b'.ignored = false
  /-- Every block, and every block that was inside one, is written once. -/
  written : (g'.written.map fun b => b.id).Perm (g.sections.map fun b => b.id)

/-- Structuring keeps heads, but for what it notes about absorption. -/
theorem heads_structureBranches {ctx : Context} (hg : ctx.graph.Numbered) (i : Nat) :
    (ctx.structureBranches.1.graph.block? i).map
        (fun b => { b.toBlockHead with ignored := false, state := .unvisited }) =
      (ctx.graph.block? i).map
        fun b => { b.toBlockHead with ignored := false, state := .unvisited } := by
  cases hb' : ctx.structureBranches.1.graph.block? i with
  | some b' =>
    obtain ⟨b, hb, ⟨-, -, hhead⟩ | ⟨-, hhead⟩⟩ := head_structureBranches hg hb' <;>
      simp [hb, hhead]
  | none =>
    have hstart := (structured_structureBranches ctx hg).starts i
    rw [hb', block?_markBlocks] at hstart
    cases hb : ctx.graph.block? i with
    | some b => simp [hb] at hstart
    | none => rfl

theorem exists_structured {ctx : Context} (hg : ctx.graph.Numbered) {b : Block}
    (hb : ctx.graph.block? i = some b) :
    ∃ b', ctx.structureBranches.1.graph.block? i = some b' := by
  have hhead := heads_structureBranches hg i
  rw [hb] at hhead
  obtain ⟨b', hb', -⟩ := Option.map_eq_some_iff.mp hhead
  exact ⟨b', hb'⟩

/-- The state of a block says whether it was absorbed. -/
theorem absorbed_iff {ctx : Context} (hg : ctx.graph.Numbered) {b' : Block}
    (hb' : ctx.structureBranches.1.graph.block? i = some b') :
    b'.state = .absorbed ↔ ∃ a ∈ plan ctx.graph, a.child = i := by
  obtain ⟨b, hb, ⟨hchild, -, hhead⟩ | ⟨hfree, hhead⟩⟩ := head_structureBranches hg hb'
  · simp [hhead, hchild]
  · have hnot : ¬ ∃ a ∈ plan ctx.graph, a.child = i := fun ⟨a, ha, hc⟩ => hfree a ha hc
    simp [hhead, hnot]

/-- Where no block was ignored before, the ignored blocks are the absorbed ones. -/
theorem ignored_iff {ctx : Context} (hg : ctx.graph.Numbered)
    (hvisible : ∀ b ∈ ctx.graph.blocks, b.ignored = false) {b' : Block}
    (hb' : ctx.structureBranches.1.graph.block? i = some b') :
    b'.ignored = true ↔ ∃ a ∈ plan ctx.graph, a.child = i := by
  obtain ⟨b, hb, ⟨hchild, -, hhead⟩ | ⟨hfree, hhead⟩⟩ := head_structureBranches hg hb'
  · simp [hhead, hchild]
  · have hnot : ¬ ∃ a ∈ plan ctx.graph, a.child = i := fun ⟨a, ha, hc⟩ => hfree a ha hc
    simp [hhead, hnot, hvisible b (Graph.mem_blocks_of_block? hb)]

theorem numbered_structureBranches {ctx : Context} (hg : ctx.graph.Numbered) :
    ctx.structureBranches.1.graph.Numbered := by
  intro i b' hb'
  obtain ⟨b, hb, ⟨-, -, hhead⟩ | ⟨-, hhead⟩⟩ := head_structureBranches hg hb' <;>
    rw [hhead] <;> exact hg hb

/-- The blocks that are told by having been absorbed are the children of the plan. -/
theorem perm_children {ctx : Context} (hg : ctx.graph.Numbered) {q : Block → Bool}
    (hq : ∀ {i b'}, ctx.structureBranches.1.graph.block? i = some b' →
      (q b' = true ↔ ∃ a ∈ plan ctx.graph, a.child = i)) :
    ((ctx.structureBranches.1.graph.blocks.filter q).map fun b => b.id).Perm
      ((plan ctx.graph).map fun a => a.child) := by
  have hgrows := grows_plan hg
  have hnumbered := numbered_structureBranches hg
  have hnodup : ((ctx.structureBranches.1.graph.blocks.filter q).map fun b => b.id).Nodup := by
    refine List.Nodup.sublist (List.filter_sublist.map _) ?_
    rw [hnumbered.ids_eq]
    exact List.nodup_range
  refine (List.perm_ext_iff_of_nodup hnodup hgrows.forest.children).mpr fun i => ?_
  simp only [List.mem_map, List.mem_filter]
  constructor
  · rintro ⟨b', ⟨hb', hmoved⟩, rfl⟩
    obtain ⟨i, hb'⟩ := Graph.exists_block?_of_mem hb'
    rw [hnumbered hb']
    exact (hq hb').mp hmoved
  · rintro ⟨a, ha, rfl⟩
    obtain ⟨_, c, hfits⟩ := hgrows.fits a ha
    obtain ⟨c', hc'⟩ := exists_structured hg hfits.child
    exact ⟨c', ⟨Graph.mem_blocks_of_block? hc', (hq hc').mpr ⟨a, ha, rfl⟩⟩, hnumbered hc'⟩

/-- The blocks that are written are all but those that were left behind. -/
theorem perm_written {ctx : Context} (hg : ctx.graph.Numbered)
    (hvisible : ∀ b ∈ ctx.graph.blocks, b.ignored = false) :
    (ctx.structureBranches.1.graph.written.map fun b => b.id).Perm
      (ctx.graph.sections.map fun b => b.id) := by
  -- what was left behind holds nothing
  have hempty : (ctx.structureBranches.1.graph.blocks.filter fun b => b.ignored).flatMap
      Block.sections = ctx.structureBranches.1.graph.blocks.filter fun b => b.ignored := by
    have hone : ∀ b' ∈ ctx.structureBranches.1.graph.blocks.filter fun b => b.ignored,
        b'.sections = [b'] := by
      intro b' hb'
      obtain ⟨hmem, hignored⟩ := List.mem_filter.mp hb'
      obtain ⟨i, hi⟩ := Graph.exists_block?_of_mem hmem
      obtain ⟨b, hb, ⟨-, hnone, -⟩ | ⟨-, hhead⟩⟩ := head_structureBranches hg hi
      · rw [Block.sections, Block.bodies, hnone]
        rfl
      · simp [hhead, hvisible b (Graph.mem_blocks_of_block? hb)] at hignored
    rw [List.flatMap_congr hone, List.flatMap_singleton']
  have hsplit : (ctx.structureBranches.1.graph.written ++
      ctx.structureBranches.1.graph.blocks.filter fun b => b.ignored).Perm
        ctx.structureBranches.1.graph.sections := by
    rw [← hempty, Graph.written, ← List.flatMap_append]
    refine List.Perm.flatMap_right _ ?_
    refine List.perm_append_comm.trans ?_
    simpa using List.filter_append_perm (fun b : Block => b.ignored) _
  have hall := (hsplit.map fun b => b.id).trans (perm_ids hg)
  rw [List.map_append] at hall
  refine (List.perm_append_right_iff _).mp (hall.trans ?_)
  exact (perm_children hg (ignored_iff hg hvisible)).symm.append_left _

end Structuring

open Structuring

/-- Structuring absorbs blocks along a forest. For any graph that is built block by block and edge
by edge, with any statements, the walks along what is planned come to an end at every stage of
planning. Afterwards a block is absorbed exactly if it is ignored, and exactly if it is the body of
a conditional that was created, of which there is one only. Its owner is the one block that leads to
it and ends in a conditional jump between two blocks, the entry stays, no block absorbs two others,
and going from owner to owner leads to a block that stays. So every block is written once. -/
theorem Context.forest_of_structureBranches (ctx : Context) (hbuilt : ctx.graph.Built)
    (hvisible : ∀ b ∈ ctx.graph.blocks, b.ignored = false) :
    (∀ n, Bounded ((ctx.graph.blocks.take n).foldl (planBlock ctx.graph) [])) ∧
      Bounded (plan ctx.graph) ∧
      ∃ created, Absorbs ctx.graph ctx.structureBranches.1.graph created := by
  have hg := hbuilt.numbered
  have hgrows := grows_plan hg
  refine ⟨fun n => (grows_take hg n).1.forest.bounded, hgrows.forest.bounded,
    (plan ctx.graph).map fun a => (a.owner, a.child), ?_⟩
  have hmem : ∀ i, i ∈ ((plan ctx.graph).map fun a => (a.owner, a.child)).map Prod.snd ↔
      ∃ a ∈ plan ctx.graph, a.child = i := by simp
  constructor
  · rw [List.map_eq_flatMap]
    exact gather_structureBranches ctx hg adds_guards fun _ _ => rfl
  · rw [List.map_map]
    exact hgrows.forest.owners
  · rw [List.map_map]
    exact hgrows.forest.children
  · intro owner child hcreated
    obtain ⟨a, ha, heq⟩ := List.mem_map.mp hcreated
    cases heq
    obtain ⟨b, c, hfits⟩ := hgrows.fits a ha
    obtain ⟨taken, next, htaken, hnext, hchild⟩ := hfits.edges
    have hkind := kind_of_taken? htaken
    simp only [Block.taken?, Block.fallthrough?, hkind, if_true] at htaken hnext
    refine ⟨b, c, hfits.owner, hfits.child, hkind, (List.getElem?_eq_some_iff.mp hnext).1, ?_,
      hfits.predecessors⟩
    rw [hchild]
    split
    · exact List.mem_of_getElem? hnext
    · exact List.mem_of_getElem? htaken
  · intro owner hcreated
    obtain ⟨a, ha, heq⟩ := List.mem_map.mp hcreated
    obtain ⟨b, c, hfits⟩ := hgrows.fits a ha
    exact hfits.ne_entry (congrArg Prod.snd heq)
  · exact heads_structureBranches hg
  · intro i b' hb'
    rw [hmem]
    exact absorbed_iff hg hb'
  · intro i b' hb'
    rw [hmem]
    exact ignored_iff hg hvisible hb'
  · intro child hchild
    obtain ⟨a, ha, rfl⟩ := (hmem child).mp hchild
    obtain ⟨top, htop, hfree, hchain⟩ := hgrows.forest.exists_top ha
    obtain ⟨b, _, hfits⟩ := hgrows.fits top htop
    obtain ⟨b', hb'⟩ := exists_structured hg hfits.owner
    refine ⟨top.owner, b', hchain, hb', ?_⟩
    obtain ⟨b₀, hb₀, ⟨⟨x, hx, hxc⟩, -⟩ | ⟨-, hhead⟩⟩ := head_structureBranches hg hb'
    · exact absurd hxc (hfree x hx)
    · rw [hhead]
      exact ⟨rfl, hvisible b₀ (Graph.mem_blocks_of_block? hb₀)⟩
  · exact perm_written hg hvisible

namespace Structuring

/-- An entry that returns, and two blocks that jump to each other or to the entry. Each of the two
is the only predecessor of the other. -/
def mutualGraph : Graph where
  blocks :=
    [{ id := 0, kind := .exit, predecessors := [1, 2], statements := [{ expr := .retVoid }] },
      { id := 1, kind := .branch, start := 1, successors := [2, 0], predecessors := [2]
        statements := [{ expr := .jumpIf (.immediate 1) 2 }] },
      { id := 2, kind := .branch, start := 2, successors := [1, 0], predecessors := [1]
        statements := [{ expr := .jumpIf (.immediate 1) 1 }] }]

def mutualContext : Context where
  image := { isa := .x64 }
  method := { id := 0, name := "mutual", declaringName := "Sample" }
  graph := mutualGraph

theorem built_mutualGraph : mutualGraph.Built := by
  have hblocks := ((Graph.Built.empty.push
    { kind := .exit, statements := [{ expr := .retVoid }] }).push
    { kind := .branch, start := 1, statements := [{ expr := .jumpIf (.immediate 1) 2 }] }).push
    { kind := .branch, start := 2, statements := [{ expr := .jumpIf (.immediate 1) 1 }] }
  exact (((hblocks.addEdge 1 2 rfl).addEdge 1 0 rfl).addEdge 2 1 rfl).addEdge 2 0 rfl

end Structuring

/-- Of two blocks that could absorb each other, the first one does. -/
theorem Context.forest_of_structureBranches_mutual :
    mutualContext.graph.Built ∧ (∀ b ∈ mutualContext.graph.blocks, b.ignored = false) ∧
      plan mutualContext.graph = [⟨1, 2, false⟩] ∧
      ∃ created, Absorbs mutualContext.graph mutualContext.structureBranches.1.graph created := by
  have hvisible : ∀ b ∈ mutualContext.graph.blocks, b.ignored = false := by decide
  exact ⟨built_mutualGraph, hvisible, by decide,
    (forest_of_structureBranches mutualContext built_mutualGraph hvisible).2.2⟩

end MethodLift
