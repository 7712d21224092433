import MethodLift.Proofs.Structuring.Ownership

/-!
# Structuring once more

A second run finds nothing to absorb. A block that owned something ends in a structured conditional
or in a jump, a block that was absorbed is empty, and a block that was left alone still has what
stood in the way: its successors are reached from elsewhere, or they are the entry or itself. The
run plans from scratch, though, and notes the states of blocks from the new plan. So all blocks are
noted as retained, also those that an earlier run had absorbed, and from then on nothing changes.
-/

namespace MethodLift

/-- The graph with all blocks noted as retained. -/
def Graph.retain (g : Graph) : Graph := ⟨g.blocks.map fun b => { b with state := .retained }⟩

theorem Graph.block?_retain (g : Graph) (i : BlockId) :
    g.retain.block? i = (g.block? i).map fun b => { b with state := .retained } :=
  List.getElem?_map

def Context.retain (ctx : Context) : Context := { ctx with graph := ctx.graph.retain }

namespace Structuring

variable {g : Graph} {p : Plan} {i : Nat}

/-! ## What stood in the way -/

theorem Inside.exists_child {outer inner : BlockId} (h : Inside p outer inner) :
    ∃ a ∈ p, a.child = inner := by
  cases h with
  | direct ha _ => exact ⟨_, ha, rfl⟩
  | deeper ha _ => exact ⟨_, ha, rfl⟩

theorem mem_planBlock (g : Graph) (b : Block) {a : Absorption} (ha : a ∈ p) :
    a ∈ planBlock g p b := by
  unfold planBlock
  split
  · split
    · exact List.mem_append_left _ ha
    · split
      · exact List.mem_append_left _ ha
      · exact ha
  · exact ha

theorem mem_foldl_planBlock (bs : List Block) {a : Absorption} (ha : a ∈ p) :
    a ∈ bs.foldl (planBlock g) p :=
  List.foldlRecOn (motive := (a ∈ ·)) bs _ ha fun _ h b _ => mem_planBlock g b h

/-- What is planned for a block is planned with regard to the blocks before it. -/
theorem mem_plan_of_planBlock {b : Block} (hb : g.block? i = some b) {a : Absorption}
    (ha : a ∈ planBlock g ((g.blocks.take i).foldl (planBlock g) []) b) : a ∈ plan g := by
  obtain ⟨hlt, rfl⟩ := List.getElem?_eq_some_iff.mp hb
  have hsplit : g.blocks = g.blocks.take i ++ g.blocks[i] :: g.blocks.drop (i + 1) := by simp
  rw [plan, hsplit, List.foldl_append, List.foldl_cons]
  exact mem_foldl_planBlock _ ha

/-- A block that ends in a conditional jump between two blocks, and neither owns a block nor is
absorbed, could not absorb either of them if nothing else were planned. -/
theorem canAbsorb_nil_of_free (hg : g.Numbered) {b : Block} (hb : g.block? i = some b)
    (hbranch : b.branch?.isSome = true) {taken next : BlockId} (htaken : b.taken? = some taken)
    (hnext : b.fallthrough? = some next) (howns : ∀ a ∈ plan g, a.owner ≠ i)
    (hfree : ∀ a ∈ plan g, a.child ≠ i) {child : BlockId} (hchild : child = taken ∨ child = next) :
    canAbsorb g [] i child = false := by
  obtain ⟨e, he⟩ := Option.isSome_iff_exists.mp hbranch
  obtain ⟨hgrows, -⟩ := grows_take hg i
  -- planning the block did not add anything
  have hrefused : canAbsorb g ((g.blocks.take i).foldl (planBlock g) []) i child = false := by
    by_contra hcan
    rw [Bool.not_eq_false] at hcan
    have hplanned : ∃ a ∈ planBlock g ((g.blocks.take i).foldl (planBlock g) []) b,
        a.owner = i := by
      simp only [planBlock, htaken, hnext, he, hg hb]
      split
      · exact ⟨_, List.mem_append_right _ List.mem_cons_self, rfl⟩
      · rename_i htakes
        rcases hchild with rfl | rfl
        · exact absurd hcan htakes
        · rw [if_pos hcan]
          exact ⟨_, List.mem_append_right _ List.mem_cons_self, rfl⟩
    obtain ⟨a, ha, ho⟩ := hplanned
    exact howns a (mem_plan_of_planBlock hb ha) ho
  by_contra hcan
  rw [Bool.not_eq_false, canAbsorb_iff (grows_nil (g := g)).forest] at hcan
  obtain ⟨c, hc, hzero, hne, -, hpred, -⟩ := hcan
  have hkept : ∀ a ∈ (g.blocks.take i).foldl (planBlock g) [], a ∈ plan g := by
    intro a ha
    exact mem_plan_of_planBlock hb (mem_planBlock g b ha)
  refine Bool.eq_false_iff.mp hrefused ((canAbsorb_iff hgrows.forest).mpr
    ⟨c, hc, hzero, hne, fun a ha hac => ?_, hpred, fun hin => ?_⟩)
  · -- its only predecessor would have absorbed it
    obtain ⟨_, c', hfits⟩ := hgrows.fits a ha
    have hc' := hfits.child
    rw [hac, hc] at hc'
    cases hc'
    have howner : i = a.owner := List.head_eq_of_cons_eq (hpred.symm.trans hfits.predecessors)
    exact howns a (hkept a ha) howner.symm
  · obtain ⟨a, ha, hac⟩ := hin.exists_child
    exact hfree a (hkept a ha) hac

/-! ## Planning a structured graph -/

/-- A block with a body in its conditional does not end in a conditional jump any more. -/
theorem branch?_nest {b inner : Block} {condition : Expr} {target : Nat}
    (h : b.branch? = some (.jumpIf condition target)) (negated : Bool) (taken : Option Nat) :
    (nest b condition inner negated taken).branch? = none := by
  obtain ⟨init, s, hlive, -⟩ := Block.last?_eq_some_iff.mp (Block.branch?_eq_some_iff.mp h)
  have hset : ∀ e, (b.setLast e).last? = some e := fun e =>
    Block.last?_eq_some_iff.mpr ⟨init, _, Block.live_setLast hlive, rfl⟩
  have happend : ∀ (b : Block) (e : Expr), (b.append e).last? = some e := fun b e =>
    Block.last?_eq_some_iff.mpr ⟨b.live, _, Block.live_append b e, rfl⟩
  have hlast : (∃ test head body, (nest b condition inner negated taken).last? =
      some (.guarded test head body)) ∨
        ∃ start, (nest b condition inner negated taken).last? = some (.jump start) := by
    cases negated with
    | false => exact .inl ⟨_, _, _, hset _⟩
    | true =>
      cases taken with
      | none => exact .inl ⟨_, _, _, hset _⟩
      | some start => exact .inr ⟨start, happend _ _⟩
  unfold Block.branch?
  rcases hlast with ⟨test, head, body, hlast⟩ | ⟨start, hlast⟩ <;> rw [hlast]

/-- A block that ends in a conditional jump after structuring was neither absorbed nor did it
absorb anything. It is as it was, but for its state. -/
theorem untouched_of_branch {ctx : Context} (hg : ctx.graph.Numbered) {b' : Block}
    (hb' : ctx.structureBranches.1.graph.block? i = some b') (hbranch : b'.branch?.isSome = true) :
    ∃ b, ctx.graph.block? i = some b ∧ b' = { b with state := b'.state } ∧
      (∀ a ∈ plan ctx.graph, a.owner ≠ i) ∧ ∀ a ∈ plan ctx.graph, a.child ≠ i := by
  obtain ⟨c, hc, ⟨-, rfl⟩ | ⟨hfree, hnested⟩⟩ := (structured_structureBranches ctx hg).cases hb'
  · cases hbranch
  · cases hnested with
    | leaf hmarked howns =>
      rw [block?_markBlocks] at hmarked
      obtain ⟨b, hb, rfl⟩ := Option.map_eq_some_iff.mp hmarked
      exact ⟨b, hb, rfl, howns, hfree⟩
    | node _ _ hjump _ =>
      rw [branch?_nest hjump] at hbranch
      cases hbranch

/-- Whether a block may be absorbed is a matter of its predecessors. -/
theorem canAbsorb_congr {g' : Graph} {child : BlockId}
    (h : (g'.block? child).map (fun b => b.predecessors) =
      (g.block? child).map fun b => b.predecessors) (p : Plan) (owner : BlockId) :
    canAbsorb g' p owner child = canAbsorb g p owner child := by
  unfold canAbsorb
  cases hc : g.block? child with
  | none =>
    rw [hc, Option.map_none, Option.map_eq_none_iff] at h
    rw [h]
  | some c =>
    rw [hc] at h
    obtain ⟨c', hc', hpred⟩ := Option.map_eq_some_iff.mp h
    rw [hc']
    dsimp only
    rw [hpred]

/-- Structuring leaves edges as they are, also those of absorbed blocks. -/
theorem predecessors_structureBranches {ctx : Context} (hg : ctx.graph.Numbered) (i : Nat) :
    (ctx.structureBranches.1.graph.block? i).map (fun b => b.predecessors) =
      (ctx.graph.block? i).map fun b => b.predecessors := by
  have hheads := congrArg (Option.map BlockHead.predecessors) (heads_structureBranches hg i)
  rwa [Option.map_map, Option.map_map] at hheads

/-- After a run there is nothing left to absorb. -/
theorem plan_structureBranches {ctx : Context} (hg : ctx.graph.Numbered) :
    plan ctx.structureBranches.1.graph = [] := by
  refine List.foldlRecOn (motive := (· = [])) _ _ rfl ?_
  rintro _ rfl b' hb'
  obtain ⟨i, hi⟩ := Graph.exists_block?_of_mem hb'
  have hid : b'.id = i := numbered_structureBranches hg hi
  unfold planBlock
  split
  · rename_i taken next e htaken hnext hbranch
    obtain ⟨b, hb, heq, howns, hfree⟩ := untouched_of_branch hg hi (by rw [hbranch]; rfl)
    rw [heq] at htaken hnext hbranch
    have hrefused : ∀ child, child = taken ∨ child = next →
        canAbsorb ctx.structureBranches.1.graph [] b'.id child = false := by
      intro child hchild
      rw [canAbsorb_congr (predecessors_structureBranches hg child), hid]
      have hjump : b.branch?.isSome = true := Option.isSome_iff_exists.mpr ⟨e, hbranch⟩
      exact canAbsorb_nil_of_free hg hb hjump htaken hnext howns hfree hchild
    rw [hrefused taken (.inl rfl), hrefused next (.inr rfl)]
    rfl
  · rfl

/-! ## Runs that absorb nothing -/

/-- Without a plan, structuring only notes all blocks as retained. -/
theorem structureBranches_of_plan {ctx : Context} (h : plan ctx.graph = []) :
    ctx.structureBranches = (ctx.retain, false) := by
  simp only [Context.structureBranches, h]
  rfl

/-- The states of blocks play no part in planning. -/
theorem plan_retain (g : Graph) : plan g.retain = plan g := by
  have hcan : ∀ p owner child, canAbsorb g.retain p owner child = canAbsorb g p owner child := by
    intro p owner child
    refine canAbsorb_congr ?_ p owner
    rw [Graph.block?_retain, Option.map_map]
    rfl
  have hblock : ∀ p (b : Block), planBlock g.retain p { b with state := .retained } =
      planBlock g p b := by
    intro p b
    simp only [planBlock, hcan]
    rfl
  show (g.blocks.map _).foldl _ _ = _
  rw [List.foldl_map]
  exact congrArg (fun step => g.blocks.foldl step []) (funext₂ hblock)

/-- Blocks that are noted as retained stay so. -/
theorem retain_retain (ctx : Context) : ctx.retain.retain = ctx.retain := by
  show { ctx with graph := ctx.graph.retain.retain } = ctx.retain
  rw [Graph.retain, Graph.retain, List.map_map]
  rfl

end Structuring

namespace Context

open Structuring

/-- Structuring a second time, after any graph that is built block by block and edge by edge, with
any statements, reports no change, and absorbs and moves nothing: all it does is to note every block
as retained. Any further run leaves everything as it is. So the second run leaves the method as it
was exactly if the first one absorbed nothing, and a block that the first run absorbed stays empty
and ignored, but is not noted as absorbed any more. -/
theorem rests_structureBranches (ctx : Context) (hbuilt : ctx.graph.Built) :
    let once := ctx.structureBranches.1
    once.structureBranches = (once.retain, false) ∧
      once.retain.structureBranches = (once.retain, false) ∧
      (once.retain = once ↔ ctx.structureBranches.2 = false) ∧
      ∀ i b, once.graph.block? i = some b → b.state = .absorbed →
        b.ignored = true ∧ b.statements = [] ∧
          once.retain.graph.block? i = some { b with state := .retained } := by
  have hg := hbuilt.numbered
  have hplan := plan_structureBranches hg
  refine ⟨structureBranches_of_plan hplan, ?_, ?_, fun i b hb hstate => ?_⟩
  · rw [structureBranches_of_plan ((plan_retain _).trans hplan), retain_retain]
  · constructor
    · intro heq
      by_contra hchanged
      have hne : plan ctx.graph ≠ [] := fun hnil =>
        hchanged (congrArg Prod.snd (structureBranches_of_plan hnil))
      obtain ⟨a, ha⟩ := List.exists_mem_of_ne_nil _ hne
      obtain ⟨_, c, hfits⟩ := (grows_plan hg).fits a ha
      obtain ⟨c', hc'⟩ := exists_structured hg hfits.child
      have habsorbed := (absorbed_iff hg hc').mpr ⟨a, ha, rfl⟩
      have hretained := congrArg (fun c => c.graph.block? a.child) heq
      rw [show ctx.structureBranches.1.retain.graph.block? a.child = _ from
        Graph.block?_retain _ _, hc'] at hretained
      rw [← Option.some.inj hretained] at habsorbed
      cases habsorbed
    · intro hquiet
      have hnil : plan ctx.graph = [] := by
        by_contra hne
        simp only [structureBranches, List.isEmpty_iff, if_neg hne] at hquiet
        cases hquiet
      rw [structureBranches_of_plan hnil]
      exact retain_retain ctx
  · obtain ⟨c, -, ⟨-, hnone, hhead⟩ | ⟨-, hhead⟩⟩ := head_structureBranches hg hb
    · refine ⟨by rw [hhead], hnone, ?_⟩
      rw [show ctx.structureBranches.1.retain.graph.block? i = _ from Graph.block?_retain _ _, hb]
      rfl
    · rw [hhead] at hstate
      cases hstate

/-- The second run absorbs nothing, and yet notes the absorbed block as retained. -/
theorem rests_structureBranches_mutual :
    mutualContext.graph.Built ∧
      mutualContext.structureBranches.1.structureBranches.2 = false ∧
      mutualContext.structureBranches.1.retain ≠ mutualContext.structureBranches.1 := by
  obtain ⟨hagain, -, hsame, -⟩ := rests_structureBranches mutualContext built_mutualGraph
  refine ⟨built_mutualGraph, congrArg Prod.snd hagain, fun heq => ?_⟩
  exact absurd (hsame.mp heq) (by decide)

/-- A block that one run absorbed is noted as retained after the next, so the method is not left as
it was. -/
theorem not_rests_structureBranches_mutual :
    mutualContext.graph.Built ∧
      (mutualContext.structureBranches.1.graph.block? 2).map (fun b => b.state) =
        some .absorbed ∧
      (mutualContext.structureBranches.1.structureBranches.1.graph.block? 2).map
        (fun b => b.state) = some .retained ∧
      mutualContext.structureBranches.1.structureBranches.1 ≠
        mutualContext.structureBranches.1 := by
  have hfirst : (mutualContext.structureBranches.1.graph.block? 2).map (fun b => b.state) =
      some .absorbed := by decide
  have hsecond : (mutualContext.structureBranches.1.structureBranches.1.graph.block? 2).map
      (fun b => b.state) = some .retained := by decide
  refine ⟨built_mutualGraph, hfirst, hsecond, fun heq => ?_⟩
  rw [heq, hfirst] at hsecond
  cases hsecond

end Context

end MethodLift
