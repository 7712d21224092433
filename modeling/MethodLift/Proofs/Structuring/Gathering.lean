import MethodLift.Proofs.Block.Sections
import MethodLift.Proofs.Structuring.Nesting

/-!
# What absorptions move

An absorption leaves a block empty and puts it, as a body, into another one, and changes no other
block. Anything that is found in the blocks of a graph is therefore moved and neither lost nor
copied, up to what these changes add: `Moves` says what that is for one absorption, and
`flatMap_structureBranches` what it is for a whole plan. What is gathered from the sections of a
graph, block by block and body by body, moves in the same way, by `Adds` and
`gather_structureBranches`.
-/

namespace MethodLift

/-- Changing one element exchanges what it contributes. -/
theorem perm_flatMap_modify {α β : Type} {l : List α} {i : Nat} {a : α} (h : l[i]? = some a)
    (f : α → α) (k : α → List β) :
    ((l.modify i f).flatMap k ++ k a).Perm (l.flatMap k ++ k (f a)) := by
  induction l generalizing i with
  | nil => cases h
  | cons x rest ih =>
    cases i with
    | zero =>
      cases h
      simp only [List.modify_zero_cons, List.flatMap_cons]
      refine List.perm_append_comm.trans ?_
      rw [List.append_assoc]
      exact List.perm_append_comm.append_left _
    | succ i =>
      simp only [List.modify_succ_cons, List.flatMap_cons, List.append_assoc]
      exact (ih h).append_left (k x)

namespace Graph

variable {β : Type}

/-- What is found in the sections of a graph. -/
def gather (k : Block → List β) (g : Graph) : List β := g.sections.flatMap k

theorem gather_eq (k : Block → List β) (g : Graph) :
    g.gather k = g.blocks.flatMap fun b => b.sections.flatMap k :=
  List.flatMap_assoc

end Graph

namespace Structuring

variable {β : Type} {k : Block → List β} {new : Absorption → List β} {g : Graph} {p done : Plan}
  {a : Absorption} {b : Block} {condition : Expr} {target : Nat}

/-! ## The blocks inside an owner -/

/-- Negating a condition keeps what its parts are, as far as complements and the kinds of
comparisons do not matter. -/
theorem filterMap_nodes_negate {f : Expr → Option β} (hcomplement : ∀ e, f (.complement e) = none)
    (hcompare : ∀ {kind kind' : Comparison} (left right : Expr), kind.negate? = some kind' →
      f (.compare kind' left right) = f (.compare kind left right)) (e : Expr) :
    (negate e).nodes.filterMap f = e.nodes.filterMap f := by
  have hself : ∀ e : Expr, (Expr.complement e).nodes.filterMap f = e.nodes.filterMap f := by
    intro e
    rw [Expr.nodes, List.filterMap_cons_none (hcomplement e)]
  unfold negate
  split
  · split
    · rename_i hkind
      rw [Expr.nodes, Expr.nodes, List.filterMap_cons, List.filterMap_cons, hcompare _ _ hkind]
    · exact hself _
  · exact (hself _).symm
  · exact hself _

@[simp] theorem bodies_negate (e : Expr) : (negate e).bodies = e.bodies :=
  filterMap_nodes_negate (fun _ => rfl) (fun _ _ _ => rfl) e

/-- The statements of a block that ends in a conditional jump, with another statement there. -/
theorem exists_setLast (h : b.branch? = some (.jumpIf condition target)) :
    ∃ before s after, b.statements = before ++ s :: after ∧ s.expr = .jumpIf condition target ∧
      s.eliminated = false ∧
      ∀ e, (b.setLast e).statements = before ++ { s with expr := e } :: after := by
  obtain ⟨init, s, hlive, hs⟩ := Block.last?_eq_some_iff.mp (Block.branch?_eq_some_iff.mp h)
  obtain ⟨before, after, hss, -, hkept, hreplace⟩ := Block.exists_replaceLast hlive
  exact ⟨before, s, after, hss, hs, hkept, hreplace⟩

/-- The statements of an owner: a conditional in the place of the conditional jump, and maybe a
jump behind them. -/
theorem statements_nest (h : b.branch? = some (.jumpIf condition target)) (body : Block)
    (negated : Bool) (taken : Option Nat) :
    ∃ before s after test tail, b.statements = before ++ s :: after ∧
      s.expr = .jumpIf condition target ∧ s.eliminated = false ∧
      (test = condition ∨ test = negate condition) ∧
      (tail = [] ∨ ∃ start, tail = [{ expr := .jump start }]) ∧
      (nest b condition body negated taken).statements =
        before ++ { s with expr := .guarded test body.toBlockHead body.statements } :: after ++
          tail := by
  obtain ⟨before, s, after, hss, hs, hkept, hset⟩ := exists_setLast h
  refine ⟨before, s, after, if negated then negate condition else condition,
    if negated then (taken.map fun start => { expr := .jump start }).toList else [], hss, hs, hkept,
    ?_, ?_, ?_⟩
  · cases negated
    · exact .inl rfl
    · exact .inr rfl
  · cases negated
    · exact .inl rfl
    · cases taken with
      | none => exact .inl rfl
      | some start => exact .inr ⟨start, rfl⟩
  · cases negated
    · exact (hset _).trans (List.append_nil _).symm
    · cases taken with
      | none => exact (hset _).trans (List.append_nil _).symm
      | some start => exact congrArg (· ++ [{ expr := .jump start }]) (hset _)

/-- The statements of a body: those of the block, and maybe a jump behind them. -/
theorem statements_asBody (g : Graph) (b : Block) :
    ∃ tail, (tail = [] ∨ ∃ start, tail = [{ expr := .jump start }]) ∧
      (asBody g b).statements = b.statements ++ tail := by
  unfold asBody
  split
  · exact ⟨[], .inl rfl, (List.append_nil _).symm⟩
  · split
    · rename_i start _
      exact ⟨_, .inr ⟨start, rfl⟩, rfl⟩
    · exact ⟨[], .inl rfl, (List.append_nil _).symm⟩

@[simp] theorem bodies_asBody (g : Graph) (b : Block) : (asBody g b).bodies = b.bodies := by
  obtain ⟨tail, htail, hbody⟩ := statements_asBody g b
  have hnone : tail.flatMap (fun s => s.expr.bodies) = [] := by
    rcases htail with rfl | ⟨start, rfl⟩ <;> rfl
  rw [Block.bodies, hbody, List.flatMap_append, hnone, List.append_nil]
  rfl

/-- The blocks inside an owner are those that were there and the sections of the new body. -/
theorem perm_bodies_nest (h : b.branch? = some (.jumpIf condition target)) (body : Block)
    (negated : Bool) (taken : Option Nat) :
    (nest b condition body negated taken).bodies.Perm (b.bodies ++ body.sections) := by
  obtain ⟨before, s, after, test, tail, hss, hs, -, htest, htail, hnest⟩ :=
    statements_nest h body negated taken
  have hcondition : s.expr.bodies = test.bodies := by
    rcases htest with rfl | rfl <;> rw [hs]
    · rfl
    · exact (bodies_negate condition).symm
  have hnone : tail.flatMap (fun s => s.expr.bodies) = [] := by
    rcases htail with rfl | ⟨start, rfl⟩ <;> rfl
  rw [Block.bodies, Block.bodies, hnest, hss, Block.sections]
  simp only [List.flatMap_append, List.flatMap_cons, hnone, hcondition, Expr.bodies_guarded]
  classical
  refine List.perm_iff_count.mpr fun x => ?_
  simp only [List.count_append, List.count_cons, List.append_nil]
  omega

/-! ## One absorption -/

/-- The change of the two blocks of an absorption adds something new to a quantity of blocks; all
else that is found in them afterwards was found in them before. -/
def Moves (k : Block → List β) (new : Absorption → List β) : Prop :=
  ∀ ⦃a : Absorption⦄ ⦃b c : Block⦄ ⦃condition : Expr⦄ ⦃target : Nat⦄,
    b.branch? = some (.jumpIf condition target) → b.id = a.owner → c.id = a.child →
    ∀ (g : Graph) (taken : Option Nat),
      (k (nest b condition (asBody g c) a.negated taken) ++ k (vacate c)).Perm
        (k b ++ k c ++ new a)

/-- As for `Moves`, but with the body counted apart from its owner. -/
def Adds (k : Block → List β) (new : Absorption → List β) : Prop :=
  ∀ ⦃a : Absorption⦄ ⦃b c : Block⦄ ⦃condition : Expr⦄ ⦃target : Nat⦄,
    b.branch? = some (.jumpIf condition target) → b.id = a.owner → c.id = a.child →
    ∀ (g : Graph) (taken : Option Nat),
      (k (nest b condition (asBody g c) a.negated taken) ++ k (asBody g c) ++ k (vacate c)).Perm
        (k b ++ k c ++ new a)

/-- What is found in sections moves with the blocks. -/
theorem Adds.moves (hk : Adds k new) : Moves (fun b => b.sections.flatMap k) new := by
  intro a b c condition target hbranch hb hc g taken
  have hinside := (perm_bodies_nest hbranch (asBody g c) a.negated taken).flatMap_right k
  have hadds := hk hbranch hb hc g taken
  have hempty : (vacate c).bodies = [] := rfl
  classical
  refine List.perm_iff_count.mpr fun x => ?_
  replace hinside := hinside.count_eq x
  replace hadds := hadds.count_eq x
  simp only [Block.sections, bodies_asBody, hempty, List.flatMap_append, List.flatMap_cons,
    List.flatMap_nil, List.count_append, List.count_nil] at hinside hadds ⊢
  omega

/-- The blocks that an absorption is about, when it is carried out after all that lies inside it. -/
theorem Carried.exists_next {ctx : Context} (h : Carried g p done ctx.graph) (hp : Grows g p)
    (hdone : InsideOut p done) (ha : a ∈ p) (hnew : a ∉ done)
    (hinner : ∀ b ∈ p, b.owner = a.child → b ∈ done) :
    ∃ b c condition target, g.block? a.owner = some b ∧ ctx.graph.block? a.owner = some b ∧
      ctx.graph.block? a.child = some c ∧ Nested g p a.child c ∧ a.child ≠ a.owner ∧
      b.branch? = some (.jumpIf condition target) := by
  obtain ⟨b, c, hfits⟩ := hp.fits a ha
  obtain ⟨condition, target, hbranch⟩ := hfits.branch
  obtain ⟨c', hc', hnested⟩ := h.nested hfits.child (hdone.child_ne hp.forest ha hnew) hinner
  have hb : ctx.graph.block? a.owner = some b :=
    (h.same a.owner (hdone.owner_ne hp.forest ha hnew) (hdone.child_ne_owner ha hnew)).trans
      hfits.owner
  exact ⟨b, c', condition, target, hfits.owner, hb, hc', hnested, hfits.ne_owner, hbranch⟩

/-- What is found after an absorption is what was there before and what it adds. -/
theorem Carried.flatMap_absorb {ctx : Context} (h : Carried g p done ctx.graph) (hg : g.Numbered)
    (hp : Grows g p) (hdone : InsideOut p done) (ha : a ∈ p) (hnew : a ∉ done)
    (hinner : ∀ b ∈ p, b.owner = a.child → b ∈ done) (hk : Moves k new) :
    ((Structuring.absorb ctx a).graph.blocks.flatMap k).Perm
      (ctx.graph.blocks.flatMap k ++ new a) := by
  obtain ⟨b, c, condition, target, hb, howner, hchild, hnested, hne, hbranch⟩ :=
    h.exists_next hp hdone ha hnew hinner
  obtain ⟨c₀, hc₀, hhead⟩ := hnested.head
  have hid : c.id = a.child := (congrArg BlockHead.id hhead).trans (hg hc₀)
  have howner' : (ctx.graph.modify a.child vacate).block? a.owner = some b := by
    rw [Graph.block?_modify_of_ne _ _ hne, howner]
  rw [graph_absorb hchild howner hne hbranch]
  generalize takenStart? (ctx.graph.modify a.child vacate) b = taken
  -- first the child leaves, then the owner takes it in
  have hleave := perm_flatMap_modify hchild vacate k
  have htake := perm_flatMap_modify howner'
    (fun x => nest x condition (asBody ctx.graph c) a.negated taken) k
  have hmoves := hk hbranch (hg hb) hid ctx.graph taken
  classical
  refine List.perm_iff_count.mpr fun x => ?_
  replace hleave := hleave.count_eq x
  replace htake := htake.count_eq x
  replace hmoves := hmoves.count_eq x
  simp only [Graph.modify, List.count_append] at hleave htake hmoves ⊢
  omega

/-! ## A whole plan -/

/-- Absorptions from the inside out add up what each of them adds. -/
theorem flatMap_foldl (ctx : Context) (hg : ctx.graph.Numbered) (hp : Grows ctx.graph p)
    (hdone : InsideOut p done) (hk : Moves k new) :
    ((done.foldl absorb ctx).graph.blocks.flatMap k).Perm
      (ctx.graph.blocks.flatMap k ++ done.flatMap new) := by
  induction hdone with
  | nil =>
    rw [List.foldl_nil, List.flatMap_nil, List.append_nil]
  | @snoc done a hdone ha hnew hinner ih =>
    rw [List.foldl_append, List.flatMap_append, ← List.append_assoc, List.flatMap_singleton]
    exact ((carried_foldl ctx hp hdone).flatMap_absorb hg hp hdone ha hnew hinner hk).trans
      (ih.append_right _)

/-- No absorption is carried out twice. -/
theorem InsideOut.nodup (h : InsideOut p done) : done.Nodup := by
  induction h with
  | nil => exact List.nodup_nil
  | snoc _ _ hnew _ ih => exact List.concat_eq_append ▸ ih.concat hnew

/-- The order of a plan meets each absorption once. -/
theorem perm_order (hg : g.Numbered) : (order (plan g) g).Perm (plan g) := by
  have hgrows := grows_plan hg
  obtain ⟨hordered, hall⟩ := insideOut_order hgrows hg
  exact (List.perm_ext_iff_of_nodup hordered.nodup hgrows.forest.owners.of_map).mpr fun a =>
    ⟨hordered.subset a, hall a⟩

theorem block?_markBlocks (q : Plan) (g : Graph) (i : Nat) :
    (markBlocks q g).block? i = (g.block? i).map fun b => { b with state := plannedState q b } :=
  List.getElem?_map

theorem numbered_markBlocks (hg : g.Numbered) (q : Plan) : (markBlocks q g).Numbered := by
  intro i b hb
  rw [block?_markBlocks] at hb
  obtain ⟨c, hc, rfl⟩ := Option.map_eq_some_iff.mp hb
  exact show c.id = i from hg hc

/-- What is found after structuring is what was there before and what the plan adds. -/
theorem flatMap_structureBranches (ctx : Context) (hg : ctx.graph.Numbered) (hk : Moves k new)
    (hstate : ∀ b state, k { b with state } = k b) :
    (ctx.structureBranches.1.graph.blocks.flatMap k).Perm
      (ctx.graph.blocks.flatMap k ++ (plan ctx.graph).flatMap new) := by
  have hgrows := grows_plan hg
  have hmarked : (markBlocks (plan ctx.graph) ctx.graph).blocks.flatMap k =
      ctx.graph.blocks.flatMap k := by
    rw [markBlocks, List.flatMap_map]
    exact List.flatMap_congr fun b _ => hstate b _
  have hperm := flatMap_foldl { ctx with graph := markBlocks (plan ctx.graph) ctx.graph }
    (numbered_markBlocks hg _) (hgrows.markBlocks _) (insideOut_order hgrows hg).1 hk
  rw [← structureBranches_eq, hmarked] at hperm
  exact hperm.trans (((perm_order hg).flatMap_right new).append_left _)

/-- What is gathered after structuring is what was there before and what the plan adds. -/
theorem gather_structureBranches (ctx : Context) (hg : ctx.graph.Numbered) (hk : Adds k new)
    (hstate : ∀ b state, k { b with state } = k b) :
    (ctx.structureBranches.1.graph.gather k).Perm
      (ctx.graph.gather k ++ (plan ctx.graph).flatMap new) := by
  rw [Graph.gather_eq, Graph.gather_eq]
  exact flatMap_structureBranches ctx hg hk.moves fun b state =>
    congrArg (· ++ b.bodies.flatMap k) (hstate b state)

end Structuring

end MethodLift
