import MethodLift.Proofs.Pass.Placeholders
import MethodLift.Proofs.Structuring.Bodies

/-!
# Structuring is accounted for

Structuring records an event for each block that it moves, and leaves each of them behind as an
ignored block without statements. A conditional has the placeholders of the jump in whose place it
stands, since negating a condition changes none of them, and those of its body. What was eliminated
is moved like all other statements. So no placeholder and no eliminated statement is lost or copied.
-/

namespace MethodLift

namespace Structuring

variable {p done : Plan} {a : Absorption} {b c : Block} {condition : Expr} {target : Nat}
  {ctx : Context}

/-! ## One absorption -/

@[simp] theorem placeholders_negate (e : Expr) : (negate e).placeholders = e.placeholders := by
  refine filterMap_nodes_negate (fun _ => rfl) (fun {kind kind'} left right h => ?_) e
  cases kind <;> cases h <;> rfl

/-- An absorption moves the placeholders of a block into another one. -/
theorem moves_placeholders : Moves Block.placeholders fun _ => [] := by
  intro a b c condition target hbranch _ _ g taken
  obtain ⟨before, s, after, test, tail, hss, hs, -, htest, htail, hnest⟩ :=
    statements_nest hbranch (asBody g c) a.negated taken
  obtain ⟨tail', htail', hbody⟩ := statements_asBody g c
  have hjump : s.expr.placeholders = test.placeholders := by
    rcases htest with rfl | rfl <;> rw [hs]
    · exact Expr.placeholders_jumpIf
    · rw [placeholders_negate, Expr.placeholders_jumpIf]
  have hnone : ∀ {tail : List Statement}, (tail = [] ∨ ∃ start, tail = [{ expr := .jump start }]) →
      tail.flatMap (fun s => s.expr.placeholders) = [] := by
    rintro _ (rfl | ⟨start, rfl⟩) <;> rfl
  have hempty : (vacate c).placeholders = [] := rfl
  rw [hempty]
  simp only [Block.placeholders, hnest, hbody, hss, List.flatMap_append, List.flatMap_cons,
    Expr.placeholders_guarded, hjump, hnone htail, hnone htail']
  refine List.perm_iff_count.mpr fun x => ?_
  simp only [List.count_append, List.count_nil]
  omega

/-- An absorption moves eliminated statements and leaves them as they are. -/
theorem adds_eliminated : Adds Block.eliminated fun _ => [] := by
  intro a b c condition target hbranch _ _ g taken
  obtain ⟨before, s, after, test, tail, hss, -, hkept, -, htail, hnest⟩ :=
    statements_nest hbranch (asBody g c) a.negated taken
  obtain ⟨tail', htail', hbody⟩ := statements_asBody g c
  have hnone : ∀ {tail : List Statement}, (tail = [] ∨ ∃ start, tail = [{ expr := .jump start }]) →
      tail.filter (fun s => s.eliminated) = [] := by
    rintro _ (rfl | ⟨start, rfl⟩) <;> rfl
  have hb : (nest b condition (asBody g c) a.negated taken).eliminated = b.eliminated := by
    simp [Block.eliminated, hnest, hss, hkept, hnone htail]
  have hc : (asBody g c).eliminated = c.eliminated := by
    simp [Block.eliminated, hbody, hnone htail']
  rw [hb, hc]
  exact .refl _

/-- An absorption that is carried out is recorded. -/
theorem events_absorb (hchild : ctx.graph.block? a.child = some c)
    (howner : ctx.graph.block? a.owner = some b) (hne : a.child ≠ a.owner)
    (hbranch : b.branch? = some (.jumpIf condition target)) :
    (absorb ctx a).journal.events = ctx.journal.events ++ [absorbed a] := by
  have howner' : (ctx.graph.modify a.child vacate).block? a.owner = some b := by
    rw [Graph.block?_modify_of_ne _ _ hne, howner]
  unfold absorb
  simp only [hchild, howner', Option.bind_some, hbranch]
  rfl

/-! ## A whole plan -/

/-- Every absorption of a plan is recorded. -/
theorem events_foldl (ctx : Context) (hp : Grows ctx.graph p) (hdone : InsideOut p done) :
    (done.foldl absorb ctx).journal.events = ctx.journal.events ++ done.map absorbed := by
  induction hdone with
  | nil => exact (List.append_nil _).symm
  | @snoc done a hdone ha hnew hinner ih =>
    obtain ⟨b, c, condition, target, -, howner, hchild, -, hne, hbranch⟩ :=
      (carried_foldl ctx hp hdone).exists_next hp hdone ha hnew hinner
    rw [List.foldl_append, List.map_append, ← List.append_assoc, ← ih]
    exact events_absorb hchild howner hne hbranch

/-- Structuring records one absorption for each that was planned. -/
theorem account_structureBranches (hg : ctx.graph.Numbered) :
    ctx.structureBranches.1.journal.events.account = ctx.journal.events.account ++
      List.replicate (plan ctx.graph).length .blockAbsorbed := by
  have hgrows := grows_plan hg
  have hevents := events_foldl { ctx with graph := markBlocks (plan ctx.graph) ctx.graph }
    (hgrows.markBlocks _) (insideOut_order hgrows hg).1
  have hkinds : ∀ e ∈ (order (plan ctx.graph) ctx.graph).map absorbed, e.kind = .blockAbsorbed :=
    List.forall_mem_map.mpr fun _ _ => rfl
  rw [structureBranches_eq, hevents, Events.account_append,
    Events.account_eq_replicate hkinds rfl, List.length_map, (perm_order hg).length_eq]

/-- Statements are moved as they are, so the placeholders stay the same up to order. -/
theorem placeholders_structureBranches (hg : ctx.graph.Numbered) :
    ctx.structureBranches.1.graph.placeholders.Perm ctx.graph.placeholders := by
  have hperm := flatMap_structureBranches ctx hg moves_placeholders fun _ _ => rfl
  rw [List.flatMap_eq_nil_iff.mpr fun _ _ => rfl, List.append_nil] at hperm
  rw [Graph.placeholders_eq, Graph.placeholders_eq]
  exact hperm

/-- The eliminated statements, in bodies and elsewhere, are those that were eliminated before. -/
theorem eliminated_structureBranches (hg : ctx.graph.Numbered) (htidy : ctx.graph.Tidy) :
    (ctx.structureBranches.1.graph.gather Block.eliminated).Perm ctx.graph.eliminated := by
  have hperm := gather_structureBranches ctx hg adds_eliminated fun _ _ => rfl
  rw [List.flatMap_eq_nil_iff.mpr fun _ _ => rfl, List.append_nil] at hperm
  rw [Graph.eliminated_eq, ← htidy.sections_eq]
  exact hperm

/-- Each planned absorption makes one body. -/
theorem length_bodies (hg : ctx.graph.Numbered) (htidy : ctx.graph.Tidy) :
    ctx.structureBranches.1.graph.bodies.length = (plan ctx.graph).length := by
  simpa using (perm_bodies hg htidy).length_eq

/-- Each planned absorption leaves one block behind that is not written. -/
theorem length_ignored (hg : ctx.graph.Numbered)
    (hvisible : ∀ b ∈ ctx.graph.blocks, b.ignored = false) :
    (ctx.structureBranches.1.graph.blocks.filter fun b => b.ignored).length =
      (plan ctx.graph).length := by
  simpa using (perm_children hg (ignored_iff hg hvisible)).length_eq

/-- What is left behind of a block that moved is empty. -/
theorem statements_of_ignored (hg : ctx.graph.Numbered)
    (hvisible : ∀ b ∈ ctx.graph.blocks, b.ignored = false) :
    ∀ b' ∈ ctx.structureBranches.1.graph.blocks, b'.ignored = true → b'.statements = [] := by
  intro b' hb' hignored
  obtain ⟨i, hi⟩ := Graph.exists_block?_of_mem hb'
  obtain ⟨b, hb, ⟨-, hnone, -⟩ | ⟨-, hhead⟩⟩ := head_structureBranches hg hi
  · exact hnone
  · simp [hhead, hvisible b (Graph.mem_blocks_of_block? hb)] at hignored

end Structuring

end MethodLift
