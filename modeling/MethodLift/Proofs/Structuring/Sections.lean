import MethodLift.Proofs.Block.Sources
import MethodLift.Proofs.Pass.LabelCount
import MethodLift.Proofs.Structuring.Gathering
import MethodLift.Proofs.Structuring.Jumps

/-!
# Sections of structured graphs

Structuring moves blocks and does not copy or drop them. A section of a structured graph is what is
left of a block that moved away, which is nothing, or it has *grown* out of a block: the same
statements in the same order, a conditional in the place of the conditional jump at the end, and
maybe a jump behind them. Together the sections have the sources that the blocks had, each as often
as before, since an absorption adds none.
-/

namespace MethodLift

namespace Structuring

variable {g g' : Graph} {p done : Plan} {b b' body : Block} {condition : Expr} {target : Nat}

/-! ## Sections that grew out of blocks -/

/-- A statement as structuring leaves it: as it was, or with a structured conditional in the place
of its conditional jump. -/
inductive Guards (s : Statement) : Statement → Prop
  | same : Guards s s
  | guarded {condition test : Expr} {target : Nat} {head : BlockHead} {body : List Statement}
    (hs : s.expr = .jumpIf condition target) (htest : test = condition ∨ test = negate condition) :
    Guards s { s with expr := .guarded test head body }

/-- A section that grew out of a block. -/
structure Grown (b b' : Block) : Prop where
  range_eq : b'.range = b.range
  statements : ∃ ss, List.Forall₂ Guards b.statements ss ∧
    (b'.statements = ss ∨ ∃ target, b'.statements = ss ++ [{ expr := .jump target }])

theorem Grown.refl (b : Block) : Grown b b where
  range_eq := rfl
  statements := ⟨b.statements, List.forall₂_same.mpr fun _ _ => .same, .inl rfl⟩

@[simp] theorem leaves_negate (e : Expr) : (negate e).leaves = e.leaves := by
  unfold negate
  split
  · split
    · rfl
    · rfl
  · rfl
  · rfl

namespace Guards

variable {s s' : Statement}

theorem source_eq (h : Guards s s') : s'.source = s.source := by
  cases h <;> rfl

theorem eliminated_eq (h : Guards s s') : s'.eliminated = s.eliminated := by
  cases h <;> rfl

/-- A conditional mentions what the jump in its place mentioned. -/
theorem ownLeaves_subset (h : Guards s s') : s'.expr.ownLeaves ⊆ s.expr.leaves := by
  cases h with
  | same => exact s.expr.ownLeaves_subset
  | guarded hs htest =>
    rw [hs, Expr.leaves_jumpIf]
    rcases htest with rfl | rfl
    · exact List.Subset.refl _
    · show (negate _).leaves ⊆ _
      rw [leaves_negate]
      exact List.Subset.refl _

/-- A conditional that takes the place of a jump assigns to no variable either. -/
theorem assigned?_eq (h : Guards s s') : s'.expr.assigned? = s.expr.assigned? := by
  cases h with
  | same => rfl
  | guarded hs htest => rw [hs]; rfl

end Guards

/-- A statement of a section is a statement of its block, with a conditional in the place of a jump,
or it is a jump that was put at the end. -/
theorem Grown.exists_of_mem (h : Grown b b') {s' : Statement} (hs' : s' ∈ b'.statements) :
    (∃ s ∈ b.statements, Guards s s') ∨ ∃ target, s' = { expr := .jump target } := by
  obtain ⟨ss, hss, heq | ⟨target, heq⟩⟩ := h.statements
  · rw [heq] at hs'
    exact .inl (exists_of_forall₂ hss hs')
  · rw [heq] at hs'
    rcases List.mem_append.mp hs' with hmem | hmem
    · exact .inl (exists_of_forall₂ hss hmem)
    · exact .inr ⟨target, List.mem_singleton.mp hmem⟩

/-- A grown section has the sources that it had. -/
theorem Grown.sources_eq (h : Grown b b') : b'.sources = b.sources := by
  obtain ⟨ss, hss, hstatements⟩ := h.statements
  have hsame : ss.filterMap (fun s => s.source) = b.sources := by
    have hmap : ss.map (fun s => s.source) = b.statements.map fun s => s.source :=
      map_eq_of_forall₂ hss fun _ _ hs => hs.source_eq
    simpa [Block.sources] using congrArg (List.filterMap id) hmap
  rcases hstatements with heq | ⟨target, heq⟩
  · rw [Block.sources, heq, hsame]
  · rw [Block.sources, heq, List.filterMap_append, hsame]
    exact List.append_nil _

/-- A section gets no second jump when it becomes a body. -/
theorem Grown.asBody (h : Grown b b') (g : Graph) : Grown b (asBody g b') := by
  have hrange : (Structuring.asBody g b').range = b.range := by
    rw [toBlockHead_asBody]
    exact h.range_eq
  refine ⟨hrange, ?_⟩
  obtain ⟨ss, hss, hstatements⟩ := h.statements
  refine ⟨ss, hss, ?_⟩
  unfold Structuring.asBody
  split
  · exact hstatements
  · rename_i hends
    rcases hstatements with heq | ⟨target, heq⟩
    · split
      · exact .inr ⟨_, by rw [Block.append, heq]⟩
      · exact .inl heq
    · have hlive : b'.live = ss.filter (fun s => !s.eliminated) ++ [{ expr := .jump target }] := by
        simp [Block.live, heq]
      exact absurd (endsInJump_of_last hlive) hends

/-- An owner grows when its jump becomes a conditional. -/
theorem grown_nest (h : b.branch? = some (.jumpIf condition target)) (body : Block)
    (negated : Bool) (taken : Option Nat) : Grown b (nest b condition body negated taken) := by
  obtain ⟨before, s, after, test, tail, hss, hs, -, htest, htail, hnest⟩ :=
    statements_nest h body negated taken
  have hsame : ∀ l : List Statement, List.Forall₂ Guards l l :=
    fun l => List.forall₂_same.mpr fun _ _ => .same
  refine ⟨by rw [toBlockHead_nest],
    before ++ { s with expr := .guarded test body.toBlockHead body.statements } :: after, ?_,
    htail.imp ?_ ?_⟩
  · rw [hss]
    exact List.rel_append (hsame before) (.cons (.guarded hs htest) (hsame after))
  · rintro rfl
    rw [hnest, List.append_nil]
  · rintro ⟨start, rfl⟩
    exact ⟨start, hnest⟩

/-- The bodies inside a tidy block that absorbs another one are the sections of that one. -/
theorem bodies_nest (htidy : ∀ s ∈ b.statements, s.expr.Tidy)
    (h : b.branch? = some (.jumpIf condition target)) (body : Block) (negated : Bool)
    (taken : Option Nat) : (nest b condition body negated taken).bodies = body.sections := by
  obtain ⟨before, s, after, test, tail, hss, hs, -, htest, htail, hnest⟩ :=
    statements_nest h body negated taken
  rw [hss] at htidy
  have hcondition : condition.bodies = [] := by
    have hlast := htidy s (List.mem_append_right _ List.mem_cons_self)
    rw [hs] at hlast
    exact hlast.bodies_eq
  have hnone : test.bodies = [] := by
    rcases htest with rfl | rfl
    · exact hcondition
    · rw [bodies_negate, hcondition]
  have hbefore := flatMap_bodies_of_tidy fun x hx => htidy x (List.mem_append_left _ hx)
  have hafter := flatMap_bodies_of_tidy fun x hx =>
    htidy x (List.mem_append_right _ (List.mem_cons_of_mem s hx))
  have htail : tail.flatMap (fun s => s.expr.bodies) = [] := by
    rcases htail with rfl | ⟨start, rfl⟩ <;> rfl
  rw [Block.bodies, hnest, List.flatMap_append, List.flatMap_append, List.flatMap_cons, hbefore,
    hafter, htail, Expr.bodies_guarded, hnone]
  simp [Block.sections]

/-- Every section of a nested block grew out of a block. -/
theorem Nested.grown (hg : g.Tidy) {i : Nat} (h : Nested g p i b') :
    ∀ s ∈ b'.sections, ∃ b ∈ g.blocks, Grown b s := by
  induction h with
  | leaf hb _ =>
    have hmem := Graph.mem_blocks_of_block? hb
    rw [Block.sections_of_tidy (hg _ hmem)]
    exact List.forall_mem_singleton.mpr ⟨_, hmem, .refl _⟩
  | @node a b c condition target ha hb hbranch hbody ih =>
    have hmem := Graph.mem_blocks_of_block? hb
    rw [Block.sections, bodies_nest (hg b hmem) hbranch, Block.sections, bodies_asBody]
    obtain ⟨⟨c₀, hc₀, hgrown⟩, hinner⟩ := List.forall_mem_cons.mp ih
    refine List.forall_mem_cons.mpr ⟨⟨b, hmem, grown_nest hbranch _ _ _⟩, ?_⟩
    exact List.forall_mem_cons.mpr ⟨⟨c₀, hc₀, hgrown.asBody g⟩, hinner⟩

/-! ## Sources -/

/-- No absorption adds a source. -/
theorem adds_sources : Adds Block.sources fun _ => [] := by
  intro a b c condition target hbranch _ _ g taken
  obtain ⟨tail, htail, hbody⟩ := statements_asBody g c
  have hc : (asBody g c).sources = c.sources := by
    rw [Block.sources, hbody, List.filterMap_append]
    rcases htail with rfl | ⟨start, rfl⟩ <;> exact List.append_nil _
  rw [(grown_nest hbranch _ _ _).sources_eq, hc]
  exact .refl _

/-! ## Structured graphs -/

/-- What a graph consists of after structuring, section by section. -/
structure Sectioned (g g' : Graph) : Prop where
  ranges : g'.blocks.map (fun b => b.range) = g.blocks.map fun b => b.range
  sources : (g'.sections.flatMap Block.sources).Perm (g.blocks.flatMap Block.sources)
  grown : ∀ s ∈ g'.sections, s.statements = [] ∨ ∃ b ∈ g.blocks, Grown b s

theorem Sectioned.refl (hg : g.Tidy) : Sectioned g g where
  ranges := rfl
  sources := by rw [hg.sections_eq]
  grown s hs := by
    rw [hg.sections_eq] at hs
    exact .inr ⟨s, hs, .refl s⟩

/-- Every statement of a section stood in a block, but for the jumps at the ends. -/
theorem Sectioned.exists_of_mem (h : Sectioned g g') (hb' : b' ∈ g'.sections) {s' : Statement}
    (hs' : s' ∈ b'.statements) :
    (∃ b ∈ g.blocks, ∃ s ∈ b.statements, Guards s s') ∨
      ∃ target, s' = { expr := .jump target } := by
  rcases h.grown b' hb' with hempty | ⟨b, hb, hgrown⟩
  · rw [hempty] at hs'
    cases hs'
  · exact (hgrown.exists_of_mem hs').imp_left fun hs => ⟨b, hb, hs⟩

/-- Structuring keeps what code the blocks cover. -/
theorem Structured.ranges_eq (h : Structured g p g') :
    g'.blocks.map (fun b => b.range) = g.blocks.map fun b => b.range := by
  refine List.ext_getElem? fun i => ?_
  rw [List.getElem?_map, List.getElem?_map]
  change (g'.block? i).map _ = (g.block? i).map _
  cases hb' : g'.block? i with
  | some b' =>
    obtain ⟨b, hb, ⟨-, rfl⟩ | ⟨-, hnested⟩⟩ := h.cases hb'
    · rw [hb]
      rfl
    · obtain ⟨b₀, hb₀, hhead⟩ := hnested.head
      cases hb₀.symm.trans hb
      rw [hb]
      exact congrArg (fun head => some head.range) hhead
  | none =>
    have hstart := h.starts i
    rw [hb'] at hstart
    rw [Option.map_eq_none_iff.mp hstart.symm]

/-- The sections of a structured graph are empty, or grown from its blocks. -/
theorem Structured.grown (h : Structured g p g') (hg : g.Tidy) :
    ∀ s ∈ g'.sections, s.statements = [] ∨ ∃ b ∈ g.blocks, Grown b s := by
  intro s hs
  obtain ⟨b', hb', hs⟩ := List.mem_flatMap.mp hs
  obtain ⟨i, hi⟩ := Graph.exists_block?_of_mem hb'
  obtain ⟨b, -, ⟨-, rfl⟩ | ⟨-, hnested⟩⟩ := h.cases hi
  · cases List.mem_singleton.mp hs
    exact .inl rfl
  · exact .inr (hnested.grown hg s hs)

/-- Structuring moves statements and gives every section its jumps. -/
theorem sectioned_structureBranches (ctx : Context) (hwired : ctx.graph.Wired)
    (hg : ctx.graph.Tidy) : Sectioned ctx.graph ctx.structureBranches.1.graph := by
  have hstructured := structured_structureBranches ctx hwired.numbered
  have hgrows := grows_plan hwired.numbered
  have hmarked : (markBlocks (plan ctx.graph) ctx.graph).Tidy := by
    intro b hb
    obtain ⟨c, hc, rfl⟩ := List.mem_map.mp hb
    exact hg c hc
  constructor
  · rw [hstructured.ranges_eq, markBlocks, List.map_map]
    rfl
  · have hperm := gather_structureBranches ctx hwired.numbered adds_sources fun _ _ => rfl
    rw [Graph.gather, Graph.gather, hg.sections_eq, List.flatMap_eq_nil_iff.mpr fun _ _ => rfl,
      List.append_nil] at hperm
    exact hperm
  · intro s hs
    refine (hstructured.grown hmarked s hs).imp_right ?_
    rintro ⟨b, hb, hgrown⟩
    obtain ⟨c, hc, rfl⟩ := List.mem_map.mp hb
    exact ⟨c, hc, hgrown.range_eq, hgrown.statements⟩

/-- Counting labels changes no section but for the counts. -/
theorem exists_of_mem_sections_counted {s : Block} (hs : s ∈ (LabelCount.counted g).sections) :
    ∃ s' ∈ g.sections, s.range = s'.range ∧ s.statements = s'.statements := by
  obtain ⟨b', hb', hs⟩ := Graph.mem_sections.mp hs
  obtain ⟨b, hb, rfl⟩ := List.mem_map.mp hb'
  rcases hs with rfl | hs
  · exact ⟨b, Graph.mem_sections.mpr ⟨b, hb, .inl rfl⟩, rfl, rfl⟩
  · exact ⟨s, Graph.mem_sections.mpr ⟨b, hb, .inr hs⟩, rfl, rfl⟩

/-- Counting labels does not change sections. -/
theorem Sectioned.counted (h : Sectioned g g') : Sectioned g (LabelCount.counted g') where
  ranges := by
    rw [← h.ranges, LabelCount.counted, List.map_map]
    rfl
  sources := by
    refine .trans (.of_eq ?_) h.sources
    change Graph.gather Block.sources _ = Graph.gather Block.sources _
    rw [Graph.gather_eq, Graph.gather_eq, LabelCount.counted, List.flatMap_map]
    rfl
  grown s hs := by
    obtain ⟨s', hs', hrange, hstatements⟩ := exists_of_mem_sections_counted hs
    rw [hstatements]
    refine (h.grown s' hs').imp_right ?_
    rintro ⟨b, hb, hgrown⟩
    exact ⟨b, hb, hrange.trans hgrown.range_eq, hstatements ▸ hgrown.statements⟩

end Structuring

end MethodLift
