import MethodLift.Proofs.Inlining.Accounting
import MethodLift.Proofs.Pipeline.Conservation
import MethodLift.Proofs.Promotion.Visits
import MethodLift.Proofs.Structuring.Accounting

/-!
# Events account for what a lift leaves, eliminates and moves

The placeholders of a method are settled when its blocks are filled, each with its event. The passes
rebuild statements around them, inlining eliminates statements that hold none, and structuring moves
them with their blocks. So the events of a lifted method can be counted in its text: each category
that stands for placeholders, for eliminated statements or for absorbed blocks has as many events as
there are of these.
-/

namespace MethodLift

open Structuring LabelCount

/-- The placeholders in the live statements of the blocks that are written, bodies included. -/
def LiftedMethod.placeholders (l : LiftedMethod) : List Placeholder :=
  l.visibleBlocks.flatMap fun b => b.live.flatMap fun s => s.expr.placeholders

/-! ## Before structuring -/

/-- A method before structuring, with the placeholders that it had from the start. Besides these,
events account for the statements that were eliminated. -/
structure IsAccounted (code : List Instruction) (parts : List CodeRange) (ps : List Placeholder)
    (ctx : Context) : Prop where
  drawn : ctx.graph.Drawn code parts
  visible : ∀ b ∈ ctx.graph.blocks, b.ignored = false
  placeholders : ctx.graph.placeholders = ps
  bare : ctx.graph.Bare
  account : ctx.journal.events.account =
    ps.map Placeholder.kind ++ List.replicate ctx.graph.eliminated.length .variableInlined

/-- Refining hides no block. -/
theorem Graph.Refines.visible {g g' : Graph} (h : g.Refines g')
    (hg : ∀ b ∈ g.blocks, b.ignored = false) : ∀ b ∈ g'.blocks, b.ignored = false := by
  intro b' hb'
  obtain ⟨b, hb, hrefines⟩ := exists_of_forall₂ h hb'
  rw [hrefines.ignored_eq]
  exact hg b hb

namespace IsAccounted

variable {code : List Instruction} {parts : List CodeRange} {ps : List Placeholder}
  {ctx ctx' : Context}

/-- Passes that leave statements intact change nothing in the account. -/
theorem refine (h : IsAccounted code parts ps ctx) (hrefines : ctx.graph.Refines ctx'.graph)
    (hintact : ctx.Intact ctx') : IsAccounted code parts ps ctx' where
  drawn := h.drawn.refine hrefines
  visible := hrefines.visible h.visible
  placeholders := hintact.graph.placeholders_eq.trans h.placeholders
  bare := hintact.graph.bare h.bare
  account := by rw [hintact.account, h.account, hintact.graph.eliminated.length_eq]

/-- Inlining records each statement that it eliminates, and eliminates none with a placeholder. -/
theorem inlineVariables (h : IsAccounted code parts ps ctx) :
    IsAccounted code parts ps ctx.inlineVariables.1 := by
  obtain ⟨n, hlength, haccount, hplaceholders, hbare⟩ :=
    Context.account_inlineVariables h.drawn.wired.id_eq
  have hrefines := ctx.refines_inlineVariables
  refine ⟨h.drawn.refine hrefines, hrefines.visible h.visible, hplaceholders.trans h.placeholders,
    hbare h.bare, ?_⟩
  rw [haccount, h.account, hlength, List.append_assoc, List.replicate_append_replicate]

end IsAccounted

/-! ## After structuring -/

/-- A method after structuring. Events account for its placeholders, for the statements that were
eliminated in its sections and for its bodies, and there is an empty block for each body. -/
structure IsReckoned (ps : List Placeholder) (ctx : Context) : Prop where
  placeholders : ctx.graph.placeholders.Perm ps
  bare : ∀ s ∈ ctx.graph.gather Block.eliminated, s.expr.placeholders = []
  vacated : ∀ b ∈ ctx.graph.blocks, b.ignored = true → b.statements = []
  ignored : (ctx.graph.blocks.filter fun b => b.ignored).length = ctx.graph.bodies.length
  account : ctx.journal.events.account = ps.map Placeholder.kind ++
    List.replicate (ctx.graph.gather Block.eliminated).length .variableInlined ++
    List.replicate ctx.graph.bodies.length .blockAbsorbed

theorem Graph.Tidy.bodies_eq {g : Graph} (h : g.Tidy) : g.bodies = [] :=
  List.flatMap_eq_nil_iff.mpr fun b hb => flatMap_bodies_of_tidy (h b hb)

namespace IsAccounted

variable {code : List Instruction} {parts : List CodeRange} {ps : List Placeholder} {ctx : Context}

/-- Structuring records each block that it moves, and moves every statement with its
placeholders. -/
theorem structureBranches (h : IsAccounted code parts ps ctx) :
    IsReckoned ps ctx.structureBranches.1 := by
  have hnumbered := h.drawn.wired.numbered
  have heliminated := eliminated_structureBranches hnumbered h.drawn.tidy
  have hbodies := length_bodies hnumbered h.drawn.tidy
  constructor
  · rw [← h.placeholders]
    exact placeholders_structureBranches hnumbered
  · exact fun s hs => h.bare s (heliminated.mem_iff.mp hs)
  · exact statements_of_ignored hnumbered h.visible
  · exact (length_ignored hnumbered h.visible).trans hbodies.symm
  · rw [account_structureBranches hnumbered, h.account, heliminated.length_eq, hbodies]

/-- Where structuring is not wanted, nothing has moved, and the accounts agree as they are. -/
theorem unstructured (h : IsAccounted code parts ps ctx) : IsReckoned ps ctx := by
  have heliminated : ctx.graph.gather Block.eliminated = ctx.graph.eliminated := by
    rw [Graph.gather, h.drawn.tidy.sections_eq, Graph.eliminated_eq]
  have hignored : ctx.graph.blocks.filter (fun b => b.ignored) = [] :=
    List.filter_eq_nil_iff.mpr fun b hb => by simp [h.visible b hb]
  constructor
  · exact .of_eq h.placeholders
  · rw [heliminated]
    exact h.bare
  · intro b hb hgone
    cases (h.visible b hb).symm.trans hgone
  · rw [hignored, h.drawn.tidy.bodies_eq]
  · rw [h.account, heliminated, h.drawn.tidy.bodies_eq]
    exact (List.append_nil _).symm

end IsAccounted

namespace IsReckoned

variable {ps : List Placeholder} {ctx : Context}

/-- Counting labels touches nothing that is accounted for. -/
theorem countLabels (h : IsReckoned ps ctx) : IsReckoned ps ctx.countLabels.1 := by
  have hplaceholders : (counted ctx.graph).placeholders = ctx.graph.placeholders := by
    rw [Graph.placeholders_eq, Graph.placeholders_eq, flatMap_counted fun _ _ => rfl]
  have heliminated : (counted ctx.graph).gather Block.eliminated =
      ctx.graph.gather Block.eliminated := by
    rw [Graph.gather_eq, Graph.gather_eq, flatMap_counted fun _ _ => rfl]
  have hbodies : (counted ctx.graph).bodies = ctx.graph.bodies := flatMap_counted fun _ _ => rfl
  have hignored : ((counted ctx.graph).blocks.filter fun b => b.ignored).length =
      (ctx.graph.blocks.filter fun b => b.ignored).length := by
    rw [counted, List.filter_map, List.length_map]
    rfl
  constructor
  · rw [graph_countLabels, hplaceholders]
    exact h.placeholders
  · rw [graph_countLabels, heliminated]
    exact h.bare
  · intro b' hb' hgone
    obtain ⟨b, hb, rfl⟩ := List.mem_map.mp hb'
    exact h.vacated b hb hgone
  · rw [graph_countLabels, hignored, hbodies]
    exact h.ignored
  · rw [graph_countLabels, events_countLabels, heliminated, hbodies]
    exact h.account

/-! ## Counting events -/

/-- Only placeholders are recorded as such. -/
theorem count_placeholders (h : IsReckoned ps ctx) (p : Placeholder) :
    ctx.journal.events.count p.kind = (ps.map Placeholder.kind).count p.kind := by
  rw [← Events.count_account _ p.isAccounted_kind, h.account]
  cases p <;> simp [List.count_replicate, Placeholder.kind]

/-- There is a record of inlining for each statement that is eliminated, wherever structuring put
it. -/
theorem count_variableInlined (h : IsReckoned ps ctx) :
    ctx.journal.events.count .variableInlined = (ctx.graph.gather Block.eliminated).length := by
  have hnone : (ps.map Placeholder.kind).count .variableInlined = 0 :=
    Placeholder.count_kind_eq_zero (fun p => by cases p <;> exact nofun) ps
  rw [← Events.count_account _ rfl, h.account]
  simp [List.count_replicate, hnone]

theorem count_blockAbsorbed (h : IsReckoned ps ctx) :
    ctx.journal.events.count .blockAbsorbed = ctx.graph.bodies.length := by
  have hnone : (ps.map Placeholder.kind).count .blockAbsorbed = 0 :=
    Placeholder.count_kind_eq_zero (fun p => by cases p <;> exact nofun) ps
  rw [← Events.count_account _ rfl, h.account]
  simp [List.count_replicate, hnone]

/-- What is not written holds no placeholder. -/
theorem placeholders_finish (h : IsReckoned ps ctx) :
    (Lifter.finish ctx).placeholders = ctx.graph.placeholders := by
  have hlive : ∀ b ∈ ctx.graph.blocks,
      b.live.flatMap (fun s => s.expr.placeholders) = b.placeholders := by
    intro b hb
    refine flatMap_filter_of_nil fun s hs hgone => h.bare s ?_
    have hsection : b ∈ ctx.graph.sections := Graph.mem_sections.mpr ⟨b, hb, .inl rfl⟩
    exact List.mem_flatMap.mpr ⟨b, hsection, List.mem_filter.mpr ⟨hs, by simpa using hgone⟩⟩
  rw [Graph.placeholders_eq, ← List.flatMap_congr hlive]
  refine flatMap_filter_of_nil fun b hb hgone => ?_
  rw [hlive b hb, Block.placeholders, h.vacated b hb (by simpa using hgone)]
  rfl

end IsReckoned

/-! ## The pipeline -/

/-- The notices of schedules are not accounted for. -/
theorem account_record {ctx : Context} {e : Event}
    (he : e.kind = .passCompleted ∨ e.kind = .iterationLimit) :
    (ctx.record e).journal.events.account = ctx.journal.events.account := by
  have hnone : Events.account [e] = [] := by
    refine Events.account_eq_nil (List.forall_mem_singleton.mpr ?_)
    rcases he with he | he <;> rw [he] <;> rfl
  show (ctx.journal.events ++ [e]).account = _
  rw [Events.account_append, hnone, List.append_nil]

/-- Logging and the records of a schedule do not touch the account. -/
theorem steady_accounted (code : List Instruction) (parts : List CodeRange)
    (ps : List Placeholder) : Steady (IsAccounted code parts ps) where
  say h _ _ := ⟨h.drawn, h.visible, h.placeholders, h.bare, h.account⟩
  record h _ he :=
    ⟨h.drawn, h.visible, h.placeholders, h.bare, (account_record he).trans h.account⟩

theorem steady_reckoned (ps : List Placeholder) : Steady (IsReckoned ps) where
  say h _ _ := ⟨h.placeholders, h.bare, h.vacated, h.ignored, h.account⟩
  record h _ he :=
    ⟨h.placeholders, h.bare, h.vacated, h.ignored, (account_record he).trans h.account⟩

/-- Every pass keeps the account in order. -/
theorem stages_accounted (code : List Instruction) (parts : List CodeRange)
    (ps : List Placeholder) :
    Lifter.Stages (IsAccounted code parts ps) (IsAccounted code parts ps) (IsReckoned ps)
      (IsReckoned ps) where
  promotion ctx h := h.refine ctx.refines_promote ctx.intact_promote
  fields ctx h := h.refine ctx.refines_recoverData ctx.intact_recoverData
  usages ctx h := h.refine ctx.refines_inlineUsages ctx.intact_inlineUsages
  literals ctx h := h.refine ctx.refines_inlineLiterals ctx.intact_inlineLiterals
  folding ctx h := h.refine ctx.refines_foldConstants ctx.intact_foldConstants
  inlined _ h := h.inlineVariables
  structuring _ h _ := h.structureBranches
  unstructured _ h _ := h.unstructured
  counting _ h := h.countLabels
  steady_rewritten := steady_accounted code parts ps
  steady_structured := steady_reckoned ps
  steady_counted := steady_reckoned ps

namespace Lifter

variable {l : Lifter} {method : Method} {code : List Instruction} {lifted : LiftedMethod}

/-- Filling blocks opens the account with their placeholders. -/
theorem accounted_start {parts : List CodeRange} {g graph : Graph} {journal : Journal}
    (hg : Graph.ofPartition code parts = .ok g)
    (hfill : (Scope.fill ⟨l.image, method⟩ code g).run.run {} = (.ok graph, journal)) :
    IsAccounted code parts graph.placeholders (l.start method graph journal) := by
  have hfilled := Scope.filled_fill _ hfill
  have hnone : graph.eliminated = [] := by
    refine List.filter_eq_nil_iff.mpr fun s hs => ?_
    obtain ⟨b, hb, hs⟩ := List.mem_flatMap.mp hs
    simp [(Graph.allLifted_of_filled hfilled b hb s hs).2]
  constructor
  · exact Graph.drawn_of_fill hg hfilled
  · intro b' hb'
    obtain ⟨b, hb, part, j, -, rfl⟩ := exists_of_forall₂ hfilled hb'
    obtain ⟨i, hi⟩ := Graph.exists_block?_of_mem hb
    exact ((Graph.ofPartition_laid hg).placed hi).ignored_eq
  · rfl
  · intro s hs
    cases hnone ▸ hs
  · show journal.events.account = _ ++ List.replicate graph.eliminated.length _
    rw [hnone, Scope.account_fill _ hfill, Graph.placeholders_eq]
    exact (List.append_nil _).symm

/-- A lift from a partition ends with its accounts settled. Its placeholders are those that filling
the blocks recorded. -/
theorem exists_reckoned {parts : List CodeRange} {g : Graph}
    (hg : Graph.ofPartition code parts = .ok g)
    (hrun : (l.runGraph method code g).1 = .ok lifted) :
    ∃ graph journal ctx, (Scope.fill ⟨l.image, method⟩ code g).run.run {} = (.ok graph, journal) ∧
      IsReckoned graph.placeholders ctx ∧ lifted = finish ctx := by
  obtain ⟨graph, journal, ctx, hfill, hpasses, rfl⟩ := exists_of_runGraph hrun
  exact ⟨graph, journal, ctx, hfill,
    (stages_accounted code parts _).of_passes hpasses (accounted_start hg hfill), rfl⟩

/-- The events of a method that was lifted without a fault, whatever the options are, account for
what the lift left unlifted, eliminated and moved. There are as many placeholders of each sort in
the live statements of its visible blocks as events of their category, as many eliminated
statements in its blocks and bodies as variables that were inlined, and as many ignored blocks and
as many bodies as absorptions. No eliminated statement holds a placeholder, and the placeholders are
those that lifting the instructions of the blocks left: no pass drops or duplicates one. -/
theorem events_account (h : l.Lifts method code lifted) (hfault : lifted.isFault = false) :
    (lifted.placeholders.map Placeholder.kind).count .unsupportedInstruction =
      lifted.events.count .unsupportedInstruction ∧
    (lifted.placeholders.map Placeholder.kind).count .unresolvedCompare =
      lifted.events.count .unresolvedCompare ∧
    (lifted.placeholders.map Placeholder.kind).count .unresolvedCall =
      lifted.events.count .unresolvedCall ∧
    (lifted.sections.flatMap Block.eliminated).length = lifted.events.count .variableInlined ∧
    (lifted.blocks.filter fun b => b.ignored).length = lifted.events.count .blockAbsorbed ∧
    (lifted.blocks.flatMap Block.bodies).length = lifted.events.count .blockAbsorbed ∧
    (∀ s ∈ lifted.sections.flatMap Block.eliminated, s.expr.placeholders = []) ∧
    ∃ g graph journal, Graph.ofPartition code (lifted.blocks.map fun b => b.range) = .ok g ∧
      (Scope.fill ⟨l.image, method⟩ code g).run.run {} = (.ok graph, journal) ∧
      lifted.placeholders.Perm graph.placeholders := by
  obtain ⟨parts, g, hg, hrun⟩ := h.exists_graph hfault
  obtain ⟨graph, journal, ctx, hfill, hreckoned, hlifted⟩ := exists_reckoned hg hrun
  obtain ⟨ctx', hconserved, hlifted'⟩ := exists_conserved hg hrun
  have hranges : lifted.blocks.map (fun b => b.range) = parts := by
    rw [hlifted']
    exact hconserved.ranges_eq
  have hperm : lifted.placeholders.Perm graph.placeholders := by
    rw [hlifted, hreckoned.placeholders_finish]
    exact hreckoned.placeholders
  have hcount : ∀ p : Placeholder, (lifted.placeholders.map Placeholder.kind).count p.kind =
      lifted.events.count p.kind := by
    intro p
    rw [(hperm.map _).count_eq, ← hreckoned.count_placeholders p, hlifted]
    rfl
  subst hlifted
  refine ⟨hcount (.instruction ""), hcount .comparison, hcount (.function 0),
    hreckoned.count_variableInlined.symm, ?_, hreckoned.count_blockAbsorbed.symm, hreckoned.bare,
    g, graph, journal, hranges ▸ hg, hfill, hperm⟩
  exact hreckoned.ignored.trans hreckoned.count_blockAbsorbed.symm

end Lifter

/-- Code that passes over an interrupt, a call to an unknown function and a move through a register
when two numbers are equal, and then compares two other numbers to no end. -/
def remnants : List Instruction :=
  [⟨0, .compare, [.immediate 1, .immediate 2], .next⟩, ⟨1, .jumpIfEqual, [.target 6], .branch⟩,
    ⟨2, .interrupt, [], .next⟩, ⟨3, .call, [.immediate 4096], .call⟩,
    ⟨4, .move, [.register "rbx", .immediate 5], .next⟩,
    ⟨5, .move, [.register "rcx", .register "rbx"], .next⟩,
    ⟨6, .compare, [.immediate 3, .immediate 4], .next⟩, ⟨7, .ret, [], .ret⟩]

/-- A method with the code of `remnants`, lifted: two of its placeholders are in the body of a
conditional. -/
def remnantsResult : LiftedMethod :=
  Lifter.lift { image := { isa := .x64 } }
    { id := 0, name := "remnants", declaringName := "Sample" } remnants

/-- Two placeholders end up in the body of a conditional, and all three are counted. -/
theorem Lifter.events_account_remnants :
    remnantsResult.isFault = false ∧
      remnantsResult.placeholders =
        [.instruction "Interrupt ", .function 4096, .comparison] ∧
      remnantsResult.events.count .unsupportedInstruction = 1 ∧
      remnantsResult.events.count .unresolvedCompare = 1 ∧
      remnantsResult.events.count .unresolvedCall = 1 ∧
      (remnantsResult.sections.flatMap Block.eliminated).length = 1 ∧
      remnantsResult.events.count .variableInlined = 1 ∧
      (remnantsResult.blocks.flatMap Block.bodies).length = 1 ∧
      remnantsResult.events.count .blockAbsorbed = 1 := by
  have hfault : remnantsResult.isFault = false := by decide +kernel
  have hplaceholders : remnantsResult.placeholders =
      [.instruction "Interrupt ", .function 4096, .comparison] := by
    decide +kernel
  have heliminated : (remnantsResult.sections.flatMap Block.eliminated).length = 1 := by
    decide +kernel
  have hbodies : (remnantsResult.blocks.flatMap Block.bodies).length = 1 := by decide +kernel
  obtain ⟨hinstructions, hcompares, hcalls, hinlined, -, habsorbed, -, -⟩ :=
    events_account (show Lifts _ _ remnants remnantsResult from .inl rfl) hfault
  rw [hplaceholders] at hinstructions hcompares hcalls
  exact ⟨hfault, hplaceholders, hinstructions.symm, hcompares.symm, hcalls.symm, heliminated,
    hinlined.symm.trans heliminated, hbodies, habsorbed.symm.trans hbodies⟩

end MethodLift
