import MethodLift.Proofs.Analyses.Rounds
import MethodLift.Proofs.Pass.Rewriting
import MethodLift.Proofs.Pipeline.Stages
import MethodLift.Proofs.Structuring.Sections

/-!
# Lifting conserves instructions

Filling blocks gives every instruction one statement, but for the comparisons that become one with
the jump after them. The passes rebuild statements in their places, whether they are eliminated or
not, and structuring moves whole blocks. So each instruction of the code is found once in a lifted
method, in its block or in the body that the block became, and nothing else is found there but
jumps that structuring put at the ends.
-/

namespace MethodLift

open Structuring Instruction

/-- The blocks of a lifted method and the bodies inside them, at any depth. -/
def LiftedMethod.sections (l : LiftedMethod) : List Block := l.blocks.flatMap Block.sections

/-! ## The pipeline -/

/-- A method whose blocks may have been moved, but were rebuilt statement by statement before. -/
structure IsConserved (options : Options) (code : List Instruction) (parts : List CodeRange)
    (ctx : Context) : Prop where
  sectioned : ∃ g, g.Drawn code parts ∧ Sectioned g ctx.graph
  /-- Only structuring adds statements. -/
  unmoved : options.enabled .structuring = false →
    ∀ b ∈ ctx.graph.sections, ∀ s ∈ b.statements, s.source ≠ none

/-- The passes before structuring keep a graph drawn. -/
theorem stages_conserved (options : Options) (code : List Instruction) (parts : List CodeRange) :
    Lifter.Stages (fun ctx => ctx.graph.Drawn code parts ∧ ctx.options = options)
      (fun ctx => ctx.graph.Drawn code parts ∧ ctx.options = options)
      (IsConserved options code parts) (IsConserved options code parts) where
  promotion ctx h := ⟨h.1.refine ctx.refines_promote, h.2⟩
  fields ctx h := ⟨h.1.refine ctx.refines_recoverData, ctx.advances_recoverData.options.trans h.2⟩
  usages ctx h := ⟨h.1.refine ctx.refines_inlineUsages, ctx.advances_inlineUsages.options.trans h.2⟩
  literals ctx h :=
    ⟨h.1.refine ctx.refines_inlineLiterals, ctx.advances_inlineLiterals.options.trans h.2⟩
  folding ctx h :=
    ⟨h.1.refine ctx.refines_foldConstants, ctx.advances_foldConstants.options.trans h.2⟩
  inlined ctx h := ⟨h.1.refine ctx.refines_inlineVariables, ctx.options_inlineVariables.trans h.2⟩
  structuring ctx h henabled := by
    refine ⟨⟨ctx.graph, h.1, sectioned_structureBranches ctx h.1.wired h.1.tidy⟩, fun hnot => ?_⟩
    rw [h.2, hnot] at henabled
    cases henabled
  unstructured ctx h _ := by
    refine ⟨⟨ctx.graph, h.1, .refl h.1.tidy⟩, fun _ b hb => ?_⟩
    rw [h.1.tidy.sections_eq] at hb
    exact (h.1.sources b hb).source_ne_none
  counting ctx h := by
    obtain ⟨⟨g, hg, hsectioned⟩, hunmoved⟩ := h
    refine ⟨⟨g, hg, hsectioned.counted⟩, fun hnot b hb => ?_⟩
    obtain ⟨c, hc, -, hstatements⟩ := exists_of_mem_sections_counted hb
    rw [hstatements]
    exact hunmoved hnot c hc
  steady_rewritten := Silent.steady fun _ _ h => h
  steady_structured := Silent.steady fun _ _ h => ⟨h.sectioned, h.unmoved⟩
  steady_counted := Silent.steady fun _ _ h => ⟨h.sectioned, h.unmoved⟩

/-! ## Lifted methods -/

namespace IsConserved

variable {options : Options} {code : List Instruction} {parts : List CodeRange} {ctx : Context}

theorem ranges_eq (h : IsConserved options code parts ctx) :
    ctx.graph.blocks.map (fun b => b.range) = parts := by
  obtain ⟨g, hg, hsectioned⟩ := h.sectioned
  exact hsectioned.ranges.trans hg.ranges

/-- The sources of all sections are the instructions that are not fused. -/
theorem perm_sources (h : IsConserved options code parts ctx) :
    (ctx.graph.sections.flatMap Block.sources).Perm
      (parts.flatMap fun r => kept (r.slice code)) := by
  obtain ⟨g, hg, hsectioned⟩ := h.sectioned
  refine hsectioned.sources.trans (.of_eq ?_)
  rw [List.flatMap_congr fun b hb => (hg.sources b hb).sources_eq, ← hg.ranges, List.flatMap_map]

/-- The sources of a section are in the order of its code. -/
theorem sublist_sources (h : IsConserved options code parts ctx) :
    ∀ b ∈ ctx.graph.sections, b.sources.Sublist ((b.range.slice code).map fun i => i.index) := by
  intro b hb
  obtain ⟨g, hg, hsectioned⟩ := h.sectioned
  rcases hsectioned.grown b hb with hempty | ⟨c, hc, hgrown⟩
  · rw [Block.sources, hempty]
    exact List.nil_sublist _
  · rw [hgrown.sources_eq, hgrown.range_eq, (hg.sources c hc).sources_eq]
    exact kept_sublist _

/-- A statement that comes from no instruction is a jump at the end of its section. -/
theorem jump_of_source_eq_none (h : IsConserved options code parts ctx) :
    ∀ b ∈ ctx.graph.sections, ∀ s ∈ b.statements, s.source = none →
      options.enabled .structuring = true ∧ b.statements.getLast? = some s ∧
        ∃ target, s = { expr := .jump target } := by
  intro b hb s hs hnone
  refine ⟨by_contra fun hnot => h.unmoved (by simpa using hnot) b hb s hs hnone, ?_⟩
  obtain ⟨g, hg, hsectioned⟩ := h.sectioned
  rcases hsectioned.grown b hb with hempty | ⟨c, hc, hgrown⟩
  · rw [hempty] at hs
    cases hs
  · obtain ⟨ss, hss, hstatements⟩ := hgrown.statements
    have hsourced : s ∉ ss := by
      intro hmem
      obtain ⟨t, ht, hguards⟩ := exists_of_forall₂ hss hmem
      exact (hg.sources c hc).source_ne_none t ht (hguards.source_eq ▸ hnone)
    rcases hstatements with heq | ⟨target, heq⟩
    · exact absurd (heq ▸ hs) hsourced
    · rw [heq] at hs ⊢
      rcases List.mem_append.mp hs with hmem | hmem
      · exact absurd hmem hsourced
      · rw [List.mem_singleton.mp hmem, List.getLast?_concat]
        exact ⟨rfl, target, rfl⟩

end IsConserved

namespace Lifter

variable {l : Lifter} {method : Method} {code : List Instruction} {lifted : LiftedMethod}

/-- A lift from a partition ends with every instruction in its section. -/
theorem exists_conserved {parts : List CodeRange} {g : Graph}
    (hg : Graph.ofPartition code parts = .ok g)
    (hrun : (l.runGraph method code g).1 = .ok lifted) :
    ∃ ctx, IsConserved l.options code parts ctx ∧ lifted = finish ctx :=
  (stages_conserved l.options code parts).of_runGraph hrun fun _ _ hfill =>
    ⟨Graph.drawn_of_fill hg hfill, rfl⟩

/-- Lifting conserves instructions. The blocks of a method that was lifted without a fault lie where
its code was cut. The statements of its blocks and of the bodies inside them, eliminated or not,
come from the instructions of the code, each as often as it stands there, without the comparisons
that have a conditional jump right after them in their block. In each block and each body they are
in the order of the instructions. A statement that comes from no instruction is a jump that
structuring put at the end. -/
theorem conserves_instructions (h : l.Lifts method code lifted) (hfault : lifted.isFault = false) :
    (lifted = l.lift method code →
      ControlFlow.partition code = .ok (lifted.blocks.map fun b => b.range)) ∧
    (∀ parts, lifted = l.liftPartitioned method code parts →
      lifted.blocks.map (fun b => b.range) = parts) ∧
    (lifted.sections.flatMap Block.sources ++
      lifted.blocks.flatMap fun b => fused (b.range.slice code)).Perm (code.map fun i => i.index) ∧
    (∀ b ∈ lifted.sections, b.sources.Sublist ((b.range.slice code).map fun i => i.index)) ∧
    ∀ b ∈ lifted.sections, ∀ s ∈ b.statements, s.source = none →
      l.options.enabled .structuring = true ∧ b.statements.getLast? = some s ∧
        ∃ target, s = { expr := .jump target } := by
  have hranges : ∀ {parts g}, Graph.ofPartition code parts = .ok g →
      (l.runGraph method code g).1 = .ok lifted → lifted.blocks.map (fun b => b.range) = parts := by
    intro parts g hg hrun
    obtain ⟨ctx, hconserved, rfl⟩ := exists_conserved hg hrun
    exact hconserved.ranges_eq
  refine ⟨fun hlift => ?_, fun parts hlift => ?_, ?_⟩
  · subst hlift
    obtain ⟨parts, g, hparts, hg, hrun⟩ := exists_of_lift hfault
    rw [hparts, hranges hg hrun]
  · subst hlift
    obtain ⟨g, hg, hrun⟩ := exists_of_liftPartitioned hfault
    exact hranges hg hrun
  · obtain ⟨parts, g, hg, hrun⟩ := h.exists_graph hfault
    obtain ⟨ctx, hconserved, rfl⟩ := exists_conserved hg hrun
    refine ⟨?_, hconserved.sublist_sources, hconserved.jump_of_source_eq_none⟩
    have hfused : (finish ctx).blocks.flatMap (fun b => fused (b.range.slice code)) =
        parts.flatMap fun r => fused (r.slice code) := by
      rw [← hconserved.ranges_eq, List.flatMap_map]
      rfl
    rw [hfused]
    exact (hconserved.perm_sources.append_right _).trans
      (ControlFlow.perm_parts (Graph.exists_of_ofPartition hg).2.1)

end Lifter

/-- Code that leaves out a move when two numbers are equal. -/
def skip : List Instruction :=
  [⟨0, .compare, [.immediate 1, .immediate 2], .next⟩, ⟨1, .jumpIfEqual, [.target 3], .branch⟩,
    ⟨2, .move, [.register "rax", .immediate 5], .next⟩, ⟨3, .ret, [], .ret⟩]

/-- A method with the code of `skip`, lifted: the move goes into the body of a conditional. -/
def skipResult : LiftedMethod :=
  Lifter.lift { image := { isa := .x64 } }
    { id := 0, name := "skip", declaringName := "Sample" } skip

/-- The comparison became one with its jump, and the move stands in the body. -/
theorem Lifter.conserves_instructions_skip :
    skipResult.isFault = false ∧ skipResult.sections.map Block.sources = [[1], [2], [], [3]] ∧
      (skipResult.sections.flatMap Block.sources ++ [0]).Perm [0, 1, 2, 3] := by
  have hfault : skipResult.isFault = false := by decide +kernel
  have hfused : (skipResult.blocks.flatMap fun b => fused (b.range.slice skip)) = [0] := by
    decide +kernel
  obtain ⟨-, -, hperm, -, -⟩ := conserves_instructions (.inl rfl) hfault
  refine ⟨hfault, by decide +kernel, ?_⟩
  rw [← hfused]
  exact hperm

end MethodLift
