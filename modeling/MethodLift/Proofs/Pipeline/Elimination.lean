import MethodLift.Proofs.Inlining.Elimination
import MethodLift.Proofs.Pipeline.Conservation

/-!
# Lifted methods do not read what was eliminated

The statements of a lifted method that are marked as eliminated are definitions, and the variables
that they define are gone from all live statements, those inside of structured conditionals
included. Before structuring this is `Graph.Spent`, which every pass keeps, however often it runs.
Structuring then makes the test of a conditional from the condition of a jump, and moves all other
statements as they are.
-/

namespace MethodLift

open Structuring

/-! ## Sections -/

namespace Structuring

variable {g g' : Graph} {b' : Block} {s' : Statement} {v : VarId}

/-- What is eliminated in a section was eliminated in a block. -/
theorem Sectioned.exists_eliminated (h : Sectioned g g') (hg : g.Spent) (hb' : b' ∈ g'.sections)
    (hs' : s' ∈ b'.statements) (hgone : s'.eliminated = true) :
    ∃ v, s'.expr.assigned? = some v ∧ ¬ g.Mentions v := by
  rcases h.exists_of_mem hb' hs' with ⟨b, hb, s, hs, hguards⟩ | ⟨target, rfl⟩
  · rw [hguards.eliminated_eq] at hgone
    rw [hguards.assigned?_eq]
    exact hg b hb s hs hgone
  · cases hgone

/-- What is live in a section mentions what was mentioned in a block. -/
theorem Sectioned.mentions (h : Sectioned g g') (hb' : b' ∈ g'.sections) (hs' : s' ∈ b'.live)
    (hv : .var v ∈ s'.expr.ownLeaves) : g.Mentions v := by
  obtain ⟨hmem, hlive⟩ := List.mem_filter.mp hs'
  rcases h.exists_of_mem hb' hmem with ⟨b, hb, s, hs, hguards⟩ | ⟨target, rfl⟩
  · rw [hguards.eliminated_eq] at hlive
    exact Graph.mentions_of_mem hb (List.mem_filter.mpr ⟨hs, hlive⟩) (hguards.ownLeaves_subset hv)
  · cases hv

end Structuring

/-! ## The pipeline -/

/-- Between promotion and structuring, variables have one definition each and those of eliminated
definitions are spent. -/
structure IsSpent (code : List Instruction) (parts : List CodeRange) (ctx : Context) : Prop where
  drawn : ctx.graph.Drawn code parts
  single : ctx.graph.SingleAssignment
  spent : ctx.graph.Spent

/-- What only narrows statements mentions no variable that was not mentioned, so what is spent stays
spent. -/
theorem IsSpent.narrow {code : List Instruction} {parts : List CodeRange} {ctx ctx' : Context}
    (h : IsSpent code parts ctx) (hrefines : ctx.graph.Refines ctx'.graph)
    (hnarrows : ctx.graph.Narrows ctx'.graph) : IsSpent code parts ctx' :=
  ⟨h.drawn.refine hrefines, hnarrows.single h.single, hnarrows.spent h.spent⟩

/-- No pass brings an eliminated variable back. -/
theorem stages_spent (code : List Instruction) (parts : List CodeRange) :
    Lifter.Stages (fun ctx => ctx.graph.Drawn code parts ∧ ctx.graph.AllLifted)
      (IsSpent code parts) (fun ctx => ∃ g, g.Spent ∧ Sectioned g ctx.graph)
      (fun ctx => ∃ g, g.Spent ∧ Sectioned g ctx.graph) where
  promotion ctx h := by
    obtain ⟨hdrawn, hlifted⟩ := h
    exact ⟨hdrawn.refine ctx.refines_promote, Context.single_promote hlifted hdrawn.wired,
      Context.spent_promote hlifted⟩
  fields ctx h := h.narrow ctx.refines_recoverData ctx.narrows_recoverData
  usages ctx h := h.narrow ctx.refines_inlineUsages ctx.narrows_inlineUsages
  literals ctx h := h.narrow ctx.refines_inlineLiterals ctx.narrows_inlineLiterals
  folding ctx h := h.narrow ctx.refines_foldConstants ctx.narrows_foldConstants
  inlined ctx h := by
    obtain ⟨hsingle, hspent⟩ := Context.spent_inlineVariables h.single h.spent
    exact ⟨h.drawn.refine ctx.refines_inlineVariables, hsingle, hspent⟩
  structuring ctx h _ :=
    ⟨ctx.graph, h.spent, sectioned_structureBranches ctx h.drawn.wired h.drawn.tidy⟩
  unstructured ctx h _ := ⟨ctx.graph, h.spent, .refl h.drawn.tidy⟩
  counting ctx h := by
    obtain ⟨g, hg, hsectioned⟩ := h
    exact ⟨g, hg, hsectioned.counted⟩
  steady_rewritten := Silent.steady fun _ _ h => ⟨h.drawn, h.single, h.spent⟩
  steady_structured := Silent.steady fun _ _ h => h
  steady_counted := Silent.steady fun _ _ h => h

namespace Lifter

variable {l : Lifter} {method : Method} {code : List Instruction} {lifted : LiftedMethod}

/-- Eliminated definitions have no readers. In a method that was lifted without a fault, whatever
the options are, a statement that is marked as eliminated, in a block or in a body, assigns to a
variable, and no live statement of a block or of a body mentions that variable or assigns to it. -/
theorem eliminated_unread (h : l.Lifts method code lifted) (hfault : lifted.isFault = false) :
    ∀ b ∈ lifted.sections, ∀ s ∈ b.statements, s.eliminated = true →
      ∃ v, s.expr.assigned? = some v ∧ ∀ b' ∈ lifted.sections, ∀ t ∈ b'.live,
        .var v ∉ t.expr.ownLeaves ∧ t.expr.assigned? ≠ some v := by
  obtain ⟨parts, g, hg, hrun⟩ := h.exists_graph hfault
  obtain ⟨ctx, ⟨g', hspent, hsectioned⟩, rfl⟩ :=
    (stages_spent code parts).of_runGraph hrun fun _ _ hfill =>
      ⟨Graph.drawn_of_fill hg hfill, Graph.allLifted_of_filled hfill⟩
  intro b hb s hs hgone
  obtain ⟨v, hv, hnot⟩ := hsectioned.exists_eliminated hspent hb hs hgone
  refine ⟨v, hv, fun b' hb' t ht => ?_⟩
  have hunread : .var v ∉ t.expr.ownLeaves := fun hmem => hnot (hsectioned.mentions hb' ht hmem)
  refine ⟨hunread, fun hassigned => hunread ?_⟩
  obtain ⟨value, heq⟩ := Expr.assigned?_eq_some.mp hassigned
  have hmem := Expr.mem_leaves_of_assigned? hassigned
  rw [heq] at hmem ⊢
  exact hmem

end Lifter

/-- Code that moves a number on through a register unless two numbers are equal. -/
def detour : List Instruction :=
  [⟨0, .compare, [.immediate 1, .immediate 2], .next⟩, ⟨1, .jumpIfEqual, [.target 4], .branch⟩,
    ⟨2, .move, [.register "rbx", .immediate 5], .next⟩,
    ⟨3, .move, [.register "rax", .register "rbx"], .next⟩, ⟨4, .ret, [], .ret⟩]

/-- A method with the code of `detour`, lifted: in the body of a conditional, the first of two
definitions is eliminated. -/
def detourResult : LiftedMethod :=
  Lifter.lift { image := { isa := .x64 } }
    { id := 0, name := "detour", declaringName := "Sample" } detour

/-- The eliminated definition is in the body of a conditional, and no statement outside mentions its
variable. -/
theorem Lifter.eliminated_unread_detour :
    detourResult.isFault = false ∧
      (∃ b ∈ detourResult.blocks, ∃ body ∈ b.bodies, ∃ s ∈ body.statements,
        s.eliminated = true ∧ s.expr.assigned? = some 0) ∧
      ∀ b ∈ detourResult.sections, ∀ t ∈ b.live,
        .var 0 ∉ t.expr.ownLeaves ∧ t.expr.assigned? ≠ some 0 := by
  have hfault : detourResult.isFault = false := by decide +kernel
  have hgone : ∃ b ∈ detourResult.blocks, ∃ body ∈ b.bodies, ∃ s ∈ body.statements,
      s.eliminated = true ∧ s.expr.assigned? = some 0 := by
    decide +kernel
  refine ⟨hfault, hgone, ?_⟩
  obtain ⟨b, hb, body, hbody, s, hs, hgone, hassigned⟩ := hgone
  have hsection : body ∈ detourResult.sections :=
    List.mem_flatMap.mpr ⟨b, hb, List.mem_cons_of_mem b hbody⟩
  obtain ⟨v, hv, hunread⟩ := eliminated_unread (.inl rfl) hfault body hsection s hs hgone
  cases hassigned.symm.trans hv
  exact hunread

end MethodLift
