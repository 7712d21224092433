import MethodLift.Block.Graph
import MethodLift.Proofs.Expr.Control
import MethodLift.Proofs.Expr.Relabel

/-!
# Sections

A *section* of a block is the block itself or a block that was moved into it, at any depth: the
body of a structured conditional of one of its statements, or of one of its bodies. Every statement
of a method stands in one section, so what holds of all statements is said section by section.
-/

namespace MethodLift

namespace Expr

/-- The block that a structured conditional holds. -/
def body? : Expr → Option Block
  | .guarded _ head body => some { toBlockHead := head, statements := body }
  | _ => none

/-- The blocks that an expression holds, at any depth. -/
def bodies (e : Expr) : List Block := e.nodes.filterMap body?

/-- The leaves of a statement, without those of a body that it guards. -/
def ownLeaves : Expr → List Leaf
  | .guarded condition _ _ => condition.leaves
  | e => e.leaves

theorem ownLeaves_subset (e : Expr) : e.ownLeaves ⊆ e.leaves := by
  cases e with
  | guarded condition head body =>
    rw [leaves_guarded]
    exact List.subset_append_left _ _
  | _ => exact List.Subset.refl _

end Expr

namespace Block

/-- The blocks inside a block, at any depth. -/
def bodies (b : Block) : List Block := b.statements.flatMap fun s => s.expr.bodies

/-- A block and the blocks inside it. -/
def sections (b : Block) : List Block := b :: b.bodies

/-- The instructions that the statements of a block come from, bodies apart. -/
def sources (b : Block) : List Nat := b.statements.filterMap fun s => s.source

end Block

def Graph.sections (g : Graph) : List Block := g.blocks.flatMap Block.sections

/-- No block holds a structured conditional, and control stands at the top of statements. -/
def Graph.Tidy (g : Graph) : Prop := ∀ b ∈ g.blocks, ∀ s ∈ b.statements, s.expr.Tidy

/-! ## Blocks without bodies -/

/-- Where no part decides about control, there are no bodies. -/
theorem Expr.Plain.bodies_eq {e : Expr} (h : e.Plain) : e.bodies = [] := by
  refine List.filterMap_eq_nil_iff.mpr fun part hpart => ?_
  have hcontrol := h part hpart
  cases part with
  | guarded condition head body => cases hcontrol
  | _ => rfl

/-- Tidy statements hold no bodies. -/
theorem Expr.Tidy.bodies_eq {e : Expr} (h : e.Tidy) : e.bodies = [] := by
  cases e with
  | jump target => rfl
  | retVoid => rfl
  | jumpIf condition target => exact Plain.bodies_eq (e := condition) h
  | ret value => exact Plain.bodies_eq (e := value) h
  | _ => exact Plain.bodies_eq h

theorem flatMap_bodies_of_tidy {ss : List Statement} (h : ∀ s ∈ ss, s.expr.Tidy) :
    ss.flatMap (fun s => s.expr.bodies) = [] :=
  List.flatMap_eq_nil_iff.mpr fun s hs => (h s hs).bodies_eq

theorem Block.sections_of_tidy {b : Block} (h : ∀ s ∈ b.statements, s.expr.Tidy) :
    b.sections = [b] :=
  congrArg (b :: ·) (flatMap_bodies_of_tidy h)

theorem Graph.Tidy.sections_eq {g : Graph} (h : g.Tidy) : g.sections = g.blocks := by
  have hsections : ∀ b ∈ g.blocks, b.sections = [b] := fun b hb => Block.sections_of_tidy (h b hb)
  rw [sections, List.flatMap_congr hsections, List.flatMap_singleton']

/-! ## Bodies -/

/-- A structured conditional holds its body and what its parts hold. -/
theorem Expr.bodies_guarded (condition : Expr) (b : Block) :
    (guarded condition b.toBlockHead b.statements).bodies =
      b :: (condition.bodies ++ b.bodies) := by
  have hbody : (bodyNodes b.statements).filterMap body? = b.bodies := by
    rw [bodyNodes_eq, List.filterMap_flatMap]
    rfl
  have hself : body? (guarded condition b.toBlockHead b.statements) = some b := rfl
  rw [bodies, nodes, List.filterMap_cons_some hself, List.filterMap_append, hbody]
  rfl

theorem Graph.mem_sections {g : Graph} {s : Block} :
    s ∈ g.sections ↔ ∃ b ∈ g.blocks, s = b ∨ s ∈ b.bodies := by
  simp [sections, Block.sections]

end MethodLift
