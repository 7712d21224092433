import MethodLift.Proofs.Analyses.Narrowing
import MethodLift.Proofs.Inlining.Discipline
import MethodLift.Proofs.Promotion.Scoping

/-!
# Eliminated definitions are not read

Inlining eliminates a definition when the variable is replaced everywhere. What it is replaced by is
never a variable that is replaced itself, nor one that is out of use since an earlier round, because
replacements are read from live statements. So a variable whose definition was eliminated does not
come back: it is *spent*, and it stays so in all rounds to come.
-/

namespace MethodLift

open Expr

/-- Some live statement reads a variable or assigns to it. -/
def Graph.Mentions (g : Graph) (v : VarId) : Prop := ∃ i, ∃ e ∈ g.code i, .var v ∈ e.leaves

/-- Whatever is eliminated is the definition of a variable that no live statement mentions. -/
def Graph.Spent (g : Graph) : Prop :=
  ∀ b ∈ g.blocks, ∀ s ∈ b.statements, s.eliminated = true →
    ∃ v, s.expr.assigned? = some v ∧ ¬ g.Mentions v

theorem Expr.mem_leaves_of_assigned? {e : Expr} {v : VarId} (h : e.assigned? = some v) :
    .var v ∈ e.leaves := by
  obtain ⟨value, rfl⟩ := assigned?_eq_some.mp h
  rw [leaves_assign]
  exact List.mem_append_right _ (List.mem_singleton_self _)

theorem Graph.mentions_of_mem {g : Graph} {b : Block} {s : Statement} {v : VarId}
    (hb : b ∈ g.blocks) (hs : s ∈ b.live) (hv : .var v ∈ s.expr.leaves) : g.Mentions v := by
  obtain ⟨i, hi⟩ := exists_block?_of_mem hb
  refine ⟨i, s.expr, ?_, hv⟩
  rw [code_eq hi]
  exact List.mem_map_of_mem hs

/-! ## Analyses -/

namespace Graph.Narrows

variable {g g' : Graph}

theorem mentions (h : g.Narrows g') {v : VarId} (hv : g'.Mentions v) : g.Mentions v := by
  obtain ⟨i, e', he', hleaf⟩ := hv
  obtain ⟨e, he, hnarrows⟩ := exists_of_forall₂ (h.code i) he'
  exact ⟨i, e, he, hnarrows.leaves v hleaf⟩

/-- The analyses bring no variable back. -/
theorem spent (h : g.Narrows g') (hg : g.Spent) : g'.Spent := by
  intro b' hb' s' hs' hgone
  obtain ⟨b, hb, -, hss⟩ := exists_of_forall₂ h hb'
  obtain ⟨s, hs, heq, hnarrows⟩ := exists_of_forall₂ hss hs'
  rw [heq] at hgone
  obtain ⟨v, hv, hnot⟩ := hg b hb s hs hgone
  exact ⟨v, hnarrows.assigned?_eq.trans hv, fun hmentions => hnot (h.mentions hmentions)⟩

end Graph.Narrows

/-! ## Inlining -/

namespace VariableInlining

variable {r : Replacements} {g g' : Graph} {v w : VarId}

/-- What a variable comes to is the variable itself or the replacement of some variable. -/
theorem Descending.eq_or_exists_of_rename_eq (hr : Descending r) (h : rename r (.var v) = .var w) :
    w = v ∨ ∃ x, r.get? x = some (.var w) := by
  induction v using Nat.strongRecOn with
  | ind v ih =>
    cases hv : r.get? v with
    | none =>
      rw [rename_of_none hv] at h
      cases h
      exact .inl rfl
    | some e =>
      obtain ⟨l, rfl⟩ := hr.leaves.get? hv
      rw [hr.rename_eq hv] at h
      obtain ⟨u, rfl⟩ := VariableInlining.rename_eq_var h
      rcases ih u (hr.lt hv) h with rfl | hx
      · exact .inr ⟨v, hv⟩
      · exact .inr hx

namespace Inlines

/-- A variable that is still mentioned was mentioned before and is not replaced. -/
theorem mentions (h : Inlines r g g') (hg : g.SingleAssignment) (hv : g'.Mentions v) :
    g.Mentions v ∧ r.get? v = none := by
  obtain ⟨i, e', he', hleaf⟩ := hv
  rw [h.code] at he'
  obtain ⟨e, he, -, rfl⟩ := mem_rewrite.mp he'
  rw [leaves_relabel] at hleaf
  obtain ⟨l, hl, heq⟩ := List.mem_map.mp hleaf
  obtain ⟨u, rfl⟩ := rename_eq_var heq
  have hr := (h.admissible hg).toDescending
  refine ⟨?_, (hr.rename_eq_var heq).2⟩
  rcases hr.eq_or_exists_of_rename_eq heq with rfl | ⟨x, hx⟩
  · exact ⟨i, e, he, hl⟩
  · -- a replacement stands in the definition that it was read from
    obtain ⟨-, j, hdef⟩ := h.moved hx
    refine ⟨j, _, hdef, ?_⟩
    rw [leaves_assign]
    exact List.mem_append_left _ (List.mem_singleton_self _)

/-- A round of inlining leaves no reader of what it eliminates, and none of what was eliminated in
the rounds before. -/
theorem spent (h : Inlines r g g') (hg : g.SingleAssignment) (hspent : g.Spent) : g'.Spent := by
  intro b' hb' s' hs' hgone
  obtain ⟨i, hi⟩ := Graph.exists_block?_of_mem hb'
  obtain ⟨b, hb, s, hs, hexpr, hbefore | hdropped⟩ := h.gone hi s' hs' hgone
  · obtain ⟨v, hv, hnot⟩ := hspent b (Graph.mem_blocks_of_block? hb) s hs hbefore
    exact ⟨v, hexpr ▸ hv, fun hmentions => hnot (h.mentions hg hmentions).1⟩
  · obtain ⟨v, value, x, heq, hx⟩ := exists_of_dropped hdropped
    refine ⟨v, assigned?_eq_some.mpr ⟨value, hexpr.trans heq⟩, fun hmentions => ?_⟩
    cases hx.symm.trans (h.mentions hg hmentions).2

end Inlines

end VariableInlining

/-! ## Passes -/

namespace Context

variable {ctx : Context}

/-- Promotion eliminates nothing. -/
theorem spent_promote (hg : ctx.graph.AllLifted) : ctx.promote.1.graph.Spent := by
  intro b hb s hs hgone
  obtain ⟨i, hi⟩ := Graph.exists_block?_of_mem hb
  rw [live_promote hg hi s hs] at hgone
  cases hgone

/-- A round of inlining keeps definitions apart and leaves nothing that reads an eliminated one. -/
theorem spent_inlineVariables (hg : ctx.graph.SingleAssignment) (hspent : ctx.graph.Spent) :
    ctx.inlineVariables.1.graph.SingleAssignment ∧ ctx.inlineVariables.1.graph.Spent := by
  rcases inlines_inlineVariables hg with heq | ⟨r, h⟩
  · rw [heq]
    exact ⟨hg, hspent⟩
  · exact ⟨h.single hg, h.spent hg hspent⟩

end Context

end MethodLift
