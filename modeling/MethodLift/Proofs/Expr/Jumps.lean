import MethodLift.Pass.LabelCount
import MethodLift.Proofs.Expr.Control

/-!
# Jumps of structured statements

After structuring, control may stand inside the bodies of conditionals. An *orderly* statement has
it at its top, or at the top of statements of bodies, at any depth; what was eliminated has none.
The jumps of such a statement are those of its live parts, and they are what counting labels sees.
-/

namespace MethodLift

/-- What is left out of a list contributes nothing. -/
theorem flatMap_filter_of_nil {α β : Type} {l : List α} {q : α → Bool} {f : α → List β}
    (h : ∀ a ∈ l, q a = false → f a = []) : (l.filter q).flatMap f = l.flatMap f := by
  induction l with
  | nil => rfl
  | cons a rest ih =>
    obtain ⟨ha, hrest⟩ := List.forall_mem_cons.mp h
    rw [List.filter_cons, List.flatMap_cons, ← ih hrest]
    cases hq : q a with
    | true => rfl
    | false =>
      rw [ha hq]
      rfl

namespace Expr

/-! ## The jumps of live statements -/

mutual

/-- The targets of the jumps in a statement, at any depth of conditionals. -/
def jumps : Expr → List Nat
  | .jump target => [target]
  | .jumpIf _ target => [target]
  | .guarded _ _ body => bodyJumps body
  | _ => []

/-- The targets of the jumps in the live statements of a body. -/
def bodyJumps : List Statement → List Nat
  | [] => []
  | ⟨e, eliminated, _⟩ :: rest => (if eliminated then [] else e.jumps) ++ bodyJumps rest

end

theorem bodyJumps_eq (body : List Statement) :
    bodyJumps body = (body.filter fun s => !s.eliminated).flatMap fun s => s.expr.jumps := by
  induction body with
  | nil => rfl
  | cons s rest ih =>
    obtain ⟨e, eliminated, source⟩ := s
    cases eliminated <;> simp [bodyJumps, ih]

theorem Plain.jumps_eq {e : Expr} (h : e.Plain) : e.jumps = [] := by
  have hc := h.isControl_eq
  cases e <;> first | rfl | cases hc

/-! ## Orderly statements -/

/-- Control stands at the top of statements, at any depth of conditionals. -/
inductive Orderly : Expr → Prop
  | plain {e : Expr} (h : e.Plain) : Orderly e
  | jump (target : Nat) : Orderly (.jump target)
  | jumpIf {condition : Expr} (h : condition.Plain) (target : Nat) :
    Orderly (.jumpIf condition target)
  | ret {value : Expr} (h : value.Plain) : Orderly (.ret value)
  | retVoid : Orderly .retVoid
  | guarded {condition : Expr} {head : BlockHead} {body : List Statement} (h : condition.Plain)
    (hbody : ∀ s ∈ body, Orderly s.expr) (hgone : ∀ s ∈ body, s.eliminated = true → s.expr.Plain) :
    Orderly (.guarded condition head body)

/-- Tidy statements are orderly: what decides about control stands at the top. -/
theorem Tidy.orderly {e : Expr} (h : e.Tidy) : Orderly e := by
  cases e with
  | jump target => exact .jump target
  | jumpIf condition target => exact .jumpIf h target
  | ret value => exact .ret h
  | retVoid => exact .retVoid
  | _ => exact .plain (h.plain rfl)

/-- Plain expressions hold no target of a jump. -/
theorem Plain.targets_eq {e : Expr} (h : e.Plain) : e.nodes.filterMap LabelCount.target? = [] := by
  rw [List.filterMap_eq_nil_iff]
  intro part hp
  have hc := h part hp
  cases part <;> first | rfl | cases hc

/-- Counting labels sees the jumps of the live parts. -/
theorem Orderly.targets_eq {e : Expr} (h : Orderly e) :
    e.nodes.filterMap LabelCount.target? = e.jumps := by
  induction h with
  | plain h => rw [h.targets_eq, h.jumps_eq]
  | jump target => rfl
  | jumpIf h target =>
    rw [nodes, List.filterMap_cons, h.targets_eq]
    rfl
  | ret h =>
    rw [nodes, List.filterMap_cons, h.targets_eq]
    rfl
  | retVoid => rfl
  | @guarded condition head body h _ hgone ih =>
    rw [nodes, List.filterMap_cons, List.filterMap_append, h.targets_eq, bodyNodes_eq, jumps,
      bodyJumps_eq]
    change (body.flatMap fun s => s.expr.nodes).filterMap LabelCount.target? = _
    rw [List.filterMap_flatMap, List.flatMap_congr ih, flatMap_filter_of_nil]
    intro s hs hlive
    exact (hgone s hs (by simpa using hlive)).jumps_eq

end Expr

end MethodLift
