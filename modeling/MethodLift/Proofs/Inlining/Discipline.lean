import MethodLift.Proofs.Inlining.Definitions

/-!
# Inlining keeps single assignment

A round of inlining removes definitions and puts variables with smaller numbers in the place of
others. What a variable is replaced by was defined before it, so wherever the variable may be read,
its replacement may be read too, and another round can follow.
-/

namespace MethodLift.VariableInlining

open Expr (assignedIn Scoped Closed)

variable {r : Replacements} {g g' : Graph} {A : VarId → Prop} {done es : List Expr}

/-! ## Rewritten code -/

theorem rewrite_append (r : Replacements) (es es' : List Expr) :
    rewrite r (es ++ es') = rewrite r es ++ rewrite r es' := by
  rw [rewrite, List.filter_append, List.map_append]
  rfl

theorem rewrite_cons_of_kept {e : Expr} (h : kept r e = true) (es : List Expr) :
    rewrite r (e :: es) = e.relabel (rename r) :: rewrite r es := by
  rw [rewrite, List.filter_cons_of_pos h, List.map_cons]
  rfl

theorem rewrite_cons_of_dropped {e : Expr} (h : kept r e = false) (es : List Expr) :
    rewrite r (e :: es) = rewrite r es := by
  rw [rewrite, List.filter_cons_of_neg (by rw [h]; decide)]
  rfl

theorem mem_rewrite {e' : Expr} :
    e' ∈ rewrite r es ↔ ∃ e ∈ es, kept r e = true ∧ e.relabel (rename r) = e' := by
  simp only [rewrite, List.mem_map, List.mem_filter, and_assoc]

theorem rename_eq_var {l : Leaf} {w : VarId} (h : rename r l = .var w) : ∃ u, l = .var u := by
  cases l with
  | var u => exact ⟨u, rfl⟩
  | _ => cases h

/-- A statement that is kept assigns to what it assigned to. -/
theorem assigned?_rename {e : Expr} (h : kept r e = true) :
    (e.relabel (rename r)).assigned? = e.assigned? := by
  cases he : e.assigned? with
  | some v =>
    obtain ⟨value, rfl⟩ := Expr.assigned?_eq_some.mp he
    rw [kept_assign, Option.isNone_iff_eq_none] at h
    rw [Expr.relabel_assign, Expr.relabel_leaf, rename_of_none h]
    rfl
  | none =>
    refine Option.eq_none_iff_forall_ne_some.mpr fun v hv => ?_
    obtain ⟨l, value, rfl, hl⟩ := Expr.assigned?_relabel hv
    obtain ⟨u, rfl⟩ := rename_eq_var hl
    cases he

/-- A statement that is kept reads what its leaves are replaced by. -/
theorem used_rename {e : Expr} (h : kept r e = true) :
    (e.relabel (rename r)).used = e.used.map (rename r) := by
  have hassigned := assigned?_rename h
  cases he : e.assigned? with
  | some v =>
    obtain ⟨value, rfl⟩ := Expr.assigned?_eq_some.mp he
    rw [he] at hassigned
    obtain ⟨value', heq⟩ := Expr.assigned?_eq_some.mp hassigned
    rw [heq]
    obtain ⟨-, rfl⟩ := Expr.assign.inj (heq.symm.trans (Expr.relabel_assign _ _ _))
    exact Expr.leaves_relabel _ _
  | none =>
    rw [he] at hassigned
    rw [Expr.used_of_assigned? hassigned, Expr.used_of_assigned? he, Expr.leaves_relabel]

/-- Rewritten code assigns to the variables that are not replaced, in their order. -/
theorem assignedIn_rewrite (r : Replacements) (es : List Expr) :
    assignedIn (rewrite r es) = (assignedIn es).filter fun v => (r.get? v).isNone := by
  induction es with
  | nil => rfl
  | cons e rest ih =>
    cases hkept : kept r e with
    | true =>
      have hassigned := assigned?_rename hkept
      rw [rewrite_cons_of_kept hkept]
      cases he : e.assigned? with
      | none =>
        rw [he] at hassigned
        rw [assignedIn, List.filterMap_cons_none hassigned, assignedIn, List.filterMap_cons_none he]
        exact ih
      | some v =>
        rw [he] at hassigned
        obtain ⟨value, rfl⟩ := Expr.assigned?_eq_some.mp he
        rw [assignedIn, List.filterMap_cons_some hassigned, assignedIn,
          List.filterMap_cons_some he, List.filter_cons_of_pos (by exact hkept)]
        exact congrArg (v :: ·) ih
    | false =>
      obtain ⟨v, value, x, rfl, hv⟩ := exists_of_dropped hkept
      have hcons : assignedIn (.assign (.var v) value :: rest) = v :: assignedIn rest := rfl
      rw [rewrite_cons_of_dropped hkept, ih, hcons, List.filter_cons_of_neg (by simp [hv])]

theorem mem_assignedIn_rewrite {v : VarId} :
    v ∈ assignedIn (rewrite r es) ↔ v ∈ assignedIn es ∧ r.get? v = none := by
  rw [assignedIn_rewrite, List.mem_filter, Option.isNone_iff_eq_none]

/-! ## Replacements of variables in scope -/

/-- Replacements that can be made in code that assigns to some variables: only these are replaced,
by constants and by variables with smaller numbers. -/
structure Admissible (r : Replacements) (A : VarId → Prop) : Prop extends Descending r where
  movable : ∀ {v e}, r.get? v = some e → isMovable e = true
  assigned : ∀ {v e}, r.get? v = some e → A v

/-- Replaced variables are copies: each of their definitions that occurs assigns the replacement. -/
def Copies (r : Replacements) (es : List Expr) : Prop :=
  ∀ ⦃v value e⦄, r.get? v = some e → .assign (.var v) value ∈ es → value = e

/-- Fewer statements define copies as well. -/
theorem Copies.left {es' : List Expr} (h : Copies r (es ++ es')) : Copies r es :=
  fun _ _ _ hv hmem => h hv (List.mem_append_left _ hmem)

/-- A variable may be read: it was assigned to, if it is at all. -/
def InScope (A : VarId → Prop) (done : List Expr) (v : VarId) : Prop := A v → v ∈ assignedIn done

/-- The replacement of a variable in scope is in scope. -/
theorem InScope.next (hc : Copies r done) (hclosed : Closed A done) {v w : VarId}
    (hv : v ∈ assignedIn done) (hr : r.get? v = some (.var w)) : InScope A done w := by
  obtain ⟨value, hmem⟩ := Expr.mem_assignedIn.mp hv
  rw [hc hr hmem] at hmem
  exact hclosed _ hmem w (List.mem_singleton_self _)

/-- What a variable in scope is replaced by in the end is in scope. -/
theorem InScope.rename (hr : Admissible r A) (hc : Copies r done) (hclosed : Closed A done)
    {v w : VarId} (hv : InScope A done v) (h : rename r (.var v) = .var w) : InScope A done w := by
  induction v using Nat.strongRecOn with
  | ind v ih =>
    cases hget : r.get? v with
    | none =>
      rw [rename_of_none hget] at h
      cases h
      exact hv
    | some e =>
      obtain ⟨l, rfl⟩ := hr.leaves.get? hget
      rw [hr.rename_eq hget] at h
      obtain ⟨u, rfl⟩ := rename_eq_var h
      exact ih u (hr.lt hget) (.next hc hclosed (hv (hr.assigned hget)) hget) h

/-- Rewritten code is in scope. -/
theorem scoped_rewrite {A' : VarId → Prop} (hr : Admissible r A) (ha : ∀ {v}, A' v → A v)
    (hc : Copies r (done ++ es)) (hclosed : Closed A done) (hs : Scoped A done es) :
    Scoped A' (rewrite r done) (rewrite r es) := by
  induction es generalizing done with
  | nil => trivial
  | cons e rest ih =>
    obtain ⟨hused, hnew, hrest⟩ := hs
    have hnext := ih (by rwa [List.append_assoc]) (hclosed.snoc hused) hrest
    rw [rewrite_append] at hnext
    cases hkept : kept r e with
    | false =>
      have hnil : rewrite r [e] = [] := rewrite_cons_of_dropped hkept []
      rw [hnil, List.append_nil] at hnext
      rw [rewrite_cons_of_dropped hkept]
      exact hnext
    | true =>
      have hone : rewrite r [e] = [e.relabel (rename r)] := rewrite_cons_of_kept hkept []
      rw [hone] at hnext
      rw [rewrite_cons_of_kept hkept]
      refine ⟨?_, ?_, hnext⟩
      · intro w hw haw
        rw [used_rename hkept] at hw
        obtain ⟨l, hl, heq⟩ := List.mem_map.mp hw
        obtain ⟨u, rfl⟩ := rename_eq_var heq
        have hscope := InScope.rename hr hc.left hclosed (hused u hl) heq
        exact mem_assignedIn_rewrite.mpr ⟨hscope (ha haw), (hr.rename_eq_var heq).2⟩
      · intro v hv
        rw [assigned?_rename hkept] at hv
        rw [mem_assignedIn_rewrite, not_and]
        exact fun hmem => absurd hmem (hnew v hv)

/-! ## Graphs -/

namespace Inlines

/-- A path through the inlined graph does the rewritten code of the path before. -/
theorem along (h : Inlines r g g') (path : List BlockId) :
    g'.along path = rewrite r (g.along path) := by
  induction path with
  | nil => rfl
  | cons i rest ih =>
    rw [← List.singleton_append, Graph.along_append, Graph.along_append, rewrite_append, ih,
      Graph.along_singleton, Graph.along_singleton, h.code]

/-- Inlining makes no assignments. -/
theorem assigns_of (h : Inlines r g g') {v : VarId} (hv : g'.Assigns v) : g.Assigns v := by
  obtain ⟨i, hmem⟩ := hv
  rw [h.code] at hmem
  exact ⟨i, (mem_assignedIn_rewrite.mp hmem).1⟩

/-- With single assignment, the replacements that inlining found are admissible. -/
theorem admissible (h : Inlines r g g') (hg : g.SingleAssignment) : Admissible r g.Assigns := by
  refine ⟨⟨h.leaves, ?_⟩, fun hv => (h.moved hv).1, ?_⟩
  · intro v w hv
    obtain ⟨-, i, hmem⟩ := h.moved hv
    exact hg.smaller hmem (List.mem_singleton_self _)
  · intro v e hv
    obtain ⟨-, i, hmem⟩ := h.moved hv
    exact ⟨i, Expr.mem_assignedIn.mpr ⟨_, hmem⟩⟩

/-- Along any path, the definitions of replaced variables are copies. -/
theorem copies (h : Inlines r g g') (hg : g.SingleAssignment) (path : List BlockId) :
    Copies r (g.along path) := by
  intro v value e hv hmem
  obtain ⟨-, i, hdef⟩ := h.moved hv
  obtain ⟨j, -, hmem⟩ := List.mem_flatMap.mp hmem
  exact hg.value_unique hmem hdef

/-- After a round of inlining, every variable still has one definition. -/
theorem single (h : Inlines r g g') (hg : g.SingleAssignment) : g'.SingleAssignment := by
  constructor
  case id_eq =>
    intro i b' hb
    obtain ⟨b, hb, heq⟩ := h.heads.block? hb
    rw [← hg.id_eq hb]
    exact congrArg BlockHead.id heq
  case once =>
    intro i
    rw [h.code, assignedIn_rewrite]
    exact (hg.once i).filter _
  case apart =>
    intro i j hne v hi hj
    rw [h.code] at hi hj
    exact hg.apart hne (mem_assignedIn_rewrite.mp hi).1 (mem_assignedIn_rewrite.mp hj).1
  case smaller =>
    intro i v value hmem w hw
    rw [h.code] at hmem
    obtain ⟨e, he, hkept, heq⟩ := mem_rewrite.mp hmem
    have hassigned := assigned?_rename hkept
    rw [heq] at hassigned
    obtain ⟨value', rfl⟩ := Expr.assigned?_eq_some.mp hassigned.symm
    obtain ⟨-, rfl⟩ := Expr.assign.inj ((Expr.relabel_assign _ _ _).symm.trans heq)
    rw [Expr.leaves_relabel] at hw
    obtain ⟨l, hl, heq⟩ := List.mem_map.mp hw
    obtain ⟨u, rfl⟩ := rename_eq_var heq
    exact Nat.lt_of_le_of_lt ((h.admissible hg).rename_eq_var heq).1 (hg.smaller he hl)

/-- After a round of inlining, definitions still come before their uses. -/
theorem disciplined (h : Inlines r g g') (hg : g.Disciplined) : g'.Disciplined := by
  have hsingle := hg.toSingleAssignment
  constructor
  case toSingleAssignment => exact h.single hsingle
  case inScope =>
    intro path i hwalk
    have hscoped := hg.inScope (hwalk.congr fun i => (h.heads.successors_eq i).symm)
    rw [h.along]
    exact scoped_rewrite (h.admissible hsingle) h.assigns_of (h.copies hsingle _) Expr.closed_nil
      hscoped
  case laneless =>
    intro i e' hmem
    rw [h.code] at hmem
    obtain ⟨e, he, -, rfl⟩ := mem_rewrite.mp hmem
    rw [Expr.assignsLane_relabel]
    exact hg.laneless e he

end Inlines

end MethodLift.VariableInlining

namespace MethodLift.Context

/-- Every variable still has one definition after a round. -/
theorem disciplined_inlineVariables {ctx : Context} (hg : ctx.graph.Disciplined) :
    ctx.inlineVariables.1.graph.Disciplined := by
  rcases inlines_inlineVariables hg.toSingleAssignment with heq | ⟨r, h⟩
  · rw [heq]
    exact hg
  · exact h.disciplined hg

end MethodLift.Context
