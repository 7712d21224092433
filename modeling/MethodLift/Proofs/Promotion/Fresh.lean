import MethodLift.Proofs.Promotion.Reads

/-!
# New variables

Promotion numbers variables in the order in which it makes them. So the variables that a statement
assigns to are new, no other statement assigns to them, and a variable that was made for a read is
assigned to by no statement at all.
-/

namespace MethodLift.Promotion

open Expr (assignedIn)

/-- Bound registers are bound to variables that stand for them, and the stack pointer is not
bound. -/
structure Sound (sp : String) (s : State) : Prop where
  bound : ∀ {r v}, s.bindings.get? r = some v → r ≠ sp ∧ s.vars.register? v = some r

section Sound

variable {sp r : String} {s t : State}

theorem sound_empty {vars : Variables} : Sound sp { vars, bindings := {} } :=
  ⟨fun hb => by cases hb⟩

/-- A binding after a definition is the new one or was there before. -/
theorem get?_define {r' : String} {v : VarId} (h : (define r s).2.bindings.get? r' = some v) :
    r' = r ∧ v = s.vars.size ∨ s.bindings.get? r' = some v := by
  have h : (s.bindings.insert r s.vars.size).get? r' = some v := h
  by_cases hne : r' = r
  · subst hne
    rw [Table.get?_insert_self] at h
    exact .inl ⟨rfl, (Option.some.inj h).symm⟩
  · rw [Table.get?_insert_of_ne _ _ hne] at h
    exact .inr h

theorem Sound.lt (h : Sound sp s) {v : VarId} (hv : s.bindings.get? r = some v) :
    v < s.vars.size :=
  Variables.lt_of_register? (h.bound hv).2

/-- Bindings stay sound as long as the table of variables only grows and its new bindings are
sound. -/
theorem Sound.grows (h : Sound sp s) (hg : Grows sp s t) : Sound sp t where
  bound hb := by
    rcases hg.fresh hb with hb | ⟨hr, -, hreg⟩
    · exact ⟨(h.bound hb).1, hg.vars.register? (h.bound hb).2⟩
    · exact ⟨hr, hreg⟩

/-- Variables that were made elsewhere change nothing. -/
theorem Sound.later (h : Sound sp s) (hb : t.bindings = s.bindings)
    (hv : s.vars.Extends t.vars) : Sound sp t where
  bound hbound := by
    rw [hb] at hbound
    exact ⟨(h.bound hbound).1, hv.register? (h.bound hbound).2⟩

theorem Sound.define (h : Sound sp s) (hr : r ≠ sp) : Sound sp (define r s).2 where
  bound {r' v} hb := by
    rcases get?_define hb with ⟨rfl, rfl⟩ | hb
    · exact ⟨hr, Variables.register?_create _ _⟩
    · exact ⟨(h.bound hb).1, Variables.Extends.register? (.insert _ _) (h.bound hb).2⟩

end Sound

/-! ## Identities -/

variable {sp : String} {s t u : State} {e e' : Expr} {es es' : List Expr}

namespace Promotes

/-- Promoting a statement only adds variables. -/
theorem vars_extends (h : Promotes sp s e e' t) : s.vars.Extends t.vars := by
  cases h with
  | define hr hvalue => exact hvalue.grows.vars.trans (.insert _ _)
  | assign hplace hvalue hq => exact hvalue.grows.vars.trans hq.grows.vars
  | other he hp => exact hp.grows.vars

theorem sound (h : Promotes sp s e e' t) (hs : Sound sp s) : Sound sp t := by
  cases h with
  | define hr hvalue => exact (hs.grows hvalue.grows).define hr
  | assign hplace hvalue hq => exact (hs.grows hvalue.grows).grows hq.grows
  | other he hp => exact hs.grows hp.grows

/-- A statement that does not assign to a register assigns to no variable afterwards. -/
theorem assigned?_assign {place : Expr} {p q : Expr × State}
    (hplace : ∀ r, place = .register r → r = sp) (hraw : place.Raw) (hq : Reads sp place s q) :
    (Expr.assign q.1 p.1).assigned? = none := by
  rw [Option.eq_none_iff_forall_ne_some]
  intro v hv
  obtain ⟨value', heq⟩ := Expr.assigned?_eq_some.mp hv
  have hleaf := (hq.expr (.refl _)).symm.trans (Expr.assign.inj heq).1
  obtain ⟨w, rfl, hw⟩ := Expr.relabel_eq_leaf hleaf
  cases w with
  | register r =>
    rw [promoted, if_pos (hplace r rfl)] at hw
    cases hw
  | var w => simp at hraw
  | _ => cases hw

/-- What is no assignment is promoted by reads, and assigns to no variable. -/
theorem assigned?_other {p : Expr × State} (he : ∀ place value, e ≠ .assign place value)
    (hp : Reads sp e s p) : p.1.assigned? = none := by
  rw [Option.eq_none_iff_forall_ne_some, hp.expr (.refl _)]
  intro v hv
  obtain ⟨w, value, rfl, -⟩ := Expr.assigned?_relabel hv
  exact he _ _ rfl

/-- The variable that a statement assigns to is new. -/
theorem assigned?_bounds (h : Promotes sp s e e' t) (he : e.Lifted) {a : VarId}
    (ha : e'.assigned? = some a) : s.vars.size ≤ a ∧ a < t.vars.size := by
  cases h with
  | define hr hvalue =>
    cases ha
    refine ⟨hvalue.grows.vars.size_le, ?_⟩
    exact Variables.lt_of_register? (Variables.register?_create _ _)
  | assign hplace hvalue hq =>
    rw [assigned?_assign hplace he.1 hq] at ha
    cases ha
  | other hne hp =>
    rw [assigned?_other hne hp] at ha
    cases ha

end Promotes

namespace PromotesAll

theorem vars_extends (h : PromotesAll sp s es es' t) : s.vars.Extends t.vars := by
  induction h with
  | nil => exact .refl _
  | cons head _ ih => exact head.vars_extends.trans ih

theorem sound (h : PromotesAll sp s es es' t) (hs : Sound sp s) : Sound sp t := by
  induction h with
  | nil => exact hs
  | cons head _ ih => exact ih (head.sound hs)

/-- Statements assign to variables that are made on the way: new at the start, and there at the
end. -/
theorem assigned_bounds (h : PromotesAll sp s es es' t) (hl : ∀ e ∈ es, e.Lifted) :
    ∀ a ∈ assignedIn es', s.vars.size ≤ a ∧ a < t.vars.size := by
  induction h with
  | nil => simp [assignedIn]
  | cons head tail ih =>
    rename_i s t u e e' es es'
    have hrest := ih fun x hx => hl x (List.mem_cons_of_mem e hx)
    intro a ha
    rcases List.mem_filterMap.mp ha with ⟨x, hx, hxa⟩
    rcases List.mem_cons.mp hx with rfl | hx
    · obtain ⟨hle, hlt⟩ := head.assigned?_bounds (hl e List.mem_cons_self) hxa
      exact ⟨hle, hlt.trans_le tail.vars_extends.size_le⟩
    · obtain ⟨hle, hlt⟩ := hrest a (List.mem_filterMap.mpr ⟨x, hx, hxa⟩)
      exact ⟨head.vars_extends.size_le.trans hle, hlt⟩

end PromotesAll

/-- Of some variables, all those that were made between two states are assigned to by given
statements. -/
def Apart (A : VarId → Prop) (s : State) (es : List Expr) (t : State) : Prop :=
  ∀ a, A a → a < s.vars.size ∨ a ∈ assignedIn es ∨ t.vars.size ≤ a

/-- Variables apart over several statements are apart over the first one and over the others. Those
made for the first statement are not assigned to by the others, since these make their own. -/
theorem Apart.split {A : VarId → Prop} (h : Apart A s (e' :: es') u) (head : Promotes sp s e e' t)
    (tail : PromotesAll sp t es es' u) (hl : ∀ x ∈ e :: es, x.Lifted) :
    Apart A s [e'] t ∧ Apart A t es' u := by
  have htail := tail.assigned_bounds fun x hx => hl x (List.mem_cons_of_mem e hx)
  have hcons : assignedIn (e' :: es') = assignedIn [e'] ++ assignedIn es' :=
    List.filterMap_append (l := [e'])
  constructor
  · intro a ha
    rcases h a ha with hlt | hmem | hle
    · exact .inl hlt
    · rw [hcons, List.mem_append] at hmem
      exact .inr (hmem.imp_right fun hmem => (htail a hmem).1)
    · exact .inr (.inr (tail.vars_extends.size_le.trans hle))
  · intro a ha
    rcases h a ha with hlt | hmem | hle
    · exact .inl (hlt.trans_le head.vars_extends.size_le)
    · rw [hcons, List.mem_append] at hmem
      rcases hmem with hmem | hmem
      · have hsome : e'.assigned? = some a := by simpa [assignedIn] using hmem
        exact .inl (head.assigned?_bounds (hl e List.mem_cons_self) hsome).2
      · exact .inr (.inl hmem)
    · exact .inr (.inr hle)

/-- Variables that were made for reads are not assigned to. -/
theorem Apart.unassigned {A : VarId → Prop} (h : Apart A s [e'] t) {mid : State} {v : VarId}
    (hmid : ∀ a, e'.assigned? = some a → mid.vars.size ≤ a) (hle : mid.vars.size ≤ t.vars.size)
    (hv : s.vars.size ≤ v) (hlt : v < mid.vars.size) : ¬ A v := by
  intro ha
  rcases h v ha with hv' | hmem | hle'
  · exact absurd hv' (Nat.not_lt.mpr hv)
  · have hsome : e'.assigned? = some v := by simpa [assignedIn] using hmem
    exact absurd hlt (Nat.not_lt.mpr (hmid v hsome))
  · exact absurd (hlt.trans_le hle) (Nat.not_lt.mpr hle')

end MethodLift.Promotion
