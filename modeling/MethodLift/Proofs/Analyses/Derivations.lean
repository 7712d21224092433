import MethodLift.Proofs.Analyses.Fields
import MethodLift.Proofs.Analyses.Narrowing
import MethodLift.Proofs.Promotion.Origins
import Mathlib.Data.List.Flatten

/-!
# Types that can be derived

`Context.Derives` says by rules which type an expression of a method has: what is known of its
variables, how they are defined, and which fields lie where. Field recovery and type propagation
take turns at applying the rules, and neither of them changes what the rules derive. So when both
are silent, the types of the variables are those that could be derived at the start, in whatever
order the statements stand.
-/

namespace MethodLift

open Expr FieldRecovery

/-! ## Definitions of variables -/

namespace Graph

def liveCode (g : Graph) : List Expr := g.blocks.flatMap Block.code

/-- A live statement gives a value to a variable. -/
def Defines (g : Graph) (v : VarId) (value : Expr) : Prop := .assign (.var v) value ∈ g.liveCode

theorem liveCode_mapLive (h : Expr → Expr) (g : Graph) :
    (g.mapLive h).liveCode = g.liveCode.map h := by
  unfold liveCode mapLive
  rw [List.flatMap_map, List.map_flatMap]
  refine List.flatMap_congr fun b _ => ?_
  rw [Block.code, Block.live_mapLive, List.map_map, Block.code, List.map_map]
  rfl

end Graph

/-- Types are found in the live statements of a graph, in whatever blocks these stand. -/
theorem FieldRecovery.found_eq (vars : Variables) (g : Graph) :
    found vars g = g.liveCode.filterMap (inferred? vars) := by
  unfold found Graph.liveCode
  rw [List.filterMap_flatMap]
  refine List.flatMap_congr fun b _ => ?_
  rw [Block.code, List.filterMap_map]
  rfl

/-- A method as promotion leaves it: no variable has two live definitions, and all variables that
have one are in the table. -/
structure Context.Promoted (ctx : Context) : Prop where
  once : (assignedIn ctx.graph.liveCode).Nodup
  declared : ∀ v ∈ assignedIn ctx.graph.liveCode, v < ctx.vars.size

namespace Context

/-- Promotion assigns to every variable once, so what it leaves is fit for typing. -/
theorem promoted_promote {ctx : Context} (hg : ctx.graph.AllLifted) : ctx.promote.1.Promoted := by
  have hperm := perm_origins hg
  have hnodup := hperm.nodup_iff.mpr List.nodup_range
  have hlive : (assignedIn ctx.promote.1.graph.liveCode).Sublist ctx.promote.1.graph.targets := by
    unfold Graph.liveCode Graph.targets assignedIn
    rw [List.filterMap_flatMap]
    exact List.Sublist.flatMap_right _ fun b _ => (List.filter_sublist.map _).filterMap _
  constructor
  case once => exact hnodup.sublist (hlive.trans
    ((List.sublist_append_right _ _).trans (List.sublist_append_right _ _)))
  case declared =>
    intro v hv
    refine List.mem_range.mp (hperm.subset ?_)
    exact List.mem_append_right _ (List.mem_append_right _ (hlive.subset hv))

theorem Promoted.value_unique {ctx : Context} (h : ctx.Promoted) {v : VarId} {x y : Expr}
    (hx : ctx.graph.Defines v x) (hy : ctx.graph.Defines v y) : x = y :=
  Expr.value_unique h.once hx hy

end Context

/-! ## The rules -/

/-- What type an expression of a method has. A variable has the type that is known of it, or else
the type of its definition, unless that is void. -/
inductive Context.Derives (ctx : Context) : Expr → TypeRef → Prop
  | known {v : VarId} {t : TypeRef} (type : ctx.vars.type? v = some t) : ctx.Derives (.var v) t
  | defined {v : VarId} {value : Expr} {t : TypeRef} (untyped : ctx.vars.type? v = none)
    (defines : ctx.graph.Defines v value) (derives : ctx.Derives value t)
    (not_void : t.isVoid = false) : ctx.Derives (.var v) t
  | literal {text : String} : ctx.Derives (.leaf (.literal text)) .string
  | member {object : Expr} {field : Field} : ctx.Derives (.member object field) field.type
  | call {m : Method} {arguments : List Expr} :
    ctx.Derives (.call (.leaf (.method m)) arguments true) m.returns
  | load {object : Expr} {offset : Int64} {type : TypeRef} {field : Field}
    (derives : ctx.Derives object type) (found : ctx.image.fieldAt? type offset = some field) :
    ctx.Derives (.deref (.arith .add object (.immediate offset))) field.type

namespace Context.Derives

variable {ctx ctx' : Context} {e : Expr} {t t' : TypeRef}

/-- A type that is known can be derived. -/
theorem of_type? (h : e.type? ctx.vars = some t) : ctx.Derives e t := by
  unfold Expr.type? at h
  split at h
  · exact .known h
  · cases h
    exact .literal
  · cases h
    exact .member
  · cases h
    exact .call
  · cases h

/-- Where variables have one definition, expressions have one type. -/
theorem unique (hctx : ctx.Promoted) (h : ctx.Derives e t) (h' : ctx.Derives e t') : t = t' := by
  induction h generalizing t' with
  | known type =>
    cases h' with
    | known type' => exact Option.some.inj (type.symm.trans type')
    | defined untyped => cases untyped.symm.trans type
  | defined untyped defines _ _ ih =>
    cases h' with
    | known type' => cases untyped.symm.trans type'
    | defined _ defines' derives' =>
      cases hctx.value_unique defines defines'
      exact ih derives'
  | literal =>
    cases h'
    rfl
  | member =>
    cases h'
    rfl
  | call =>
    cases h'
    rfl
  | load _ found ih =>
    cases h' with
    | load derives' found' =>
      cases ih derives'
      cases found.symm.trans found'
      rfl

/-- The rules look at the definitions only, wherever they stand. -/
theorem of_liveCode (himage : ctx'.image = ctx.image) (hvars : ctx'.vars = ctx.vars)
    (hcode : ctx.graph.liveCode ⊆ ctx'.graph.liveCode) (h : ctx.Derives e t) :
    ctx'.Derives e t := by
  induction h with
  | known type => exact .known (hvars ▸ type)
  | defined untyped defines _ hvoid ih => exact .defined (hvars ▸ untyped) (hcode defines) ih hvoid
  | literal => exact .literal
  | member => exact .member
  | call => exact .call
  | load _ found ih => exact .load ih (himage ▸ found)

end Context.Derives

/-! ## Recovering fields -/

namespace Context

variable {ctx : Context} {e : Expr} {t : TypeRef} {v : VarId}

theorem liveCode_recoverFields (ctx : Context) : ctx.recoverFields.1.graph.liveCode =
    ctx.graph.liveCode.map (bottomUp (recover ctx.image ctx.vars)) := by
  rw [graph_recoverFields, Graph.liveCode_mapLive]

/-- Recovery only narrows: it puts fields in the places of memory accesses. -/
theorem narrows_recover (image : Program) (vars : Variables) (e : Expr) :
    e.Narrows (e.bottomUp (recover image vars)) := by
  have hnarrows := frugal_node.bottomUpM (f := node image vars 0 none) e {}
  rwa [yields_bottomUp (yields_node image vars 0 none) e {}] at hnarrows

theorem assignedIn_recoverFields (ctx : Context) :
    assignedIn ctx.recoverFields.1.graph.liveCode = assignedIn ctx.graph.liveCode := by
  rw [liveCode_recoverFields, assignedIn, List.filterMap_map]
  exact List.filterMap_congr fun e _ => (narrows_recover _ _ e).assigned?_eq

/-- Recovery keeps the variables that statements assign to. -/
theorem Promoted.recoverFields (h : ctx.Promoted) : ctx.recoverFields.1.Promoted where
  once := ctx.assignedIn_recoverFields ▸ h.once
  declared := ctx.assignedIn_recoverFields ▸ h.declared

/-- The definitions after recovery are those before it, each with its fields recovered. -/
theorem defines_recoverFields_iff {value' : Expr} : ctx.recoverFields.1.graph.Defines v value' ↔
    ∃ value, ctx.graph.Defines v value ∧ value.bottomUp (recover ctx.image ctx.vars) = value' := by
  unfold Graph.Defines
  rw [liveCode_recoverFields, List.mem_map]
  constructor
  · rintro ⟨e, he, heq⟩
    have hassigned := (narrows_recover ctx.image ctx.vars e).assigned?_eq
    rw [heq] at hassigned
    obtain ⟨value, rfl⟩ := assigned?_eq_some.mp hassigned.symm
    exact ⟨value, he, (Expr.assign.inj heq).2⟩
  · rintro ⟨value, hvalue, rfl⟩
    exact ⟨_, hvalue, rfl⟩

/-- The type of an expression whose fields are recovered could be derived before. -/
theorem derives_of_type?_recover
    (h : (e.bottomUp (recover ctx.image ctx.vars)).type? ctx.vars = some t) : ctx.Derives e t := by
  induction e using byAllNodes generalizing t with
  | h e ih =>
    rcases bottomUp_recover_cases ctx.image ctx.vars e with
      ⟨object, offset, field, rfl, hfield, hmember⟩ | hsame
    · rw [hmember] at h
      cases h
      obtain ⟨type, htype, hfound⟩ := Option.bind_eq_some_iff.mp hfield
      have hobject := mem_nodes_of_mem_parts (e := .arith .add object (.immediate offset))
        List.mem_cons_self
      exact .load (ih _ List.mem_cons_self object hobject htype) hfound
    · rw [hsame] at h
      cases e with
      | leaf value => exact .of_type? h
      | member object field =>
        cases h
        exact .member
      | call target arguments returns =>
        by_cases hm : ∃ m, target = .leaf (.method m)
        · obtain ⟨m, rfl⟩ := hm
          cases returns with
          | true =>
            cases h
            exact .call
          | false => cases h
        · have hne : ∀ m, target.bottomUp (recover ctx.image ctx.vars) ≠ .leaf (.method m) :=
            fun m heq => hm ⟨m, eq_leaf_of_bottomUp_recover heq⟩
          cases (type?_call_of_ne hne).symm.trans h
      | _ => cases h

/-- Recovering fields keeps what can be derived. -/
theorem Derives.recoverFields (hctx : ctx.Promoted) (h : ctx.Derives e t) :
    ctx.recoverFields.1.Derives (e.bottomUp (recover ctx.image ctx.vars)) t := by
  induction h with
  | known type => exact .known type
  | defined untyped defines _ not_void ih =>
    exact .defined untyped (defines_recoverFields_iff.mpr ⟨_, defines, rfl⟩) ih not_void
  | literal => exact .literal
  | member => exact .member
  | call =>
    rw [bottomUp_call]
    exact .call
  | @load object offset type field _ found ih =>
    rcases bottomUp_recover_cases ctx.image ctx.vars
      (.deref (.arith .add object (.immediate offset))) with
      ⟨_, _, field', heq, hfield, hmember⟩ | hsame
    · -- The field that was recovered is the one of the rule, for the object has one type.
      cases heq
      obtain ⟨type', htype', hfound'⟩ := Option.bind_eq_some_iff.mp hfield
      cases unique hctx.recoverFields ih (.of_type? htype')
      cases found.symm.trans hfound'
      rw [hmember]
      exact .member
    · rw [hsame]
      exact .load ih found

/-- Recovering fields brings nothing new that can be derived. -/
theorem Derives.of_recoverFields {e' : Expr} (h : ctx.recoverFields.1.Derives e' t) {e : Expr}
    (he : e.bottomUp (recover ctx.image ctx.vars) = e') : ctx.Derives e t := by
  induction h generalizing e with
  | known type => exact derives_of_type?_recover (he ▸ type)
  | literal | member | call => exact derives_of_type?_recover (he ▸ rfl)
  | defined untyped defines _ not_void ih =>
    obtain ⟨value, hvalue, heq⟩ := defines_recoverFields_iff.mp defines
    rw [eq_leaf_of_bottomUp_recover he]
    exact .defined untyped hvalue (ih heq) not_void
  | load _ found ih =>
    rcases bottomUp_recover_cases ctx.image ctx.vars e with ⟨_, _, _, _, _, hmember⟩ | hsame
    · cases hmember.symm.trans he
    · rw [hsame] at he
      cases e with
      | deref address =>
        obtain ⟨object, right, rfl, hobject, hright⟩ :=
          eq_arith_of_bottomUp_recover (Expr.deref.inj he)
        obtain rfl := eq_leaf_of_bottomUp_recover hright
        exact .load (ih hobject) found
      | _ => cases he

/-- Recovery does not change which types can be derived: a memory access has the type of the field
that it becomes. -/
theorem derives_recoverFields_iff (hctx : ctx.Promoted) :
    ctx.recoverFields.1.Derives (.var v) t ↔ ctx.Derives (.var v) t :=
  ⟨fun h => h.of_recoverFields rfl, fun h => h.recoverFields hctx⟩

end Context

/-! ## Propagating types -/

namespace Variables

variable {vars : Variables} {v id : VarId} {t type : TypeRef}

theorem isUntyped_of_lt (hlt : v < vars.size) (h : vars.type? v = none) :
    vars.isUntyped v = true := by
  have hget : vars.entries[v]? = some vars.entries[v] := List.getElem?_eq_getElem hlt
  rw [type?, get?, hget] at h
  exact isUntyped_iff.mpr ⟨_, hget, h⟩

/-- A type after a refinement was known before, or is the one that was given. -/
theorem type?_refine_cases (h : (vars.refine id type).type? v = some t) :
    vars.type? v = some t ∨ (v, t) = (id, type) := by
  unfold refine at h
  split at h
  · rename_i huntyped
    by_cases hv : id = v
    · subst hv
      obtain ⟨w, hw, -⟩ := isUntyped_iff.mp huntyped
      right
      simp [type?, get?, modify, hw] at h
      rw [h]
    · left
      simpa [type?, get?, modify, List.getElem?_modify, hv] using h
  · exact .inl h

end Variables

namespace FieldRecovery

variable {vars : Variables} {v : VarId} {t : TypeRef}

/-- A statement gives a type to a variable exactly if it assigns a value of that type to it, and the
variable has none. -/
theorem inferred?_eq_some {e : Expr} : inferred? vars e = some (v, t) ↔
    ∃ value, e = .assign (.var v) value ∧ vars.type? v = none ∧ value.type? vars = some t ∧
      t.isVoid = false := by
  constructor
  · intro h
    unfold inferred? at h
    split at h
    · rename_i id value
      split at h
      · cases h
      · rename_i hnone
        obtain ⟨type, htype, heq⟩ := Option.map_eq_some_iff.mp h
        obtain ⟨htype, hvoid⟩ := Option.filter_eq_some_iff.mp htype
        cases heq
        exact ⟨value, rfl, by simpa using hnone, htype, by simpa using hvoid⟩
    · cases h
  · rintro ⟨value, rfl, hnone, htype, hvoid⟩
    simp [inferred?, hnone, htype, hvoid]

/-- The types that are found are those of the definitions of untyped variables. -/
theorem mem_found {g : Graph} : (v, t) ∈ found vars g ↔
    ∃ value, g.Defines v value ∧ vars.type? v = none ∧ value.type? vars = some t ∧
      t.isVoid = false := by
  rw [found_eq, List.mem_filterMap]
  constructor
  · rintro ⟨e, he, hinferred⟩
    obtain ⟨value, rfl, h⟩ := inferred?_eq_some.mp hinferred
    exact ⟨value, he, h⟩
  · rintro ⟨value, hvalue, h⟩
    exact ⟨_, hvalue, inferred?_eq_some.mpr ⟨value, rfl, h⟩⟩

/-- Types are only taken from those that were found. -/
theorem type?_applyTypes_cases {found : List (VarId × TypeRef)}
    (h : (applyTypes vars found).1.type? v = some t) :
    vars.type? v = some t ∨ (v, t) ∈ found := by
  induction found generalizing vars with
  | nil => exact .inl h
  | cons p rest ih =>
    rcases ih h with h | h
    · rcases Variables.type?_refine_cases h with h | heq
      · exact .inl h
      · exact .inr (List.mem_cons.mpr (.inl heq))
    · exact .inr (List.mem_cons_of_mem p h)

theorem size_applyTypes (found : List (VarId × TypeRef)) :
    (applyTypes vars found).1.size = vars.size := by
  induction found generalizing vars with
  | nil => rfl
  | cons p rest ih => exact ih.trans (Variables.size_refine vars p.1 p.2)

/-- What is found for variables without a type is given to them. -/
theorem isUntyped_of_silent {found : List (VarId × TypeRef)} (h : (applyTypes vars found).2 = [])
    (hv : (v, t) ∈ found) : vars.isUntyped v = false := by
  induction found with
  | nil => cases hv
  | cons p rest ih =>
    simp only [applyTypes] at h
    split at h
    · cases h
    · rename_i htyped
      rw [Variables.refine, if_neg htyped] at h
      rcases List.mem_cons.mp hv with rfl | hv
      · exact Bool.eq_false_iff.mpr htyped
      · exact ih h hv

end FieldRecovery

namespace Context

variable {ctx : Context} {e : Expr} {t : TypeRef} {v : VarId}

theorem Promoted.propagateTypes (h : ctx.Promoted) : ctx.propagateTypes.1.Promoted where
  once := h.once
  declared v hv := Nat.lt_of_lt_of_eq (h.declared v hv) (size_applyTypes _).symm

/-- A type after propagation was known before, or is that of a definition of the variable. -/
theorem type?_propagateTypes_cases (h : ctx.propagateTypes.1.vars.type? v = some t) :
    ctx.vars.type? v = some t ∨ ∃ value, ctx.graph.Defines v value ∧ ctx.vars.type? v = none ∧
      value.type? ctx.vars = some t ∧ t.isVoid = false :=
  (type?_applyTypes_cases h).imp_right mem_found.mp

/-- Propagation loses no derivation: a type that was given is known from then on. -/
theorem Derives.propagateTypes (hctx : ctx.Promoted) (h : ctx.Derives e t) :
    ctx.propagateTypes.1.Derives e t := by
  induction h with
  | known type => exact .known (type?_applyTypes _ type)
  | @defined v value t untyped defines derives not_void ih =>
    cases htype : ctx.propagateTypes.1.vars.type? v with
    | none => exact .defined htype defines ih not_void
    | some t' =>
      rcases type?_propagateTypes_cases htype with hknown | ⟨value', hvalue', -, htype', -⟩
      · cases untyped.symm.trans hknown
      · cases hctx.value_unique defines hvalue'
        cases unique hctx derives (.of_type? htype')
        exact .known htype
  | literal => exact .literal
  | member => exact .member
  | call => exact .call
  | load _ found ih => exact .load ih found

/-- Propagation makes no derivation possible that was not: a type that was given could be derived
already. -/
theorem Derives.of_propagateTypes (h : ctx.propagateTypes.1.Derives e t) : ctx.Derives e t := by
  induction h with
  | known type =>
    rcases type?_propagateTypes_cases type with hknown | ⟨value, hvalue, hnone, htype, hvoid⟩
    · exact .known hknown
    · exact .defined hnone hvalue (.of_type? htype) hvoid
  | defined untyped defines _ not_void ih =>
    refine .defined ?_ defines ih not_void
    refine Option.eq_none_iff_forall_ne_some.mpr fun t' hknown => ?_
    cases untyped.symm.trans (type?_applyTypes _ hknown)
  | literal => exact .literal
  | member => exact .member
  | call => exact .call
  | load _ found ih => exact .load ih found

/-! ## Rounds -/

/-- One run derives what could be derived before, and nothing else. -/
theorem derives_recoverData_iff (hctx : ctx.Promoted) :
    ctx.recoverData.1.Derives (.var v) t ↔ ctx.Derives (.var v) t := by
  rw [← derives_recoverFields_iff hctx]
  exact ⟨Derives.of_propagateTypes, Derives.propagateTypes hctx.recoverFields⟩

/-- Some runs one after the other. -/
def recoverRounds : Nat → Context → Context
  | 0, ctx => ctx
  | n + 1, ctx => recoverRounds n ctx.recoverData.1

/-- Rounds keep single assignment, by induction on their number. -/
theorem promoted_recoverRounds (hctx : ctx.Promoted) (n : Nat) :
    (recoverRounds n ctx).Promoted := by
  induction n generalizing ctx with
  | zero => exact hctx
  | succ n ih => exact ih hctx.recoverFields.propagateTypes

/-- What can be derived is an invariant of all rounds. -/
theorem derives_recoverRounds_iff (hctx : ctx.Promoted) (n : Nat) :
    (recoverRounds n ctx).Derives (.var v) t ↔ ctx.Derives (.var v) t := by
  induction n generalizing ctx with
  | zero => rfl
  | succ n ih => exact (ih hctx.recoverFields.propagateTypes).trans (derives_recoverData_iff hctx)

/-- A run is silent after as many runs as the method weighs, at the latest. -/
theorem exists_silent_round (ctx : Context) :
    ∃ n ≤ ctx.weight, ∃ final, (recoverRounds n ctx).recoverData = (final, false) := by
  induction hw : ctx.weight using Nat.strong_induction_on generalizing ctx with
  | _ w ih =>
    have hweight := (advances_recoverData ctx).weight
    cases hrun : ctx.recoverData with
    | mk next changed =>
      cases changed with
      | false => exact ⟨0, Nat.zero_le _, next, hrun⟩
      | true =>
        rw [hrun, hw] at hweight
        obtain ⟨n, hn, final, hfinal⟩ := ih next.weight hweight next rfl
        refine ⟨n + 1, Nat.le_trans (Nat.succ_le_succ hn) hweight, final, ?_⟩
        rw [recoverRounds, hrun]
        exact hfinal

/-! ## Silence -/

/-- After a round of recovery that changed nothing, definitions have no part with a field to
recover. -/
theorem calm_of_defines (hfields : ctx.recoverFields = (ctx, false)) {value : Expr}
    (h : ctx.graph.Defines v value) :
    ∃ block source, Calm (node ctx.image ctx.vars block source) value := by
  obtain ⟨b, hb, hcode⟩ := List.mem_flatMap.mp h
  obtain ⟨s, hs, hexpr⟩ := List.mem_map.mp hcode
  have hidle := (of_recoverFields hfields).2 b hb s hs
  have hcalm := (settling_node.bottomUpM s.expr).of_eq_pure hidle
  rw [hexpr] at hcalm
  exact ⟨b.id, s.source, hcalm.2.of_mem_parts List.mem_cons_self⟩

/-- A propagation that changed nothing recorded no type. -/
theorem events_of_silent (htypes : ctx.propagateTypes = (ctx, false)) :
    (applyTypes ctx.vars (found ctx.vars ctx.graph)).2 = [] := by
  rw [propagateTypes_eq] at htypes
  simpa using (Prod.mk.inj htypes).2

/-- When a run is silent, every type that can be derived is known. -/
theorem Derives.type?_of_silent (hctx : ctx.Promoted) (hfields : ctx.recoverFields = (ctx, false))
    (htypes : ctx.propagateTypes = (ctx, false)) (h : ctx.Derives e t)
    (hcalm : ∃ block source, Calm (node ctx.image ctx.vars block source) e) :
    e.type? ctx.vars = some t := by
  induction h with
  | known type => exact type
  | literal | member | call => rfl
  | @defined v value t untyped defines _ not_void ih =>
    have htype := ih (calm_of_defines hfields defines)
    have hfound := mem_found.mpr ⟨value, defines, untyped, htype, not_void⟩
    have hlt := hctx.declared v (mem_assignedIn.mpr ⟨value, defines⟩)
    have htyped := isUntyped_of_silent (events_of_silent htypes) hfound
    cases htyped.symm.trans (Variables.isUntyped_of_lt hlt untyped)
  | load _ found ih =>
    obtain ⟨block, source, hcalm⟩ := hcalm
    have haddress := hcalm.of_mem_parts List.mem_cons_self
    have hobject := ih ⟨block, source, haddress.of_mem_parts List.mem_cons_self⟩
    have hnone := field?_of_node_eq_pure hcalm.self
    rw [field?, hobject] at hnone
    cases found.symm.trans hnone

/-- After a silent run, the types of variables are those that could be derived at the start. -/
theorem type?_iff_of_silent (hctx : ctx.Promoted) {n : Nat} {final : Context}
    (h : (recoverRounds n ctx).recoverData = (final, false)) :
    final.vars.type? v = some t ↔ ctx.Derives (.var v) t := by
  obtain ⟨rfl, hfields, htypes⟩ := silent_of_recoverData h
  rw [← derives_recoverRounds_iff hctx n]
  constructor
  · exact .known
  · intro hderives
    have hpromoted := promoted_recoverRounds hctx n
    exact hderives.type?_of_silent hpromoted hfields htypes
      ⟨0, none, .of_parts rfl (List.forall_mem_nil _)⟩

/-- A type of a variable is known, or is a type of its definition. So derivations go from variables
to definitions and back. -/
theorem derives_var_iff : ctx.Derives (.var v) t ↔
    ctx.vars.type? v = some t ∨ ctx.vars.type? v = none ∧ t.isVoid = false ∧
      ∃ value, ctx.graph.Defines v value ∧ ctx.Derives value t := by
  constructor
  · rintro (type | ⟨untyped, defines, derives, not_void⟩)
    · exact .inl type
    · exact .inr ⟨untyped, not_void, _, defines, derives⟩
  · rintro (type | ⟨untyped, not_void, value, defines, derives⟩)
    · exact .known type
    · exact .defined untyped defines derives not_void

/-- The order of statements means nothing to what can be derived. -/
theorem derives_iff_of_perm {ctx' : Context} (himage : ctx'.image = ctx.image)
    (hvars : ctx'.vars = ctx.vars) (hcode : ctx'.graph.liveCode.Perm ctx.graph.liveCode) :
    ctx'.Derives e t ↔ ctx.Derives e t :=
  ⟨.of_liveCode himage.symm hvars.symm hcode.subset, .of_liveCode himage hvars hcode.symm.subset⟩

/-- Single assignment does not depend on the order of statements. -/
theorem Promoted.of_perm {ctx' : Context} (hctx : ctx.Promoted) (hvars : ctx'.vars = ctx.vars)
    (hcode : ctx'.graph.liveCode.Perm ctx.graph.liveCode) : ctx'.Promoted where
  once := (hcode.filterMap assigned?).nodup_iff.mpr hctx.once
  declared v hv := hvars ▸ hctx.declared v ((hcode.filterMap assigned?).subset hv)

/-- Recovery finds the types that can be derived, and no others. Repeated on a method as promotion
leaves it, the run becomes silent. When it does, a variable has a type if and only if it had it at
the start, or had none and its live definition derives the type and the type is not void. The same
method with its live statements in another order, and in other blocks, ends with the same types. -/
theorem types_recoverRounds (hctx : ctx.Promoted) :
    (∃ n ≤ ctx.weight, ∃ final, (recoverRounds n ctx).recoverData = (final, false)) ∧
    (∀ n final, (recoverRounds n ctx).recoverData = (final, false) → ∀ v t,
      final.vars.type? v = some t ↔
        ctx.vars.type? v = some t ∨ ctx.vars.type? v = none ∧ t.isVoid = false ∧
          ∃ value, ctx.graph.Defines v value ∧ ctx.Derives value t) ∧
    ∀ ctx' : Context, ctx'.image = ctx.image → ctx'.vars = ctx.vars →
      ctx'.graph.liveCode.Perm ctx.graph.liveCode → ∀ n n' final final',
        (recoverRounds n ctx).recoverData = (final, false) →
        (recoverRounds n' ctx').recoverData = (final', false) →
        ∀ v, final'.vars.type? v = final.vars.type? v := by
  refine ⟨ctx.exists_silent_round, fun n final h v t => ?_, ?_⟩
  · rw [type?_iff_of_silent hctx h, derives_var_iff]
  · intro ctx' himage hvars hcode n n' final final' h h' v
    ext t
    rw [type?_iff_of_silent (hctx.of_perm hvars hcode) h', type?_iff_of_silent hctx h,
      derives_iff_of_perm himage hvars hcode]

end Context

/-! ## A field of a field, used before it is loaded -/

/-- A class with a field, and the class of that field, which inherits a field of its own. -/
def armory : Image :=
  (((({ isa := .x64 } : Image).addType
    ((⟨1, "", "Player", none, []⟩ : TypeDef).addField "weapon" 24 (.classType 2))).addType
    ⟨2, "", "Weapon", some 3, []⟩).addType
    ((⟨3, "", "Item", none, []⟩ : TypeDef).addField "damage" 32 (.primitive .r4)))

/-- Code that jumps over the use of a field to the load of the object it is in, and back. -/
def duel : List Instruction :=
  [⟨0, .goto, [.target 3], .jump⟩,
    ⟨1, .move, [.register "xmm0", .memory { base := some "rax", addend := 32 }], .next⟩,
    ⟨2, .ret, [], .ret⟩,
    ⟨3, .move, [.register "rax", .memory { base := some "rcx", addend := 24 }], .next⟩,
    ⟨4, .goto, [.target 1], .jump⟩]

def duelScope : Scope where
  image := armory
  method :=
    { id := 0, name := "duel", declaring := some 1, declaringName := "Player", isStatic := false }

def duelFilled : Except Error Graph × Journal :=
  (duelScope.fill duel ((Graph.ofCode duel).toOption.getD {})).run.run {}

/-- The method of `duel` after promotion. -/
def duelContext : Context :=
  Prod.fst <| Context.promote
    { image := armory, method := duelScope.method, graph := duelFilled.1.toOption.getD {} }

/-- The same method with its blocks turned round. -/
def duelReversed : Context :=
  { duelContext with graph := ⟨duelContext.graph.blocks.reverse⟩ }

/-- Two rounds bring the type of the field to the variable, whichever way round the blocks stand.
-/
theorem Context.types_recoverRounds_duel :
    duelContext.vars.type? 2 = none ∧
    (recoverRounds 2 duelContext).recoverData.1.vars.type? 2 = some (.primitive .r4) ∧
    (∃ value, duelContext.graph.Defines 2 value ∧ duelContext.Derives value (.primitive .r4)) ∧
    (recoverRounds 2 duelReversed).recoverData.1.vars.type? 2 = some (.primitive .r4) := by
  have hfill : duelFilled = (.ok (duelFilled.1.toOption.getD {}), duelFilled.2) :=
    eq_ok_of_isSome (by decide +kernel) {}
  have hpromoted : duelContext.Promoted := promoted_promote (Graph.allLifted_of_fill hfill)
  have hsilent : ∀ {x : Context × Bool}, x.2 = false → x = (x.1, false) := fun h => by rw [← h]
  have hrun := hsilent (x := (recoverRounds 2 duelContext).recoverData) (by decide +kernel)
  have hreversed := hsilent (x := (recoverRounds 2 duelReversed).recoverData) (by decide +kernel)
  have hperm : duelReversed.graph.liveCode.Perm duelContext.graph.liveCode :=
    List.Perm.flatMap_right _ (List.reverse_perm _)
  have hnone : duelContext.vars.type? 2 = none := by decide +kernel
  have htyped : (recoverRounds 2 duelContext).recoverData.1.vars.type? 2 =
    some (.primitive .r4) := by decide +kernel
  obtain ⟨-, htypes, horder⟩ := types_recoverRounds hpromoted
  refine ⟨hnone, htyped, ?_, ?_⟩
  · rcases (htypes 2 _ hrun 2 _).mp htyped with hknown | ⟨-, -, hderives⟩
    · cases hnone.symm.trans hknown
    · exact hderives
  · exact (horder duelReversed rfl rfl hperm 2 2 _ _ hrun hreversed 2).trans htyped

end MethodLift
