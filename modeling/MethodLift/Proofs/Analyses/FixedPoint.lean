import MethodLift.Proofs.Analyses.Candid
import MethodLift.Proofs.Analyses.Rounds

/-!
# The fixed point of the analyses

The analyses are candid, so a round without a report did nothing but replace loads of slots that
were replaced already. That changes no type and takes no field access apart, so none of the analyses
finds anything in what such a round leaves: it is a fixed point.
-/

namespace MethodLift

open Expr

/-! ## Candid steps -/

/-- A recovery that reports nothing did nothing, and would again. -/
theorem FieldRecovery.settling_node {image : Program} {vars : Variables} {block : BlockId}
    {source : Option Nat} : Settling (node image vars block source) id := by
  refine .of_candid fun e => ?_
  unfold node
  split
  · split
    · exact .note _ _
    · exact .pure rfl
  · exact .pure rfl

/-- A step that reports nothing replaced no load: also dropping the load of a string that is there
already is reported. -/
theorem LiteralInlining.settling_node {image : Program} {options : Options} {block : BlockId} :
    Settling (node image options block) id := by
  refine .of_candid fun e => ?_
  unfold node
  split
  · exact .mark _
  · split
    · exact .note _ _
    · exact .pure rfl
  · exact .pure rfl

/-- An operation that is not folded stays. -/
theorem Folding.settling_node {block : BlockId} : Settling (node block) id := by
  refine .of_candid fun e => ?_
  unfold node
  split
  · exact .note _ _
  · exact .pure rfl

namespace UsageInlining

/-- The load of a slot is the slot itself. -/
def collapse : Expr → Expr
  | .deref (.leaf (.usage u)) => .leaf (.usage u)
  | e => e

variable {image : Program} {options : Options} {block : BlockId}

theorem candid_inline? (v : Int64) : Candid (inline? image options block v) (· = none) := by
  unfold inline?
  split
  · exact .pure rfl
  · exact .note _ _

theorem candid_value (e : Expr) : Candid (value image options block e) (· = e) := by
  unfold value
  split
  · exact (candid_inline? _).bind fun r => .pure (by rintro rfl; rfl)
  · exact .pure rfl

theorem candid_storeTarget (e : Expr) : Candid (storeTarget image options block e) (· = e) := by
  unfold storeTarget
  split
  · exact (candid_value _).bind fun a => .pure (by rintro rfl; rfl)
  · exact .pure rfl

/-- A step that reports nothing replaced no number. What it may have done unreported is to drop the
load of a slot. -/
theorem candid_node (e : Expr) : Candid (node image options block e) (· = collapse e) := by
  unfold node
  split
  · exact (candid_inline? _).bind fun r => .pure (by rintro rfl; rfl)
  · exact .pure rfl
  · refine (candid_storeTarget _).bind fun t => (candid_value _).bind fun v => .pure ?_
    rintro rfl rfl
    rfl
  · refine (Candid.mapM (φ := id) (Q := fun _ => True) fun a _ =>
      (candid_value a).mono fun b hb => ⟨hb, trivial⟩).bind fun args => .pure ?_
    rintro ⟨rfl, -⟩
    rw [List.map_id]
    rfl
  · refine (candid_value _).bind fun l => (candid_value _).bind fun r => .pure ?_
    rintro rfl rfl
    rfl
  · rename_i hslot _ _ _
    refine .pure ?_
    unfold collapse
    split
    · exact absurd rfl (hslot _)
    · rfl

/-- Collapsing changes loads of slots only. -/
theorem collapse_cases (e : Expr) :
    (∃ u, e = .deref (.leaf (.usage u)) ∧ collapse e = .leaf (.usage u)) ∨ collapse e = e := by
  unfold collapse
  split
  · exact .inl ⟨_, rfl, rfl⟩
  · exact .inr rfl

/-- Slots are no numbers, so what is left when nothing was reported is left alone by the next
walk. -/
theorem settling_node : Settling (node image options block) collapse := by
  intro e
  have hnode : Candid (node image options block e) (· = collapse e) := candid_node e
  rcases hnode with ⟨e', he', rfl⟩ | hreport
  · refine .inl ⟨_, he', rfl, ?_⟩
    rcases collapse_cases e with ⟨u, -, hu⟩ | hsame
    · rw [hu]
      exact ⟨rfl, List.nil_subset _⟩
    · rw [hsame] at he' ⊢
      exact ⟨he', List.Subset.refl _⟩
  · exact .inr hreport

end UsageInlining

/-! ## Loads of slots -/

namespace Expr

open UsageInlining

variable {e left right : Expr} {vars : Variables}

/-- A leaf after collapsing was one before, or is a slot that was loaded. -/
theorem eq_leaf_of_bottomUp_collapse {l : Leaf} (h : e.bottomUp collapse = .leaf l) :
    e = .leaf l ∨ ∃ u, l = .usage u := by
  cases e with
  | leaf value => exact .inl h
  | deref address =>
    rw [bottomUp_deref] at h
    rcases collapse_cases (.deref (address.bottomUp collapse)) with ⟨u, -, hu⟩ | hsame
    · rw [hu] at h
      exact .inr ⟨u, (Expr.leaf.inj h).symm⟩
    · rw [hsame] at h
      cases h
  | _ => simp [collapse] at h

/-- Only arithmetic collapses to arithmetic. -/
theorem eq_arith_of_bottomUp_collapse {op : ArithOp}
    (h : e.bottomUp collapse = .arith op left right) :
    ∃ l r, e = .arith op l r ∧ l.bottomUp collapse = left ∧ r.bottomUp collapse = right := by
  cases e with
  | arith op' l r =>
    cases h
    exact ⟨l, r, rfl, rfl, rfl⟩
  | deref address =>
    rw [bottomUp_deref] at h
    rcases collapse_cases (.deref (address.bottomUp collapse)) with ⟨u, -, hu⟩ | hsame
    · rw [hu] at h
      cases h
    · rw [hsame] at h
      cases h
  | _ => simp [collapse] at h

/-- Only calls of known methods have a type. -/
theorem type?_call_of_ne {target : Expr} {args : List Expr} {returns : Bool}
    (h : ∀ m, target ≠ .leaf (.method m)) : (call target args returns).type? vars = none := by
  unfold type?
  split <;> simp_all

/-- Loads of slots have no type, with or without the load. -/
theorem type?_bottomUp_collapse (vars : Variables) (e : Expr) :
    (e.bottomUp collapse).type? vars = e.type? vars := by
  cases e with
  | deref address =>
    rw [bottomUp_deref]
    rcases collapse_cases (.deref (address.bottomUp collapse)) with ⟨u, -, hu⟩ | hsame
    · rw [hu]
      rfl
    · rw [hsame]
      rfl
  | call target args returns =>
    rw [bottomUp_call]
    by_cases hm : ∃ m, target = .leaf (.method m)
    · obtain ⟨m, rfl⟩ := hm
      cases returns <;> rfl
    · rw [type?_call_of_ne fun m h => hm ⟨m, h⟩]
      refine type?_call_of_ne fun m h => ?_
      rcases eq_leaf_of_bottomUp_collapse h with h | ⟨u, hu⟩
      · exact hm ⟨m, h⟩
      · cases hu
  | leaf value => rfl
  | member object field => rfl
  | _ => simp [collapse, type?]

end Expr

namespace FieldRecovery

open UsageInlining

variable {image : Program} {vars : Variables} {block : BlockId} {source : Option Nat}

theorem node_eq_pure {object : Expr} {offset : Int64}
    (h : field? image vars object offset = none) :
    node image vars block source (.deref (.arith .add object (.immediate offset))) =
      pure (.deref (.arith .add object (.immediate offset))) := by
  simp only [node, h]

/-- An access that recovery leaves alone has no field. -/
theorem field?_of_node_eq_pure {object : Expr} {offset : Int64}
    (h : node image vars block source (.deref (.arith .add object (.immediate offset))) =
      pure (.deref (.arith .add object (.immediate offset)))) :
    field? image vars object offset = none := by
  cases hfield : field? image vars object offset with
  | none => rfl
  | some field =>
    simp only [node, hfield] at h
    cases congrArg (fun x : Refine Expr => (x.run {}).2.changed) h

/-- Where there was no field, there is none when loads of slots are replaced. -/
theorem node_deref_collapse {address : Expr}
    (h : node image vars block source (.deref address) = pure (.deref address)) :
    node image vars block source (.deref (address.bottomUp collapse)) =
      pure (.deref (address.bottomUp collapse)) := by
  by_cases hadd : ∃ object offset, address.bottomUp collapse =
      .arith .add object (.immediate offset)
  · obtain ⟨object, offset, hadd⟩ := hadd
    obtain ⟨o, i, rfl, rfl, hi⟩ := eq_arith_of_bottomUp_collapse hadd
    rw [hadd]
    rcases eq_leaf_of_bottomUp_collapse hi with rfl | ⟨u, hu⟩
    · refine node_eq_pure ?_
      rw [field?, type?_bottomUp_collapse]
      exact field?_of_node_eq_pure h
    · cases hu
  · unfold node
    split
    · rename_i heq
      exact absurd ⟨_, _, Expr.deref.inj heq⟩ hadd
    · rfl

/-- Collapsing the loads inside an access does not give it a field: slots have no type, and neither
have loads of slots. -/
theorem node_collapse {e : Expr} (h : node image vars block source e = pure e) :
    node image vars block source (e.bottomUp collapse) = pure (e.bottomUp collapse) := by
  cases e with
  | deref address =>
    rw [bottomUp_deref]
    rcases collapse_cases (.deref (address.bottomUp collapse)) with ⟨u, -, hu⟩ | hsame
    · rw [hu]
      rfl
    · rw [hsame]
      exact node_deref_collapse h
  | _ => simp [collapse, node]

/-- So recovery leaves alone what it left alone before loads of slots were collapsed. -/
theorem calm_bottomUp_collapse {e : Expr} (h : Calm (node image vars block source) e) :
    Calm (node image vars block source) (e.bottomUp collapse) := by
  induction e using byAllParts with
  | h e ih =>
    refine .of_parts (node_collapse h.self) fun part hpart => ?_
    rw [bottomUp_eq] at hpart
    rcases collapse_cases (e.withParts (e.parts.map (bottomUp collapse))) with ⟨u, -, hu⟩ | hsame
    · rw [hu] at hpart
      cases hpart
    · rw [hsame, parts_withParts (List.length_map _)] at hpart
      obtain ⟨p, hp, rfl⟩ := List.mem_map.mp hpart
      exact ih p hp (h.of_mem_parts hp)

theorem calm_bottomUpLoads_collapse {e : Expr} (h : Calm (node image vars block source) e) :
    Calm (node image vars block source) (e.bottomUpLoads collapse) := by
  by_cases hstore : ∃ address value, e = .assign (.deref address) value
  · obtain ⟨address, value, rfl⟩ := hstore
    have hvalue : Calm (node image vars block source) value := h.of_mem_parts (by simp [parts])
    have htarget : Calm (node image vars block source) (.deref address) :=
      h.of_mem_parts (by simp [parts])
    have haddress : Calm (node image vars block source) address :=
      htarget.of_mem_parts (by simp [parts])
    have htarget' : Calm (node image vars block source) (.deref (address.bottomUp collapse)) := by
      refine .of_parts (node_deref_collapse htarget.self) ?_
      simpa [parts] using calm_bottomUp_collapse haddress
    refine .of_parts rfl ?_
    show ∀ part ∈ [value.bottomUp collapse, .deref (address.bottomUp collapse)], _
    simpa using ⟨calm_bottomUp_collapse hvalue, htarget'⟩
  · rw [bottomUpLoads, bottomUpLoadsM_of_ne _ fun a v h => hstore ⟨a, v, h⟩]
    exact calm_bottomUp_collapse h

theorem inferred?_assign_of_ne {target value : Expr} (h : ∀ id, target ≠ .leaf (.var id)) :
    inferred? vars (.assign target value) = none := by
  unfold inferred?
  split
  · rename_i heq
    exact absurd (Expr.assign.inj heq).1 (h _)
  · rfl

/-- Collapsing gives no statement a type for a variable, and takes none away. -/
theorem inferred?_bottomUp_collapse (e : Expr) :
    inferred? vars (e.bottomUp collapse) = inferred? vars e := by
  cases e with
  | assign target value =>
    rw [bottomUp_assign]
    by_cases hvar : ∃ id, target = .leaf (.var id)
    · obtain ⟨id, rfl⟩ := hvar
      show inferred? vars (.assign (.leaf (.var id)) (value.bottomUp collapse)) = _
      simp only [inferred?, type?_bottomUp_collapse]
    · rw [inferred?_assign_of_ne fun id h => hvar ⟨id, h⟩]
      refine inferred?_assign_of_ne fun id h => ?_
      rcases eq_leaf_of_bottomUp_collapse h with h | ⟨u, hu⟩
      · exact hvar ⟨id, h⟩
      · cases hu
  | deref address =>
    rw [bottomUp_deref]
    rcases collapse_cases (.deref (address.bottomUp collapse)) with ⟨u, -, hu⟩ | hsame
    · rw [hu]
      rfl
    · rw [hsame]
      rfl
  | _ => simp [collapse, inferred?]

theorem inferred?_bottomUpLoads_collapse (e : Expr) :
    inferred? vars (e.bottomUpLoads collapse) = inferred? vars e := by
  by_cases hstore : ∃ address value, e = .assign (.deref address) value
  · obtain ⟨address, value, rfl⟩ := hstore
    rfl
  · rw [bottomUpLoads, bottomUpLoadsM_of_ne _ fun a v h => hstore ⟨a, v, h⟩]
    exact inferred?_bottomUp_collapse e

/-- Where no type is given to a variable, the table stays as it is. -/
theorem applyTypes_of_silent {found : List (VarId × TypeRef)}
    (h : (applyTypes vars found).2 = []) : (applyTypes vars found).1 = vars := by
  induction found with
  | nil => rfl
  | cons p rest ih =>
    simp only [applyTypes] at h ⊢
    split at h
    · cases h
    · rename_i hu
      rw [Variables.refine, if_neg hu] at h ⊢
      exact ih h

end FieldRecovery

/-! ## Silent passes -/

/-- How field recovery walks through a statement. -/
def FieldRecovery.sweep (image : Program) (vars : Variables) : Sweep :=
  fun block source e => e.bottomUpM (node image vars block source)

namespace Context

open UsageInlining FieldRecovery

variable {ctx ctx' : Context}

/-- Folding that reports nothing did nothing. -/
theorem eq_of_foldConstants (h : ctx.foldConstants = (ctx', false)) : ctx' = ctx := by
  have hsweep : ∀ (block : BlockId) (_ : Option Nat) (e : Expr),
      Candid (e.bottomUpM (Folding.node block)) fun e' =>
        e' = id e ∧ e'.bottomUpM (Folding.node block) = pure e' := by
    intro block _ e
    refine (Folding.settling_node.bottomUpM e).mono fun e' he' => ?_
    exact ⟨he'.1.trans (bottomUp_id e), he'.2.bottomUpM⟩
  have hleft := (refineLive_of_silent hsweep h).1
  rwa [Graph.mapLive_id] at hleft

/-- Literal inlining that reports nothing did nothing. -/
theorem eq_of_inlineLiterals (h : ctx.inlineLiterals = (ctx', false)) : ctx' = ctx := by
  have hsweep : ∀ (block : BlockId) (_ : Option Nat) (e : Expr),
      Candid (e.bottomUpLoadsM (LiteralInlining.node ctx.image ctx.options block)) fun e' =>
        e' = id e ∧ e'.bottomUpLoadsM (LiteralInlining.node ctx.image ctx.options block) =
          pure e' := by
    intro block _ e
    refine (LiteralInlining.settling_node.bottomUpLoadsM (fun _ _ => rfl) e).mono fun e' he' => ?_
    exact ⟨he'.1.trans (bottomUpLoads_id e), he'.2⟩
  have hleft := (refineLive_of_silent hsweep h).1
  rwa [Graph.mapLive_id] at hleft

/-- The method with loads of slots replaced. -/
def collapse (ctx : Context) : Context :=
  { ctx with graph := ctx.graph.mapLive (bottomUpLoads UsageInlining.collapse) }

/-- Replacing loads of slots is all that the pass does silently, and it does it once. -/
theorem eq_collapse_of_inlineUsages (h : ctx.inlineUsages = (ctx', false)) :
    ctx' = ctx.collapse ∧ ctx'.inlineUsages = (ctx', false) := by
  have hsweep : ∀ (block : BlockId) (_ : Option Nat) (e : Expr),
      Candid (e.bottomUpLoadsM (UsageInlining.node ctx.image ctx.options block)) fun e' =>
        e' = e.bottomUpLoads UsageInlining.collapse ∧
          e'.bottomUpLoadsM (UsageInlining.node ctx.image ctx.options block) = pure e' :=
    fun _ _ e => UsageInlining.settling_node.bottomUpLoadsM (fun _ _ => rfl) e
  obtain ⟨rfl, hidle⟩ := refineLive_of_silent hsweep h
  have hagain := refineLive_of_idle ctx.collapse hidle
  exact ⟨rfl, hagain⟩

theorem eq_of_propagateTypes (h : ctx.propagateTypes = (ctx', false)) : ctx' = ctx := by
  rw [propagateTypes_eq] at h
  obtain ⟨rfl, hevents⟩ := Prod.mk.inj h
  have hnone : (applyTypes ctx.vars (found ctx.vars ctx.graph)).2 = [] := by simpa using hevents
  rw [applyTypes_of_silent hnone, hnone, Journal.recordAll, List.append_nil]

/-- What changes no inferred type changes none of the types that are found. -/
theorem found_mapLive {h : Expr → Expr} (vars : Variables) (g : Graph)
    (hh : ∀ e, inferred? vars (h e) = inferred? vars e) :
    found vars (g.mapLive h) = found vars g := by
  unfold found Graph.mapLive
  rw [List.flatMap_map]
  refine List.flatMap_congr fun b _ => ?_
  rw [Block.live_mapLive, List.filterMap_map]
  exact List.filterMap_congr fun s _ => hh s.expr

/-- Propagation is still at rest after loads of slots were collapsed. -/
theorem propagateTypes_collapse (h : ctx.propagateTypes = (ctx, false)) :
    ctx.collapse.propagateTypes = (ctx.collapse, false) := by
  have hfound : found ctx.vars ctx.collapse.graph = found ctx.vars ctx.graph :=
    found_mapLive _ _ inferred?_bottomUpLoads_collapse
  rw [propagateTypes_eq] at h ⊢
  obtain ⟨hctx, hevents⟩ := Prod.mk.inj h
  show ({ ctx.collapse with
      vars := (applyTypes ctx.vars (found ctx.vars ctx.collapse.graph)).1
      journal := ctx.journal.recordAll
        (applyTypes ctx.vars (found ctx.vars ctx.collapse.graph)).2 },
    !(applyTypes ctx.vars (found ctx.vars ctx.collapse.graph)).2.isEmpty) = _
  rw [hfound, hevents]
  have hvars := congrArg Context.vars hctx
  have hjournal := congrArg Context.journal hctx
  dsimp only at hvars hjournal
  rw [hvars, hjournal]
  rfl

/-- Recovery that reports nothing did nothing, and would not change the method either. -/
theorem of_recoverFields (h : ctx.recoverFields = (ctx', false)) :
    ctx' = ctx ∧ ctx.graph.Idle (FieldRecovery.sweep ctx.image ctx.vars) := by
  have hsweep : ∀ (block : BlockId) (source : Option Nat) (e : Expr),
      Candid (FieldRecovery.sweep ctx.image ctx.vars block source e) fun e' =>
        e' = id e ∧ FieldRecovery.sweep ctx.image ctx.vars block source e' = pure e' := by
    intro block source e
    refine (FieldRecovery.settling_node.bottomUpM e).mono fun e' he' => ?_
    exact ⟨he'.1.trans (bottomUp_id e), he'.2.bottomUpM⟩
  obtain ⟨hleft, hidle⟩ := refineLive_of_silent hsweep h
  rw [Graph.mapLive_id] at hleft
  subst hleft
  exact ⟨rfl, hidle⟩

/-- Recovery is still at rest after loads of slots were collapsed. -/
theorem recoverFields_collapse (h : ctx.recoverFields = (ctx, false)) :
    ctx.collapse.recoverFields = (ctx.collapse, false) := by
  have hidle := (of_recoverFields h).2
  have hcollapsed : ctx.collapse.graph.Idle (FieldRecovery.sweep ctx.image ctx.vars) := by
    rintro _ hb' _ hs'
    obtain ⟨b, hb, rfl⟩ := List.mem_map.mp hb'
    rw [Block.live_mapLive] at hs'
    obtain ⟨s, hs, rfl⟩ := List.mem_map.mp hs'
    have hcalm := ((FieldRecovery.settling_node.bottomUpM s.expr).of_eq_pure (hidle b hb s hs)).2
    exact (calm_bottomUpLoads_collapse hcalm).bottomUpM
  have hagain := refineLive_of_idle ctx.collapse hcollapsed
  exact hagain

/-- A silent run is silent in both of its halves, and leaves everything as it is. -/
theorem silent_of_recoverData (h : ctx.recoverData = (ctx', false)) :
    ctx' = ctx ∧ ctx.recoverFields = (ctx, false) ∧ ctx.propagateTypes = (ctx, false) := by
  unfold recoverData at h
  cases hfields : ctx.recoverFields with
  | mk c resolved =>
    cases htypes : c.propagateTypes with
    | mk c' typed =>
      simp only [hfields, htypes, Prod.mk.injEq, Bool.or_eq_false_iff] at h
      obtain ⟨rfl, rfl, rfl⟩ := h
      obtain ⟨rfl, -⟩ := of_recoverFields hfields
      obtain rfl := eq_of_propagateTypes htypes
      exact ⟨rfl, rfl, htypes⟩

/-- A silent run of the pass leaves the method as it was, and silent also after slots are
collapsed. -/
theorem of_recoverData (h : ctx.recoverData = (ctx', false)) :
    ctx' = ctx ∧ ctx.collapse.recoverData = (ctx.collapse, false) := by
  obtain ⟨rfl, hfields, htypes⟩ := silent_of_recoverData h
  refine ⟨rfl, ?_⟩
  simp only [recoverData, recoverFields_collapse hfields, propagateTypes_collapse htypes,
    Bool.or_false]

end Context

/-! ## Quiet rounds -/

namespace Schedule

variable {round : Nat} {ctx ctx' : Context}

/-- In a round without a report no pass reported anything. -/
theorem exists_of_runRound {p : Pass} {rest : List Pass}
    (h : (runRound round (p :: rest)).run.run ctx = (.ok false, ctx')) :
    ∃ c, (runPass round p).run.run ctx = (.ok false, c) ∧
      (runRound round rest).run.run c = (.ok false, ctx') := by
  obtain ⟨first, c, hfirst, h⟩ := exists_of_run_bind_ok h
  obtain ⟨others, c', hothers, h⟩ := exists_of_run_bind_ok h
  cases first with
  | true => cases h
  | false =>
    cases h
    exact ⟨c, hfirst, hothers⟩

section Step

variable {name description : String} {wanted : Options → Bool} {step : Context → Context × Bool}

/-- A pass that reports nothing left what its step left, or was not wanted. -/
theorem of_runPass
    (h : (runPass round (.ofStep name description wanted step)).run.run ctx = (.ok false, ctx')) :
    (wanted ctx.options = true ∧ step ctx = (ctx', false)) ∨
      (wanted ctx.options = false ∧ ctx' = ctx) := by
  obtain ⟨c, _, hget, h⟩ := exists_of_run_bind_ok h
  cases hget
  split at h
  · rename_i hwanted
    obtain ⟨changed, c, hrun, h⟩ := exists_of_run_bind_ok h
    cases hrun
    cases hchanged : (step ctx).2 with
    | true =>
      rw [hchanged] at h
      cases h
    | false =>
      rw [hchanged] at h
      cases h
      exact .inl ⟨hwanted, Prod.ext rfl hchanged⟩
  · rename_i hwanted
    cases h
    exact .inr ⟨Bool.eq_false_iff.mpr hwanted, rfl⟩

/-- A pass that changes nothing without a report. -/
theorem eq_of_runPass (hstep : ∀ c c', step c = (c', false) → c' = c)
    (h : (runPass round (.ofStep name description wanted step)).run.run ctx = (.ok false, ctx')) :
    ctx' = ctx ∧ (wanted ctx.options = true → step ctx = (ctx, false)) := by
  rcases of_runPass h with ⟨-, hs⟩ | ⟨hwanted, rfl⟩
  · obtain rfl := hstep _ _ hs
    exact ⟨rfl, fun _ => hs⟩
  · refine ⟨rfl, fun h => ?_⟩
    cases hwanted.symm.trans h

end Step

end Schedule

namespace Lifter

open Schedule

/-- After a quiet round none of the analyses that are wanted has anything left to do. -/
theorem idle_of_quiet {ctx : Context} (h : Quiet analyses ctx) {p : Pass} (hp : p ∈ analyses)
    (hwanted : p.wanted ctx.options = true) (n : Nat) :
    (p.run n).run.run ctx = (.ok false, ctx) := by
  obtain ⟨round, before, h⟩ := h
  obtain ⟨c₁, hfields, h⟩ := exists_of_runRound h
  obtain ⟨c₂, husages, h⟩ := exists_of_runRound h
  obtain ⟨c₃, hliterals, h⟩ := exists_of_runRound h
  obtain ⟨c₄, hfolding, h⟩ := exists_of_runRound h
  cases h
  obtain ⟨rfl, hfields⟩ := eq_of_runPass (fun _ _ h => (Context.of_recoverData h).1) hfields
  obtain ⟨rfl, hliterals⟩ := eq_of_runPass (fun _ _ => Context.eq_of_inlineLiterals) hliterals
  obtain ⟨rfl, hfolding⟩ := eq_of_runPass (fun _ _ => Context.eq_of_foldConstants) hfolding
  simp only [analyses, List.mem_cons, List.not_mem_nil, or_false] at hp
  rcases of_runPass husages with ⟨-, husages⟩ | ⟨hunwanted, rfl⟩
  · obtain ⟨rfl, husages⟩ := Context.eq_collapse_of_inlineUsages husages
    rcases hp with rfl | rfl | rfl | rfl
    · exact Pass.run_ofStep (Context.of_recoverData (hfields hwanted)).2 n
    · exact Pass.run_ofStep husages n
    · exact Pass.run_ofStep (hliterals hwanted) n
    · exact Pass.run_ofStep (hfolding hwanted) n
  · rcases hp with rfl | rfl | rfl | rfl
    · exact Pass.run_ofStep (hfields hwanted) n
    · cases hunwanted.symm.trans hwanted
    · exact Pass.run_ofStep (hliterals hwanted) n
    · exact Pass.run_ofStep (hfolding hwanted) n

/-! ## Convergence -/

/-- The analyses converge to a fixed point. They have at most as many changing rounds as the method
weighs, so with a limit above that they settle, and no notice of the limit is recorded. When there
were less rounds than allowed, none of the analyses that are wanted reports or changes anything when
it runs again. Known types stay, over the whole schedule and in every single run. -/
theorem converges_analyses (limit : Nat) (ctx : Context) :
    ∃ rounds ctx', (settle analyses limit).run.run ctx = (.ok rounds, ctx') ∧
      rounds ≤ ctx.weight ∧ rounds ≤ limit ∧
      (ctx.weight < limit → rounds < limit ∧
        ctx'.journal.events.count .iterationLimit = ctx.journal.events.count .iterationLimit) ∧
      (rounds < limit → ∀ p ∈ analyses, p.wanted ctx.options = true → ∀ n,
        (p.run n).run.run ctx' = (.ok false, ctx')) ∧
      (∀ id type, ctx.vars.type? id = some type → ctx'.vars.type? id = some type) ∧
      ∀ p ∈ analyses, ∀ n c changed c', (p.run n).run.run c = (.ok changed, c') →
        ∀ id type, c.vars.type? id = some type → c'.vars.type? id = some type := by
  obtain ⟨rounds, ctx', hrun, h⟩ :=
    settled_settle (fun _ hp => advancing_of_mem_analyses hp) limit ctx
  have hrounds : rounds ≤ ctx.weight := Nat.le_trans (Nat.le_add_left _ _) h.weight
  refine ⟨rounds, ctx', hrun, hrounds, h.rounds_le, fun hlimit => ?_, fun hlt p hp hwanted => ?_,
    h.types, fun p hp n c changed c' hrun => ?_⟩
  · have hlt := Nat.lt_of_le_of_lt hrounds hlimit
    exact ⟨hlt, (h.quiet hlt).2⟩
  · exact idle_of_quiet (h.quiet hlt).1 hp (h.options ▸ hwanted)
  · obtain ⟨_, _, hrun', hadvances⟩ := advancing_of_mem_analyses hp n c
    cases hrun.symm.trans hrun'
    exact hadvances.types

end Lifter

end MethodLift
