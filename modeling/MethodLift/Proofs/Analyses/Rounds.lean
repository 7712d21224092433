import MethodLift.Proofs.Analyses.Weight
import MethodLift.Proofs.Pass.Schedule

/-!
# Rounds of analyses

What one run of an analysis does to a method, said once by `Context.Advances`: the method gets no
heavier, it gets lighter when a change is reported, and types that are known stay. The relation is
kept by rounds, so a schedule of analyses has at most as many changing rounds as the method weighs.
-/

namespace MethodLift

open Expr

/-! ## Types of variables -/

namespace Variables

variable {t : Variables} {id : VarId} {type : TypeRef}

theorem isUntyped_iff : t.isUntyped id = true ↔ ∃ v, t.entries[id]? = some v ∧ v.type = none := by
  unfold isUntyped get?
  cases t.entries[id]? <;> simp

/-- A known type stays when another one is offered. -/
theorem type?_refine {other : VarId} {known : TypeRef} (h : t.type? other = some known) :
    (t.refine id type).type? other = some known := by
  unfold refine
  split
  · rename_i hu
    obtain ⟨v, hv, hnone⟩ := isUntyped_iff.mp hu
    have hne : id ≠ other := by
      rintro rfl
      simp [type?, get?, hv, hnone] at h
    simpa [type?, get?, modify, List.getElem?_modify, hne] using h
  · exact h

/-- A type that is taken makes one variable less that has none. -/
theorem untyped_refine : (t.refine id type).untyped + (t.isUntyped id).toNat = t.untyped := by
  unfold refine
  split
  · rename_i hu
    obtain ⟨v, hv, hnone⟩ := isUntyped_iff.mp hu
    rw [hu]
    unfold untyped modify
    clear hu
    generalize t.entries = entries at hv ⊢
    induction entries generalizing id with
    | nil => cases hv
    | cons w rest ih =>
      cases id with
      | zero =>
        cases hv
        simp [hnone]
      | succ id =>
        rw [List.modify_succ_cons, List.countP_cons, List.countP_cons, ← ih hv]
        exact Nat.add_right_comm _ _ _
  · rename_i hu
    simp [Bool.eq_false_iff.mpr hu]

end Variables

namespace FieldRecovery

variable {vars : Variables}

theorem type?_applyTypes {id : VarId} {type : TypeRef} (found : List (VarId × TypeRef))
    (h : vars.type? id = some type) : (applyTypes vars found).1.type? id = some type := by
  induction found generalizing vars with
  | nil => exact h
  | cons p rest ih => exact ih (Variables.type?_refine h)

/-- Every event stands for a variable that got a type. -/
theorem untyped_applyTypes (found : List (VarId × TypeRef)) :
    (applyTypes vars found).1.untyped + (applyTypes vars found).2.length = vars.untyped := by
  induction found generalizing vars with
  | nil => rfl
  | cons p rest ih =>
    have hrest := @ih (vars.refine p.1 p.2)
    have hrefine : (vars.refine p.1 p.2).untyped + (vars.isUntyped p.1).toNat = vars.untyped :=
      Variables.untyped_refine
    simp only [applyTypes]
    split
    · rename_i hu
      rw [hu] at hrefine
      rw [List.length_cons, ← hrefine, ← hrest]
      rfl
    · rename_i hu
      rw [Bool.eq_false_iff.mpr hu] at hrefine
      exact hrest.trans hrefine

/-- Giving a type to a variable counts as a transformation. -/
theorem isTransformation_applyTypes (found : List (VarId × TypeRef)) :
    ∀ e ∈ (applyTypes vars found).2, e.kind.isTransformation = true := by
  induction found generalizing vars with
  | nil => simp [applyTypes]
  | cons p rest ih =>
    simp only [applyTypes]
    split
    · exact List.forall_mem_cons.mpr ⟨rfl, ih⟩
    · exact ih

/-- The types that the live statements of a graph give to variables. -/
def found (vars : Variables) (g : Graph) : List (VarId × TypeRef) :=
  g.blocks.flatMap fun b => b.live.filterMap fun s => inferred? vars s.expr

end FieldRecovery

/-! ## What a run does -/

/-- The events that analyses and their schedules record. -/
def Event.IsRoutine (e : Event) : Prop := e.kind.isTransformation = true ∨ e.kind = .passCompleted

/-- A context became another one by analysing it: it weighs no more, and less when a change is
reported; known types stay; and only routine events were recorded. -/
structure Context.Advances (ctx : Context) (changed : Bool) (ctx' : Context) : Prop where
  options : ctx'.options = ctx.options
  weight : ctx'.weight + changed.toNat ≤ ctx.weight
  types : ∀ id type, ctx.vars.type? id = some type → ctx'.vars.type? id = some type
  events : ∃ es, ctx'.journal.events = ctx.journal.events ++ es ∧ ∀ e ∈ es, e.IsRoutine

namespace Context.Advances

variable {ctx ctx' ctx'' : Context} {first others : Bool}

theorem refl (ctx : Context) : ctx.Advances false ctx where
  options := rfl
  weight := Nat.le_refl _
  types _ _ h := h
  events := ⟨[], by simp, by simp⟩

/-- Advances in sequence: the first or the second one changed something. -/
theorem trans (h : ctx.Advances first ctx') (h' : ctx'.Advances others ctx'') :
    ctx.Advances (first || others) ctx'' where
  options := h'.options.trans h.options
  weight := by
    have := Schedule.toNat_or_le first others
    have := h.weight
    have := h'.weight
    omega
  types id type hid := h'.types id type (h.types id type hid)
  events := by
    obtain ⟨es, hes, hroutine⟩ := h.events
    obtain ⟨es', hes', hroutine'⟩ := h'.events
    refine ⟨es ++ es', by rw [hes', hes, List.append_assoc], ?_⟩
    exact List.forall_mem_append.mpr ⟨hroutine, hroutine'⟩

/-- A routine event may be recorded, with anything said in the log. -/
theorem record (h : ctx.Advances first ctx') {e : Event} (he : e.IsRoutine) (level : LogLevel)
    (message : String) : ctx.Advances first ((ctx'.say level message).record e) where
  options := h.options
  weight := h.weight
  types := h.types
  events := by
    obtain ⟨es, hes, hroutine⟩ := h.events
    refine ⟨es ++ [e], ?_, List.forall_mem_append.mpr ⟨hroutine, by simpa using he⟩⟩
    rw [← List.append_assoc, ← hes]
    rfl

/-- Routine events are no notice of a schedule that did not settle. -/
theorem count_iterationLimit (h : ctx.Advances first ctx') :
    ctx'.journal.events.count .iterationLimit = ctx.journal.events.count .iterationLimit := by
  obtain ⟨es, hes, hroutine⟩ := h.events
  have hnone : es.ofKind .iterationLimit = [] := by
    refine List.filter_eq_nil_iff.mpr fun e he => ?_
    rcases hroutine e he with h | h
    · cases hkind : e.kind <;> simp_all [EventKind.isTransformation]
    · simp [h]
  unfold Events.count Events.ofKind at *
  rw [hes, List.filter_append, hnone, List.append_nil]

end Context.Advances

namespace Context

/-- A sweep whose steps make statements lighter advances the method. -/
theorem advances_refineLive {f : Block → Statement → Refine Expr}
    (hf : ∀ b s, Lightens s.expr.weight (f b s) Expr.weight) (ctx : Context) :
    ctx.Advances (ctx.refineLive f).2 (ctx.refineLive f).1 := by
  obtain ⟨hgenuine, hle⟩ := Lightens.mapLiveM hf ctx.graph {} (by simp [Progress.Genuine])
  exact {
    options := rfl
    weight := Nat.le_trans (Nat.le_of_eq (Nat.add_right_comm _ _ _)) (Nat.add_le_add_right hle _)
    types := fun _ _ h => h
    events := ⟨_, rfl, fun e he => .inl (hgenuine e he)⟩ }

open FieldRecovery in
/-- Propagation finds all types first and gives them afterwards. -/
theorem propagateTypes_eq (ctx : Context) :
    ctx.propagateTypes =
      ({ ctx with
          vars := (applyTypes ctx.vars (found ctx.vars ctx.graph)).1
          journal := ctx.journal.recordAll (applyTypes ctx.vars (found ctx.vars ctx.graph)).2 },
        !(applyTypes ctx.vars (found ctx.vars ctx.graph)).2.isEmpty) := rfl

open FieldRecovery in
/-- A type that is given leaves one untyped variable less. -/
theorem advances_propagateTypes (ctx : Context) :
    ctx.Advances ctx.propagateTypes.2 ctx.propagateTypes.1 := by
  rw [propagateTypes_eq]
  exact {
    options := rfl
    weight := by
      have huntyped := @untyped_applyTypes ctx.vars (found ctx.vars ctx.graph)
      have hevents : ∀ events : Events, (!events.isEmpty).toNat ≤ events.length := by
        intro events
        cases events <;> simp
      have := hevents (applyTypes ctx.vars (found ctx.vars ctx.graph)).2
      dsimp only [Context.weight]
      omega
    types := fun _ _ h => type?_applyTypes _ h
    events := ⟨_, rfl, fun e he => .inl (isTransformation_applyTypes _ e he)⟩ }

theorem advances_recoverData (ctx : Context) :
    ctx.Advances ctx.recoverData.2 ctx.recoverData.1 :=
  (ctx.advances_refineLive fun _ _ => .bottomUpM FieldRecovery.lightens_node _).trans
    (advances_propagateTypes _)

theorem advances_inlineUsages (ctx : Context) :
    ctx.Advances ctx.inlineUsages.2 ctx.inlineUsages.1 :=
  ctx.advances_refineLive fun _ _ => .bottomUpLoadsM UsageInlining.lightens_node _

theorem advances_inlineLiterals (ctx : Context) :
    ctx.Advances ctx.inlineLiterals.2 ctx.inlineLiterals.1 :=
  ctx.advances_refineLive fun _ _ => .bottomUpLoadsM LiteralInlining.lightens_node _

theorem advances_foldConstants (ctx : Context) :
    ctx.Advances ctx.foldConstants.2 ctx.foldConstants.1 :=
  ctx.advances_refineLive fun _ _ => .bottomUpM Folding.lightens_node _

end Context

/-- Every run of the pass succeeds and advances the method. -/
def Pass.Advancing (p : Pass) : Prop := ∀ n ctx, Runs (p.run n) ctx ctx.Advances

/-- All analyses advance the method. -/
theorem Lifter.advancing_of_mem_analyses {p : Pass} (hp : p ∈ analyses) : p.Advancing := by
  intro n ctx
  simp only [analyses, List.mem_cons, List.not_mem_nil, or_false] at hp
  rcases hp with rfl | rfl | rfl | rfl
  · exact ⟨_, _, rfl, ctx.advances_recoverData⟩
  · exact ⟨_, _, rfl, ctx.advances_inlineUsages⟩
  · exact ⟨_, _, rfl, ctx.advances_inlineLiterals⟩
  · exact ⟨_, _, rfl, ctx.advances_foldConstants⟩

/-! ## Rounds -/

namespace Schedule

variable {ps : List Pass}

/-- What passes report is what they did to the weight. -/
theorem reports_advances : Reports Context.Advances where
  refl := .refl
  trans h h' := h.trans h'
  record h _ he level message := h.record (.inr he) level message

/-- A schedule with at most `limit` rounds had `rounds` changing ones. Each of them made the method
lighter, and when there were less than allowed, the last round changed nothing. -/
structure Settled (ps : List Pass) (limit : Nat) (ctx : Context) (rounds : Nat) (ctx' : Context) :
    Prop where
  options : ctx'.options = ctx.options
  weight : ctx'.weight + rounds ≤ ctx.weight
  types : ∀ id type, ctx.vars.type? id = some type → ctx'.vars.type? id = some type
  rounds_le : rounds ≤ limit
  quiet : rounds < limit → Quiet ps ctx' ∧
    ctx'.journal.events.count .iterationLimit = ctx.journal.events.count .iterationLimit

/-- A changing round before a schedule makes one more. -/
theorem Settled.step {limit rounds : Nat} {ctx ctx' ctx'' : Context} (h : ctx.Advances true ctx')
    (h' : Settled ps limit ctx' rounds ctx'') : Settled ps (limit + 1) ctx (rounds + 1) ctx'' where
  options := h'.options.trans h.options
  weight := by
    have hround : ctx'.weight + 1 ≤ ctx.weight := h.weight
    have := h'.weight
    omega
  types id type hid := h'.types id type (h.types id type hid)
  rounds_le := Nat.succ_le_succ h'.rounds_le
  quiet hlt := by
    obtain ⟨hquiet, hcount⟩ := h'.quiet (Nat.lt_of_succ_lt_succ hlt)
    exact ⟨hquiet, hcount.trans h.count_iterationLimit⟩

/-- A schedule that settles is bounded by the weight: every round that changed something made the
method lighter. -/
theorem Settles.settled {limit rounds : Nat} {ctx ctx' : Context}
    (h : Settles Context.Advances ps limit ctx rounds ctx') : Settled ps limit ctx rounds ctx' := by
  induction h with
  | limit ctx journal =>
    exact ⟨rfl, Nat.le_refl _, fun _ _ h => h, Nat.le_refl 0, fun h => absurd h (Nat.lt_irrefl 0)⟩
  | quiet hround hquiet =>
    exact ⟨hround.options, hround.weight, hround.types, Nat.zero_le _,
      fun _ => ⟨hquiet, hround.count_iterationLimit⟩⟩
  | change hround _ ih => exact .step hround ih

/-- A schedule of passes that advance a method settles, or stops at its limit. -/
theorem settled_settle (hps : ∀ p ∈ ps, p.Advancing) (limit : Nat) (ctx : Context) :
    Runs (settle ps limit) ctx (Settled ps limit ctx) :=
  (reports_advances.settle hps limit ctx).mono fun _ _ h => h.settled

end Schedule

end MethodLift
