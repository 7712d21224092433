import MethodLift.Proofs.Analyses.FixedPoint
import MethodLift.Proofs.Analyses.Folding
import MethodLift.Proofs.Inlining.Accounting
import MethodLift.Proofs.Inlining.Counting
import MethodLift.Proofs.Inlining.Discipline

/-!
# Inlining and folding converge

Inlining brings numbers together that can then be folded, and folding makes numbers that can then be
inlined. Both take something away: a round of inlining that reports a change has eliminated an
assignment and leaves all operations, and one of folding has replaced an operation and leaves all
assignments. So there are at most as many changing rounds as there are assignments and operations.
When a round reports nothing, no variable is left that could be replaced, since uses are counted
exactly, and no operation that could be folded.
-/

namespace MethodLift

open Expr

/-! ## Assignments and operations -/

namespace Expr

def computes : Expr → Bool
  | .arith _ _ _ | .complement _ => true
  | _ => false

def operations (e : Expr) : Nat := e.nodes.countP computes

/-- What inlining and folding may take away from a statement: the assignment to a variable, and
operations. -/
def effort (e : Expr) : Nat := e.assigned?.toList.length + e.operations

theorem computes_withParts (e : Expr) (ps : List Expr) :
    (e.withParts ps).computes = e.computes := by
  unfold withParts
  split <;> rfl

/-- The operations in an expression are itself, if it is one, and those of its parts. -/
theorem operations_eq (e : Expr) :
    e.operations = e.computes.toNat + (e.parts.map operations).sum :=
  countP_nodes computes e

/-- Above the leaves, relabelling keeps everything. -/
theorem relabel_eq_withParts (φ : Leaf → Leaf) {e : Expr} (h : e.leaf? = none) :
    e.relabel φ = e.withParts (e.parts.map (relabel φ)) := by
  rw [relabel, bottomUp_eq]
  cases e with
  | leaf l => cases h
  | _ => rfl

/-- Relabelling neither makes nor removes operations. -/
theorem operations_relabel (φ : Leaf → Leaf) (e : Expr) :
    (e.relabel φ).operations = e.operations := by
  induction e using byAllParts with
  | h e ih =>
    cases hleaf : e.leaf? with
    | some l =>
      cases e with
      | leaf l => rfl
      | _ => cases hleaf
    | none =>
      rw [relabel_eq_withParts φ hleaf, operations_eq, computes_withParts,
        parts_withParts (List.length_map _), operations_eq e, List.map_map]
      exact congrArg (_ + List.sum ·) (List.map_congr_left ih)

/-- A relabelling that makes no variables makes no assignments to them. -/
theorem effort_relabel_le {φ : Leaf → Leaf} (hφ : ∀ l v, φ l = .var v → ∃ w, l = .var w)
    (e : Expr) : (e.relabel φ).effort ≤ e.effort := by
  refine Nat.add_le_add ?_ (Nat.le_of_eq (operations_relabel φ e))
  cases h : (e.relabel φ).assigned? with
  | none => exact Nat.zero_le _
  | some v =>
    obtain ⟨l, value, rfl, hl⟩ := assigned?_relabel h
    obtain ⟨w, rfl⟩ := hφ l v hl
    exact Nat.le_refl 1

end Expr

namespace Graph

/-- The total of a graph is a sum over its live statements, in whatever blocks they stand. -/
theorem total_eq (μ : Expr → Nat) (g : Graph) : g.total μ = (g.liveCode.map μ).sum := by
  unfold total liveCode
  induction g.blocks with
  | nil => rfl
  | cons b rest ih =>
    rw [List.map_cons, List.sum_cons, List.flatMap_cons, List.map_append, List.sum_append, ih,
      Block.code, List.map_map]
    rfl

theorem liveCode_eq (g : Graph) :
    g.liveCode = (g.statements.filter fun s => !s.eliminated).map (·.expr) := by
  rw [liveCode, statements, List.filter_flatMap, List.map_flatMap]
  rfl

/-- Effort counts the assignments to variables and the operations that are left. -/
theorem total_effort (g : Graph) : g.total effort =
    (assignedIn g.liveCode).length + (g.liveCode.map operations).sum := by
  rw [total_eq]
  induction g.liveCode with
  | nil => rfl
  | cons e rest ih =>
    rw [List.map_cons, List.sum_cons, ih, assignedIn_cons, List.length_append, List.map_cons,
      List.sum_cons, effort]
    omega

end Graph

/-! ## Folding takes operations away -/

namespace Folding

variable (block : BlockId)

/-- What can be folded holds an operation. -/
theorem operations_pos {e : Expr} {v : Int64} (h : fold? e = some v) : 0 < e.operations := by
  refine List.countP_pos_iff.mpr ⟨e, e.self_mem_nodes, ?_⟩
  unfold fold? at h
  split at h
  · rfl
  · rfl
  · cases h

/-- Folding takes an operation away whenever it reports a change. -/
theorem lightens_operations (e : Expr) :
    Lightens e.operations (node block e) operations := by
  unfold node
  split
  · rename_i v hv
    exact .note rfl (operations_pos hv)
  · exact .pure (Nat.le_refl _)

/-- Folding keeps the variable that a statement assigns to. -/
theorem lightens_effort (e : Expr) :
    Lightens e.effort (e.bottomUpM (node block)) effort := by
  have hoperations := (Lightens.bottomUpM_countP computes_withParts
    (lightens_operations block) e).frame e.assigned?.toList.length
  refine (hoperations.of_le (Nat.le_of_eq (Nat.add_comm _ _))).of_yields ?_
  refine (frugal_node.bottomUpM e).mono fun e' he' => Nat.le_of_eq ?_
  rw [effort, he'.assigned?_eq, Nat.add_comm]
  rfl

end Folding

theorem Context.effort_foldConstants (ctx : Context) :
    ctx.foldConstants.1.graph.total effort + ctx.foldConstants.2.toNat ≤
      ctx.graph.total effort :=
  (Lightens.mapLiveM (fun b s => Folding.lightens_effort b.id s.expr) ctx.graph {}
    (List.forall_mem_nil _)).2

/-! ## Inlining takes assignments away -/

namespace VariableInlining

/-- A statement and what inlining makes of it: it is eliminated when it assigns to a variable, or
variables are replaced in it. -/
inductive Inlined (r : Replacements) (s : Statement) : Statement → Prop
  | dead (h : s.eliminated = true) : Inlined r s s
  | struck {v : VarId} (h : s.eliminated = false) (assigns : s.expr.assigned? = some v) :
    Inlined r s { s with eliminated := true }
  | kept (h : s.eliminated = false) :
    Inlined r s { s with expr := s.expr.relabel (rename r) }

/-- Positions stay when statements are eliminated. -/
theorem getElem?_map_strike (f : Statement → Statement) (at? : Nat → Bool) (ss : List Statement)
    (p : Nat) : ((strike at? ss).map f)[p]? =
      ss[p]?.map fun s => f { s with eliminated := s.eliminated || at? p } := by
  rw [List.getElem?_map, getElem?_strike, Option.map_map]
  rfl

/-- Inlining rebuilds the graph statement by statement: each is eliminated, or has its variables
replaced. -/
theorem Taken.related {g : Graph} {D : List (BlockId × Nat)} {s : State} (h : Taken g D s)
    (hr : AllLeaves s.replacements) :
    g.Related (Inlined s.replacements) (replaceAll s.replacements s.graph) := by
  refine forall₂_of_getElem? (h.block?_replaceAll hr) fun i b hb => ⟨rfl, ?_⟩
  refine forall₂_of_getElem? (getElem?_map_strike _ _ _) fun p st hst => ?_
  show Inlined s.replacements st (if st.eliminated || D.contains (i, p)
    then { st with eliminated := st.eliminated || D.contains (i, p) }
    else Stmt.mk (st.expr.relabel (rename s.replacements)) (st.eliminated || D.contains (i, p))
      st.source)
  cases hlive : st.eliminated with
  | true =>
    rw [Bool.true_or, if_pos rfl, ← hlive]
    exact .dead hlive
  | false =>
    rw [Bool.false_or]
    split
    · rename_i hmem
      obtain ⟨v, e, ⟨b', st', hb', hst', -, hexpr⟩, -⟩ := h.place _ (List.contains_iff_mem.mp hmem)
      cases (hb : g.block? i = some b).symm.trans hb'
      cases hst.symm.trans hst'
      rw [hmem]
      exact .struck hlive (assigned?_eq_some.mpr ⟨e, hexpr⟩)
    · rename_i hmem
      rw [Bool.eq_false_iff.mpr hmem, ← hlive]
      exact .kept hlive

/-- What a statement adds to the total, with one for a statement that is eliminated. -/
def load (s : Statement) : Nat := if s.eliminated then 1 else s.expr.effort

/-- A statement counts no more after inlining: it is eliminated, or keeps its assignment and its
operations. -/
theorem Inlined.load_le {r : Replacements} {s s' : Statement} (h : Inlined r s s') :
    load s' ≤ load s := by
  cases h with
  | dead => exact Nat.le_refl _
  | @struck v hlive hassigns =>
    rw [load, load, hlive, effort, hassigns]
    exact Nat.le_add_right 1 _
  | kept hlive =>
    rw [load, load, hlive]
    exact effort_relabel_le (fun _ _ => rename_eq_var) s.expr

/-- Summed up, statements count the effort that is left and those that are gone. -/
theorem sum_load (g : Graph) :
    (g.statements.map load).sum = g.total effort + g.eliminated.length := by
  rw [Graph.total_eq, Graph.liveCode_eq, Graph.eliminated]
  induction g.statements with
  | nil => rfl
  | cons s rest ih =>
    rw [List.map_cons, List.sum_cons, ih, load]
    cases hs : s.eliminated with
    | true =>
      rw [List.filter_cons_of_neg (by simp [hs]), List.filter_cons_of_pos (by simp [hs]),
        List.length_cons, if_pos rfl]
      omega
    | false =>
      rw [List.filter_cons_of_pos (by simp [hs]), List.filter_cons_of_neg (by simp [hs]),
        List.map_cons, List.map_cons, List.sum_cons, if_neg Bool.false_ne_true, Nat.add_assoc]

/-- So eliminated statements are paid for with effort. -/
theorem sum_load_le {r : Replacements} {g g' : Graph} (h : g.Related (Inlined r) g') :
    (g'.statements.map load).sum ≤ (g.statements.map load).sum := by
  have hstatements : List.Forall₂ (Inlined r) g.statements g'.statements :=
    List.rel_flatMap h fun _ _ hb => hb.2
  generalize g.statements = ss, g'.statements = ss' at hstatements
  induction hstatements with
  | nil => exact Nat.le_refl 0
  | cons hs _ ih =>
    rw [List.map_cons, List.sum_cons, List.map_cons, List.sum_cons]
    exact Nat.add_le_add hs.load_le ih

end VariableInlining

open VariableInlining in
/-- Every event of a round of inlining stands for an assignment less. -/
theorem Context.effort_inlineVariables {ctx : Context} (hg : ctx.graph.Numbered) :
    ctx.inlineVariables.1.graph.total effort + ctx.inlineVariables.2.toNat ≤
      ctx.graph.total effort := by
  have h := eliminates_candidates (fun hb => hg hb) ctx.vars
  dsimp only [inlineVariables]
  generalize (candidates (countGraph ctx.graph)).foldl (take ctx.vars) { graph := ctx.graph } = s
    at h
  split
  · exact Nat.le_refl _
  · rename_i hevents
    obtain ⟨D, hD⟩ := h.taken
    have hr : AllLeaves s.replacements := fun entry hentry => isMovable_iff (h.movable entry hentry)
    have hle := sum_load_le (hD.related hr)
    have hcount : (replaceAll s.replacements s.graph).eliminated.length =
        ctx.graph.eliminated.length + s.events.length :=
      (intact_replaceAll h.movable s.graph).eliminated.length_eq.symm.trans h.count
    have hpos : 0 < s.events.length := List.length_pos_iff.mpr (by simpa using hevents)
    rw [sum_load, sum_load, hcount] at hle
    show (replaceAll s.replacements s.graph).total effort + 1 ≤ _
    omega

/-! ## Rounds -/

/-- A method became another one by inlining and folding. It was rebuilt in its places, there are no
more assignments and operations than before, and less when a change is reported. -/
structure Context.Shrinks (ctx : Context) (changed : Bool) (ctx' : Context) : Prop where
  options : ctx'.options = ctx.options
  refines : ctx.graph.Refines ctx'.graph
  effort : ctx.graph.Numbered →
    ctx'.graph.total effort + changed.toNat ≤ ctx.graph.total effort

/-- Passes in sequence: the effort goes down if one of them changed something. -/
theorem Context.Shrinks.trans {ctx ctx' ctx'' : Context} {first others : Bool}
    (h : ctx.Shrinks first ctx') (h' : ctx'.Shrinks others ctx'') :
    ctx.Shrinks (first || others) ctx'' where
  options := h'.options.trans h.options
  refines := h.refines.trans h'.refines
  effort hg := by
    have := Schedule.toNat_or_le first others
    have := h.effort hg
    have := h'.effort (h.refines.numbered hg)
    omega

/-- Both passes of the inlining schedule take effort away whenever they report a change. -/
theorem Lifter.shrinks_of_mem_inlining {p : Pass} (hp : p ∈ inlining) (n : Nat) (ctx : Context) :
    Runs (p.run n) ctx ctx.Shrinks := by
  simp only [inlining, List.mem_cons, List.not_mem_nil, or_false] at hp
  rcases hp with rfl | rfl
  · exact ⟨_, _, rfl, ctx.options_inlineVariables, ctx.refines_inlineVariables,
      Context.effort_inlineVariables⟩
  · exact ⟨_, _, rfl, rfl, ctx.refines_foldConstants, fun _ => ctx.effort_foldConstants⟩

namespace Schedule

/-- What the passes report is what they did to the effort. -/
theorem reports_shrinks : Reports Context.Shrinks where
  refl _ := ⟨rfl, .refl _, fun _ => Nat.le_refl _⟩
  trans h h' := h.trans h'
  record h _ _ _ _ := ⟨h.options, h.refines, h.effort⟩

/-- Each changing round took an assignment or an operation away. -/
theorem Settles.shrinks {ps : List Pass} {limit rounds : Nat} {ctx ctx' : Context}
    (h : Settles Context.Shrinks ps limit ctx rounds ctx') :
    ctx'.options = ctx.options ∧ ctx.graph.Refines ctx'.graph ∧ (ctx.graph.Numbered →
      ctx'.graph.total effort + rounds ≤ ctx.graph.total effort) := by
  induction h with
  | limit ctx journal => exact ⟨rfl, .refl _, fun _ => Nat.le_refl _⟩
  | quiet hround => exact ⟨hround.options, hround.refines, hround.effort⟩
  | change hround _ ih =>
    obtain ⟨hoptions, hrefines, heffort⟩ := ih
    refine ⟨hoptions.trans hround.options, hround.refines.trans hrefines, fun hg => ?_⟩
    have hless := hround.effort hg
    have := heffort (hround.refines.numbered hg)
    rw [Bool.toNat_true] at hless
    omega

end Schedule

/-! ## What is left -/

/-- The values that a variable may be replaced by: variables, numbers, literals, slots and
labels. -/
inductive Expr.Simple : Expr → Prop
  | var (id : VarId) : Simple (.leaf (.var id))
  | immediate (value : Int64) : Simple (.leaf (.immediate value))
  | literal (text : String) : Simple (.leaf (.literal text))
  | usage (u : Usage) : Simple (.leaf (.usage u))
  | label (index : Nat) : Simple (.leaf (.label index))

/-- One live statement assigns to a variable, it assigns a simple value, and the variable occurs in
live statements once besides. -/
def Graph.Propagates (g : Graph) (v : VarId) : Prop :=
  ∃ value, g.liveCode.filter (fun e => e.assigned? == some v) = [.assign (.var v) value] ∧
    value.Simple ∧ (g.liveCode.flatMap leaves).count (.var v) = 2

namespace Expr

/-- The leaves of a statement are those that it reads and the variable that it assigns to. -/
theorem leaves_eq_used (e : Expr) : e.leaves = e.used ++ e.assigned?.toList.map .var := by
  cases h : e.assigned? with
  | none => rw [used_of_assigned? h, Option.toList_none, List.map_nil, List.append_nil]
  | some v =>
    obtain ⟨value, rfl⟩ := assigned?_eq_some.mp h
    exact leaves_assign

/-- A variable occurs where it is used and where it is assigned to. -/
theorem count_flatMap_leaves (v : VarId) (es : List Expr) :
    (es.flatMap leaves).count (.var v) =
      (es.flatMap used).count (.var v) + (assignedIn es).count v := by
  induction es with
  | nil => rfl
  | cons e rest ih =>
    have hvar : (e.assigned?.toList.map Leaf.var).count (.var v) = e.assigned?.toList.count v :=
      List.count_map_of_injective _ Leaf.var (fun _ _ => Leaf.var.inj) v
    rw [List.flatMap_cons, List.count_append, ih, leaves_eq_used, List.count_append, hvar,
      List.flatMap_cons, List.count_append, assignedIn_cons, List.count_append]
    omega

end Expr

namespace VariableInlining

theorem isMovable_of_simple {e : Expr} (h : e.Simple) : isMovable e = true := by
  cases h <;> rfl

/-! ### Rounds without a change -/

/-- Taking candidates only adds events. -/
theorem length_events_le (vars : Variables) (cs : List (VarId × BlockId × Nat)) (s : State) :
    s.events.length ≤ (cs.foldl (take vars) s).events.length := by
  induction cs generalizing s with
  | nil => exact Nat.le_refl _
  | cons c rest ih =>
    refine Nat.le_trans ?_ (ih (take vars s c))
    unfold take
    split
    · exact Nat.le_refl _
    · rw [List.length_append]
      exact Nat.le_add_right _ _

/-- Where no event is recorded, no candidate could be taken. -/
theorem movable?_of_silent {vars : Variables} {cs : List (VarId × BlockId × Nat)} {s : State}
    (h : (cs.foldl (take vars) s).events = []) :
    ∀ c ∈ cs, movable? s.graph c.2.1 c.2.2 = none := by
  induction cs with
  | nil => exact List.forall_mem_nil _
  | cons c rest ih =>
    rw [List.foldl_cons] at h
    cases hc : movable? s.graph c.2.1 c.2.2 with
    | none =>
      rw [take, hc] at h
      exact List.forall_mem_cons.mpr ⟨hc, ih h⟩
    | some value =>
      have hlength := length_events_le vars rest (take vars s c)
      rw [h, take, hc, List.length_append] at hlength
      cases hlength

theorem movable?_of_definedAt {g : Graph} {d : BlockId × Nat} {v : VarId} {value : Expr}
    (h : DefinedAt g d v value) (hm : isMovable value = true) :
    movable? g d.1 d.2 = some value := by
  obtain ⟨b, ⟨expr, eliminated, source⟩, hb, hs, -, rfl⟩ := h
  rw [movable?, hb, Option.bind_some, hs]
  exact if_pos hm

theorem mem_candidates {uses : Uses} {v : VarId} {u : Use} {d : BlockId × Nat}
    (hu : uses.get? v = some u) (hsingle : u.isSingle = true) (hd : u.definition = some d) :
    (v, d) ∈ candidates uses := by
  refine List.mem_mergeSort.mpr (List.mem_filterMap.mpr ⟨(v, u), Table.mem_of_get? hu, ?_⟩)
  dsimp only
  rw [if_pos hsingle, hd]
  rfl

/-! ### Variables that could be replaced -/

theorem DefinedAt.mem_liveCode {g : Graph} {d : BlockId × Nat} {v : VarId} {value : Expr}
    (h : DefinedAt g d v value) : .assign (.var v) value ∈ g.liveCode := by
  obtain ⟨b, s, hb, hs, hlive, hexpr⟩ := h
  rw [← hexpr, Graph.liveCode]
  refine List.mem_flatMap.mpr ⟨b, Graph.mem_blocks_of_block? hb, List.mem_map_of_mem ?_⟩
  exact List.mem_filter.mpr ⟨List.mem_of_getElem? hs, by rw [hlive]; rfl⟩

/-- A variable that propagates is a candidate, and its value can be moved. -/
theorem exists_candidate {g : Graph} (hg : g.Numbered) {v : VarId} (h : g.Propagates v) :
    ∃ c ∈ candidates (countGraph g), (movable? g c.2.1 c.2.2).isSome = true := by
  obtain ⟨value, hdefinition, hsimple, hoccurs⟩ := h
  have hwrites : (assignedIn g.liveCode).count v = 1 := by
    rw [assignedIn, List.count_filterMap, List.countP_eq_length_filter, hdefinition]
    rfl
  rw [count_flatMap_leaves, hwrites] at hoccurs
  have hsingle := (isSingle_countGraph v g).mpr ⟨hwrites, Nat.succ.inj hoccurs⟩
  have hsome := (tells_countGraph v g).definition
    (.inr (List.count_pos_iff.mp (hwrites ▸ Nat.one_pos)))
  cases hu : (countGraph g).get? v with
  | none =>
    rw [useOf, hu] at hsome
    cases hsome
  | some u =>
    rw [useOf, hu, Option.getD_some] at hsingle hsome
    obtain ⟨d, hd⟩ := Option.isSome_iff_exists.mp hsome
    obtain ⟨value', hat⟩ := located_countGraph (fun hb => hg hb) (v, u) (Table.mem_of_get? hu) d hd
    -- counting finds the definition that there is
    have hmem : .assign (.var v) value' ∈ g.liveCode.filter fun e => e.assigned? == some v :=
      List.mem_filter.mpr ⟨hat.mem_liveCode, by simp [assigned?]⟩
    rw [hdefinition] at hmem
    cases List.mem_singleton.mp hmem
    refine ⟨(v, d), mem_candidates hu hsingle hd, ?_⟩
    rw [movable?_of_definedAt hat (isMovable_of_simple hsimple)]
    rfl

end VariableInlining

namespace Context

open VariableInlining

variable {ctx ctx' : Context}

/-- A run that reports nothing took no candidate and left the method as it was. -/
theorem silent_of_inlineVariables (h : ctx.inlineVariables = (ctx', false)) : ctx' = ctx ∧
    ((candidates (countGraph ctx.graph)).foldl (take ctx.vars)
      { graph := ctx.graph }).events = [] := by
  dsimp only [inlineVariables] at h
  split at h
  · rename_i hevents
    cases h
    exact ⟨rfl, List.isEmpty_iff.mp hevents⟩
  · cases h

/-- A silent round of inlining leaves no variable that it could have replaced. -/
theorem not_propagates_of_silent (hg : ctx.graph.Numbered)
    (h : ctx.inlineVariables = (ctx', false)) (v : VarId) : ¬ctx.graph.Propagates v := by
  intro hv
  obtain ⟨c, hc, hsome⟩ := exists_candidate hg hv
  rw [movable?_of_silent (silent_of_inlineVariables h).2 c hc] at hsome
  cases hsome

/-- A silent run of folding leaves nothing that could be folded. -/
theorem reduced_of_silent (h : ctx.foldConstants = (ctx, false)) :
    ∀ e ∈ ctx.graph.liveCode, e.Reduced := by
  intro e he
  obtain ⟨b, hb, he⟩ := List.mem_flatMap.mp he
  obtain ⟨s, hs, rfl⟩ := List.mem_map.mp he
  have hfolds := ctx.folds_foldConstants
  rw [h] at hfolds
  exact hfolds.reduced hb hs

end Context

namespace Lifter

open Schedule

/-- After a quiet round neither inlining nor folding has anything left to do. -/
theorem silent_of_quiet {ctx : Context} (h : Quiet inlining ctx)
    (hinline : ctx.options.enabled .inlining = true)
    (hfold : ctx.options.enabled .foldConstants = true) :
    ctx.inlineVariables = (ctx, false) ∧ ctx.foldConstants = (ctx, false) := by
  obtain ⟨round, before, h⟩ := h
  obtain ⟨c, hinlining, h⟩ := exists_of_runRound h
  obtain ⟨c', hfolding, h⟩ := exists_of_runRound h
  cases h
  obtain ⟨rfl, hinlining⟩ :=
    eq_of_runPass (fun _ _ h => (Context.silent_of_inlineVariables h).1) hinlining
  obtain ⟨rfl, hfolding⟩ := eq_of_runPass (fun _ _ => Context.eq_of_foldConstants) hfolding
  exact ⟨hinlining hinline, hfolding hfold⟩

/-- Inlining and folding converge, and they propagate fully. In every method whose blocks know their
positions, as they do after promotion, there are at most as many changing rounds as there are live
assignments to variables and operations in live statements. When there were less rounds than
allowed, no variable is left that has one live definition with a simple value and occurs once
besides, and no operation on numbers is left that has a result. -/
theorem converges_inlining (limit : Nat) (ctx : Context) (hg : ctx.graph.Numbered)
    (hinline : ctx.options.enabled .inlining = true)
    (hfold : ctx.options.enabled .foldConstants = true) :
    ∃ rounds ctx', (settle inlining limit).run.run ctx = (.ok rounds, ctx') ∧
      rounds ≤ (assignedIn ctx.graph.liveCode).length +
        (ctx.graph.liveCode.map operations).sum ∧
      rounds ≤ limit ∧
      (rounds < limit → (∀ v, ¬ctx'.graph.Propagates v) ∧
        ∀ e ∈ ctx'.graph.liveCode, e.Reduced) := by
  obtain ⟨rounds, ctx', hrun, h⟩ :=
    reports_shrinks.settle (fun _ hp => shrinks_of_mem_inlining hp) limit ctx
  obtain ⟨hoptions, hrefines, heffort⟩ := h.shrinks
  have hrounds : rounds ≤ ctx.graph.total effort :=
    Nat.le_trans (Nat.le_add_left _ _) (heffort hg)
  rw [Graph.total_effort] at hrounds
  refine ⟨rounds, ctx', hrun, hrounds, h.rounds_le, fun hlt => ?_⟩
  rw [← hoptions] at hinline hfold
  obtain ⟨hinlining, hfolding⟩ := silent_of_quiet (h.quiet_of_lt hlt) hinline hfold
  exact ⟨Context.not_propagates_of_silent (hrefines.numbered hg) hinlining,
    Context.reduced_of_silent hfolding⟩

end Lifter

/-! ## A sum that is folded between two rounds of inlining -/

namespace VariableInlining

/-- Code that returns the sum of two numbers. -/
def addition : List Instruction :=
  [⟨0, .move, [.register "eax", .immediate 2], .next⟩,
    ⟨1, .add, [.register "eax", .immediate 3], .next⟩, ⟨2, .ret, [.register "eax"], .ret⟩]

def additionScope : Scope :=
  ⟨{ isa := .x64 }, { id := 0, name := "addition", declaringName := "Sample" }⟩

def additionGraph : Graph := (Graph.ofPartition addition [⟨0, 3⟩]).toOption.getD {}

def additionContext : Context where
  image := additionScope.image
  method := additionScope.method
  graph := ((additionScope.fill addition additionGraph).run.run {}).1.toOption.getD {}

end VariableInlining

open Schedule VariableInlining in
/-- Two numbers are inlined and added, and the sum is inlined into the return. -/
theorem Lifter.converges_inlining_addition :
    ∃ rounds ctx', (settle inlining 8).run.run additionContext.promote.1 = (.ok rounds, ctx') ∧
      rounds ≤ 3 ∧ (∀ v, ¬ctx'.graph.Propagates v) ∧ ∀ e ∈ ctx'.graph.liveCode, e.Reduced := by
  have hcut : Graph.ofPartition addition [⟨0, 3⟩] = .ok additionGraph := rfl
  have hfill := eq_ok_of_isSome (x := (additionScope.fill addition additionGraph).run.run {})
    (by decide +kernel) {}
  have hwired := (Graph.ofPartition_laid hcut).wired.fill (additionScope.filled_fill hfill)
  have hg : additionContext.promote.1.graph.Numbered :=
    additionContext.refines_promote.numbered hwired.numbered
  have hbound : (assignedIn additionContext.promote.1.graph.liveCode).length +
      (additionContext.promote.1.graph.liveCode.map operations).sum = 3 := by
    decide +kernel
  obtain ⟨rounds, ctx', hrun, hrounds, -, hleft⟩ := converges_inlining 8 _ hg rfl rfl
  rw [hbound] at hrounds
  exact ⟨rounds, ctx', hrun, hrounds, hleft (Nat.lt_of_le_of_lt hrounds (by decide))⟩

end MethodLift
