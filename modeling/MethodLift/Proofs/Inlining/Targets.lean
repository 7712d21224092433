import MethodLift.Proofs.Block.Layout
import MethodLift.Proofs.Inlining.Discipline
import MethodLift.Proofs.Promotion.Scoping

/-!
# What inlining does to written places

A statement writes a variable or a lane of one. Statements stay in their places while inlining
eliminates definitions and replaces variables. A variable that is assigned to as a whole is still
assigned to, since the only assignment to a variable that is replaced is its definition, which is
eliminated as it stands. A lane is a part like any other: where the vector is replaced, it is
replaced in the written place too.
-/

namespace MethodLift

/-! ## Written places -/

/-- The variable that a statement writes, with the lane where it writes only one. -/
def Expr.written? : Expr → Option (VarId × Option Nat)
  | .assign (.leaf (.var v)) _ => some (v, none)
  | .assign (.lane (.leaf (.var v)) k) _ => some (v, some k)
  | _ => none

namespace Expr

theorem written?_whole {e : Expr} {v : VarId} :
    e.written? = some (v, none) ↔ e.assigned? = some v := by
  unfold written? assigned?
  split <;> simp_all

/-- A lane is written through the vector that it is a part of. -/
theorem written?_lane {e : Expr} {v : VarId} {k : Nat} :
    e.written? = some (v, some k) ↔ ∃ value, e = .assign (.lane (.var v) k) value := by
  constructor
  · intro h
    unfold written? at h
    split at h
    · cases h
    · cases h
      exact ⟨_, rfl⟩
    · cases h
  · rintro ⟨value, rfl⟩
    rfl

end Expr

namespace Graph

def statement? (g : Graph) (i : BlockId) (p : Nat) : Option Statement :=
  (g.block? i).bind fun b => b.statements[p]?

/-- The definition of a variable is live in one graph and eliminated in the other. -/
def Inlined (g g' : Graph) (v : VarId) : Prop :=
  ∃ i p s s', g.statement? i p = some s ∧ s.eliminated = false ∧ s.expr.assigned? = some v ∧
    g'.statement? i p = some s' ∧ s'.eliminated = true

end Graph

namespace VariableInlining

variable {r : Replacements} {g : Graph} {v : VarId}

/-- What inlining makes of a statement. -/
def inlineStatement (r : Replacements) (s : Statement) : Statement :=
  if s.eliminated || !kept r s.expr then { s with eliminated := true }
  else { s with expr := s.expr.relabel (rename r) }

theorem inlineStatement_of_kept {s : Statement} (hlive : s.eliminated = false)
    (hkept : kept r s.expr = true) :
    inlineStatement r s = { s with expr := s.expr.relabel (rename r) } := by
  simp [inlineStatement, hlive, hkept]

theorem inlineStatement_of_dropped {s : Statement} (hkept : kept r s.expr = false) :
    inlineStatement r s = { s with eliminated := true } := by
  simp [inlineStatement, hkept]

/-- Nothing happens where nothing is replaced. -/
theorem inlineStatement_empty (s : Statement) : inlineStatement {} s = s := by
  have hkept : kept {} s.expr = true := by
    unfold kept
    split <;> rfl
  have hrename : s.expr.relabel (rename {}) = s.expr := by
    apply Expr.relabel_eq_self
    rintro (_ | _) - <;> rfl
  cases hlive : s.eliminated with
  | true =>
    rw [inlineStatement, hlive, Bool.true_or, if_pos rfl, ← hlive]
  | false => rw [inlineStatement_of_kept hlive hkept, hrename]

/-- Statements stay in their places. -/
theorem Taken.statement?_replaceAll {D : List (BlockId × Nat)} {s : State} (h : Taken g D s)
    (hg : g.SingleAssignment) (hr : AllLeaves s.replacements) (i : BlockId) (p : Nat) :
    (replaceAll s.replacements s.graph).statement? i p =
      (g.statement? i p).map (inlineStatement s.replacements) := by
  rw [Graph.statement?, h.block?_replaceAll hr, Graph.statement?]
  cases hb : g.block? i with
  | none => rfl
  | some b =>
    have hstrike : strike (fun p => D.contains (i, p)) b.statements =
        sift (kept s.replacements) b.statements :=
      strike_eq_sift fun hst hlive => h.contains_eq hg hb hst hlive
    rw [Option.map_some, hstrike]
    show (List.map _ (List.map _ b.statements))[p]? = b.statements[p]?.map _
    rw [List.map_map, List.getElem?_map]
    refine congrArg (Option.map · _) (funext fun st => ?_)
    show (if st.eliminated || !kept s.replacements st.expr then _ else _) = _
    unfold inlineStatement
    split
    · rename_i hgone
      rw [hgone]
    · rename_i hlive
      have hfalse := Bool.eq_false_iff.mpr hlive
      have hsame : (st.eliminated || !kept s.replacements st.expr) = st.eliminated :=
        hfalse.trans (Bool.or_eq_false_iff.mp hfalse).1.symm
      exact congrArg (fun eliminated => { st with
        expr := st.expr.relabel (rename s.replacements), eliminated }) hsame

/-- One graph is the other with variables replaced, statement by statement. -/
structure Replaces (r : Replacements) (g g' : Graph) : Prop where
  descending : Descending r
  defined : ∀ {v e}, r.get? v = some e → ∃ i p s, g.statement? i p = some s ∧
    s.eliminated = false ∧ s.expr.assigned? = some v
  statement : ∀ i p, g'.statement? i p = (g.statement? i p).map (inlineStatement r)

theorem Replaces.refl (g : Graph) : Replaces {} g g where
  descending := ⟨by simp [AllLeaves], fun h => nomatch h⟩
  defined h := nomatch h
  statement i p := by
    rw [funext inlineStatement_empty]
    exact Option.map_id'.symm

/-- The variables that are inlined are those that are replaced. -/
theorem Replaces.inlined_iff {g' : Graph} (h : Replaces r g g') :
    g.Inlined g' v ↔ (r.get? v).isSome = true := by
  constructor
  · rintro ⟨i, p, s, s', hs, hlive, hv, hs', hgone⟩
    rw [h.statement, hs] at hs'
    cases hs'
    obtain ⟨value, hexpr⟩ := Expr.assigned?_eq_some.mp hv
    cases hkept : kept r s.expr with
    | true =>
      rw [inlineStatement_of_kept hlive hkept] at hgone
      cases hlive.symm.trans hgone
    | false => rwa [hexpr, kept_assign, ← Option.not_isSome, Bool.not_eq_false'] at hkept
  · intro hsome
    obtain ⟨e, he⟩ := Option.isSome_iff_exists.mp hsome
    obtain ⟨i, p, s, hs, hlive, hv⟩ := h.defined he
    obtain ⟨value, hexpr⟩ := Expr.assigned?_eq_some.mp hv
    have hkept : kept r s.expr = false := by
      rw [hexpr, kept_assign, he]
      rfl
    refine ⟨i, p, s, inlineStatement r s, hs, hlive, hv, ?_, ?_⟩
    · rw [h.statement, hs]
      rfl
    · rw [inlineStatement_of_dropped hkept]

/-- A statement still writes what it wrote, unless that is a lane of a variable that is
replaced. -/
theorem written?_inlineStatement (hr : Descending r) {s : Statement} (hlive : s.eliminated = false)
    {lane : Option Nat} (h : s.expr.written? = some (v, lane)) :
    (inlineStatement r s).expr.written? = some (v, lane) ↔ lane = none ∨ r.get? v = none := by
  cases lane with
  | none =>
    refine iff_of_true ?_ (.inl rfl)
    cases hkept : kept r s.expr with
    | true =>
      rw [inlineStatement_of_kept hlive hkept, Expr.written?_whole, assigned?_rename hkept]
      exact Expr.written?_whole.mp h
    | false =>
      rw [inlineStatement_of_dropped hkept]
      exact h
  | some k =>
    obtain ⟨value, hexpr⟩ := Expr.written?_lane.mp h
    have hkept : kept r s.expr = true := by rw [hexpr]; rfl
    rw [inlineStatement_of_kept hlive hkept, hexpr, Expr.written?_lane]
    constructor
    · rintro ⟨value', heq⟩
      have hvector := (Expr.lane.inj (Expr.assign.inj heq).1).1
      exact .inr (hr.rename_eq_var (Expr.leaf.inj hvector)).2
    · rintro (hnone | hnone)
      · cases hnone
      · refine ⟨value.relabel (rename r), ?_⟩
        rw [Expr.relabel_assign, Expr.relabel_lane]
        exact congrArg (fun l => Expr.assign (.lane (.leaf l) k) _) (rename_of_none hnone)

end VariableInlining

namespace Context

open VariableInlining

variable {ctx : Context}

/-- A run of inlining keeps the places of statements. -/
theorem exists_replaces (hg : ctx.graph.SingleAssignment) :
    ∃ r, Replaces r ctx.graph ctx.inlineVariables.1.graph := by
  obtain ⟨D, h⟩ := exists_taken hg.id_eq ctx.vars
  obtain ⟨-, hr⟩ := refines_foldl_take ctx.vars (candidates (countGraph ctx.graph))
    (s := { graph := ctx.graph }) (.refl _) (by simp [AllLeaves])
  dsimp only [inlineVariables]
  split
  · exact ⟨{}, .refl _⟩
  · refine ⟨_, ((h.inlines hg hr).admissible hg).toDescending, fun hv => ?_,
      h.statement?_replaceAll hg hr⟩
    obtain ⟨-, d, -, b, s, hb, hs, hlive, hexpr⟩ := h.moved hv
    refine ⟨d.1, d.2, s, ?_, hlive, Expr.assigned?_eq_some.mpr ⟨_, hexpr⟩⟩
    rw [Graph.statement?, hb]
    exact hs

/-- Inlining after promotion: a statement that assigns to a variable as a whole still does, and one
that writes a lane of a variable still writes that lane of it exactly if the run does not inline
the variable. -/
theorem written_inlineVariables {s : Scope} {code : List Instruction} {parts : List CodeRange}
    {g : Graph} {journal journal' : Journal} (hcut : Graph.ofPartition code parts = .ok g)
    (hfill : (s.fill code g).run.run journal = (.ok ctx.graph, journal'))
    {i : BlockId} {p : Nat} {a : Statement} (ha : ctx.promote.1.graph.statement? i p = some a)
    {v : VarId} {lane : Option Nat} (hv : a.expr.written? = some (v, lane)) :
    let after := ctx.promote.1.inlineVariables.1.graph
    ∃ a', after.statement? i p = some a' ∧ (a'.expr.written? = some (v, lane) ↔
      lane = none ∨ ¬ ctx.promote.1.graph.Inlined after v) := by
  have hlifted := Graph.allLifted_of_fill hfill
  have hheads := Graph.sameHeads_of_fill hfill
  have hg := single_promote hlifted (hheads.wired (Graph.ofPartition_laid hcut).wired)
  obtain ⟨r, hr⟩ := exists_replaces hg
  have hlive : a.eliminated = false := by
    obtain ⟨b, hb, hmem⟩ := Option.bind_eq_some_iff.mp ha
    exact live_promote hlifted hb a (List.mem_of_getElem? hmem)
  refine ⟨inlineStatement r a, ?_, ?_⟩
  · rw [hr.statement, ha]
    rfl
  · rw [hr.inlined_iff, Bool.not_eq_true, Option.isSome_eq_false_iff, Option.isNone_iff_eq_none]
    exact written?_inlineStatement hr.descending hlive hv

end Context

/-! ## A lane of a vector that holds a constant -/

namespace VariableInlining

/-- Code that sets a vector to a constant and one of its lanes to a register. -/
def lanes : List Instruction :=
  [⟨0, .move, [.register "xmm0", .immediate 5], .next⟩,
    ⟨1, .move, [.lane "xmm0" 1, .register "rcx"], .next⟩, ⟨2, .ret, [], .ret⟩]

def lanesScope : Scope :=
  ⟨{ isa := .x64 }, { id := 0, name := "lanes", declaringName := "Sample" }⟩

def lanesGraph : Graph := (Graph.ofPartition lanes [⟨0, 3⟩]).toOption.getD {}

def lanesContext : Context where
  image := lanesScope.image
  method := lanesScope.method
  graph := ((lanesScope.fill lanes lanesGraph).run.run {}).1.toOption.getD {}

end VariableInlining

open VariableInlining in
/-- A live statement writes a lane of a variable before the run and a lane of a number after it. -/
theorem Context.not_written_inlineVariables_lanes :
    Graph.ofPartition lanes [⟨0, 3⟩] = .ok lanesGraph ∧
      ((lanesScope.fill lanes lanesGraph).run.run {}).1.toOption = some lanesContext.graph ∧
      (lanesContext.promote.1.graph.statement? 0 1).map
          (fun a => (a.expr.written?, a.expr.assignsLane, a.expr.leaves, a.eliminated)) =
        some (some (0, some 1), true, [.var 1, .var 0], false) ∧
      (lanesContext.promote.1.inlineVariables.1.graph.statement? 0 1).map
          (fun a => (a.expr.written?, a.expr.assignsLane, a.expr.leaves, a.eliminated)) =
        some (none, true, [.var 1, .immediate 5], false) := by
  refine ⟨rfl, ?_, by decide +kernel, by decide +kernel⟩
  exact congrArg (Except.toOption ∘ Prod.fst) (eq_ok_of_isSome (by decide +kernel) {})

open VariableInlining in
/-- The vector's definition is inlined into the target of its own lane. -/
theorem Context.written_inlineVariables_lanes :
    (∃ a', lanesContext.promote.1.inlineVariables.1.graph.statement? 0 0 = some a' ∧
        a'.expr.written? = some (0, none)) ∧
      lanesContext.promote.1.graph.Inlined lanesContext.promote.1.inlineVariables.1.graph 0 := by
  have hcut : Graph.ofPartition lanes [⟨0, 3⟩] = .ok lanesGraph := rfl
  have hfill := eq_ok_of_isSome (x := (lanesScope.fill lanes lanesGraph).run.run {})
    (by decide +kernel) {}
  have hwhole : (lanesContext.promote.1.graph.statement? 0 0).bind (·.expr.written?) =
      some (0, none) := by
    decide +kernel
  have hlane : (lanesContext.promote.1.graph.statement? 0 1).bind (·.expr.written?) =
      some (0, some 1) := by
    decide +kernel
  have hlost : (lanesContext.promote.1.inlineVariables.1.graph.statement? 0 1).bind
      (·.expr.written?) = none := by
    decide +kernel
  obtain ⟨a, ha, hv⟩ := Option.bind_eq_some_iff.mp hwhole
  obtain ⟨b, hb, hw⟩ := Option.bind_eq_some_iff.mp hlane
  obtain ⟨a', ha', hkept⟩ := written_inlineVariables hcut hfill ha hv
  obtain ⟨b', hb', hiff⟩ := written_inlineVariables hcut hfill hb hw
  refine ⟨⟨a', ha', hkept.mpr (.inl rfl)⟩, ?_⟩
  by_contra hnot
  have hstill := hiff.mpr (.inr hnot)
  rw [hb', Option.bind_some, hstill] at hlost
  cases hlost

end MethodLift
