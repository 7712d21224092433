import MethodLift.Proofs.Analyses.FixedPoint
import MethodLift.Proofs.Expr.Arithmetic
import MethodLift.Proofs.Expr.Mimicry

/-!
# Folding keeps values

A number may stand for an expression that has its value without looking at anything. The values
meant here are words or nothing: a machine on words computes with exact arithmetic, reduces the
results, and gives nothing where the operation is undefined. What leaves and comparisons mean, and
what memory and calls answer, is left to any machine.

Folding keeps the values of all parts of a statement, and leaves nothing that could be folded.
-/

namespace MethodLift

open Expr

variable {V : Type}

/-! ## Expressions of the same value -/

namespace Machine

/-- Two expressions with the same value in every environment and after every history. -/
def Agrees (m : Machine V) (e e' : Expr) : Prop :=
  ∀ env, Mimics Eq (m.eval env e) (m.eval env e')

/-- An expression and what became of it, part by part with the same values: a number, or the same
kind of expression. -/
inductive SameValues (m : Machine V) : Expr → Expr → Prop
  | number {e : Expr} {v : Int64} (agrees : m.Agrees e (.immediate v)) :
    m.SameValues e (.immediate v)
  | parts {e : Expr} {ps : List Expr} (agrees : m.Agrees e (e.withParts ps))
    (parts : List.Forall₂ m.SameValues e.parts ps) : m.SameValues e (e.withParts ps)

variable {m : Machine V}

/-- Statements with the same values part by part agree as wholes. -/
theorem SameValues.agrees {e e' : Expr} (h : m.SameValues e e') : m.Agrees e e' := by
  cases h with
  | number agrees => exact agrees
  | parts agrees _ => exact agrees

/-- Arguments that agree one by one have the same values and effects in a row. -/
theorem Agrees.evalArguments {args args' : List Expr} (h : List.Forall₂ m.Agrees args args')
    (env : Env V) : Mimics Eq (m.evalArguments env args) (m.evalArguments env args') := by
  induction h with
  | nil => exact .pure rfl
  | cons ha _ ih => exact (ha env).bind_eq fun x => ih.bind_eq fun xs => .pure rfl

/-- Parts of the same values make a whole of the same value. -/
theorem agrees_withParts {e : Expr} {ps : List Expr} (h : List.Forall₂ m.Agrees e.parts ps) :
    m.Agrees e (e.withParts ps) := by
  intro env
  cases e with
  | compare kind left right | arith op left right =>
    obtain _ | ⟨hl, _ | ⟨hr, _ | _⟩⟩ := h
    exact (hl env).bind_eq fun x => (hr env).bind_eq fun y => .note _
  | complement operand | lane operand index =>
    obtain _ | ⟨ho, _ | _⟩ := h
    exact (ho env).bind_eq fun x => .note _
  | deref operand | member operand field =>
    obtain _ | ⟨ho, _ | _⟩ := h
    exact (ho env).bind_eq fun x => .answer _ _
  | call target args returns =>
    obtain _ | ⟨ht, hargs⟩ := h
    exact (ht env).bind_eq fun t => (Agrees.evalArguments hargs env).bind_eq fun xs => .answer _ _
  | assign target value =>
    obtain _ | ⟨_, _ | ⟨_, _ | _⟩⟩ := h
    exact .pure rfl
  | jumpIf condition target | ret condition =>
    obtain _ | ⟨_, _ | _⟩ := h
    exact .pure rfl
  | guarded condition head body =>
    obtain _ | ⟨_, _⟩ := h
    exact .pure rfl
  | leaf value => exact .note _
  | unsupported text => exact .answer _ _
  | jump | retVoid | nop | comment => exact .pure rfl

/-! ## Machines on words -/

/-- The machine on words that computes with exact arithmetic and is like another one else. A value
is a word, or nothing where it is undefined. -/
def onWords (m : Machine (Option Int64)) : Machine (Option Int64) :=
  { m with
    constant
      | .immediate v => some v
      | other => m.constant other
    arith op x y := x.bind fun a => y.bind fun b =>
      if op.Undefined a.toInt b.toInt then none
      else some (Int64.ofInt (op.exact a.toInt b.toInt))
    complement x := x.map (~~~ ·) }

/-- On words the machine computes as folding does. -/
theorem arith_onWords (m : Machine (Option Int64)) (op : ArithOp) (a b : Int64) :
    m.onWords.arith op (some a) (some b) = op.eval? a b :=
  (op.eval?_eq a b).symm

/-- A folded operation has the value of the number that it becomes. -/
theorem agrees_of_fold? (m : Machine (Option Int64)) {e : Expr} {v : Int64}
    (h : Folding.fold? e = some v) : m.onWords.Agrees e (.immediate v) := by
  intro env l l' hl
  unfold Folding.fold? at h
  split at h
  · rename_i op a b
    rw [← m.arith_onWords] at h
    exact ⟨hl, h⟩
  · exact ⟨hl, h⟩
  · cases h

end Machine

/-! ## What can be folded -/

namespace Expr

def Foldable : Expr → Prop
  | .arith op (.leaf (.immediate a)) (.leaf (.immediate b)) => ¬op.Undefined a.toInt b.toInt
  | .complement (.leaf (.immediate _)) => True
  | _ => False

/-- No part can be folded. -/
def Reduced (e : Expr) : Prop := ∀ part ∈ e.nodes, ¬part.Foldable

end Expr

namespace Folding

/-- Folding fails exactly on what is no operation with a result. -/
theorem fold?_eq_none_iff {e : Expr} : fold? e = none ↔ ¬e.Foldable := by
  unfold fold?
  split
  · rw [ArithOp.eval?_eq]
    simp [Foldable]
  · simp [Foldable]
  · rename_i harith hcomplement
    simp only [true_iff]
    intro h
    unfold Foldable at h
    split at h
    · exact harith _ _ _ rfl
    · exact hcomplement _ rfl
    · exact h

variable {block : BlockId}

/-- Folding leaves reduced expressions alone, so a second run changes nothing. -/
theorem calm_of_reduced {e : Expr} (h : e.Reduced) : Calm (node block) e := by
  intro part hpart
  rw [node, fold?_eq_none_iff.mpr (h part hpart)]

/-- A walk through an expression keeps the values of all parts. -/
theorem sameValues_bottomUpM (m : Machine (Option Int64)) (e : Expr) :
    Yields (e.bottomUpM (node block)) (m.onWords.SameValues e) := by
  refine yields_bottomUpM (fun e ps hps => ?_) e
  have hagrees : m.onWords.Agrees e (e.withParts ps) :=
    Machine.agrees_withParts (hps.imp fun _ _ h => h.agrees)
  unfold node
  split
  · rename_i v hv
    refine Yields.bind (P := fun _ => True) (fun _ => trivial) fun _ _ => .pure (.number ?_)
    exact fun env => (hagrees env).trans (m.agrees_of_fold? hv env)
  · exact .pure (.parts hagrees hps)

/-- A walk leaves nothing to fold: parts are reduced before the whole is looked at. -/
theorem reduced_bottomUpM (e : Expr) : Yields (e.bottomUpM (node block)) Reduced := by
  refine yields_bottomUpM (R := fun _ => Reduced) (fun e ps hps => ?_) e
  unfold node
  split
  · refine Yields.bind (P := fun _ => True) (fun _ => trivial) fun _ _ => .pure ?_
    exact forall_nodes_iff.mpr ⟨id, List.forall_mem_nil _⟩
  · rename_i hnone
    refine .pure (forall_nodes_iff.mpr ⟨fold?_eq_none_iff.mp hnone, fun part hpart => ?_⟩)
    rw [parts_withParts hps.length_eq.symm] at hpart
    obtain ⟨_, _, hreduced⟩ := exists_of_forall₂ hps hpart
    exact hreduced

end Folding

/-! ## Folded graphs -/

/-- A statement and what folding makes of it. An eliminated statement stays; a live one keeps the
values of all its parts, in every machine on words, and has nothing left to fold. -/
inductive Stmt.Folds (s : Statement) : Statement → Prop
  | dead (h : s.eliminated = true) : s.Folds s
  | live {e : Expr} (h : s.eliminated = false)
    (values : ∀ m : Machine (Option Int64), m.onWords.SameValues s.expr e) (reduced : e.Reduced) :
    s.Folds { s with expr := e }

theorem Graph.Related.reduced {g g' : Graph} (h : g.Related Stmt.Folds g') {b : Block}
    (hb : b ∈ g'.blocks) {s : Statement} (hs : s ∈ b.live) : s.expr.Reduced := by
  obtain ⟨hs, hlive⟩ := List.mem_filter.mp hs
  obtain ⟨_, hfolds⟩ := h.exists_of_mem hb hs
  cases hfolds with
  | dead hdead => simp [hdead] at hlive
  | live _ _ reduced => exact reduced

namespace Context

/-- Live statements are folded in their places; all else stays. -/
theorem folds_foldConstants (ctx : Context) :
    ctx.graph.Related Stmt.Folds ctx.foldConstants.1.graph := by
  have hlive : ∀ (b : Block) (s : Statement), s.eliminated = false →
      Yields (s.expr.bottomUpM (Folding.node b.id)) fun e => s.Folds { s with expr := e } :=
    fun b s hs p => .live hs (fun m => Folding.sameValues_bottomUpM m s.expr p)
      (Folding.reduced_bottomUpM s.expr p)
  exact Graph.yields_mapLiveM_of_live (fun _ => .dead) hlive ctx.graph {}

theorem idle_foldConstants {ctx : Context}
    (h : ∀ b ∈ ctx.graph.blocks, ∀ s ∈ b.live, s.expr.Reduced) :
    ctx.foldConstants = (ctx, false) := by
  have hidle : ctx.graph.Idle fun block _ e => e.bottomUpM (Folding.node block) :=
    fun b hb s hs => (Folding.calm_of_reduced (h b hb s hs)).bottomUpM
  have hsilent := ctx.refineLive_of_idle hidle
  exact hsilent

/-- Folding is exact, sound and complete. Arithmetic on words gives the exact result reduced to a
word, and nothing in the undefined cases only. In every method and on every machine on words, one
run keeps the values of all parts of all live statements and leaves no part that could be folded at
any depth, so a second run changes and reports nothing. -/
theorem exact_foldConstants :
    (∀ (op : ArithOp) (a b : Int64), op.eval? a b =
      if op.Undefined a.toInt b.toInt then none
      else some (Int64.ofInt (op.exact a.toInt b.toInt))) ∧
    ∀ ctx : Context, ctx.graph.Related Stmt.Folds ctx.foldConstants.1.graph ∧
      ctx.foldConstants.1.foldConstants = (ctx.foldConstants.1, false) := by
  refine ⟨ArithOp.eval?_eq, fun ctx => ?_⟩
  have hfolds := ctx.folds_foldConstants
  exact ⟨hfolds, idle_foldConstants fun b hb s hs => hfolds.reduced hb hs⟩

end Context

end MethodLift
