import MethodLift.Pass.FieldRecovery
import MethodLift.Pass.Folding
import MethodLift.Pass.LiteralInlining
import MethodLift.Pass.Promotion
import MethodLift.Pass.UsageInlining
import MethodLift.Pass.VariableInlining
import MethodLift.Proofs.Block.Flat

/-!
# Passes that rebuild statements

All passes before structuring rebuild statements in their places: promotion, the analyses and
inlining. Each of them works with a harmless step and hence refines the graph, so a method whose
graph is flat stays flat whatever passes run on it and in whatever order.
-/

namespace MethodLift

open Expr

/-! ## Walking through live statements -/

/-- The step keeps a statement tidy and its control as it is. -/
def Keeps {σ : Type} (e : Expr) (x : StateM σ Expr) : Prop :=
  Yields x fun e' => e.Tidy → e'.Tidy ∧ e'.control = e.control

/-- A walk of harmless steps keeps a statement tidy and its control as it is. -/
theorem Expr.Harmless.keeps {σ : Type} {f : Expr → StateM σ Expr} (hf : Harmless f) (e : Expr) :
    Keeps e (e.bottomUpM f) := fun s ht => hf.tidy_bottomUpM ht s

theorem Expr.Harmless.keeps_loads {σ : Type} {f : Expr → StateM σ Expr} (hf : Harmless f)
    (e : Expr) : Keeps e (e.bottomUpLoadsM f) := fun s ht => hf.tidy_bottomUpLoadsM ht s

/-- Rebuilding live statements relates a block to its result, statement by statement. -/
theorem Block.yields_mapLiveM_of_live {σ : Type} {R : Statement → Statement → Prop}
    (hdead : ∀ s, s.eliminated = true → R s s) {f : Statement → StateM σ Expr}
    (hf : ∀ s, s.eliminated = false → Yields (f s) fun e => R s { s with expr := e })
    (b : Block) : Yields (b.mapLiveM f) fun b' =>
      b'.toBlockHead = b.toBlockHead ∧ List.Forall₂ R b.statements b'.statements := by
  have hstep : ∀ s ∈ b.statements, Yields
      (if s.eliminated then pure s else do let e ← f s; pure { s with expr := e }) (R s) := by
    intro s _
    split
    · rename_i hs
      exact .pure (hdead s hs)
    · rename_i hs
      exact (hf s (Bool.eq_false_iff.mpr hs)).bind fun e he => .pure he
  exact (Yields.mapM hstep).bind fun ss hss => .pure ⟨rfl, hss⟩

/-- Two graphs with the same heads, whose statements are related in their places. -/
def Graph.Related (R : Statement → Statement → Prop) (g g' : Graph) : Prop :=
  List.Forall₂ (fun b b' : Block =>
    b'.toBlockHead = b.toBlockHead ∧ List.Forall₂ R b.statements b'.statements)
    g.blocks g'.blocks

/-- Rebuilding live statements relates a graph to its result, block by block. -/
theorem Graph.yields_mapLiveM_of_live {σ : Type} {R : Statement → Statement → Prop}
    (hdead : ∀ s, s.eliminated = true → R s s) {f : Block → Statement → StateM σ Expr}
    (hf : ∀ b s, s.eliminated = false → Yields (f b s) fun e => R s { s with expr := e })
    (g : Graph) : Yields (g.mapLiveM f) (g.Related R) := by
  refine (Yields.mapM fun b _ => Block.yields_mapLiveM_of_live hdead (hf b) b).bind fun bs hbs => ?_
  exact .pure hbs

/-- Where a statement is related to itself, eliminated ones need no thought. -/
theorem Graph.yields_mapLiveM {σ : Type} {R : Statement → Statement → Prop} (hrefl : ∀ s, R s s)
    {f : Block → Statement → StateM σ Expr}
    (hf : ∀ b s, Yields (f b s) fun e => R s { s with expr := e }) (g : Graph) :
    Yields (g.mapLiveM f) (g.Related R) :=
  yields_mapLiveM_of_live (fun s _ => hrefl s) (fun b s _ => hf b s) g

/-- Every statement of the result is related to one that was there before. -/
theorem Graph.Related.exists_of_mem {R : Statement → Statement → Prop} {g g' : Graph}
    (h : g.Related R g') {b' : Block} (hb : b' ∈ g'.blocks) {s' : Statement}
    (hs : s' ∈ b'.statements) : ∃ s, R s s' := by
  obtain ⟨b, _, -, hstatements⟩ := exists_of_forall₂ h hb
  obtain ⟨s, _, hr⟩ := exists_of_forall₂ hstatements hs
  exact ⟨s, hr⟩

/-- Rebuilding live statements keeps what each step keeps. -/
theorem Graph.preserves_mapLiveM {σ : Type} {I : σ → Prop}
    {f : Block → Statement → StateM σ Expr} (hf : ∀ b s, Preserves (f b s) I) (g : Graph) :
    Preserves (g.mapLiveM f) I := by
  have hstep : ∀ (b : Block) (s : Statement), Preserves
      (if s.eliminated then pure s else do let e ← f b s; pure { s with expr := e }) I := by
    intro b s
    split
    · exact .pure s
    · exact (hf b s).bind fun e => .pure _
  have hblock : ∀ b ∈ g.blocks, Preserves (b.mapLiveM (f b)) I :=
    fun b _ => (Preserves.mapM fun s _ => hstep b s).bind fun ss => .pure _
  exact (Preserves.mapM hblock).bind fun bs => .pure _

theorem Graph.refines_mapLiveM {σ : Type} {f : Block → Statement → StateM σ Expr}
    (hf : ∀ b s, Keeps s.expr (f b s)) (g : Graph) : Yields (g.mapLiveM f) g.Refines := by
  have hstep : ∀ b s, Yields (f b s) fun e => Stmt.Refines s { s with expr := e } :=
    fun b s => (hf b s).mono fun _ he => .of_expr he
  refine (yields_mapLiveM .refl hstep g).mono fun g' h => ?_
  exact List.Forall₂.imp (fun b b' hb => ⟨by rw [hb.1], hb.2⟩) h

/-- Rebuilds the live statements of a block with a plain function. -/
def Block.mapLive (f : Statement → Expr) (b : Block) : Block :=
  { b with statements := b.statements.map fun s =>
      if s.eliminated then s else { s with expr := f s } }

/-- A sweep without effects is a plain function on the live statements. -/
theorem Graph.mapLiveM_pure {m : Type → Type} [Monad m] [LawfulMonad m]
    (f : Block → Statement → Expr) (g : Graph) :
    g.mapLiveM (fun b s => (pure (f b s) : m Expr)) =
      pure ⟨g.blocks.map fun b => b.mapLive (f b)⟩ := by
  have hblock : ∀ b ∈ g.blocks, b.mapLiveM (fun s => (pure (f b s) : m Expr)) =
      pure (b.mapLive (f b)) := by
    intro b _
    have hstep : ∀ s ∈ b.statements,
        (if s.eliminated then pure s else do
          let e ← (pure (f b s) : m Expr)
          pure { s with expr := e }) =
        (pure (if s.eliminated then s else { s with expr := f b s }) : m Statement) := by
      intro s _
      split <;> simp
    rw [Block.mapLiveM, mapM_eq_pure hstep, pure_bind]
    rfl
  rw [Graph.mapLiveM, mapM_eq_pure hblock, pure_bind]

/-- Refining live statements with steps that keep control refines the graph. -/
theorem Context.refines_refineLive {f : Block → Statement → Refine Expr}
    (hf : ∀ b s, Keeps s.expr (f b s)) (ctx : Context) :
    ctx.graph.Refines (ctx.refineLive f).1.graph :=
  Graph.refines_mapLiveM hf ctx.graph {}

/-! ## The analyses -/

namespace FieldRecovery

variable {image : Program} {vars : Variables} {block : BlockId} {source : Option Nat}

/-- A field takes the place of a memory access, and neither decides about control. -/
theorem harmless_node : Harmless (node image vars block source) where
  control e he := by
    cases e <;> first | rfl | cases he
  plain e he := by
    unfold node
    split
    · rename_i object offset
      split
      · refine Yields.bind (P := fun _ => True) (fun _ => trivial) fun _ _ => ?_
        rw [plain_deref, plain_arith] at he
        exact .pure (plain_member.mpr he.1)
      · exact .pure he
    · exact .pure he

end FieldRecovery

namespace UsageInlining

variable {image : Program} {options : Options} {block : BlockId}

theorem plain_inline? (v : Int64) :
    Yields (inline? image options block v) fun e => ∀ a ∈ e, a.Plain := by
  unfold inline?
  split
  · exact .pure (by simp)
  · exact Yields.bind (P := fun _ => True) (fun _ => trivial) fun _ _ => .pure (by simp)

theorem plain_value {e : Expr} (he : e.Plain) : Yields (value image options block e) Plain := by
  unfold value
  split
  · refine (plain_inline? _).bind fun r hr => .pure ?_
    cases r with
    | none => exact he
    | some a => exact hr a rfl
  · exact .pure he

theorem plain_storeTarget {e : Expr} (he : e.Plain) :
    Yields (storeTarget image options block e) Plain := by
  unfold storeTarget
  split
  · exact (plain_value (plain_deref.mp he)).bind fun a ha => .pure (plain_deref.mpr ha)
  · exact .pure he

/-- Slots are leaves, and numbers are replaced in the places of values only. -/
theorem harmless_node : Harmless (node image options block) where
  control e he := by
    cases e <;> first | rfl | cases he
  plain e he := by
    unfold node
    split
    · refine (plain_inline? _).bind fun r hr => .pure ?_
      cases r with
      | none => exact he
      | some a => exact hr a rfl
    · exact .pure (plain_leaf _)
    · rw [plain_assign] at he
      exact (plain_storeTarget he.1).bind fun t ht => (plain_value he.2).bind fun v hv =>
        .pure (plain_assign.mpr ⟨ht, hv⟩)
    · rw [plain_call] at he
      refine (Yields.forall_mapM fun a ha => plain_value (he.2 a ha)).bind fun args hargs => ?_
      exact .pure (plain_call.mpr ⟨he.1, hargs⟩)
    · rw [plain_compare] at he
      exact (plain_value he.1).bind fun l hl => (plain_value he.2).bind fun r hr =>
        .pure (plain_compare.mpr ⟨hl, hr⟩)
    · exact .pure he

end UsageInlining

/-- Strings are leaves. -/
theorem LiteralInlining.harmless_node {image : Program} {options : Options} {block : BlockId} :
    Harmless (node image options block) where
  control e he := by
    cases e <;> first | rfl | cases he
  plain e he := by
    unfold node
    split
    · exact Yields.bind (P := fun _ => True) (fun _ => trivial) fun _ _ => .pure (plain_leaf _)
    · split
      · exact Yields.bind (P := fun _ => True) (fun _ => trivial) fun _ _ => .pure (plain_leaf _)
      · exact .pure he
    · exact .pure he

/-- Numbers are leaves. -/
theorem Folding.harmless_node {block : BlockId} : Harmless (node block) where
  control e he := by
    cases e <;> first | rfl | cases he
  plain e he := by
    unfold node
    split
    · exact Yields.bind (P := fun _ => True) (fun _ => trivial) fun _ _ => .pure (plain_leaf _)
    · exact .pure he

namespace Context

variable (ctx : Context)

theorem refines_recoverData : ctx.graph.Refines ctx.recoverData.1.graph :=
  ctx.refines_refineLive fun _ s => FieldRecovery.harmless_node.keeps s.expr

theorem refines_inlineUsages : ctx.graph.Refines ctx.inlineUsages.1.graph :=
  ctx.refines_refineLive fun _ s => UsageInlining.harmless_node.keeps_loads s.expr

theorem refines_inlineLiterals : ctx.graph.Refines ctx.inlineLiterals.1.graph :=
  ctx.refines_refineLive fun _ s => LiteralInlining.harmless_node.keeps_loads s.expr

theorem refines_foldConstants : ctx.graph.Refines ctx.foldConstants.1.graph :=
  ctx.refines_refineLive fun _ s => Folding.harmless_node.keeps s.expr

end Context

/-! ## Inlining -/

namespace VariableInlining

def AllLeaves (r : Replacements) : Prop := ∀ entry ∈ r.entries, ∃ v, entry.2 = .leaf v

theorem AllLeaves.erase {r : Replacements} (h : AllLeaves r) (id : VarId) :
    AllLeaves (r.erase id) :=
  fun entry he => h entry (List.mem_of_mem_filter he)

theorem AllLeaves.insert {r : Replacements} (h : AllLeaves r) (id : VarId) (v : Leaf) :
    AllLeaves (r.insert id (.leaf v)) := by
  intro entry he
  rcases List.mem_cons.mp he with rfl | he
  · exact ⟨v, rfl⟩
  · exact h.erase id entry he

theorem AllLeaves.get? {r : Replacements} (h : AllLeaves r) {id : VarId} {e : Expr}
    (he : r.get? id = some e) : ∃ v, e = .leaf v :=
  h (id, e) (Table.mem_of_get? he)

/-- What holds of all variables and of all replacements holds of what following them leads to. -/
theorem resolve_of {P : Expr → Prop} (hvar : ∀ v, P (.var v)) {r : Replacements}
    (h : ∀ entry ∈ r.entries, P entry.2) (steps : Nat) {id : VarId} {e : Expr}
    (he : resolve r steps id = some e) : P e := by
  induction steps generalizing r id e with
  | zero => cases he
  | succ steps ih =>
    unfold resolve at he
    split at he
    · cases he
    · rename_i next _
      cases hr : resolve (r.erase id) steps next with
      | none =>
        rw [hr] at he
        cases he
        exact hvar next
      | some e' =>
        rw [hr] at he
        cases he
        exact ih (fun entry hentry => h entry (List.mem_of_mem_filter hentry)) hr
    · rename_i hget
      cases he
      exact h (id, e) (Table.mem_of_get? hget)

theorem AllLeaves.resolve {r : Replacements} (h : AllLeaves r) (steps : Nat) {id : VarId} {e : Expr}
    (he : resolve r steps id = some e) : ∃ v, e = .leaf v :=
  resolve_of (P := fun e => ∃ v, e = .leaf v) (fun v => ⟨.var v, rfl⟩) h steps he

/-- Replacements are leaves. -/
theorem harmless_node {r : Replacements} (h : AllLeaves r) :
    Harmless fun e => (pure (node r e) : StateM Unit Expr) where
  control e he := by
    cases e <;> first | rfl | cases he
  plain e he := by
    refine .pure ?_
    unfold node
    split
    · rename_i id
      cases hr : VariableInlining.resolve r r.size id with
      | none => exact plain_leaf _
      | some e' =>
        obtain ⟨v, rfl⟩ := h.resolve _ hr
        exact plain_leaf v
    · exact he

/-- Replacing variables by leaves refines the graph. -/
theorem refines_replaceAll {r : Replacements} (h : AllLeaves r) (g : Graph) :
    g.Refines (replaceAll r g) := by
  have hkeeps : ∀ (_ : Block) (s : Statement),
      Keeps s.expr (pure (s.expr.bottomUp (node r)) : StateM Unit Expr) := by
    intro _ s
    rw [← bottomUpM_pure]
    exact (harmless_node h).keeps s.expr
  have hrun := Graph.refines_mapLiveM hkeeps g ()
  rw [Graph.mapLiveM_pure] at hrun
  rw [replaceAll, Graph.mapLiveM_pure]
  exact hrun

theorem isMovable_iff {e : Expr} :
    isMovable e = true → ∃ v, e = .leaf v := by
  intro h
  cases e with
  | leaf v => exact ⟨v, rfl⟩
  | _ => cases h

/-- A value that may be moved is assigned by the statement it is taken from. -/
theorem movable?_eq_some {g : Graph} {block position : Nat} {value : Expr}
    (h : movable? g block position = some value) :
    isMovable value = true ∧ ∃ b target eliminated source, g.block? block = some b ∧
      b.statements[position]? = some ⟨.assign target value, eliminated, source⟩ := by
  unfold movable? at h
  split at h
  · rename_i target value' eliminated source hs
    split at h
    · rename_i hm
      cases h
      obtain ⟨b, hb, hs⟩ := Option.bind_eq_some_iff.mp hs
      exact ⟨hm, b, target, eliminated, source, hb, hs⟩
    · cases h
  · cases h

/-- A statement that passes control on may be eliminated. -/
theorem refines_eliminate {g : Graph} {block position : Nat} {b : Block} {s : Statement}
    (hb : g.block? block = some b) (hs : b.statements[position]? = some s)
    (hstep : s.expr.control = .step) : g.Refines (eliminate g block position) := by
  refine forall₂_modify Block.Refines.refl fun b' hb' => ⟨rfl, ?_⟩
  cases hb.symm.trans hb'
  refine forall₂_modify Stmt.Refines.refl fun s' hs' => ?_
  cases hs.symm.trans hs'
  exact ⟨rfl, fun ht => ⟨ht, rfl, .inr ⟨hstep, rfl⟩⟩⟩

/-- Taking a candidate eliminates an assignment, which passes control on, and replaces by a leaf. -/
theorem refines_take {vars : Variables} {s : State} {g : Graph} (c : VarId × BlockId × Nat)
    (hg : g.Refines s.graph) (hr : AllLeaves s.replacements) :
    g.Refines (take vars s c).graph ∧ AllLeaves (take vars s c).replacements := by
  unfold take
  split
  · exact ⟨hg, hr⟩
  · rename_i value hm
    obtain ⟨hmov, b, target, eliminated, source, hb, hs⟩ := movable?_eq_some hm
    obtain ⟨v, rfl⟩ := isMovable_iff hmov
    exact ⟨hg.trans (refines_eliminate hb hs rfl), hr.insert _ v⟩

theorem refines_foldl_take (vars : Variables) {g : Graph} (cs : List (VarId × BlockId × Nat))
    {s : State} (hg : g.Refines s.graph) (hr : AllLeaves s.replacements) :
    g.Refines (cs.foldl (take vars) s).graph ∧
      AllLeaves (cs.foldl (take vars) s).replacements := by
  induction cs generalizing s with
  | nil => exact ⟨hg, hr⟩
  | cons c rest ih =>
    obtain ⟨hg', hr'⟩ := refines_take c hg hr
    exact ih hg' hr'

end VariableInlining

open VariableInlining in
/-- Inlining refines the graph: it takes candidates one by one and replaces at the end. -/
theorem Context.refines_inlineVariables (ctx : Context) :
    ctx.graph.Refines ctx.inlineVariables.1.graph := by
  obtain ⟨hg, hr⟩ := refines_foldl_take ctx.vars (candidates (countGraph ctx.graph))
    (s := { graph := ctx.graph }) (.refl _) (by simp [AllLeaves])
  dsimp only [inlineVariables]
  split
  · exact .refl _
  · exact hg.trans (refines_replaceAll hr _)

theorem Context.options_inlineVariables (ctx : Context) :
    ctx.inlineVariables.1.options = ctx.options := by
  dsimp only [inlineVariables]
  split <;> rfl

/-! ## Promotion -/

namespace Promotion

variable {sp : String}

/-- Variables are leaves like registers. -/
theorem harmless_readNode : Harmless (readNode sp) where
  control e he := by
    cases e <;> first | rfl | cases he
  plain e he := by
    unfold readNode
    split
    · split
      · exact .pure (plain_leaf _)
      · exact Yields.bind (P := fun _ => True) (fun _ => trivial) fun _ _ => .pure (plain_leaf _)
    · exact .pure he

theorem plain_reads {e : Expr} (h : e.Plain) : Yields (reads sp e) Plain :=
  harmless_readNode.plain_bottomUpM h

theorem plain_target {e : Expr} (h : e.Plain) : Yields (target sp e) Plain := by
  unfold target
  split
  · split
    · exact plain_reads h
    · exact Yields.bind (P := fun _ => True) (fun _ => trivial) fun _ _ => .pure (plain_leaf _)
  · exact plain_reads h

/-- A promoted statement keeps its control: an assignment stays one, and all else is promoted by
reads. -/
theorem keeps_statement (e : Expr) : Keeps e (statement sp e) := by
  intro s ht
  unfold statement
  split
  · rename_i place value
    have hp := plain_assign.mp (ht.plain rfl)
    have hy : Yields (do
        let value ← reads sp value
        let place ← target sp place
        pure (Expr.assign place value)) Plain :=
      (plain_reads hp.2).bind fun v hv => (plain_target hp.1).bind fun p hp =>
        .pure (plain_assign.mpr ⟨hp, hv⟩)
    exact ⟨(hy s).tidy, (hy s).control_eq⟩
  · exact harmless_readNode.keeps _ s ht

theorem refines_statements (ss : List Statement) :
    Yields (statements sp ss) (List.Forall₂ Stmt.Refines ss) :=
  .mapM fun s _ => (keeps_statement s.expr).bind fun _ he => .pure (.of_expr he)

section Visits

variable {P : Graph → Prop}
  (hstep : ∀ {g : Graph} {id : BlockId} {b : Block} (s : State), P g → g.block? id = some b →
    P (g.modify id fun b' => { b' with statements := ((statements sp b.statements).run s).1 }))

include hstep

/-! What promoting the statements of a single block keeps, visiting blocks keeps. -/

theorem visitBlock_of {t : Tour} (h : P t.graph) (id : BlockId) (bindings : Bindings) :
    P (visitBlock sp id bindings t).1.graph := by
  unfold visitBlock
  split
  · exact h
  · rename_i b hb
    exact hstep _ h hb

/-- A property that promoting a block keeps holds after all visits. -/
theorem visitReachable_of {t : Tour} (h : P t.graph) (steps : Nat)
    (stack : List (BlockId × Bindings)) : P (visitReachable sp steps stack t).graph := by
  induction steps generalizing stack t with
  | zero => exact h
  | succ steps ih =>
    unfold visitReachable
    split
    · exact h
    · exact ih (visitBlock_of hstep h _ _) _

theorem visitRest_of {t : Tour} (h : P t.graph) : P (visitRest sp t).graph := by
  refine List.foldlRecOn (motive := fun t : Tour => P t.graph) _ _ h fun t ht id _ => ?_
  split
  · exact ht
  · exact visitBlock_of hstep ht id {}

end Visits

end Promotion

namespace Context

open Promotion

/-- What promoting the statements of a single block keeps, promotion keeps. -/
theorem promote_of {P : Graph → Prop} (ctx : Context) (h : P ctx.graph)
    (hstep : ∀ {sp : String} {g : Graph} {id : BlockId} {b : Block} (s : Promotion.State), P g →
      g.block? id = some b →
      P (g.modify id fun b' => { b' with statements := ((statements sp b.statements).run s).1 })) :
    P ctx.promote.1.graph :=
  visitRest_of hstep (visitReachable_of hstep h _ _)

/-- Promotion refines the graph block by block, in whatever order it visits them. -/
theorem refines_promote (ctx : Context) : ctx.graph.Refines ctx.promote.1.graph := by
  refine ctx.promote_of (.refl _) fun s h hb => h.trans ?_
  refine forall₂_modify Block.Refines.refl fun b' hb' => ⟨rfl, ?_⟩
  cases hb.symm.trans hb'
  exact refines_statements _ s

end Context

/-! ## Runs of passes -/

/-- The passes that rebuild statements. -/
def Pass.rebuilding : List Pass :=
  [.promotion, .fieldRecovery, .usageInlining, .literalInlining, .folding, .variableInlining]

/-- Every pass that rebuilds statements refines the graph and does not fail. -/
theorem Pass.refines_of_rebuilding {p : Pass} (hp : p ∈ Pass.rebuilding) (n : Nat)
    (ctx : Context) : ∃ changed ctx', (p.run n).run.run ctx = (.ok changed, ctx') ∧
      ctx.graph.Refines ctx'.graph := by
  simp only [Pass.rebuilding, List.mem_cons, List.not_mem_nil, or_false] at hp
  rcases hp with rfl | rfl | rfl | rfl | rfl | rfl
  · exact ⟨_, _, rfl, ctx.refines_promote⟩
  · exact ⟨_, _, rfl, ctx.refines_recoverData⟩
  · exact ⟨_, _, rfl, ctx.refines_inlineUsages⟩
  · exact ⟨_, _, rfl, ctx.refines_inlineLiterals⟩
  · exact ⟨_, _, rfl, ctx.refines_foldConstants⟩
  · exact ⟨_, _, rfl, ctx.refines_inlineVariables⟩

/-- A context becomes another one by runs of passes that rebuild statements, in any number and
order, with anything written to the journal in between. -/
inductive Context.Rebuilt (ctx : Context) : Context → Prop
  | refl : ctx.Rebuilt ctx
  | run {ctx' ctx'' : Context} {p : Pass} {n : Nat} {changed : Bool} (h : ctx.Rebuilt ctx')
    (hp : p ∈ Pass.rebuilding) (hrun : (p.run n).run.run ctx' = (.ok changed, ctx'')) :
    ctx.Rebuilt ctx''
  | write {ctx' : Context} (h : ctx.Rebuilt ctx') (journal : Journal) :
    ctx.Rebuilt { ctx' with journal }

/-- Rebuilding passes in any number refine the graph. -/
theorem Context.Rebuilt.refines {ctx ctx' : Context} (h : ctx.Rebuilt ctx') :
    ctx.graph.Refines ctx'.graph := by
  induction h with
  | refl => exact .refl _
  | @run ctx' ctx'' p n changed _ hp hrun ih =>
    obtain ⟨changed', c, hrun', hr⟩ := Pass.refines_of_rebuilding hp n ctx'
    cases hrun.symm.trans hrun'
    exact ih.trans hr
  | write _ journal ih => exact ih

end MethodLift
