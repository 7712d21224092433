import MethodLift.Proofs.Expr.Placeholders
import MethodLift.Proofs.Pass.Rewriting

/-!
# Passes that keep placeholders

A pass that rebuilds statements in their places puts constants, fields and variables where there was
something else, and none of these is a placeholder or takes the place of one. So a statement has the
placeholders that it had, in the same order, and is eliminated or live as before: it is *intact*.
What the analyses record stands for nothing that is in the account.
-/

namespace MethodLift

open Expr

/-! ## Intact graphs -/

def Block.eliminated (b : Block) : List Statement := b.statements.filter fun s => s.eliminated

namespace Graph

def statements (g : Graph) : List Statement := g.blocks.flatMap fun b => b.statements

/-- The placeholders in the statements of a graph, eliminated ones included. -/
def placeholders (g : Graph) : List Placeholder := g.statements.flatMap fun s => s.expr.placeholders

def eliminated (g : Graph) : List Statement := g.statements.filter fun s => s.eliminated

/-- No placeholder was eliminated. -/
def Bare (g : Graph) : Prop := ∀ s ∈ g.eliminated, s.expr.placeholders = []

theorem placeholders_eq (g : Graph) : g.placeholders = g.blocks.flatMap Block.placeholders :=
  List.flatMap_assoc

theorem eliminated_eq (g : Graph) : g.eliminated = g.blocks.flatMap Block.eliminated :=
  List.filter_flatMap

end Graph

/-- A statement with the placeholders that it had, eliminated or live as before. -/
def Stmt.Intact (s s' : Statement) : Prop :=
  s'.eliminated = s.eliminated ∧ s'.expr.placeholders = s.expr.placeholders

/-- A graph whose statements are intact. -/
def Graph.Intact (g g' : Graph) : Prop := List.Forall₂ Stmt.Intact g.statements g'.statements

namespace Graph.Intact

variable {g g' g'' : Graph}

theorem refl (g : Graph) : g.Intact g := List.forall₂_same.mpr fun _ _ => ⟨rfl, rfl⟩

theorem trans (h : g.Intact g') (h' : g'.Intact g'') : g.Intact g'' :=
  forall₂_trans (fun _ _ _ hs hs' => ⟨hs'.1.trans hs.1, hs'.2.trans hs.2⟩) h h'

/-- Statements may be compared block by block. -/
theorem of_blocks (h : List.Forall₂ (fun b b' : Block =>
    List.Forall₂ Stmt.Intact b.statements b'.statements) g.blocks g'.blocks) : g.Intact g' :=
  List.rel_flatMap h fun _ _ hb => hb

theorem placeholders_eq (h : g.Intact g') : g'.placeholders = g.placeholders :=
  flatMap_eq_of_forall₂ h fun _ _ hs => hs.2

theorem eliminated (h : g.Intact g') :
    List.Forall₂ Stmt.Intact g.eliminated g'.eliminated := by
  refine List.rel_filter (fun s s' hs => ?_) h
  show s.eliminated = true ↔ s'.eliminated = true
  rw [hs.1]

/-- No placeholder gets eliminated where all statements stay intact. -/
theorem bare (h : g.Intact g') (hg : g.Bare) : g'.Bare := by
  intro s' hs'
  obtain ⟨s, hs, -, heq⟩ := exists_of_forall₂ h.eliminated hs'
  exact heq.trans (hg s hs)

end Graph.Intact

/-! ## Steps that keep placeholders -/

namespace Expr

/-- The step keeps the placeholders of what it is given. -/
def Loyal {σ : Type} (f : Expr → StateM σ Expr) : Prop :=
  ∀ e, Yields (f e) fun e' => e'.placeholders = e.placeholders

namespace Loyal

variable {σ : Type} {f : Expr → StateM σ Expr}

/-- A walk of loyal steps keeps all placeholders, in their order. -/
theorem bottomUpM (hf : Loyal f) (e : Expr) :
    Yields (e.bottomUpM f) fun e' => e'.placeholders = e.placeholders := by
  refine yields_bottomUpM (R := fun e e' => e'.placeholders = e.placeholders) (fun e ps hps => ?_) e
  exact (hf _).mono fun _ he => he.trans (placeholders_withParts hps)

theorem bottomUpLoadsM (hf : Loyal f) (e : Expr) :
    Yields (e.bottomUpLoadsM f) fun e' => e'.placeholders = e.placeholders := by
  unfold Expr.bottomUpLoadsM
  split
  · refine (hf.bottomUpM _).bind fun value hvalue => ?_
    refine (hf.bottomUpM _).bind fun address haddress => ?_
    refine (hf _).mono fun _ he => he.trans ?_
    simp [hvalue, haddress]
  · exact hf.bottomUpM _

end Loyal

end Expr

/-- A recovered field keeps the placeholders of its object. -/
theorem FieldRecovery.loyal_node {image : Program} {vars : Variables} {block : BlockId}
    {source : Option Nat} : Loyal (node image vars block source) := by
  intro e
  unfold node
  split
  · split
    · refine Yields.bind (P := fun _ => True) (fun _ => trivial) fun _ _ => .pure ?_
      rw [placeholders_member, placeholders_deref, placeholders_arith]
      exact (List.append_nil _).symm
    · exact .pure rfl
  · exact .pure rfl

namespace UsageInlining

variable {image : Program} {options : Options} {block : BlockId}

/-- What a number becomes is no placeholder. -/
theorem loyal_inline? {e : Expr} (he : e.placeholders = []) (v : Int64) :
    Yields (inline? image options block v) fun r => (r.getD e).placeholders = e.placeholders := by
  unfold inline?
  split
  · exact .pure rfl
  · exact Yields.bind (P := fun _ => True) (fun _ => trivial) fun _ _ => .pure he.symm

theorem loyal_value : Loyal (value image options block) := by
  intro e
  unfold value
  split
  · exact (loyal_inline? rfl _).bind fun _ h => .pure h
  · exact .pure rfl

theorem loyal_storeTarget : Loyal (storeTarget image options block) := by
  intro e
  unfold storeTarget
  split
  · exact (loyal_value _).bind fun _ h => .pure h
  · exact .pure rfl

/-- Numbers and loads of numbers hold no placeholders. -/
theorem loyal_node : Loyal (node image options block) := by
  intro e
  unfold node
  split
  · exact (loyal_inline? rfl _).bind fun _ h => .pure h
  · exact .pure rfl
  · refine (loyal_storeTarget _).bind fun _ ht => (loyal_value _).bind fun _ hv => .pure ?_
    rw [placeholders_assign, placeholders_assign, ht, hv]
  · rename_i target args returns
    refine (Yields.mapM fun a _ => loyal_value a).bind fun args' hargs => .pure ?_
    exact placeholders_withParts (e := .call target args returns) (.cons rfl hargs)
  · rename_i kind left right
    refine (loyal_value left).bind fun _ hl => (loyal_value right).bind fun _ hr => .pure ?_
    exact placeholders_withParts (e := .compare kind left right) (.cons hl (.cons hr .nil))
  · exact .pure rfl

end UsageInlining

/-- Loads of numbers and strings hold no placeholders. -/
theorem LiteralInlining.loyal_node {image : Program} {options : Options} {block : BlockId} :
    Loyal (node image options block) := by
  intro e
  unfold node
  split
  · exact Yields.bind (P := fun _ => True) (fun _ => trivial) fun _ _ => .pure rfl
  · split
    · exact Yields.bind (P := fun _ => True) (fun _ => trivial) fun _ _ => .pure rfl
    · exact .pure rfl
  · exact .pure rfl

/-- Operations on numbers hold no placeholders. -/
theorem Folding.loyal_node {block : BlockId} : Loyal (node block) := by
  intro e
  unfold node
  split
  · rename_i v hv
    refine Yields.bind (P := fun _ => True) (fun _ => trivial) fun _ _ => .pure ?_
    unfold fold? at hv
    split at hv
    · rfl
    · rfl
    · cases hv
  · exact .pure rfl

/-! ## Events of the analyses -/

namespace Refine

/-- The work records events of one category only. -/
abbrev Notes {α : Type} (kind : EventKind) (x : Refine α) : Prop :=
  Preserves x fun p => ∀ e ∈ p.events, e.kind = kind

theorem notes_note {kind : EventKind} {e : Event} (h : e.kind = kind) : Notes kind (note e) :=
  fun _ hp => List.forall_mem_append.mpr ⟨hp, List.forall_mem_singleton.mpr h⟩

end Refine

open Refine

theorem FieldRecovery.notes_node {image : Program} {vars : Variables} {block : BlockId}
    {source : Option Nat} (e : Expr) : Notes .fieldResolved (node image vars block source e) := by
  unfold node
  split
  · split
    · exact (notes_note rfl).bind fun _ => .pure _
    · exact .pure _
  · exact .pure _

namespace UsageInlining

variable {image : Program} {options : Options} {block : BlockId}

theorem notes_inline? (v : Int64) : Notes .metadataInlined (inline? image options block v) := by
  unfold inline?
  split
  · exact .pure _
  · exact (notes_note rfl).bind fun _ => .pure _

theorem notes_value (e : Expr) : Notes .metadataInlined (value image options block e) := by
  unfold value
  split
  · exact (notes_inline? _).bind fun _ => .pure _
  · exact .pure _

theorem notes_storeTarget (e : Expr) :
    Notes .metadataInlined (storeTarget image options block e) := by
  unfold storeTarget
  split
  · exact (notes_value _).bind fun _ => .pure _
  · exact .pure _

theorem notes_node (e : Expr) : Notes .metadataInlined (node image options block e) := by
  unfold node
  split
  · exact (notes_inline? _).bind fun _ => .pure _
  · exact .pure _
  · exact (notes_storeTarget _).bind fun _ => (notes_value _).bind fun _ => .pure _
  · exact (Preserves.mapM fun a _ => notes_value a).bind fun _ => .pure _
  · exact (notes_value _).bind fun _ => (notes_value _).bind fun _ => .pure _
  · exact .pure _

end UsageInlining

theorem LiteralInlining.notes_node {image : Program} {options : Options} {block : BlockId}
    (e : Expr) : Notes .stringInlined (node image options block e) := by
  unfold node
  split
  · exact Preserves.bind (x := Refine.mark) (fun _ hp => hp) fun _ => .pure _
  · split
    · exact (notes_note rfl).bind fun _ => .pure _
    · exact .pure _
  · exact .pure _

theorem Folding.notes_node {block : BlockId} (e : Expr) : Notes .constantFolded (node block e) := by
  unfold node
  split
  · exact (notes_note rfl).bind fun _ => .pure _
  · exact .pure _

/-- Every type that is given is recorded as such. -/
theorem FieldRecovery.kind_applyTypes {vars : Variables} (found : List (VarId × TypeRef)) :
    ∀ e ∈ (applyTypes vars found).2, e.kind = .typePropagated := by
  induction found generalizing vars with
  | nil => exact List.forall_mem_nil _
  | cons p rest ih =>
    simp only [applyTypes]
    split
    · exact List.forall_mem_cons.mpr ⟨rfl, ih⟩
    · exact ih

/-! ## The analyses -/

/-- Rebuilding live statements with loyal steps keeps a graph intact. -/
theorem Graph.intact_mapLiveM {σ : Type} {f : Block → Statement → StateM σ Expr}
    (hf : ∀ b s, Yields (f b s) fun e => e.placeholders = s.expr.placeholders) (g : Graph) :
    Yields (g.mapLiveM f) g.Intact := by
  have hstep : ∀ b s, Yields (f b s) fun e => Stmt.Intact s { s with expr := e } :=
    fun b s => (hf b s).mono fun _ he => ⟨rfl, he⟩
  refine (yields_mapLiveM (fun s => ⟨rfl, rfl⟩) hstep g).mono fun g' h => ?_
  exact .of_blocks (List.Forall₂.imp (fun _ _ hb => hb.2) h)

/-- A context whose graph is intact, with the same account. -/
structure Context.Intact (ctx ctx' : Context) : Prop where
  graph : ctx.graph.Intact ctx'.graph
  account : ctx'.journal.events.account = ctx.journal.events.account

namespace Context

theorem Intact.trans {ctx ctx' ctx'' : Context} (h : ctx.Intact ctx') (h' : ctx'.Intact ctx'') :
    ctx.Intact ctx'' where
  graph := h.graph.trans h'.graph
  account := h'.account.trans h.account

/-- Recording events that are not accounted for keeps the account. -/
theorem account_recordAll {j : Journal} {kind : EventKind} (hkind : kind.isAccounted = false)
    {es : Events} (hes : ∀ e ∈ es, e.kind = kind) :
    (j.recordAll es).events.account = j.events.account := by
  have hnone : es.account = [] := by
    refine Events.account_eq_nil fun e he => ?_
    rw [hes e he, hkind]
  rw [Journal.events_recordAll, Events.account_append, hnone, List.append_nil]

/-- A sweep of loyal steps with records of a category that does not count leaves placeholders and
the account alone. -/
theorem intact_refineLive {f : Block → Statement → Refine Expr} {kind : EventKind}
    (hkind : kind.isAccounted = false)
    (hf : ∀ b s, Yields (f b s) fun e => e.placeholders = s.expr.placeholders)
    (hnotes : ∀ b s, Notes kind (f b s)) (ctx : Context) : ctx.Intact (ctx.refineLive f).1 where
  graph := Graph.intact_mapLiveM hf ctx.graph {}
  account := account_recordAll hkind (Graph.preserves_mapLiveM hnotes ctx.graph {} (by simp))

variable (ctx : Context)

open FieldRecovery in
theorem intact_propagateTypes : ctx.Intact ctx.propagateTypes.1 where
  graph := .refl _
  account := account_recordAll rfl (kind_applyTypes _)

theorem intact_recoverData : ctx.Intact ctx.recoverData.1 :=
  .trans (ctx.intact_refineLive rfl (fun _ s => FieldRecovery.loyal_node.bottomUpM s.expr)
    fun _ s => preserves_bottomUpM FieldRecovery.notes_node s.expr) (intact_propagateTypes _)

theorem intact_inlineUsages : ctx.Intact ctx.inlineUsages.1 :=
  ctx.intact_refineLive rfl (fun _ s => UsageInlining.loyal_node.bottomUpLoadsM s.expr)
    fun _ s => preserves_bottomUpLoadsM UsageInlining.notes_node s.expr

theorem intact_inlineLiterals : ctx.Intact ctx.inlineLiterals.1 :=
  ctx.intact_refineLive rfl (fun _ s => LiteralInlining.loyal_node.bottomUpLoadsM s.expr)
    fun _ s => preserves_bottomUpLoadsM LiteralInlining.notes_node s.expr

theorem intact_foldConstants : ctx.Intact ctx.foldConstants.1 :=
  ctx.intact_refineLive rfl (fun _ s => Folding.loyal_node.bottomUpM s.expr)
    fun _ s => preserves_bottomUpM Folding.notes_node s.expr

end Context

/-! ## Promotion -/

namespace Promotion

variable {sp : String}

theorem loyal_readNode : Loyal (readNode sp) := by
  intro e
  unfold readNode
  split
  · split
    · exact .pure rfl
    · exact Yields.bind (P := fun _ => True) (fun _ => trivial) fun _ _ => .pure rfl
  · exact .pure rfl

theorem loyal_target : Loyal (target sp) := by
  intro e
  unfold target
  split
  · split
    · exact loyal_readNode.bottomUpM _
    · exact Yields.bind (P := fun _ => True) (fun _ => trivial) fun _ _ => .pure rfl
  · exact loyal_readNode.bottomUpM _

theorem loyal_statement : Loyal (statement sp) := by
  intro e
  unfold statement
  split
  · refine (loyal_readNode.bottomUpM _).bind fun _ hv => (loyal_target _).bind fun _ hp => .pure ?_
    rw [placeholders_assign, placeholders_assign, hv, hp]
  · exact loyal_readNode.bottomUpM _

/-- Promotion changes registers only, so all placeholders of a block stay. -/
theorem intact_statements (ss : List Statement) :
    Yields (statements sp ss) (List.Forall₂ Stmt.Intact ss) :=
  .mapM fun s _ => (loyal_statement s.expr).bind fun _ he => .pure ⟨rfl, he⟩

end Promotion

/-- Promotion keeps placeholders and records nothing that counts. -/
theorem Context.intact_promote (ctx : Context) : ctx.Intact ctx.promote.1 where
  graph := by
    refine ctx.promote_of (.refl _) fun s h hb => h.trans (.of_blocks ?_)
    refine forall₂_modify (fun b => ?_) fun b' hb' => ?_
    · exact List.forall₂_same.mpr fun _ _ => ⟨rfl, rfl⟩
    · cases hb.symm.trans hb'
      exact Promotion.intact_statements _ s
  account := rfl

end MethodLift
