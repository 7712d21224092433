import MethodLift.Proofs.Block.Assignments
import MethodLift.Proofs.Expr.Parts
import MethodLift.Proofs.Pass.Rewriting

/-!
# The analyses bring no new variables

An analysis puts constants and fields in the place of parts of a statement. It never makes a
variable of something else, nor something else of a variable, and whatever variable it leaves was
there before. So a statement assigns to the variable that it assigned to and reads at most the
variables that it read: it is *narrowed*. A method keeps its single assignments that way.
-/

namespace MethodLift

open Expr

/-! ## Narrowed expressions -/

namespace Expr

/-- The variables of an expression afterwards are those before, or fewer. -/
structure Narrows (e e' : Expr) : Prop where
  var?_eq : e'.var? = e.var?
  assigned?_eq : e'.assigned? = e.assigned?
  leaves : ∀ v, .var v ∈ e'.leaves → .var v ∈ e.leaves
  used : ∀ v, .var v ∈ e'.used → .var v ∈ e.used

namespace Narrows

variable {e e' e'' target target' value value' : Expr}

theorem refl (e : Expr) : Narrows e e := ⟨rfl, rfl, fun _ h => h, fun _ h => h⟩

theorem trans (h : Narrows e e') (h' : Narrows e' e'') : Narrows e e'' where
  var?_eq := h'.var?_eq.trans h.var?_eq
  assigned?_eq := h'.assigned?_eq.trans h.assigned?_eq
  leaves v hv := h.leaves v (h'.leaves v hv)
  used v hv := h.used v (h'.used v hv)

/-- An expression that assigns to nothing is narrowed as its leaves are. -/
theorem of_leaves (hvar : e'.var? = e.var?) (he : e.assigned? = none) (he' : e'.assigned? = none)
    (hleaves : ∀ v, .var v ∈ e'.leaves → .var v ∈ e.leaves) : Narrows e e' where
  var?_eq := hvar
  assigned?_eq := he'.trans he.symm
  leaves := hleaves
  used := by
    rw [used_of_assigned? he, used_of_assigned? he']
    exact hleaves

/-- A constant may stand for anything but a variable and an assignment. -/
theorem of_constant {l : Leaf} (hl : l.isConstant = true) (hvar : e.var? = none)
    (he : e.assigned? = none) : Narrows e (.leaf l) := by
  refine of_leaves ?_ he rfl fun v hv => ?_
  · rw [hvar]
    cases l with
    | var v => cases hl
    | _ => rfl
  · rw [leaves_leaf, List.mem_singleton] at hv
    rw [← hv] at hl
    cases hl

/-- Narrowing makes no variables and takes none away. -/
theorem eq_var (h : Narrows target target') {v : VarId} : target' = .var v ↔ target = .var v := by
  have hvar : ∀ {e : Expr}, e.var? = some v ↔ e = .var v := by
    intro e
    constructor
    · intro he
      unfold var? at he
      split at he
      · cases he
        rfl
      · cases he
    · rintro rfl
      rfl
  rw [← hvar, ← hvar, h.var?_eq]

/-- An assignment whose sides are narrowed. -/
theorem assign (ht : Narrows target target') (hv : Narrows value value') :
    Narrows (.assign target value) (.assign target' value') := by
  have hleaves : ∀ v, .var v ∈ (Expr.assign target' value').leaves →
      .var v ∈ (Expr.assign target value).leaves := by
    intro v
    rw [leaves_assign, leaves_assign, List.mem_append, List.mem_append]
    exact Or.imp (hv.leaves v) (ht.leaves v)
  cases h : (Expr.assign target value).assigned? with
  | some v =>
    obtain ⟨_, heq⟩ := assigned?_eq_some.mp h
    obtain ⟨rfl, -⟩ := Expr.assign.inj heq
    cases ht.eq_var.mpr rfl
    exact ⟨rfl, rfl, hleaves, hv.leaves⟩
  | none =>
    refine of_leaves rfl h ?_ hleaves
    refine Option.eq_none_iff_forall_ne_some.mpr fun v h' => ?_
    obtain ⟨_, heq⟩ := assigned?_eq_some.mp h'
    obtain ⟨rfl, -⟩ := Expr.assign.inj heq
    cases ht.eq_var.mp rfl
    cases h

end Narrows

theorem var?_withParts (e : Expr) (ps : List Expr) : (e.withParts ps).var? = e.var? := by
  unfold withParts
  split <;> rfl

theorem leaf?_withParts (e : Expr) (ps : List Expr) : (e.withParts ps).leaf? = e.leaf? := by
  unfold withParts
  split <;> rfl

theorem assigned?_withParts {e : Expr} (h : ∀ target value, e ≠ .assign target value)
    (ps : List Expr) : (e.withParts ps).assigned? = none := by
  refine Option.eq_none_iff_forall_ne_some.mpr fun v hv => ?_
  obtain ⟨value, heq⟩ := assigned?_eq_some.mp hv
  unfold withParts at heq
  split at heq
  case h_1 => exact h _ _ rfl
  case h_12 => exact h _ value heq
  all_goals cases heq

/-- Narrowed parts narrow the whole. -/
theorem narrows_withParts {e : Expr} {ps : List Expr} (h : List.Forall₂ Narrows e.parts ps) :
    Narrows e (e.withParts ps) := by
  have hleaves : ∀ v, .var v ∈ (e.withParts ps).leaves → .var v ∈ e.leaves := by
    intro v
    rw [leaves_eq, leaves_eq e, leaf?_withParts, parts_withParts h.length_eq.symm,
      List.mem_append, List.mem_append]
    refine Or.imp_right fun hv => ?_
    obtain ⟨p', hp', hv⟩ := List.mem_flatMap.mp hv
    obtain ⟨p, hp, hnarrows⟩ := exists_of_forall₂ h hp'
    exact List.mem_flatMap.mpr ⟨p, hp, hnarrows.leaves v hv⟩
  by_cases hassign : ∃ target value, e = .assign target value
  · obtain ⟨target, value, rfl⟩ := hassign
    cases h with
    | cons hvalue h =>
      cases h with
      | cons htarget h =>
        cases h
        exact htarget.assign hvalue
  · have hne : ∀ target value, e ≠ .assign target value := fun t v he => hassign ⟨t, v, he⟩
    have hnone : e.assigned? = none := withParts_parts e ▸ assigned?_withParts hne e.parts
    exact .of_leaves (var?_withParts e ps) hnone (assigned?_withParts hne ps) hleaves

/-- The step narrows what it is given. -/
def Frugal {σ : Type} (f : Expr → StateM σ Expr) : Prop := ∀ e, Yields (f e) (Narrows e)

namespace Frugal

variable {σ : Type} {f : Expr → StateM σ Expr}

/-- A walk whose steps narrow narrows the whole expression. -/
theorem bottomUpM (hf : Frugal f) (e : Expr) : Yields (e.bottomUpM f) (Narrows e) := by
  refine yields_bottomUpM (fun e ps hps => ?_) e
  exact (hf (e.withParts ps)).mono fun _ => (narrows_withParts hps).trans

/-- A walk through a statement narrows it. The assignment stays one with its target, which is all
that has to be shown beyond the walk through parts. -/
theorem bottomUpLoadsM (hf : Frugal f) (e : Expr) : Yields (e.bottomUpLoadsM f) (Narrows e) := by
  unfold Expr.bottomUpLoadsM
  split
  · rename_i address value
    refine (hf.bottomUpM value).bind fun value' hvalue => ?_
    refine (hf.bottomUpM address).bind fun address' haddress => ?_
    have hderef : Narrows (.deref address) (.deref address') :=
      narrows_withParts (e := .deref address) (.cons haddress .nil)
    exact (hf _).mono fun _ => (hderef.assign hvalue).trans
  · exact hf.bottomUpM _

end Frugal

end Expr

/-! ## The steps of the analyses -/

/-- A recovered field reads what the access read. -/
theorem FieldRecovery.frugal_node {image : Program} {vars : Variables} {block : BlockId}
    {source : Option Nat} : Frugal (node image vars block source) := by
  intro e
  unfold node
  split
  · rename_i object offset
    split
    · refine Yields.bind (P := fun _ => True) (fun _ => trivial) fun _ _ => .pure ?_
      refine .of_leaves rfl rfl rfl fun v hv => ?_
      rw [leaves_deref, leaves_arith]
      exact List.mem_append_left _ hv
    · exact .pure (.refl _)
  · exact .pure (.refl e)

namespace UsageInlining

variable {image : Program} {options : Options} {block : BlockId}

/-- What a number becomes narrows whatever it stands for. -/
theorem narrows_inline? {e : Expr} (hvar : e.var? = none) (he : e.assigned? = none) (v : Int64) :
    Yields (inline? image options block v) fun r => Narrows e (r.getD e) := by
  unfold inline?
  split
  · exact .pure (.refl e)
  · refine Yields.bind (P := fun _ => True) (fun _ => trivial) fun _ _ => .pure ?_
    exact .of_constant rfl hvar he

theorem frugal_value : Frugal (value image options block) := by
  intro e
  unfold value
  split
  · exact (narrows_inline? rfl rfl _).bind fun _ h => .pure h
  · exact .pure (.refl e)

theorem frugal_storeTarget : Frugal (storeTarget image options block) := by
  intro e
  unfold storeTarget
  split
  · rename_i address
    refine (frugal_value address).bind fun _ h => .pure ?_
    exact narrows_withParts (e := .deref address) (.cons h .nil)
  · exact .pure (.refl e)

/-- A slot stands for itself and reads nothing. -/
theorem frugal_node : Frugal (node image options block) := by
  intro e
  unfold node
  split
  · exact (narrows_inline? rfl rfl _).bind fun _ h => .pure h
  · exact .pure (.of_constant rfl rfl rfl)
  · refine (frugal_storeTarget _).bind fun _ ht => (frugal_value _).bind fun _ hv => .pure ?_
    exact ht.assign hv
  · rename_i target args returns
    refine (Yields.mapM fun a _ => frugal_value a).bind fun args' hargs => .pure ?_
    exact narrows_withParts (e := .call target args returns) (.cons (.refl target) hargs)
  · rename_i kind left right
    refine (frugal_value left).bind fun _ hl => (frugal_value right).bind fun _ hr => .pure ?_
    exact narrows_withParts (e := .compare kind left right) (.cons hl (.cons hr .nil))
  · exact .pure (.refl e)

end UsageInlining

/-- A string reads nothing. -/
theorem LiteralInlining.frugal_node {image : Program} {options : Options} {block : BlockId} :
    Frugal (node image options block) := by
  intro e
  unfold node
  split
  · refine Yields.bind (P := fun _ => True) (fun _ => trivial) fun _ _ => .pure ?_
    exact .of_constant rfl rfl rfl
  · split
    · refine Yields.bind (P := fun _ => True) (fun _ => trivial) fun _ _ => .pure ?_
      exact .of_constant rfl rfl rfl
    · exact .pure (.refl _)
  · exact .pure (.refl e)

/-- A number reads nothing. -/
theorem Folding.frugal_node {block : BlockId} : Frugal (node block) := by
  intro e
  unfold node
  split
  · rename_i v hv
    refine Yields.bind (P := fun _ => True) (fun _ => trivial) fun _ _ => .pure ?_
    unfold fold? at hv
    split at hv
    · exact .of_constant rfl rfl rfl
    · exact .of_constant rfl rfl rfl
    · cases hv
  · exact .pure (.refl e)

/-! ## Narrowed graphs -/

/-- A statement that is narrowed, and eliminated or live as before. -/
def Stmt.Narrows (s s' : Statement) : Prop :=
  s'.eliminated = s.eliminated ∧ s.expr.Narrows s'.expr

/-- A graph whose statements are narrowed in their places. -/
def Graph.Narrows (g g' : Graph) : Prop :=
  List.Forall₂ (fun b b' : Block =>
    b'.toBlockHead = b.toBlockHead ∧ List.Forall₂ Stmt.Narrows b.statements b'.statements)
    g.blocks g'.blocks

/-- Refining live statements with frugal steps narrows the graph. -/
theorem Context.narrows_refineLive {f : Block → Statement → Refine Expr}
    (hf : ∀ b s, Yields (f b s) s.expr.Narrows) (ctx : Context) :
    ctx.graph.Narrows (ctx.refineLive f).1.graph :=
  Graph.yields_mapLiveM (R := Stmt.Narrows) (fun s => ⟨rfl, .refl s.expr⟩)
    (fun b s => (hf b s).mono fun _ he => ⟨rfl, he⟩) ctx.graph {}

namespace Context

variable (ctx : Context)

theorem narrows_recoverData : ctx.graph.Narrows ctx.recoverData.1.graph :=
  ctx.narrows_refineLive fun _ s => FieldRecovery.frugal_node.bottomUpM s.expr

theorem narrows_inlineUsages : ctx.graph.Narrows ctx.inlineUsages.1.graph :=
  ctx.narrows_refineLive fun _ s => UsageInlining.frugal_node.bottomUpLoadsM s.expr

theorem narrows_inlineLiterals : ctx.graph.Narrows ctx.inlineLiterals.1.graph :=
  ctx.narrows_refineLive fun _ s => LiteralInlining.frugal_node.bottomUpLoadsM s.expr

theorem narrows_foldConstants : ctx.graph.Narrows ctx.foldConstants.1.graph :=
  ctx.narrows_refineLive fun _ s => Folding.frugal_node.bottomUpM s.expr

end Context

namespace Graph.Narrows

variable {g g' : Graph}

/-- The live statements of a block are narrowed in their order. -/
theorem code (h : g.Narrows g') (i : BlockId) :
    List.Forall₂ Expr.Narrows (g.code i) (g'.code i) := by
  have hlive : ∀ {ss ss' : List Statement}, List.Forall₂ Stmt.Narrows ss ss' →
      List.Forall₂ Expr.Narrows ((ss.filter fun s => !s.eliminated).map (·.expr))
        ((ss'.filter fun s => !s.eliminated).map (·.expr)) := by
    intro ss ss' hss
    induction hss with
    | nil => exact .nil
    | @cons s s' _ _ hs _ ih =>
      rw [List.filter_cons, List.filter_cons, hs.1]
      split
      · exact .cons hs.2 ih
      · exact ih
  unfold Graph.code
  cases hb' : g'.block? i with
  | some b' =>
    obtain ⟨b, hb, -, hss⟩ := block?_of_forall₂ h hb'
    rw [hb]
    exact hlive hss
  | none =>
    have hb : g.block? i = none := by
      unfold Graph.block? at hb' ⊢
      rw [List.getElem?_eq_none_iff] at hb' ⊢
      exact h.length_eq ▸ hb'
    rw [hb]
    exact .nil

theorem assignedIn_eq (h : g.Narrows g') (i : BlockId) :
    assignedIn (g'.code i) = assignedIn (g.code i) := by
  have hmap : (g'.code i).map assigned? = (g.code i).map assigned? :=
    map_eq_of_forall₂ (h.code i) fun _ _ he => he.assigned?_eq
  simpa [assignedIn] using congrArg (List.filterMap id) hmap

/-- The analyses keep single assignments. -/
theorem single (h : g.Narrows g') (hg : g.SingleAssignment) : g'.SingleAssignment where
  id_eq hb' := by
    obtain ⟨b, hb, hhead, -⟩ := block?_of_forall₂ h hb'
    rw [← hg.id_eq hb, hhead]
  once i := by
    rw [h.assignedIn_eq]
    exact hg.once i
  apart hne := by
    rw [h.assignedIn_eq, h.assignedIn_eq]
    exact hg.apart hne
  smaller := by
    intro i v value' hmem w hw
    obtain ⟨e, he, hnarrows⟩ := exists_of_forall₂ (h.code i) hmem
    obtain ⟨value, rfl⟩ := assigned?_eq_some.mp hnarrows.assigned?_eq.symm
    exact hg.smaller he (hnarrows.used w hw)

end Graph.Narrows

end MethodLift
