import MethodLift.Pipeline.Lift
import MethodLift.Proofs.Expr.Parts
import MethodLift.Proofs.Pass.Rewriting
import Mathlib.Algebra.GroupWithZero.Nat

/-!
# How much is left to analyse

An analysis replaces memory accesses, numbers and operations by something that is none of them, and
gives types to variables that have none. What it may still replace or type is the *weight* of a
method: no analysis makes a method heavier, and one that reports a change makes it lighter.
-/

namespace MethodLift

open Expr

/-! ## Weights -/

namespace Expr

/-- A memory access, a number or an operation. -/
def isReducible : Expr → Bool
  | .deref _ | .leaf (.immediate _) | .arith _ _ _ | .complement _ => true
  | _ => false

/-- The number of memory accesses, numbers and operations in an expression. -/
def weight (e : Expr) : Nat := e.nodes.countP isReducible

/-- The weight of an expression is its own and that of its parts. -/
theorem weight_eq (e : Expr) : e.weight = e.isReducible.toNat + (e.parts.map weight).sum :=
  countP_nodes isReducible e

theorem isReducible_withParts (e : Expr) (ps : List Expr) :
    (e.withParts ps).isReducible = e.isReducible := by
  unfold withParts
  split <;> rfl

section Forms

variable {target value left right operand : Expr}

@[simp] theorem weight_immediate (v : Int64) : (immediate v).weight = 1 := rfl
@[simp] theorem weight_usage (u : Usage) : (leaf (.usage u)).weight = 0 := rfl
@[simp] theorem weight_literal (text : String) : (leaf (.literal text)).weight = 0 := rfl
@[simp] theorem weight_deref : (deref operand).weight = operand.weight + 1 := by
  simp [weight_eq (deref _), isReducible, parts, Nat.add_comm]
@[simp] theorem weight_complement : (complement operand).weight = operand.weight + 1 := by
  simp [weight_eq (complement _), isReducible, parts, Nat.add_comm]
@[simp] theorem weight_arith {op : ArithOp} :
    (arith op left right).weight = left.weight + right.weight + 1 := by
  simp [weight_eq (arith _ _ _), isReducible, parts, Nat.add_comm]
@[simp] theorem weight_member {field : Field} : (member operand field).weight = operand.weight := by
  simp [weight_eq (member _ _), isReducible, parts]
@[simp] theorem weight_assign : (assign target value).weight = value.weight + target.weight := by
  simp [weight_eq (assign _ _), isReducible, parts]
@[simp] theorem weight_compare {kind : Comparison} :
    (compare kind left right).weight = left.weight + right.weight := by
  simp [weight_eq (compare _ _ _), isReducible, parts]
@[simp] theorem weight_call {args : List Expr} {returns : Bool} :
    (call target args returns).weight = target.weight + (args.map weight).sum := by
  simp [weight_eq (call _ _ _), isReducible, parts]

end Forms

end Expr

def Block.weight (b : Block) : Nat := (b.live.map fun s => s.expr.weight).sum

def Graph.weight (g : Graph) : Nat := (g.blocks.map Block.weight).sum

def Variables.untyped (t : Variables) : Nat := t.entries.countP fun v => v.type.isNone

/-- How much is left to analyse in a method. -/
def Context.weight (ctx : Context) : Nat := ctx.graph.weight + ctx.vars.untyped

/-- The sum of a measure over the live statements of a block. -/
def Block.total (μ : Expr → Nat) (b : Block) : Nat := (b.live.map fun s => μ s.expr).sum

/-- The sum of a measure over the live statements of a graph. -/
def Graph.total (μ : Expr → Nat) (g : Graph) : Nat := (g.blocks.map (Block.total μ)).sum

/-- What a statement adds to the total of its block. -/
def Stmt.total (μ : Expr → Nat) (s : Statement) : Nat := if s.eliminated then 0 else μ s.expr

/-- A block's total counts its statements one by one, eliminated ones with nothing. -/
theorem Block.total_eq (μ : Expr → Nat) (b : Block) :
    b.total μ = (b.statements.map (Stmt.total μ)).sum := by
  unfold Block.total live
  induction b.statements with
  | nil => rfl
  | cons s rest ih =>
    rw [List.map_cons, List.sum_cons, ← ih, List.filter_cons]
    cases h : s.eliminated <;> simp [Stmt.total, h]

/-! ## Work that makes something lighter -/

/-- Only transformations were recorded. -/
def Progress.Genuine (p : Progress) : Prop := ∀ e ∈ p.events, e.kind.isTransformation = true

/-- Work on something of weight `n` ends with something that is no heavier, and that is lighter
when a change was reported. It records transformations only. -/
def Lightens {α : Type} (n : Nat) (x : Refine α) (weight : α → Nat) : Prop :=
  ∀ p, p.Genuine → (x.run p).2.Genuine ∧
    weight (x.run p).1 + (x.run p).2.changed.toNat ≤ n + p.changed.toNat

namespace Lightens

variable {α β : Type} {n : Nat} {μ : α → Nat} {ν : β → Nat}

theorem pure {a : α} (h : μ a ≤ n) : Lightens n (Pure.pure a) μ :=
  fun _ hp => ⟨hp, Nat.add_le_add_right h _⟩

/-- A change that is recorded has to make something lighter. -/
theorem note {e : Event} {a : α} (he : e.kind.isTransformation = true) (h : μ a < n) :
    Lightens n (do Refine.note e; Pure.pure a) μ := by
  intro p hp
  refine ⟨List.forall_mem_append.mpr ⟨hp, by simpa using he⟩, ?_⟩
  exact Nat.le_trans h (Nat.le_add_right _ _)

theorem mark {a : α} (h : μ a < n) : Lightens n (do Refine.mark; Pure.pure a) μ :=
  fun _ hp => ⟨hp, Nat.le_trans h (Nat.le_add_right _ _)⟩

/-- Work in sequence: what the first part takes away need not be taken away again. -/
theorem bind_of_yields {P : α → Prop} {x : Refine α} {f : α → Refine β} (hx : Lightens n x μ)
    (hP : Yields x P) (hf : ∀ a, P a → Lightens (μ a) (f a) ν) : Lightens n (x >>= f) ν := by
  intro p hp
  obtain ⟨hgenuine, hle⟩ := hx p hp
  obtain ⟨hgenuine', hle'⟩ := hf _ (hP p) _ hgenuine
  exact ⟨hgenuine', Nat.le_trans hle' hle⟩

theorem bind {x : Refine α} {f : α → Refine β} (hx : Lightens n x μ)
    (hf : ∀ a, Lightens (μ a) (f a) ν) : Lightens n (x >>= f) ν :=
  hx.bind_of_yields (P := fun _ => True) (fun _ => trivial) fun a _ => hf a

/-- What stands beside the work does not matter. -/
theorem frame {x : Refine α} (hx : Lightens n x μ) (k : Nat) :
    Lightens (n + k) x fun a => μ a + k := by
  intro p hp
  obtain ⟨hgenuine, hle⟩ := hx p hp
  exact ⟨hgenuine, by dsimp only; omega⟩

theorem of_le {m : Nat} {x : Refine α} (hx : Lightens n x μ) (h : n ≤ m) : Lightens m x μ :=
  fun p hp => ⟨(hx p hp).1, Nat.le_trans (hx p hp).2 (Nat.add_le_add_right h _)⟩

theorem of_yields {ν : α → Nat} {x : Refine α} (hx : Lightens n x μ)
    (h : Yields x fun a => ν a ≤ μ a) : Lightens n x ν :=
  fun p hp => ⟨(hx p hp).1, Nat.le_trans (Nat.add_le_add_right (h p) _) (hx p hp).2⟩

theorem mapM {l : List α} {f : α → Refine β} (h : ∀ a ∈ l, Lightens (μ a) (f a) ν) :
    Lightens (l.map μ).sum (l.mapM f) fun l' => (l'.map ν).sum := by
  induction l with
  | nil => exact .pure (Nat.le_refl 0)
  | cons a rest ih =>
    obtain ⟨ha, hrest⟩ := List.forall_mem_cons.mp h
    rw [List.mapM_cons, List.map_cons, List.sum_cons]
    refine (ha.frame _).bind fun b => ?_
    refine (((ih hrest).frame (ν b)).of_le (by omega)).bind fun bs => .pure (Nat.le_of_eq ?_)
    rw [List.map_cons, List.sum_cons, Nat.add_comm]

/-! Rebuilding an expression makes it lighter when every single step does. -/

section BottomUp

variable {f : Expr → Refine Expr}

/-- The same for parts of any kind that rebuilding keeps, in the place of those with a weight. -/
theorem bottomUpM_countP {p : Expr → Bool} (hp : ∀ e ps, p (e.withParts ps) = p e)
    (hf : ∀ e, Lightens (e.nodes.countP p) (f e) fun e => e.nodes.countP p) (e : Expr) :
    Lightens (e.nodes.countP p) (e.bottomUpM f) fun e => e.nodes.countP p := by
  induction e using byAllParts with
  | h e ih =>
    rw [bottomUpM_eq, countP_nodes]
    have hlength : Yields (e.parts.mapM (Expr.bottomUpM f)) fun ps => ps.length = e.parts.length :=
      (Yields.mapM (R := fun _ _ => True) fun _ _ _ => trivial).mono fun _ h => h.length_eq.symm
    have hparts := ((mapM ih).frame (p e).toNat).of_le (Nat.le_of_eq (Nat.add_comm _ _))
    refine hparts.bind_of_yields hlength fun ps hps => (hf _).of_le (Nat.le_of_eq ?_)
    rw [countP_nodes, hp, parts_withParts hps, Nat.add_comm]

/-- A walk through an expression is no heavier at its end, and is lighter when some step reported a
change. -/
theorem bottomUpM (hf : ∀ e, Lightens e.weight (f e) weight) (e : Expr) :
    Lightens e.weight (e.bottomUpM f) weight :=
  bottomUpM_countP isReducible_withParts hf e

theorem bottomUpLoadsM (hf : ∀ e, Lightens e.weight (f e) weight) (e : Expr) :
    Lightens e.weight (e.bottomUpLoadsM f) weight := by
  unfold Expr.bottomUpLoadsM
  split
  · rename_i address value
    refine (((bottomUpM hf value).frame (address.weight + 1)).of_le (Nat.le_of_eq ?_)).bind
      fun v => ?_
    · rw [weight_assign, weight_deref]
    refine (((bottomUpM hf address).frame (v.weight + 1)).of_le ?_).bind fun a => (hf _).of_le ?_
    · omega
    · rw [weight_assign, weight_deref]
      omega
  · exact bottomUpM hf _

end BottomUp

/-- A sweep over a graph makes it lighter whenever it reports a change. -/
theorem mapLiveM {f : Block → Statement → Refine Expr} {μ : Expr → Nat}
    (hf : ∀ b s, Lightens (μ s.expr) (f b s) μ) (g : Graph) :
    Lightens (g.total μ) (g.mapLiveM f) (Graph.total μ) := by
  have hstep : ∀ b, ∀ s : Statement, Lightens (s.total μ)
      (if s.eliminated then Pure.pure s else do let e ← f b s; Pure.pure { s with expr := e })
      (Stmt.total μ) := by
    intro b s
    cases h : s.eliminated with
    | true => exact .pure (Nat.le_refl _)
    | false =>
      rw [Stmt.total, h]
      exact (hf b s).bind fun e => .pure (by simp [Stmt.total])
  have hblock : ∀ b ∈ g.blocks, Lightens (b.total μ) (b.mapLiveM (f b)) (Block.total μ) := by
    intro b _
    rw [Block.total_eq]
    exact (mapM fun s _ => hstep b s).bind fun ss => .pure (Nat.le_of_eq (Block.total_eq _ _))
  exact (mapM hblock).bind fun bs => .pure (Nat.le_refl _)

end Lightens

/-! ## The steps of the analyses -/

/-- A recovered field weighs less than the access and the sum that it replaces. -/
theorem FieldRecovery.lightens_node {image : Program} {vars : Variables} {block : BlockId}
    {source : Option Nat} (e : Expr) :
    Lightens e.weight (node image vars block source e) weight := by
  unfold node
  split
  · rename_i object offset
    split
    · refine .note rfl ?_
      rw [weight_member, weight_deref, weight_arith]
      omega
    · exact .pure (Nat.le_refl _)
  · exact .pure (Nat.le_refl _)

namespace UsageInlining

variable {image : Program} {options : Options} {block : BlockId}

/-- A number that is replaced makes what it stands in lighter. -/
theorem lightens_inline? {e : Expr} (v : Int64) (h : 0 < e.weight) :
    Lightens e.weight (inline? image options block v) fun r => (r.getD e).weight := by
  unfold inline?
  split
  · exact .pure (Nat.le_refl _)
  · exact .note rfl h

theorem lightens_value (e : Expr) : Lightens e.weight (value image options block e) weight := by
  unfold value
  split
  · exact (lightens_inline? _ (by simp)).bind fun r => .pure (Nat.le_refl _)
  · exact .pure (Nat.le_refl _)

theorem lightens_storeTarget (e : Expr) :
    Lightens e.weight (storeTarget image options block e) weight := by
  unfold storeTarget
  split
  · rename_i address
    rw [weight_deref]
    exact ((lightens_value address).frame 1).bind fun a => .pure (Nat.le_of_eq weight_deref)
  · exact .pure (Nat.le_refl _)

/-- A slot weighs nothing, and replaces a number or a load. -/
theorem lightens_node (e : Expr) : Lightens e.weight (node image options block e) weight := by
  unfold node
  split
  · exact (lightens_inline? _ (by simp)).bind fun r => .pure (Nat.le_refl _)
  · exact .pure (by simp)
  · rename_i target value
    rw [weight_assign, Nat.add_comm]
    refine ((lightens_storeTarget target).frame _).bind fun t => ?_
    refine (((lightens_value value).frame t.weight).of_le (by omega)).bind fun v =>
      .pure (Nat.le_of_eq weight_assign)
  · rename_i target arguments returns
    rw [weight_call, Nat.add_comm]
    refine ((Lightens.mapM fun a _ => lightens_value a).frame _).bind fun args => ?_
    exact .pure (Nat.le_of_eq (by rw [weight_call, Nat.add_comm]))
  · rename_i kind left right
    rw [weight_compare]
    refine ((lightens_value left).frame _).bind fun l => ?_
    refine (((lightens_value right).frame l.weight).of_le (by omega)).bind fun r => ?_
    exact .pure (Nat.le_of_eq (by rw [weight_compare, Nat.add_comm]))
  · exact .pure (Nat.le_refl _)

end UsageInlining

/-- A string weighs nothing, and replaces a load. -/
theorem LiteralInlining.lightens_node {image : Program} {options : Options} {block : BlockId}
    (e : Expr) : Lightens e.weight (node image options block e) weight := by
  unfold node
  split
  · exact .mark (by simp)
  · split
    · exact .note rfl (by simp)
    · exact .pure (Nat.le_refl _)
  · exact .pure (Nat.le_refl _)

namespace Folding

/-- What folds is an operation on numbers. -/
theorem weight_of_fold? {e : Expr} {v : Int64} (h : fold? e = some v) : 1 < e.weight := by
  unfold fold? at h
  split at h
  · simp
  · simp
  · cases h

/-- A folded operation becomes a single number, which weighs less. -/
theorem lightens_node {block : BlockId} (e : Expr) : Lightens e.weight (node block e) weight := by
  unfold node
  split
  · rename_i v hv
    exact .note rfl (weight_of_fold? hv)
  · exact .pure (Nat.le_refl _)

end Folding

end MethodLift
