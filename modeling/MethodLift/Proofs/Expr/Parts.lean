import MethodLift.Proofs.Expr.Relabel
import MethodLift.Proofs.Work
import Mathlib.Algebra.GroupWithZero.Nat

/-!
# Parts of expressions

`Expr.parts` lists what stands directly inside an expression, in the order in which rebuilding
visits it, and `Expr.withParts` puts other parts in their places. Walking through an expression and
rebuilding it then work alike for all expressions: the parts come first and the whole last.
-/

namespace MethodLift.Expr

/-- What stands directly inside an expression. -/
def parts : Expr → List Expr
  | .assign target value => [value, target]
  | .compare _ left right | .arith _ left right => [left, right]
  | .complement e | .deref e | .member e _ | .jumpIf e _ | .ret e | .lane e _ => [e]
  | .guarded condition _ body => condition :: body.map (·.expr)
  | .call target arguments _ => target :: arguments
  | _ => []

/-- The expression with other parts in the places of its own. -/
def withParts : Expr → List Expr → Expr
  | .assign _ _, [value, target] => .assign target value
  | .compare kind _ _, [left, right] => .compare kind left right
  | .arith op _ _, [left, right] => .arith op left right
  | .complement _, [e] => .complement e
  | .deref _, [e] => .deref e
  | .member _ field, [e] => .member e field
  | .jumpIf _ target, [e] => .jumpIf e target
  | .ret _, [e] => .ret e
  | .lane _ index, [e] => .lane e index
  | .guarded _ head body, condition :: es =>
    .guarded condition head (body.zipWith (fun s e => { s with expr := e }) es)
  | .call _ _ returns, target :: arguments => .call target arguments returns
  | e, _ => e

/-- Induction over expressions, from all parts to the whole. -/
theorem byAllParts {P : Expr → Prop} (h : ∀ e, (∀ part ∈ e.parts, P part) → P e) (e : Expr) :
    P e := by
  induction e with
  | assign target value ht hv =>
    exact h _ (List.forall_mem_cons.mpr ⟨hv, List.forall_mem_singleton.mpr ht⟩)
  | compare _ left right hl hr | arith _ left right hl hr =>
    exact h _ (List.forall_mem_cons.mpr ⟨hl, List.forall_mem_singleton.mpr hr⟩)
  | complement e he | deref e he | member e _ he | jumpIf e _ he | ret e he | lane e _ he =>
    exact h _ (List.forall_mem_singleton.mpr he)
  | guarded condition head body hc hb =>
    exact h _ (List.forall_mem_cons.mpr ⟨hc, List.forall_mem_map.mpr hb⟩)
  | call target args returns ht ha => exact h _ (List.forall_mem_cons.mpr ⟨ht, ha⟩)
  | leaf | jump | retVoid | nop | unsupported | comment => exact h _ (List.forall_mem_nil _)

/-! ## Walking -/

/-- An expression consists of itself and of what its parts consist of. Inductions on expressions by
parts rest on this. -/
theorem nodes_eq (e : Expr) : e.nodes = e :: e.parts.flatMap nodes := by
  cases e with
  | guarded condition head body =>
    simp [nodes, parts, bodyNodes_eq, List.flatMap_map]
  | call target args returns => simp [nodes, parts, argumentNodes_eq]
  | _ => simp only [nodes, parts, List.flatMap_cons, List.flatMap_nil, List.append_nil]

theorem mem_nodes_of_mem_parts {e part : Expr} (h : part ∈ e.parts) : part ∈ e.nodes := by
  rw [nodes_eq]
  exact List.mem_cons_of_mem e (List.mem_flatMap.mpr ⟨part, h, part.self_mem_nodes⟩)

/-- Everything in an expression is the whole or stands in a part. -/
theorem forall_nodes_iff {P : Expr → Prop} {e : Expr} :
    (∀ node ∈ e.nodes, P node) ↔ P e ∧ ∀ part ∈ e.parts, ∀ node ∈ part.nodes, P node := by
  rw [nodes_eq, List.forall_mem_cons, List.forall_mem_flatMap]

/-- Induction over expressions, from everything that stands inside to the whole. -/
theorem byAllNodes {P : Expr → Prop}
    (h : ∀ e, (∀ part ∈ e.parts, ∀ node ∈ part.nodes, P node) → P e) (e : Expr) : P e := by
  suffices hall : ∀ node ∈ e.nodes, P node from hall e e.self_mem_nodes
  induction e using byAllParts with
  | h e ih => exact forall_nodes_iff.mpr ⟨h e ih, ih⟩

/-- Counting parts of a kind, the whole first. -/
theorem countP_nodes (p : Expr → Bool) (e : Expr) :
    e.nodes.countP p = (p e).toNat + (e.parts.map fun part => part.nodes.countP p).sum := by
  rw [nodes_eq, List.countP_cons, List.countP_flatMap, Nat.add_comm]
  cases p e <;> rfl

/-- The leaves of an expression are its own value, if it is one, and those of its parts. -/
theorem leaves_eq (e : Expr) : e.leaves = e.leaf?.toList ++ e.parts.flatMap leaves := by
  rw [leaves, nodes_eq, List.filterMap_cons, List.filterMap_flatMap]
  cases e.leaf? <;> rfl

/-! ## Rebuilding -/

section BottomUp

variable {m : Type → Type} [Monad m] [LawfulMonad m]

/-- Rebuilding statements in a body is rebuilding their expressions. -/
theorem mapM_body (f : Expr → m Expr) (body : List Statement) :
    (body.mapM fun s => f s.expr >>= fun expr => pure { s with expr }) =
      (body.map (·.expr)).mapM f >>= fun es =>
        pure (body.zipWith (fun s e => { s with expr := e }) es) := by
  induction body with
  | nil => simp
  | cons s rest ih =>
    rw [List.mapM_cons, ih, List.map_cons, List.mapM_cons]
    simp only [bind_assoc, pure_bind, List.zipWith_cons_cons]

/-- Rebuilding an expression rebuilds its parts, and then the whole. -/
theorem bottomUpM_eq (f : Expr → m Expr) (e : Expr) :
    e.bottomUpM f = e.parts.mapM (bottomUpM f) >>= fun ps => f (e.withParts ps) := by
  cases e with
  | guarded condition head body =>
    rw [bottomUpM, bottomUpBodyM_eq, mapM_body, parts, List.mapM_cons]
    simp only [bind_assoc, pure_bind, withParts]
  | call target args returns =>
    simp [bottomUpM, bottomUpArgumentsM_eq, parts, withParts]
  | _ =>
    simp only [bottomUpM, parts, withParts, List.mapM_cons, List.mapM_nil, bind_assoc, pure_bind]

/-- A walk does the parts first and then the whole. -/
theorem bottomUp_eq (f : Expr → Expr) (e : Expr) :
    e.bottomUp f = f (e.withParts (e.parts.map (bottomUp f))) := by
  cases e with
  | guarded condition head body =>
    simp [parts, withParts, List.zipWith_map_right, List.zipWith_self]
  | call target args returns => rw [bottomUp_call, parts, List.map_cons, withParts]
  | _ => rfl

/-- Only a store is rebuilt in another way when its access is kept. -/
theorem bottomUpLoadsM_of_ne {m : Type → Type} [Monad m] (f : Expr → m Expr) {e : Expr}
    (h : ∀ address value, e ≠ .assign (.deref address) value) :
    e.bottomUpLoadsM f = e.bottomUpM f := by
  unfold bottomUpLoadsM
  split
  · exact absurd rfl (h _ _)
  · rfl

end BottomUp

/-! ## Other parts in their places -/

section WithParts

variable {ps : List Expr}

theorem zipWith_expr {body : List Statement} {es : List Expr} (h : es.length = body.length) :
    (body.zipWith (fun s e => { s with expr := e }) es).map (·.expr) = es := by
  induction body generalizing es with
  | nil => simpa using h
  | cons s rest ih =>
    cases es with
    | nil => cases h
    | cons e es => simp_all

/-- Parts that were exchanged are found in their places. -/
theorem parts_withParts {e : Expr} (h : ps.length = e.parts.length) :
    (e.withParts ps).parts = ps := by
  cases e with
  | guarded condition head body =>
    cases ps with
    | nil => cases h
    | cons c es => simpa [withParts, parts] using zipWith_expr (by simpa [parts] using h)
  | call target args returns =>
    cases ps with
    | nil => cases h
    | cons t args => rfl
  | leaf | jump | retVoid | nop | unsupported | comment =>
    rw [List.length_eq_zero_iff.mp h]
    rfl
  | assign | compare | arith =>
    obtain ⟨a, b, rfl⟩ := List.length_eq_two.mp h
    rfl
  | complement | deref | member | jumpIf | ret | lane =>
    obtain ⟨a, rfl⟩ := List.length_eq_one_iff.mp h
    rfl

@[simp] theorem withParts_parts (e : Expr) : e.withParts e.parts = e := by
  cases e with
  | guarded condition head body =>
    simp [parts, withParts, List.zipWith_map_right, List.zipWith_self]
  | _ => rfl

/-- A walk through an expression with other parts walks through those. -/
theorem bottomUp_withParts (f : Expr → Expr) {e : Expr} (h : ps.length = e.parts.length) :
    (e.withParts ps).bottomUp f = f (e.withParts (ps.map (bottomUp f))) := by
  cases e with
  | guarded condition head body =>
    cases ps with
    | nil => cases h
    | cons c es =>
      rw [withParts, bottomUp_guarded, List.map_zipWith, List.map_cons, withParts,
        List.zipWith_map_right]
  | call target args returns =>
    cases ps with
    | nil => cases h
    | cons t args => rw [withParts, bottomUp_call, List.map_cons, withParts]
  | leaf | jump | retVoid | nop | unsupported | comment =>
    rw [List.length_eq_zero_iff.mp h]
    rfl
  | assign | compare | arith =>
    obtain ⟨a, b, rfl⟩ := List.length_eq_two.mp h
    rfl
  | complement | deref | member | jumpIf | ret | lane =>
    obtain ⟨a, rfl⟩ := List.length_eq_one_iff.mp h
    rfl

end WithParts

/-! ## Rebuilding nothing -/

@[simp] theorem bottomUp_id (e : Expr) : e.bottomUp id = e := by
  induction e using byAllParts with
  | h e ih =>
    rw [bottomUp_eq, List.map_congr_left ih, List.map_id', withParts_parts]
    rfl

@[simp] theorem bottomUpLoads_id (e : Expr) : e.bottomUpLoads id = e := by
  by_cases hstore : ∃ address value, e = .assign (.deref address) value
  · obtain ⟨address, value, rfl⟩ := hstore
    show Expr.assign (.deref (address.bottomUp id)) (value.bottomUp id) = _
    rw [bottomUp_id, bottomUp_id]
  · rw [bottomUpLoads, bottomUpLoadsM_of_ne _ fun a v h => hstore ⟨a, v, h⟩]
    exact bottomUp_id e

/-! ## Results of rebuilding -/

/-- Rebuilding relates an expression to its result when each step does so from parts that are
related already. -/
theorem yields_bottomUpM {σ : Type} {f : Expr → StateM σ Expr} {R : Expr → Expr → Prop}
    (hf : ∀ e ps, List.Forall₂ R e.parts ps → Yields (f (e.withParts ps)) (R e)) (e : Expr) :
    Yields (e.bottomUpM f) (R e) := by
  induction e using byAllParts with
  | h e ih =>
    rw [bottomUpM_eq]
    exact (Yields.mapM ih).bind fun ps hps => hf e ps hps

/-- Steps that do what a plain function does rebuild as it does. -/
theorem yields_bottomUp {σ : Type} {f : Expr → StateM σ Expr} {h : Expr → Expr}
    (hf : ∀ e, Yields (f e) (· = h e)) (e : Expr) : Yields (e.bottomUpM f) (· = e.bottomUp h) := by
  induction e using byAllParts with
  | h e ih =>
    rw [bottomUpM_eq, bottomUp_eq]
    refine (Yields.mapM_eq ih).bind fun ps hps => ?_
    rw [hps]
    exact hf _

section Preserves

variable {σ : Type} {I : σ → Prop} {f : Expr → StateM σ Expr}

/-- Rebuilding keeps what each step keeps. -/
theorem preserves_bottomUpM (hf : ∀ e, Preserves (f e) I) (e : Expr) :
    Preserves (e.bottomUpM f) I := by
  induction e using byAllParts with
  | h e ih =>
    rw [bottomUpM_eq]
    exact (Preserves.mapM ih).bind fun ps => hf _

/-- A walk through a statement keeps what each step keeps. -/
theorem preserves_bottomUpLoadsM (hf : ∀ e, Preserves (f e) I) (e : Expr) :
    Preserves (e.bottomUpLoadsM f) I := by
  unfold bottomUpLoadsM
  split
  · exact (preserves_bottomUpM hf _).bind fun _ => (preserves_bottomUpM hf _).bind fun _ => hf _
  · exact preserves_bottomUpM hf _

end Preserves

end MethodLift.Expr
