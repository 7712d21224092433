import MethodLift.Expr.Traversal
import Mathlib.Data.List.Basic

/-!
# Rebuilding expressions

Expressions contain lists of expressions and of statements. `Expr.byParts` is the induction that
follows from this: a property of an expression may use the same property of its parts, wherever
they stand. The walks through arguments and bodies are the usual ones of lists.
-/

namespace MethodLift

namespace Expr

/-! ## Induction -/

section Induction

variable {P : Expr → Prop}

/-- Induction over the parts of expressions. -/
@[induction_eliminator]
theorem byParts
    (leaf : ∀ value, P (.leaf value))
    (assign : ∀ target value, P target → P value → P (.assign target value))
    (compare : ∀ kind left right, P left → P right → P (.compare kind left right))
    (arith : ∀ op left right, P left → P right → P (.arith op left right))
    (complement : ∀ operand, P operand → P (.complement operand))
    (deref : ∀ address, P address → P (.deref address))
    (member : ∀ object field, P object → P (.member object field))
    (jumpIf : ∀ condition target, P condition → P (.jumpIf condition target))
    (guarded : ∀ condition head (body : List Statement), P condition →
      (∀ s ∈ body, P s.expr) → P (.guarded condition head body))
    (jump : ∀ target, P (.jump target))
    (call : ∀ target (arguments : List Expr) returns, P target →
      (∀ a ∈ arguments, P a) → P (.call target arguments returns))
    (ret : ∀ value, P value → P (.ret value))
    (retVoid : P .retVoid)
    (lane : ∀ vector index, P vector → P (.lane vector index))
    (nop : P .nop)
    (unsupported : ∀ text, P (.unsupported text))
    (comment : ∀ text, P (.comment text)) : ∀ e, P e := by
  intro e
  refine @Expr.rec P (fun body => ∀ s ∈ body, P s.expr) (fun args => ∀ a ∈ args, P a)
    (fun s => P s.expr) leaf assign compare arith complement deref member jumpIf guarded jump call
    ret retVoid lane nop unsupported comment ?_ ?_ ?_ ?_ ?_ e
  · simp
  · intro s rest hs hrest t ht
    rcases List.mem_cons.mp ht with rfl | ht
    · exact hs
    · exact hrest t ht
  · simp
  · intro a rest ha hrest c hc
    rcases List.mem_cons.mp hc with rfl | hc
    · exact ha
    · exact hrest c hc
  · intro e _ _ h
    exact h

end Induction

/-! ## Walks through lists -/

theorem argumentNodes_eq (args : List Expr) : argumentNodes args = args.flatMap nodes := by
  induction args with
  | nil => rfl
  | cons a rest ih => simp [argumentNodes, ih]

theorem bodyNodes_eq (body : List Statement) :
    bodyNodes body = body.flatMap fun s => s.expr.nodes := by
  induction body with
  | nil => rfl
  | cons s rest ih => simp [bodyNodes, ih]

theorem self_mem_nodes (e : Expr) : e ∈ e.nodes := by
  cases e <;> simp [nodes]

section BottomUp

variable {m : Type → Type} [Monad m] [LawfulMonad m]

theorem bottomUpArgumentsM_eq (f : Expr → m Expr) (args : List Expr) :
    bottomUpArgumentsM f args = args.mapM (bottomUpM f) := by
  induction args with
  | nil => simp [bottomUpArgumentsM]
  | cons a rest ih => simp [bottomUpArgumentsM, ih]

theorem bottomUpBodyM_eq (f : Expr → m Expr) (body : List Statement) :
    bottomUpBodyM f body =
      body.mapM fun s => s.expr.bottomUpM f >>= fun expr => pure { s with expr } := by
  induction body with
  | nil => simp [bottomUpBodyM]
  | cons s rest ih => simp [bottomUpBodyM, ih]

/-- Pure work on a list is a map. -/
theorem mapM_eq_pure {α : Type} {l : List α} {f : α → m α} {g : α → α}
    (h : ∀ a ∈ l, f a = pure (g a)) : l.mapM f = pure (l.map g) := by
  induction l with
  | nil => simp
  | cons a rest ih =>
    rw [List.mapM_cons, h a List.mem_cons_self, ih fun b hb => h b (List.mem_cons_of_mem a hb)]
    simp

end BottomUp

/-! ## Rebuilding without effects -/

section Pure

variable (f : Expr → Expr)

@[simp] theorem bottomUp_assign (target value : Expr) :
    (assign target value).bottomUp f = f (.assign (target.bottomUp f) (value.bottomUp f)) := rfl
@[simp] theorem bottomUp_compare (kind : Comparison) (left right : Expr) :
    (compare kind left right).bottomUp f =
      f (.compare kind (left.bottomUp f) (right.bottomUp f)) := rfl
@[simp] theorem bottomUp_arith (op : ArithOp) (left right : Expr) :
    (arith op left right).bottomUp f = f (.arith op (left.bottomUp f) (right.bottomUp f)) := rfl
@[simp] theorem bottomUp_complement (operand : Expr) :
    (complement operand).bottomUp f = f (.complement (operand.bottomUp f)) := rfl
@[simp] theorem bottomUp_deref (address : Expr) :
    (deref address).bottomUp f = f (.deref (address.bottomUp f)) := rfl
@[simp] theorem bottomUp_member (object : Expr) (field : Field) :
    (member object field).bottomUp f = f (.member (object.bottomUp f) field) := rfl
@[simp] theorem bottomUp_jumpIf (condition : Expr) (target : Nat) :
    (jumpIf condition target).bottomUp f = f (.jumpIf (condition.bottomUp f) target) := rfl
@[simp] theorem bottomUp_ret (value : Expr) :
    (ret value).bottomUp f = f (.ret (value.bottomUp f)) := rfl
@[simp] theorem bottomUp_lane (vector : Expr) (index : Nat) :
    (lane vector index).bottomUp f = f (.lane (vector.bottomUp f) index) := rfl
@[simp] theorem bottomUp_leaf (value : Leaf) : (leaf value).bottomUp f = f (.leaf value) := rfl
@[simp] theorem bottomUp_jump (target : Nat) : (jump target).bottomUp f = f (.jump target) := rfl
@[simp] theorem bottomUp_retVoid : retVoid.bottomUp f = f .retVoid := rfl
@[simp] theorem bottomUp_nop : nop.bottomUp f = f .nop := rfl
@[simp] theorem bottomUp_unsupported (text : String) :
    (unsupported text).bottomUp f = f (.unsupported text) := rfl
@[simp] theorem bottomUp_comment (text : String) :
    (comment text).bottomUp f = f (.comment text) := rfl

@[simp] theorem bottomUp_call (target : Expr) (args : List Expr) (returns : Bool) :
    (call target args returns).bottomUp f =
      f (.call (target.bottomUp f) (args.map (bottomUp f)) returns) := by
  have h : args.mapM (bottomUpM fun part => (pure (f part) : Id Expr)) =
      pure (args.map (bottomUp f)) := mapM_eq_pure fun _ _ => rfl
  unfold bottomUp
  rw [bottomUpM, bottomUpArgumentsM_eq, h]
  rfl

@[simp] theorem bottomUp_guarded (condition : Expr) (head : BlockHead) (body : List Statement) :
    (guarded condition head body).bottomUp f =
      f (.guarded (condition.bottomUp f) head
        (body.map fun s => { s with expr := s.expr.bottomUp f })) := by
  have h : (body.mapM fun s => (s.expr.bottomUpM fun part => (pure (f part) : Id Expr)) >>=
      fun expr => pure { s with expr }) =
      pure (body.map fun s => { s with expr := s.expr.bottomUp f }) :=
    mapM_eq_pure fun _ _ => rfl
  unfold bottomUp
  rw [bottomUpM, bottomUpBodyM_eq, h]
  rfl

/-- Rebuilding with a function that only looks at the parts has no effects. -/
theorem bottomUpM_pure {m : Type → Type} [Monad m] [LawfulMonad m] (e : Expr) :
    (e.bottomUpM fun part => (pure (f part) : m Expr)) = pure (e.bottomUp f) := by
  induction e with
  | guarded condition head body hc hb =>
    rw [bottomUpM, bottomUpBodyM_eq, hc, bottomUp_guarded]
    rw [mapM_eq_pure (g := fun s => { s with expr := s.expr.bottomUp f })]
    · simp
    · intro s hs
      rw [hb s hs]
      simp
  | call target args returns ht ha =>
    rw [bottomUpM, bottomUpArgumentsM_eq, ht, bottomUp_call, mapM_eq_pure ha]
    simp
  | _ => simp_all [bottomUpM]

end Pure

end Expr

end MethodLift
