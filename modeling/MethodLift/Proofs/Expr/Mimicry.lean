import MethodLift.Proofs.Expr.Evaluation

/-!
# Computations with the same effects

What can be seen of a computation from outside is the history that it adds to. `Mimics` relates
computations that have the same effects whenever the same happened before, whatever values were
noted on the way: with `Eq` between the results, they cannot be told apart.

Everything a machine does mimics itself, since its oracles look at the history and not at the values
that were noted.
-/

namespace MethodLift

variable {V : Type}

/-- Computations with the same effects and related results. -/
def Mimics {α β : Type} (R : α → β → Prop) (x : StateM (Log V) α) (x' : StateM (Log V) β) : Prop :=
  ∀ l l' : Log V, l'.history = l.history →
    (x'.run l').2.history = (x.run l).2.history ∧ R (x.run l).1 (x'.run l').1

namespace Mimics

variable {α β γ δ : Type} {R : α → β → Prop} {S : γ → δ → Prop}

theorem pure {a : α} {b : β} (h : R a b) :
    Mimics R (Pure.pure a : StateM (Log V) α) (Pure.pure b) :=
  fun _ _ hl => ⟨hl, h⟩

/-- Related results may go to continuations that have the same effects for them. -/
theorem bind {x : StateM (Log V) α} {x' : StateM (Log V) β} {f : α → StateM (Log V) γ}
    {f' : β → StateM (Log V) δ} (h : Mimics R x x')
    (hf : ∀ a b, R a b → Mimics S (f a) (f' b)) : Mimics S (x >>= f) (x' >>= f') := by
  intro l l' hl
  obtain ⟨hl, hr⟩ := h l l' hl
  exact hf _ _ hr _ _ hl

/-- The same result, with different continuations. -/
theorem bind_eq {x x' : StateM (Log V) α} {f : α → StateM (Log V) γ} {f' : α → StateM (Log V) δ}
    (h : Mimics Eq x x') (hf : ∀ a, Mimics S (f a) (f' a)) : Mimics S (x >>= f) (x' >>= f') := by
  refine h.bind fun a b hab => ?_
  rw [← hab]
  exact hf a

theorem trans {x y z : StateM (Log V) α} (hxy : Mimics Eq x y) (hyz : Mimics Eq y z) :
    Mimics Eq x z := by
  intro l l' hl
  obtain ⟨hhistory, hvalue⟩ := hxy l l rfl
  obtain ⟨hhistory', hvalue'⟩ := hyz l l' hl
  exact ⟨hhistory'.trans hhistory, hvalue.trans hvalue'⟩

theorem note (x : V) : Mimics Eq (Log.note x) (Log.note x) := fun _ _ hl => ⟨hl, rfl⟩

theorem tell (e : Effect V) : Mimics Eq (Log.tell e) (Log.tell e) :=
  fun _ _ hl => ⟨congrArg (· ++ [e]) hl, rfl⟩

/-- Oracles answer from the history. -/
theorem answer (e : Effect V) (oracle : History V → V) :
    Mimics Eq (Log.answer e oracle) (Log.answer e oracle) :=
  fun _ _ hl => ⟨congrArg (· ++ [e]) hl, (congrArg oracle hl).symm⟩

end Mimics

namespace Machine

variable (m : Machine V) (env : Env V)

/-- Arguments that are evaluated alike one by one are evaluated alike in a row. -/
theorem mimics_evalArguments {args : List Expr}
    (h : ∀ a ∈ args, Mimics Eq (m.eval env a) (m.eval env a)) :
    Mimics Eq (m.evalArguments env args) (m.evalArguments env args) := by
  induction args with
  | nil => exact .pure rfl
  | cons a rest ih =>
    rw [evalArguments]
    refine (h a List.mem_cons_self).bind_eq fun x => ?_
    exact (ih fun b hb => h b (List.mem_cons_of_mem a hb)).bind_eq fun xs => .pure rfl

/-- Values depend on what happened and not on what was noted. -/
theorem mimics_eval (e : Expr) : Mimics Eq (m.eval env e) (m.eval env e) := by
  induction e with
  | leaf v => exact .note _
  | compare kind left right hl hr => exact hl.bind_eq fun _ => hr.bind_eq fun _ => .note _
  | arith op left right hl hr => exact hl.bind_eq fun _ => hr.bind_eq fun _ => .note _
  | complement operand ih => exact ih.bind_eq fun _ => .note _
  | lane vector index ih => exact ih.bind_eq fun _ => .note _
  | deref address ih => exact ih.bind_eq fun _ => .answer _ _
  | member object field ih => exact ih.bind_eq fun _ => .answer _ _
  | call target args returns ht ha =>
    exact ht.bind_eq fun _ => (m.mimics_evalArguments env ha).bind_eq fun _ => .answer _ _
  | unsupported text => exact .answer _ _
  | _ => exact .pure rfl

theorem mimics_takes (condition : Expr) :
    Mimics Eq (m.takes env condition) (m.takes env condition) :=
  (m.mimics_eval env condition).bind_eq fun _ => (Mimics.tell _).bind_eq fun _ => .pure rfl

/-- Performing a statement does not depend on which of two logs with the same history it is done
with. -/
theorem mimics_perform (e : Expr) : Mimics Eq (m.perform env e) (m.perform env e) := by
  cases e with
  | jump target => exact .pure rfl
  | jumpIf condition target =>
    exact (m.mimics_takes env condition).bind_eq fun _ => .pure rfl
  | ret value =>
    exact (m.mimics_eval env value).bind_eq fun _ => (Mimics.tell _).bind_eq fun _ => .pure rfl
  | retVoid => exact (Mimics.tell _).bind_eq fun _ => .pure rfl
  | _ => exact (m.mimics_eval env _).bind_eq fun _ => .pure rfl

theorem mimics_store (x : V) (e : Expr) : Mimics Eq (m.store env x e) (m.store env x e) := by
  cases e with
  | deref address => exact (m.mimics_eval env address).bind_eq fun _ => .tell _
  | member object field => exact (m.mimics_eval env object).bind_eq fun _ => .tell _
  | _ => exact (m.mimics_eval env _).bind_eq fun _ => .pure rfl

end Machine

end MethodLift
