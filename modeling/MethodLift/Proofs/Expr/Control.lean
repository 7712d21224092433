import MethodLift.Proofs.Expr.Traversal
import MethodLift.Proofs.Work

/-!
# Control in expressions

Jumps, conditionals and returns stand at the top of a statement, never inside a value. An
expression without any of them is *plain*; a statement is *tidy* when control, if it has any,
stands at its top. What a tidy statement does with control is its `Expr.control`.

A rebuilding step is *harmless* when it keeps plain expressions plain and leaves control alone.
Rebuilding a tidy statement with such a step gives a tidy statement with the same control.
-/

namespace MethodLift

/-- What a statement does with control. -/
inductive Control where
  /-- It passes control to the next statement. -/
  | step
  | jump (target : Nat)
  /-- It jumps, or passes control to the next statement. -/
  | branch (target : Nat)
  /-- It leaves the method. -/
  | leave
deriving DecidableEq, Repr

namespace Expr

@[simp] def isControl : Expr → Bool
  | .jump _ | .jumpIf _ _ | .guarded _ _ _ | .ret _ | .retVoid => true
  | _ => false

/-- What an expression does with control as a statement. -/
def control : Expr → Control
  | .jump target => .jump target
  | .jumpIf _ target => .branch target
  | .ret _ | .retVoid => .leave
  | _ => .step

/-- No part of the expression decides where control goes. -/
def Plain (e : Expr) : Prop := ∀ part ∈ e.nodes, part.isControl = false

/-- Control stands at the top of the statement only. -/
def Tidy : Expr → Prop
  | .jump _ | .retVoid => True
  | .jumpIf condition _ => condition.Plain
  | .ret value => value.Plain
  | e => e.Plain

/-! ## Plain expressions -/

section Plain

variable {e target value left right operand condition : Expr}

@[simp] theorem plain_leaf (v : Leaf) : (leaf v).Plain := by simp [Plain, nodes]
@[simp] theorem plain_nop : nop.Plain := by simp [Plain, nodes]
@[simp] theorem plain_unsupported (text : String) : (unsupported text).Plain := by
  simp [Plain, nodes]
@[simp] theorem plain_comment (text : String) : (comment text).Plain := by
  simp [Plain, nodes]

@[simp] theorem plain_assign : (assign target value).Plain ↔ target.Plain ∧ value.Plain := by
  simp [Plain, nodes, or_imp, forall_and, and_comm]
@[simp] theorem plain_compare {kind : Comparison} :
    (compare kind left right).Plain ↔ left.Plain ∧ right.Plain := by
  simp [Plain, nodes, or_imp, forall_and]
@[simp] theorem plain_arith {op : ArithOp} :
    (arith op left right).Plain ↔ left.Plain ∧ right.Plain := by
  simp [Plain, nodes, or_imp, forall_and]
@[simp] theorem plain_complement : (complement operand).Plain ↔ operand.Plain := by
  simp [Plain, nodes]
@[simp] theorem plain_deref : (deref operand).Plain ↔ operand.Plain := by
  simp [Plain, nodes]
@[simp] theorem plain_member {field : Field} : (member operand field).Plain ↔ operand.Plain := by
  simp [Plain, nodes]
@[simp] theorem plain_lane {index : Nat} : (lane operand index).Plain ↔ operand.Plain := by
  simp [Plain, nodes]
@[simp] theorem plain_call {args : List Expr} {returns : Bool} :
    (call target args returns).Plain ↔ target.Plain ∧ ∀ a ∈ args, a.Plain := by
  simp only [Plain, nodes, argumentNodes_eq, List.mem_cons, List.mem_append, List.mem_flatMap,
    or_imp, forall_and, forall_eq, isControl, true_and]
  refine and_congr_right fun _ => ⟨?_, ?_⟩
  · intro h a ha part hp
    exact h part ⟨a, ha, hp⟩
  · rintro h part ⟨a, ha, hp⟩
    exact h a ha part hp

theorem Plain.isControl_eq (h : e.Plain) : e.isControl = false := h e e.self_mem_nodes

theorem Plain.control_eq (h : e.Plain) : e.control = .step := by
  have := h.isControl_eq
  cases e <;> simp_all [control]

/-- Where no part decides about control, it stands at the top at most. -/
theorem Plain.tidy (h : e.Plain) : e.Tidy := by
  have := h.isControl_eq
  cases e <;> simp_all [Tidy]

/-- A tidy statement that passes control on is plain. -/
theorem Tidy.plain (h : e.Tidy) (hc : e.control = .step) : e.Plain := by
  cases e <;> simp_all [control, Tidy]

end Plain

section Inversion

variable {e : Expr} {target : Nat}

/-- Only jumps go somewhere without a condition. -/
theorem eq_of_control_jump (h : e.control = .jump target) : e = .jump target := by
  cases e <;> cases h
  rfl

/-- Only conditional jumps go somewhere under a condition. -/
theorem eq_of_control_branch (h : e.control = .branch target) :
    ∃ condition, e = .jumpIf condition target := by
  cases e <;> cases h
  exact ⟨_, rfl⟩

/-- Only returns leave. -/
theorem eq_of_control_leave (h : e.control = .leave) :
    (∃ value, e = .ret value) ∨ e = .retVoid := by
  cases e <;> cases h
  · exact .inl ⟨_, rfl⟩
  · exact .inr rfl

end Inversion

/-! ## Harmless steps -/

/-- A rebuilding step that leaves control alone. -/
structure Harmless {σ : Type} (f : Expr → StateM σ Expr) : Prop where
  control : ∀ e, e.isControl = true → f e = pure e
  plain : ∀ e, e.Plain → Yields (f e) Plain

namespace Harmless

variable {σ : Type} {f : Expr → StateM σ Expr}

/-- Harmless steps make no control, so a walk does not either. The induction is on the expression;
structured conditionals are excluded. -/
theorem plain_bottomUpM (hf : Harmless f) {e : Expr} (h : e.Plain) :
    Yields (e.bottomUpM f) Plain := by
  induction e with
  | leaf v => exact hf.plain _ h
  | nop => exact hf.plain _ h
  | unsupported text => exact hf.plain _ h
  | comment text => exact hf.plain _ h
  | assign target value ht hv =>
    rw [plain_assign] at h
    exact (hv h.2).bind fun v hv => (ht h.1).bind fun t ht => hf.plain _ (plain_assign.mpr ⟨ht, hv⟩)
  | compare kind left right hl hr =>
    rw [plain_compare] at h
    exact (hl h.1).bind fun l hl => (hr h.2).bind fun r hr =>
      hf.plain _ (plain_compare.mpr ⟨hl, hr⟩)
  | arith op left right hl hr =>
    rw [plain_arith] at h
    exact (hl h.1).bind fun l hl => (hr h.2).bind fun r hr => hf.plain _ (plain_arith.mpr ⟨hl, hr⟩)
  | complement operand ho =>
    exact (ho (plain_complement.mp h)).bind fun o ho => hf.plain _ (plain_complement.mpr ho)
  | deref address ha =>
    exact (ha (plain_deref.mp h)).bind fun a ha => hf.plain _ (plain_deref.mpr ha)
  | member object field ho =>
    exact (ho (plain_member.mp h)).bind fun o ho => hf.plain _ (plain_member.mpr ho)
  | lane vector index hv =>
    exact (hv (plain_lane.mp h)).bind fun v hv => hf.plain _ (plain_lane.mpr hv)
  | call target args returns ht ha =>
    rw [plain_call] at h
    rw [bottomUpM, bottomUpArgumentsM_eq]
    refine (ht h.1).bind fun t ht => ?_
    refine (Yields.forall_mapM fun a hm => ha a hm (h.2 a hm)).bind fun args' hargs => ?_
    exact hf.plain _ (plain_call.mpr ⟨ht, hargs⟩)
  | jumpIf condition target => exact absurd h.isControl_eq (by simp)
  | guarded condition head body => exact absurd h.isControl_eq (by simp)
  | jump target => exact absurd h.isControl_eq (by simp)
  | ret value => exact absurd h.isControl_eq (by simp)
  | retVoid => exact absurd h.isControl_eq (by simp)

/-- Rebuilding keeps statements tidy and their control as it is. -/
theorem tidy_bottomUpM (hf : Harmless f) {e : Expr} (h : e.Tidy) :
    Yields (e.bottomUpM f) fun e' => e'.Tidy ∧ e'.control = e.control := by
  by_cases hc : e.control = .step
  · refine (hf.plain_bottomUpM (h.plain hc)).mono fun e' he' => ?_
    exact ⟨he'.tidy, he'.control_eq.trans hc.symm⟩
  · cases e with
    | jump target =>
      rw [bottomUpM, hf.control _ rfl]
      exact .pure ⟨trivial, rfl⟩
    | retVoid =>
      rw [bottomUpM, hf.control _ rfl]
      exact .pure ⟨trivial, rfl⟩
    | jumpIf condition target =>
      refine (hf.plain_bottomUpM h).bind fun c hcond => ?_
      rw [hf.control _ rfl]
      exact .pure ⟨hcond, rfl⟩
    | ret value =>
      refine (hf.plain_bottomUpM h).bind fun v hv => ?_
      rw [hf.control _ rfl]
      exact .pure ⟨hv, rfl⟩
    | _ => exact absurd rfl hc

/-- Keeping the access of a store makes no difference to control. -/
theorem tidy_bottomUpLoadsM (hf : Harmless f) {e : Expr} (h : e.Tidy) :
    Yields (e.bottomUpLoadsM f) fun e' => e'.Tidy ∧ e'.control = e.control := by
  unfold bottomUpLoadsM
  split
  · rename_i address value
    have hp := plain_assign.mp (h.plain rfl)
    refine (hf.plain_bottomUpM hp.2).bind fun v hv => ?_
    refine (hf.plain_bottomUpM (plain_deref.mp hp.1)).bind fun a ha => ?_
    refine (hf.plain _ (plain_assign.mpr ⟨plain_deref.mpr ha, hv⟩)).mono fun e' he' => ?_
    exact ⟨he'.tidy, he'.control_eq⟩
  · exact hf.tidy_bottomUpM h

end Harmless

end Expr

/-! ## Ends of statement lists -/

/-- The statements pass control from one to the next, up to the last one, which has a given
control. Only a live statement can do anything else than pass control on. -/
inductive Ends : List Statement → Control → Prop
  | nil : Ends [] .step
  | pass {s : Statement} {rest : List Statement} {c : Control} (hs : s.expr.control = .step)
    (hrest : Ends rest c) : Ends (s :: rest) c
  | last {s : Statement} (hlive : s.eliminated = false) (hs : s.expr.control ≠ .step) :
    Ends [s] s.expr.control

/-- A single live statement ends a list with its own control. -/
theorem Ends.single {s : Statement} (hlive : s.eliminated = false) : Ends [s] s.expr.control := by
  by_cases hs : s.expr.control = .step
  · rw [hs]
    exact .pass hs .nil
  · exact .last hlive hs

/-- The live statements of a list that ends with some control. -/
theorem Ends.live {ss : List Statement} {c : Control} (h : Ends ss c) :
    (c = .step ∧ ∀ s ∈ ss.filter (fun s => !s.eliminated), s.expr.control = .step) ∨
    (c ≠ .step ∧ ∃ init s, ss.filter (fun s => !s.eliminated) = init ++ [s] ∧
      (∀ x ∈ init, x.expr.control = .step) ∧ s.expr.control = c) := by
  induction h with
  | nil => exact .inl ⟨rfl, by simp⟩
  | @pass s rest c hs _ ih =>
    rw [List.filter_cons]
    rcases ih with ⟨rfl, hall⟩ | ⟨hc, init, t, heq, hinit, ht⟩
    · refine .inl ⟨rfl, ?_⟩
      split
      · exact List.forall_mem_cons.mpr ⟨hs, hall⟩
      · exact hall
    · refine .inr ⟨hc, ?_⟩
      split
      · exact ⟨s :: init, t, by rw [heq]; rfl, List.forall_mem_cons.mpr ⟨hs, hinit⟩, ht⟩
      · exact ⟨init, t, heq, hinit, ht⟩
  | last hlive hs => exact .inr ⟨hs, [], _, by simp [hlive], by simp, rfl⟩

end MethodLift
