import MethodLift.Proofs.Expr.OfInstruction

/-!
# Relabelling leaves

Promotion and inlining put other leaves in the place of leaves and keep everything above them. All
that such a step does to an expression is said by a function on leaves, `Expr.relabel`.
-/

namespace MethodLift.Expr

/-- The leaves of an expression, in the order of its parts. -/
def leaves (e : Expr) : List Leaf := e.nodes.filterMap leaf?

/-- Replaces a part that is a leaf. -/
def relabelNode (φ : Leaf → Leaf) : Expr → Expr
  | .leaf v => .leaf (φ v)
  | e => e

def relabel (φ : Leaf → Leaf) (e : Expr) : Expr := e.bottomUp (relabelNode φ)

/-! ## Leaves of parts -/

section Leaves

variable {target value left right operand : Expr}

@[simp] theorem leaves_leaf (v : Leaf) : (leaf v).leaves = [v] := rfl
@[simp] theorem leaves_assign : (assign target value).leaves = value.leaves ++ target.leaves :=
  List.filterMap_append
@[simp] theorem leaves_compare {kind : Comparison} :
    (compare kind left right).leaves = left.leaves ++ right.leaves := List.filterMap_append
@[simp] theorem leaves_arith {op : ArithOp} :
    (arith op left right).leaves = left.leaves ++ right.leaves := List.filterMap_append
@[simp] theorem leaves_complement : (complement operand).leaves = operand.leaves := rfl
@[simp] theorem leaves_deref : (deref operand).leaves = operand.leaves := rfl
@[simp] theorem leaves_member {field : Field} :
    (member operand field).leaves = operand.leaves := rfl
@[simp] theorem leaves_lane {index : Nat} : (lane operand index).leaves = operand.leaves := rfl
@[simp] theorem leaves_jumpIf {t : Nat} : (jumpIf operand t).leaves = operand.leaves := rfl
@[simp] theorem leaves_ret : (ret operand).leaves = operand.leaves := rfl
@[simp] theorem leaves_jump (t : Nat) : (jump t).leaves = [] := rfl
@[simp] theorem leaves_retVoid : retVoid.leaves = [] := rfl
@[simp] theorem leaves_nop : nop.leaves = [] := rfl
@[simp] theorem leaves_unsupported (text : String) : (unsupported text).leaves = [] := rfl
@[simp] theorem leaves_comment (text : String) : (comment text).leaves = [] := rfl
@[simp] theorem leaves_call {args : List Expr} {returns : Bool} :
    (call target args returns).leaves = target.leaves ++ args.flatMap leaves := by
  show (target.nodes ++ argumentNodes args).filterMap leaf? = _
  rw [argumentNodes_eq, List.filterMap_append, List.filterMap_flatMap]
  rfl
@[simp] theorem leaves_guarded {head : BlockHead} {body : List Statement} :
    (guarded operand head body).leaves =
      operand.leaves ++ body.flatMap fun s => s.expr.leaves := by
  show (operand.nodes ++ bodyNodes body).filterMap leaf? = _
  rw [bodyNodes_eq, List.filterMap_append, List.filterMap_flatMap]
  rfl

end Leaves

/-! ## Relabelled expressions -/

section Relabel

variable (φ : Leaf → Leaf)

@[simp] theorem relabel_leaf (v : Leaf) : (leaf v).relabel φ = .leaf (φ v) := rfl
@[simp] theorem relabel_assign (target value : Expr) :
    (assign target value).relabel φ = .assign (target.relabel φ) (value.relabel φ) := rfl
@[simp] theorem relabel_compare (kind : Comparison) (left right : Expr) :
    (compare kind left right).relabel φ = .compare kind (left.relabel φ) (right.relabel φ) := rfl
@[simp] theorem relabel_arith (op : ArithOp) (left right : Expr) :
    (arith op left right).relabel φ = .arith op (left.relabel φ) (right.relabel φ) := rfl
@[simp] theorem relabel_complement (operand : Expr) :
    (complement operand).relabel φ = .complement (operand.relabel φ) := rfl
@[simp] theorem relabel_deref (address : Expr) :
    (deref address).relabel φ = .deref (address.relabel φ) := rfl
@[simp] theorem relabel_member (object : Expr) (field : Field) :
    (member object field).relabel φ = .member (object.relabel φ) field := rfl
@[simp] theorem relabel_jumpIf (condition : Expr) (target : Nat) :
    (jumpIf condition target).relabel φ = .jumpIf (condition.relabel φ) target := rfl
@[simp] theorem relabel_ret (value : Expr) : (ret value).relabel φ = .ret (value.relabel φ) := rfl
@[simp] theorem relabel_lane (vector : Expr) (index : Nat) :
    (lane vector index).relabel φ = .lane (vector.relabel φ) index := rfl
@[simp] theorem relabel_jump (target : Nat) : (jump target).relabel φ = .jump target := rfl
@[simp] theorem relabel_retVoid : retVoid.relabel φ = .retVoid := rfl
@[simp] theorem relabel_nop : nop.relabel φ = .nop := rfl
@[simp] theorem relabel_unsupported (text : String) :
    (unsupported text).relabel φ = .unsupported text := rfl
@[simp] theorem relabel_comment (text : String) : (comment text).relabel φ = .comment text := rfl
@[simp] theorem relabel_call (target : Expr) (args : List Expr) (returns : Bool) :
    (call target args returns).relabel φ =
      .call (target.relabel φ) (args.map (relabel φ)) returns :=
  bottomUp_call (relabelNode φ) target args returns
@[simp] theorem relabel_guarded (condition : Expr) (head : BlockHead) (body : List Statement) :
    (guarded condition head body).relabel φ =
      .guarded (condition.relabel φ) head
        (body.map fun s => { s with expr := s.expr.relabel φ }) :=
  bottomUp_guarded (relabelNode φ) condition head body

/-- Relabelling an expression relabels its leaves and leaves none out. -/
theorem leaves_relabel (e : Expr) : (e.relabel φ).leaves = e.leaves.map φ := by
  induction e with
  | call target args returns ht ha =>
    rw [relabel_call, leaves_call, leaves_call, ht, List.map_append, List.flatMap_map,
      List.map_flatMap]
    exact congrArg (_ ++ ·) (List.flatMap_congr ha)
  | guarded condition head body hc hb =>
    rw [relabel_guarded, leaves_guarded, leaves_guarded, hc, List.map_append, List.flatMap_map,
      List.map_flatMap]
    exact congrArg (_ ++ ·) (List.flatMap_congr hb)
  | _ => simp_all

/-- Relabelling twice is relabelling once by both. -/
theorem relabel_relabel (ψ : Leaf → Leaf) (e : Expr) :
    (e.relabel φ).relabel ψ = e.relabel (ψ ∘ φ) := by
  induction e with
  | call target args returns ht ha =>
    simp only [relabel_call, ht, List.map_map]
    exact congrArg (call _ · returns) (List.map_congr_left ha)
  | guarded condition head body hc hb =>
    simp only [relabel_guarded, hc, List.map_map]
    refine congrArg (guarded _ head) (List.map_congr_left fun s hs => ?_)
    exact congrArg (fun e => { s with expr := e }) (hb s hs)
  | _ => simp_all

variable {φ}

/-- Leaves that are replaced by themselves leave the expression as it is. -/
theorem relabel_eq_self {e : Expr} (h : ∀ v ∈ e.leaves, φ v = v) : e.relabel φ = e := by
  induction e with
  | call target args returns ht ha =>
    rw [leaves_call] at h
    obtain ⟨htarget, hargs⟩ := List.forall_mem_append.mp h
    rw [relabel_call, ht htarget, List.map_congr_left (g := id) fun a hmem => ha a hmem fun v hv =>
      hargs v (List.mem_flatMap.mpr ⟨a, hmem, hv⟩), List.map_id]
  | guarded condition head body hc hb =>
    rw [leaves_guarded] at h
    obtain ⟨hcondition, hbody⟩ := List.forall_mem_append.mp h
    rw [relabel_guarded, hc hcondition, List.map_congr_left (g := id) fun s hmem => ?_, List.map_id]
    exact congrArg (fun e => { s with expr := e }) (hb s hmem fun v hv =>
      hbody v (List.mem_flatMap.mpr ⟨s, hmem, hv⟩))
  | assign target value ht hv =>
    rw [leaves_assign] at h
    obtain ⟨hvalue, htarget⟩ := List.forall_mem_append.mp h
    rw [relabel_assign, ht htarget, hv hvalue]
  | compare kind left right hl hr =>
    rw [leaves_compare] at h
    obtain ⟨hleft, hright⟩ := List.forall_mem_append.mp h
    rw [relabel_compare, hl hleft, hr hright]
  | arith op left right hl hr =>
    rw [leaves_arith] at h
    obtain ⟨hleft, hright⟩ := List.forall_mem_append.mp h
    rw [relabel_arith, hl hleft, hr hright]
  | _ => simp_all

end Relabel

/-! ## Variables of a statement -/

/-- The variable that a statement assigns to as a whole. -/
def assigned? : Expr → Option VarId
  | .assign (.leaf (.var v)) _ => some v
  | _ => none

/-- The variables that statements assign to, in order. -/
def assignedIn (es : List Expr) : List VarId := es.filterMap assigned?

/-- The leaves that a statement reads. -/
def used : Expr → List Leaf
  | .assign (.leaf (.var _)) value => value.leaves
  | e => e.leaves

theorem used_subset (e : Expr) : e.used ⊆ e.leaves := by
  unfold used
  split
  · intro v hv
    rw [leaves_assign]
    exact List.mem_append_left _ hv
  · exact List.Subset.refl _

/-- An assignment reads all leaves of its value. -/
theorem leaves_subset_used (target value : Expr) : value.leaves ⊆ (assign target value).used := by
  unfold used
  split
  · rename_i heq
    cases heq
    exact List.Subset.refl _
  · rw [leaves_assign]
    exact List.subset_append_left _ _

/-- A statement that assigns to no variable as a whole reads all its leaves. -/
theorem used_of_assigned? {e : Expr} (h : e.assigned? = none) : e.used = e.leaves := by
  unfold used
  split
  · cases h
  · rfl

/-- A leaf of a statement is read, or it is the variable that the statement assigns to. -/
theorem mem_used_or_assigned? {e : Expr} {v : Leaf} (h : v ∈ e.leaves) :
    v ∈ e.used ∨ ∃ a, v = .var a ∧ e.assigned? = some a := by
  unfold used
  split
  · rename_i a value
    rw [leaves_assign, List.mem_append, leaves_leaf, List.mem_singleton] at h
    exact h.imp_right fun heq => ⟨a, heq, rfl⟩
  · exact .inl h

/-- The variable of a statement is the target as a whole, no part of it. -/
theorem assigned?_eq_some {e : Expr} {v : VarId} :
    e.assigned? = some v ↔ ∃ value, e = .assign (.var v) value := by
  constructor
  · intro h
    unfold assigned? at h
    split at h
    · cases h
      exact ⟨_, rfl⟩
    · cases h
  · rintro ⟨value, rfl⟩
    rfl

/-- Only leaves are relabelled to leaves. -/
theorem relabel_eq_leaf {φ : Leaf → Leaf} {e : Expr} {w : Leaf} (h : e.relabel φ = .leaf w) :
    ∃ v, e = .leaf v ∧ φ v = w := by
  cases e with
  | leaf v => exact ⟨v, rfl, Expr.leaf.inj h⟩
  | call target args returns =>
    rw [relabel_call] at h
    cases h
  | guarded condition head body =>
    rw [relabel_guarded] at h
    cases h
  | _ => cases h

/-- Only assignments are relabelled to assignments. -/
theorem relabel_eq_assign {φ : Leaf → Leaf} {e target value : Expr}
    (h : e.relabel φ = .assign target value) :
    ∃ target' value', e = .assign target' value' ∧ target'.relabel φ = target := by
  cases e with
  | assign target' value' => exact ⟨target', value', rfl, (Expr.assign.inj h).1⟩
  | call target args returns =>
    rw [relabel_call] at h
    cases h
  | guarded condition head body =>
    rw [relabel_guarded] at h
    cases h
  | _ => cases h

/-- A variable that is assigned to after relabelling stands for a leaf that was assigned to
before. -/
theorem assigned?_relabel {φ : Leaf → Leaf} {e : Expr} {v : VarId}
    (h : (e.relabel φ).assigned? = some v) :
    ∃ w value, e = .assign (.leaf w) value ∧ φ w = .var v := by
  obtain ⟨value, h⟩ := assigned?_eq_some.mp h
  obtain ⟨target, value', rfl, htarget⟩ := relabel_eq_assign h
  obtain ⟨w, rfl, hw⟩ := relabel_eq_leaf htarget
  exact ⟨w, value', rfl, hw⟩

/-! ## Raw expressions -/

/-- Lifted code has no variables yet. -/
theorem Raw.ne_var {e : Expr} (h : e.Raw) {v : VarId} : Leaf.var v ∉ e.leaves := by
  intro hv
  obtain ⟨part, hpart, heq⟩ := List.mem_filterMap.mp hv
  have hraw := h part hpart
  cases part <;> simp_all [leaf?, isRaw]

/-- Lifted code has no variables. -/
theorem Lifted.ne_var {e : Expr} (h : e.Lifted) {v : VarId} : Leaf.var v ∉ e.leaves := by
  cases e with
  | assign target value =>
    rw [leaves_assign, List.mem_append, not_or]
    exact ⟨h.2.ne_var, h.1.ne_var⟩
  | jumpIf condition target => exact Raw.ne_var (e := condition) h
  | ret value => exact Raw.ne_var (e := value) h
  | jump target => exact List.not_mem_nil
  | retVoid => exact List.not_mem_nil
  | _ => exact Raw.ne_var h

end MethodLift.Expr
