import MethodLift.Proofs.Inlining.Counting

/-!
# Arguments and reads

A variable occurs as an argument where it stands as it is among the arguments of a call, and as a
read everywhere else: as the target of a call, inside an argument, in any other operation. The role
of an occurrence depends on what it stands in, and not on the order in which an expression is walked
through. The counts of an expression are the numbers of its occurrences by role, although a count
takes the first occurrence that it meets for an argument that was announced.
-/

namespace MethodLift

/-- What a variable does where it occurs. -/
inductive Role where
  | argument
  | read
deriving DecidableEq, Repr

namespace Expr

mutual

/-- The roles in which a variable occurs in an expression that has a role itself. -/
def roles (v : VarId) (role : Role) : Expr → List Role
  | .leaf value => if value = .var v then [role] else []
  | .assign target value => value.roles v .read ++ target.roles v .read
  | .compare _ left right => left.roles v .read ++ right.roles v .read
  | .arith _ left right => left.roles v .read ++ right.roles v .read
  | .complement operand => operand.roles v .read
  | .deref address => address.roles v .read
  | .member object _ => object.roles v .read
  | .jumpIf condition _ => condition.roles v .read
  | .guarded condition _ body => condition.roles v .read ++ bodyRoles v body
  | .call target arguments _ => target.roles v .read ++ argumentRoles v arguments
  | .ret value => value.roles v .read
  | .lane vector _ => vector.roles v .read
  | .jump _ | .retVoid | .nop | .unsupported _ | .comment _ => []

/-- The roles in which a variable occurs among the arguments of a call. -/
def argumentRoles (v : VarId) : List Expr → List Role
  | [] => []
  | e :: rest => e.roles v .argument ++ argumentRoles v rest

def bodyRoles (v : VarId) : List Statement → List Role
  | [] => []
  | ⟨e, _, _⟩ :: rest => e.roles v .read ++ bodyRoles v rest

end

/-- The roles in which a statement uses a variable. A variable that the statement assigns to is
written and not used. -/
def useRoles (v : VarId) : Expr → List Role
  | .assign (.leaf (.var _)) value => value.roles v .read
  | e => e.roles v .read

section Roles

variable {v : VarId} {role : Role}

/-- Arguments are gone through one by one, each in the role of an argument. -/
theorem argumentRoles_eq (args : List Expr) :
    argumentRoles v args = args.flatMap (roles v .argument) := by
  induction args with
  | nil => rfl
  | cons a rest ih => rw [argumentRoles, ih, List.flatMap_cons]

/-- Statements of a body are gone through one by one, and read what they hold. -/
theorem bodyRoles_eq (body : List Statement) :
    bodyRoles v body = body.flatMap fun s => s.expr.roles v .read := by
  induction body with
  | nil => rfl
  | cons s rest ih => rw [bodyRoles, ih, List.flatMap_cons]

/-- Parts that are no arguments are read. -/
theorem roles_eq {e : Expr} (hleaf : e.leaf? = none) (hcall : ∀ t args r, e ≠ .call t args r) :
    e.roles v role = e.parts.flatMap (roles v .read) := by
  cases e with
  | leaf value => cases hleaf
  | call target args returns => exact absurd rfl (hcall target args returns)
  | guarded condition head body =>
    rw [roles, bodyRoles_eq, parts, List.flatMap_cons, List.flatMap_map]
  | _ => simp only [roles, parts, List.flatMap_cons, List.flatMap_nil, List.append_nil]

end Roles

/-! ## Numbers of occurrences -/

/-- What calls in an expression pass is what it passes itself and what its parts do. -/
theorem passed_eq (e : Expr) : e.passed = e.passes ++ e.parts.flatMap passed := by
  rw [passed, nodes_eq, List.flatMap_cons, List.flatMap_assoc]
  rfl

/-- Every occurrence has one role. -/
theorem length_roles (v : VarId) (role : Role) (e : Expr) :
    (e.roles v role).length = e.leaves.count (.var v) := by
  induction e using byAllParts generalizing role with
  | h e ih =>
    have hparts (role : Role) (ps : List Expr) (hps : ps ⊆ e.parts) :
        (ps.flatMap (roles v role)).length = (ps.flatMap leaves).count (.var v) := by
      rw [List.length_flatMap, List.count_flatMap]
      exact congrArg List.sum (List.map_congr_left fun p hp => ih p (hps hp) role)
    rw [leaves_eq, List.count_append]
    cases e with
    | leaf value =>
      by_cases hvar : value = .var v <;> simp [roles, leaf?, parts, hvar]
    | call target args returns =>
      have htarget := ih target List.mem_cons_self .read
      have hargs := hparts .argument args (List.subset_cons_self _ _)
      rw [roles, argumentRoles_eq, List.length_append, htarget, hargs, parts, List.flatMap_cons,
        List.count_append]
      exact (Nat.zero_add _).symm
    | _ =>
      rw [roles_eq rfl (by simp), hparts .read _ (List.Subset.refl _)]
      exact (Nat.zero_add _).symm

/-- The variables among some arguments, and those that calls inside them pass. -/
theorem count_argument_arguments {v : VarId} {args : List Expr}
    (h : ∀ a ∈ args, (a.roles v .argument).count .argument =
      a.var?.toList.count v + a.passed.count v) :
    (args.flatMap (roles v .argument)).count .argument =
      (args.filterMap var?).count v + (args.flatMap passed).count v := by
  rw [List.filterMap_eq_flatMap_toList]
  induction args with
  | nil => rfl
  | cons a rest ih =>
    obtain ⟨ha, hrest⟩ := List.forall_mem_cons.mp h
    simp only [List.flatMap_cons, List.count_append, ha, ih hrest]
    omega

/-- The occurrences as an argument are those that calls pass, and the expression itself where it is
an argument. -/
theorem count_argument_roles (v : VarId) (role : Role) (e : Expr) :
    (e.roles v role).count .argument =
      (if role = .argument then e.var?.toList.count v else 0) + e.passed.count v := by
  induction e using byAllParts generalizing role with
  | h e ih =>
    have hparts : (e.parts.flatMap (roles v .read)).count .argument =
        (e.parts.flatMap passed).count v := by
      rw [List.count_flatMap, List.count_flatMap]
      refine congrArg List.sum (List.map_congr_left fun p hp => ?_)
      exact (ih p hp .read).trans (Nat.zero_add _)
    rw [passed_eq, List.count_append]
    cases e with
    | leaf value =>
      cases value <;> cases role <;>
        simp [roles, var?, passes, parts, apply_ite, List.count_singleton]
    | call target args returns =>
      obtain ⟨htarget, hargs⟩ := List.forall_mem_cons.mp ih
      have htarget : (target.roles v .read).count .argument = target.passed.count v :=
        (htarget .read).trans (Nat.zero_add _)
      have hargs := count_argument_arguments fun a ha => hargs a ha .argument
      rw [roles, argumentRoles_eq, List.count_append, htarget, hargs, parts, List.flatMap_cons,
        List.count_append, passes]
      simp only [var?, Option.toList_none, List.count_nil, ite_self]
      omega
    | _ =>
      rw [roles_eq rfl (by simp), hparts]
      simp [var?, passes]

/-- All occurrences that are no arguments are reads. -/
theorem count_argument_add_count_read (v : VarId) (role : Role) (e : Expr) :
    (e.roles v role).count .argument + (e.roles v role).count .read = e.leaves.count (.var v) := by
  rw [← length_roles v role e]
  induction e.roles v role with
  | nil => rfl
  | cons r rest ih => cases r <;> simp <;> omega

/-- A statement uses a variable as often as the variable is among the leaves that it reads. -/
theorem length_useRoles (v : VarId) (e : Expr) :
    (e.useRoles v).length = e.used.count (.var v) := by
  unfold useRoles
  split
  · exact length_roles v .read _
  · rename_i hne
    rw [length_roles, used]
    exact hne

end Expr

namespace VariableInlining

open Expr

/-- Counting an expression adds to the arguments of a variable its occurrences as an argument, and
to its reads all other occurrences; nothing else changes. So a variable counts as used once exactly
if the live statements assign to it once and use it once, in whatever role. -/
theorem exact_countUses (v : VarId) :
    (∀ (uses : Uses) (e : Expr), useOf (countUses uses e) v =
      { useOf uses v with
        reads := (useOf uses v).reads + (e.roles v .read).count .read
        arguments := (useOf uses v).arguments + (e.roles v .read).count .argument }) ∧
    ∀ g : Graph, (useOf (countGraph g) v).isSingle = true ↔
      (assignedIn g.liveCode).count v = 1 ∧ (g.liveCode.flatMap (useRoles v)).length = 1 := by
  constructor
  · intro uses e
    obtain ⟨hwrites, hdefinition, harguments, hreads⟩ := useOf_countUses uses v e
    have hpassed : (e.roles v .read).count .argument = e.passed.count v :=
      (count_argument_roles v .read e).trans (Nat.zero_add _)
    have hall := count_argument_add_count_read v .read e
    generalize useOf (countUses uses e) v = after at *
    obtain ⟨writes, reads, arguments, definition⟩ := after
    dsimp only at hwrites hdefinition harguments hreads
    rw [Use.mk.injEq]
    exact ⟨hwrites, by omega, hpassed ▸ harguments, hdefinition⟩
  · intro g
    have hlength : (g.liveCode.flatMap (useRoles v)).length =
        (g.liveCode.flatMap used).count (.var v) := by
      rw [List.length_flatMap, List.count_flatMap]
      exact congrArg List.sum (List.map_congr_left fun e _ => length_useRoles v e)
    rw [hlength]
    exact isSingle_countGraph v g

/-- The target is met first and taken for the argument, and the argument counts as a read. -/
example :
    useOf (countUses {} (.call (.var 0) [.var 0, .arith .add (.var 0) (.immediate 1)] false)) 0 =
      { reads := 2, arguments := 1 } := by
  decide +kernel

end VariableInlining

end MethodLift
