import MethodLift.Proofs.Expr.Mimicry
import MethodLift.Proofs.Inlining.Discipline

/-!
# Statements before and after inlining

The environments of runs before and after inlining agree on all variables that are not replaced. A
replaced variable that was assigned to holds the value of its replacement from then on, since no
variable is assigned to again after it was copied. A statement that is kept has the same effects in
both environments, and a definition that is dropped keeps them together.
-/

namespace MethodLift.VariableInlining

open Expr (assignedIn Closed)

variable {V : Type} {m : Machine V} {r : Replacements} {A : VarId → Prop} {done : List Expr}
  {e : Expr} {env env' : Env V}

/-! ## Environments -/

/-- The second environment belongs to the code after inlining. -/
structure Follows (m : Machine V) (r : Replacements) (done : List Expr) (env env' : Env V) :
    Prop where
  regs : env'.regs = env.regs
  vars : ∀ {v}, r.get? v = none → env'.vars v = env.vars v
  copied : ∀ {v l}, r.get? v = some (.leaf l) → v ∈ assignedIn done → env.vars v = m.leaf env l

theorem Follows.refl (m : Machine V) (r : Replacements) (env : Env V) :
    Follows m r [] env env :=
  ⟨rfl, fun _ => rfl, fun _ hmem => nomatch hmem⟩

/-- A variable in scope has the value of what it is replaced by. -/
theorem Follows.var (h : Follows m r done env env') (hr : Admissible r A) (hc : Copies r done)
    (hclosed : Closed A done) {v : VarId} (hv : InScope A done v) :
    m.leaf env' (rename r (.var v)) = env.vars v := by
  induction v using Nat.strongRecOn with
  | ind v ih =>
    cases hget : r.get? v with
    | none =>
      rw [rename_of_none hget]
      exact h.vars hget
    | some e =>
      obtain ⟨l, rfl⟩ := hr.leaves.get? hget
      have hmem := hv (hr.assigned hget)
      rw [hr.rename_eq hget, h.copied hget hmem]
      cases l with
      | var u => exact ih u (hr.lt hget) (.next hc hclosed hmem hget)
      | register s => cases hr.movable hget
      | _ => rfl

/-- A leaf and its replacement have the same value while the environments follow each other. -/
theorem Follows.leaf (h : Follows m r done env env') (hr : Admissible r A) (hc : Copies r done)
    (hclosed : Closed A done) {l : Leaf} (hl : ∀ v, l = .var v → InScope A done v) :
    m.leaf env' (rename r l) = m.leaf env l := by
  cases l with
  | var v => exact h.var hr hc hclosed (hl v rfl)
  | register s => exact congrFun h.regs s
  | _ => rfl

theorem leaf_setVar_of_ne {v : VarId} {l : Leaf} (x : V) (h : l ≠ .var v) :
    m.leaf (env.setVar v x) l = m.leaf env l := by
  cases l with
  | var w =>
    refine Env.setVar_of_ne _ _ ?_
    rintro rfl
    exact h rfl
  | _ => rfl

/-- A variable that was assigned to keeps the value of its replacement when another one is assigned
to for the first time. -/
theorem Follows.copied_setVar (h : Follows m r done env env') (hc : Copies r done)
    (hclosed : Closed A done) {v : VarId} (hnew : v ∉ assignedIn done) (ha : A v) (x : V)
    {w : VarId} {l : Leaf} (hw : r.get? w = some (.leaf l)) (hmem : w ∈ assignedIn done) :
    (env.setVar v x).vars w = m.leaf (env.setVar v x) l := by
  have hne : w ≠ v := by
    rintro rfl
    exact hnew hmem
  have hl : l ≠ .var v := by
    rintro rfl
    exact hnew (InScope.next hc hclosed hmem hw ha)
  rw [Env.setVar_of_ne _ _ hne, leaf_setVar_of_ne x hl]
  exact h.copied hw hmem

/-! ## Statements -/

/-- Statements that assign to no variable change nothing about copies. -/
theorem Follows.skip (h : Follows m r done env env') (he : e.assigned? = none) :
    Follows m r (done ++ [e]) env env' := by
  have hdone : assignedIn (done ++ [e]) = assignedIn done := by
    rw [Expr.assignedIn_append, assignedIn, assignedIn, List.filterMap_cons_none he,
      List.filterMap_nil, List.append_nil]
  refine ⟨h.regs, h.vars, ?_⟩
  intro v l hv hmem
  rw [hdone] at hmem
  exact h.copied hv hmem

/-- Registers are not what variables are replaced by. -/
theorem Follows.setReg (h : Follows m r done env env') (hr : Admissible r A) (s : String) (x : V) :
    Follows m r done (env.setReg s x) (env'.setReg s x) := by
  refine ⟨?_, h.vars, ?_⟩
  · funext s'
    show (if s' = s then x else env'.regs s') = if s' = s then x else env.regs s'
    rw [h.regs]
  · intro v l hv hmem
    rw [Env.setReg_vars, h.copied hv hmem]
    cases l with
    | register s' => cases hr.movable hv
    | _ => rfl

/-- A definition that is kept. -/
theorem Follows.define (h : Follows m r done env env') (hc : Copies r done)
    (hclosed : Closed A done) {v : VarId} {value : Expr} (hkept : r.get? v = none)
    (hnew : v ∉ assignedIn done) (ha : A v) (x : V) :
    Follows m r (done ++ [.assign (.var v) value]) (env.setVar v x) (env'.setVar v x) := by
  refine ⟨h.regs, ?_, ?_⟩
  · intro w hw
    show (if w = v then x else env'.vars w) = if w = v then x else env.vars w
    rw [h.vars hw]
  · intro w l hw hmem
    rw [Expr.assignedIn_append, List.mem_append] at hmem
    rcases hmem with hmem | hmem
    · exact h.copied_setVar hc hclosed hnew ha x hw hmem
    · cases List.mem_singleton.mp hmem
      rw [hkept] at hw
      cases hw

/-- A definition that is dropped. -/
theorem Follows.drop (h : Follows m r done env env') (hr : Admissible r A) (hc : Copies r done)
    (hclosed : Closed A done) {v : VarId} {l : Leaf} (hv : r.get? v = some (.leaf l))
    (hnew : v ∉ assignedIn done) :
    Follows m r (done ++ [.assign (.var v) (.leaf l)]) (env.setVar v (m.leaf env l)) env' := by
  refine ⟨h.regs, ?_, ?_⟩
  · intro w hw
    have hne : w ≠ v := by
      rintro rfl
      rw [hv] at hw
      cases hw
    rw [Env.setVar_of_ne _ _ hne]
    exact h.vars hw
  · intro w l' hw hmem
    rw [Expr.assignedIn_append, List.mem_append] at hmem
    rcases hmem with hmem | hmem
    · exact h.copied_setVar hc hclosed hnew (hr.assigned hv) _ hw hmem
    · cases List.mem_singleton.mp hmem
      cases hv.symm.trans hw
      have hl : l ≠ .var v := by
        rintro rfl
        exact Nat.lt_irrefl v (hr.lt hv)
      rw [Env.setVar_self, leaf_setVar_of_ne _ hl]

/-- A replacement does not make a place local, unless the place is a lane, which is a part of its
vector. -/
theorem isLocal_rename {place : Expr} (h : place.isLocal = false)
    (hlane : ∀ vector index, place ≠ .lane vector index) :
    (place.relabel (rename r)).isLocal = false := by
  cases place with
  | leaf l =>
    cases l with
    | register s => cases h
    | var v => cases h
    | _ => rfl
  | lane vector index => exact absurd rfl (hlane vector index)
  | call target args returns => rw [Expr.relabel_call]; rfl
  | guarded condition head body => rw [Expr.relabel_guarded]; rfl
  | _ => rfl

/-- What is known about a statement after others. -/
structure Next (A : VarId → Prop) (done : List Expr) (e : Expr) : Prop where
  used : ∀ v, .var v ∈ e.used → InScope A done v
  fresh : ∀ v, e.assigned? = some v → v ∉ assignedIn done
  assigned : ∀ v, e.assigned? = some v → A v
  laneless : e.assignsLane = false

/-- Writes that are kept go to corresponding places, and the environments follow each other
afterwards. -/
theorem mimics_write (h : Follows m r done env env') (hr : Admissible r A) (hc : Copies r done)
    (hclosed : Closed A done) {place value : Expr} (hn : Next A done (.assign place value))
    (hkept : kept r (.assign place value) = true) (x : V) :
    Mimics (Follows m r (done ++ [.assign place value])) (m.write env x place)
      (m.write env' x (place.relabel (rename r))) := by
  have hlane (vector : Expr) (index : Nat) : place ≠ .lane vector index := by
    rintro rfl
    cases hn.laneless
  cases hlocal : place.isLocal with
  | false =>
    have hnone : (Expr.assign place value).assigned? = none := by
      refine Option.eq_none_iff_forall_ne_some.mpr fun v hv => ?_
      obtain ⟨value', heq⟩ := Expr.assigned?_eq_some.mp hv
      cases heq
      cases hlocal
    have hleaves : ∀ l ∈ place.leaves, m.leaf env' (rename r l) = m.leaf env l := by
      intro l hl
      refine h.leaf hr hc hclosed ?_
      rintro v rfl
      apply hn.used v
      rw [Expr.used_of_assigned? hnone, Expr.leaves_assign]
      exact List.mem_append_right _ hl
    rw [m.write_of_not_local env hlocal, m.write_of_not_local env' (isLocal_rename hlocal hlane),
      Machine.store_relabel hleaves]
    exact (m.mimics_store env x place).bind_eq fun _ => .pure (h.skip hnone)
  | true =>
    cases place with
    | leaf l =>
      cases l with
      | register s => exact .pure ((h.setReg hr s x).skip rfl)
      | var v =>
        rw [kept_assign, Option.isNone_iff_eq_none] at hkept
        rw [Expr.relabel_leaf, rename_of_none hkept]
        exact .pure (h.define hc hclosed hkept (hn.fresh v rfl) (hn.assigned v rfl) x)
      | _ => cases hlocal
    | lane vector index => exact absurd rfl (hlane vector index)
    | _ => cases hlocal

/-- A statement that is kept does the same and passes control on in the same way. -/
theorem mimics_exec (h : Follows m r done env env') (hr : Admissible r A) (hc : Copies r done)
    (hclosed : Closed A done) (hn : Next A done e) (hkept : kept r e = true) :
    Mimics (fun p p' => p'.1 = p.1 ∧ Follows m r (done ++ [e]) p.2 p'.2) (m.exec env e)
      (m.exec env' (e.relabel (rename r))) := by
  have hleaf : ∀ l ∈ e.used, m.leaf env' (rename r l) = m.leaf env l := by
    intro l hl
    refine h.leaf hr hc hclosed ?_
    rintro v rfl
    exact hn.used v hl
  by_cases hassign : ∃ place value, e = .assign place value
  · obtain ⟨place, value, rfl⟩ := hassign
    have hvalue : m.eval env' (value.relabel (rename r)) = m.eval env value :=
      Machine.eval_relabel fun l hl => hleaf l (Expr.leaves_subset_used place value hl)
    rw [Expr.relabel_assign, Machine.exec, Machine.exec, hvalue]
    refine (m.mimics_eval env value).bind_eq fun x => ?_
    exact (mimics_write h hr hc hclosed hn hkept x).bind fun _ _ hab => .pure ⟨rfl, hab⟩
  · have hne : ∀ place value, e ≠ .assign place value :=
      fun place value heq => hassign ⟨place, value, heq⟩
    have hne' : ∀ place value, e.relabel (rename r) ≠ .assign place value := by
      intro place value heq
      obtain ⟨place', value', heq', -⟩ := Expr.relabel_eq_assign heq
      exact hne place' value' heq'
    have hnone : e.assigned? = none := by
      refine Option.eq_none_iff_forall_ne_some.mpr fun v hv => ?_
      obtain ⟨value, heq⟩ := Expr.assigned?_eq_some.mp hv
      exact hne _ value heq
    rw [Expr.used_of_assigned? hnone] at hleaf
    rw [m.exec_of_ne_assign env hne, m.exec_of_ne_assign env' hne', Machine.perform_relabel hleaf]
    exact (m.mimics_perform env e).bind_eq fun _ => .pure ⟨rfl, h.skip hnone⟩

/-- A conditional jump is taken in both runs or in neither. -/
theorem mimics_takes (h : Follows m r done env env') (hr : Admissible r A) (hc : Copies r done)
    (hclosed : Closed A done) {condition : Expr} {target : Nat}
    (hn : Next A done (.jumpIf condition target)) :
    Mimics Eq (m.takes env condition) (m.takes env' (condition.relabel (rename r))) := by
  have hleaf : ∀ l ∈ condition.leaves, m.leaf env' (rename r l) = m.leaf env l := by
    intro l hl
    refine h.leaf hr hc hclosed ?_
    rintro v rfl
    exact hn.used v hl
  rw [Machine.takes_relabel hleaf]
  exact m.mimics_takes env condition

end MethodLift.VariableInlining
