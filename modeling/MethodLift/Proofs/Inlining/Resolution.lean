import MethodLift.Proofs.Expr.Relabel
import MethodLift.Proofs.Pass.Rewriting

/-!
# Following replacements

A variable may be replaced by a variable that is replaced itself. Where replacements only lead to
variables with smaller numbers they end, and a variable and its replacement come to the same leaf.
-/

namespace MethodLift.VariableInlining

variable {r : Replacements} {v w : VarId}

/-! ## Renaming leaves -/

/-- What a leaf is replaced by. -/
def rename (r : Replacements) : Leaf → Leaf
  | .var id =>
    match resolve r r.size id with
    | some (.leaf v) => v
    | _ => .var id
  | v => v

/-- Where replacements are leaves, replacing is relabelling. -/
theorem node_eq_relabelNode {r : Replacements} (h : AllLeaves r) :
    node r = Expr.relabelNode (rename r) := by
  funext e
  cases e with
  | leaf v =>
    cases v with
    | var id =>
      cases hr : resolve r r.size id with
      | none => simp [node, rename, Expr.relabelNode, hr]
      | some e =>
        obtain ⟨v, rfl⟩ := h.resolve _ hr
        simp [node, rename, Expr.relabelNode, hr]
    | _ => rfl
  | _ => rfl

/-! ## Descending replacements -/

/-- Variables are replaced by leaves, and only by variables with smaller numbers. -/
structure Descending (r : Replacements) : Prop where
  leaves : AllLeaves r
  lt : ∀ {v w}, r.get? v = some (.var w) → w < v

theorem resolve_of_none (h : r.get? v = none) (steps : Nat) : resolve r steps v = none := by
  cases steps with
  | zero => rfl
  | succ steps => rw [resolve, h]

/-- Only the replacements of variables up to the first one are followed, however many steps there
are to spare. -/
theorem resolve_congr {r r' : Replacements} {n n' : Nat} (hr : r.size ≤ n) (hr' : r'.size ≤ n')
    (hdesc : ∀ x ≤ v, ∀ w, r.get? x = some (.var w) → w < x)
    (heq : ∀ x ≤ v, r'.get? x = r.get? x) : resolve r' n' v = resolve r n v := by
  induction v using Nat.strongRecOn generalizing r r' n n' with
  | ind v ih =>
    have heqv := heq v (Nat.le_refl v)
    cases hv : r.get? v with
    | none => rw [resolve_of_none hv, resolve_of_none (heqv.trans hv)]
    | some e =>
      rw [hv] at heqv
      have hlt := Table.erase_size_lt hv
      have hlt' := Table.erase_size_lt heqv
      obtain ⟨k, rfl⟩ : ∃ k, n = k + 1 := Nat.exists_eq_add_one.mpr (by omega)
      obtain ⟨k', rfl⟩ : ∃ k, n' = k + 1 := Nat.exists_eq_add_one.mpr (by omega)
      rw [resolve, resolve, hv, heqv]
      split
      · rfl
      · rename_i u hu
        cases hu
        have huv := hdesc v (Nat.le_refl v) u hv
        have hne {x : VarId} (hx : x ≤ u) : x ≠ v := Nat.ne_of_lt (Nat.lt_of_le_of_lt hx huv)
        have hrest : resolve (r'.erase v) k' u = resolve (r.erase v) k u := by
          refine ih u huv (by omega) (by omega) (fun x hx w => ?_) (fun x hx => ?_)
          · rw [Table.get?_erase_of_ne _ (hne hx)]
            exact hdesc x (Nat.le_trans hx (Nat.le_of_lt huv)) w
          · rw [Table.get?_erase_of_ne _ (hne hx), Table.get?_erase_of_ne _ (hne hx)]
            exact heq x (Nat.le_trans hx (Nat.le_of_lt huv))
        rw [hrest]
      · rfl

theorem rename_of_none (h : r.get? v = none) : rename r (.var v) = .var v := by
  simp [rename, resolve_of_none h]

/-- A variable and its replacement come to the same leaf. -/
theorem Descending.rename_eq (hr : Descending r) {l : Leaf} (h : r.get? v = some (.leaf l)) :
    rename r (.var v) = rename r l := by
  have hlt := Table.erase_size_lt h
  obtain ⟨k, hk⟩ : ∃ k, r.size = k + 1 := Nat.exists_eq_add_one.mpr (by omega)
  cases l with
  | var w =>
    have hrest : resolve (r.erase v) k w = resolve r r.size w := by
      refine resolve_congr (Nat.le_refl _) (by omega) (fun x _ w => hr.lt) fun x hx => ?_
      have hwv := hr.lt h
      exact Table.get?_erase_of_ne _ (Nat.ne_of_lt (Nat.lt_of_le_of_lt hx hwv))
    have hstep : resolve r r.size v = some ((resolve r r.size w).getD (.var w)) := by
      rw [← hrest, hk, resolve, h]
    simp only [rename, hstep]
    cases he : resolve r r.size w with
    | none => rfl
    | some e =>
      obtain ⟨l, rfl⟩ := hr.leaves.resolve _ he
      rfl
  | _ => simp [rename, hk, resolve, h]

/-- What a variable is replaced by in the end is not replaced and has no larger number. -/
theorem Descending.rename_eq_var (hr : Descending r) (h : rename r (.var v) = .var w) :
    w ≤ v ∧ r.get? w = none := by
  induction v using Nat.strongRecOn with
  | ind v ih =>
    cases hv : r.get? v with
    | none =>
      rw [rename_of_none hv] at h
      cases h
      exact ⟨Nat.le_refl _, hv⟩
    | some e =>
      obtain ⟨l, rfl⟩ := hr.leaves.get? hv
      rw [hr.rename_eq hv] at h
      cases l with
      | var u =>
        have huv := hr.lt hv
        obtain ⟨hle, hnone⟩ := ih u huv h
        exact ⟨Nat.le_trans hle (Nat.le_of_lt huv), hnone⟩
      | _ => cases h

end MethodLift.VariableInlining
