import MethodLift.Proofs.Analyses.Derivations
import MethodLift.Proofs.Inlining.Definitions
import Mathlib.Data.List.Count

/-!
# Uses are counted exactly

The arguments of a call are counted at the call, before they occur. From then on as many occurrences
of the variable are waited for, and whatever occurrence comes first is taken for one of them. Which
occurrence that is does not matter, since only numbers are kept; and at the end of an expression
nothing is waited for, since a call is followed by its arguments. So the uses of a variable that are
counted in some statements are its occurrences there, other than as the variable that a statement
assigns to.
-/

namespace MethodLift

open Expr

namespace Table

variable {κ α : Type} [BEq κ] [LawfulBEq κ] {k j : κ}

theorem get?_update_self (t : Table κ α) (k : κ) (d : α) (f : α → α) :
    (t.update k d f).get? k = some (f ((t.get? k).getD d)) :=
  t.get?_insert_self k _

theorem get?_update_of_ne (t : Table κ α) (d : α) (f : α → α) (h : k ≠ j) :
    (t.update j d f).get? k = t.get? k :=
  t.get?_insert_of_ne _ h

end Table

/-! ## Variables that are passed -/

namespace Expr

/-- The variables that a call passes as they are. -/
def passes : Expr → List VarId
  | .call _ arguments _ => arguments.filterMap var?
  | _ => []

/-- The variables that calls somewhere in an expression pass as they are. -/
def passed (e : Expr) : List VarId := e.nodes.flatMap passes

theorem eq_var_of_var? {e : Expr} {v : VarId} (h : e.var? = some v) : e = .var v := by
  unfold var? at h
  split at h
  · cases h
    rfl
  · cases h

end Expr

namespace VariableInlining

/-! ## One expression -/

def useOf (uses : Uses) (v : VarId) : Use := (uses.get? v).getD {}

theorem useOf_update_self (uses : Uses) (v : VarId) (f : Use → Use) :
    useOf (uses.update v {} f) v = f (useOf uses v) := by
  rw [useOf, Table.get?_update_self]
  rfl

theorem useOf_update_of_ne (uses : Uses) {v w : VarId} (f : Use → Use) (h : v ≠ w) :
    useOf (uses.update w {} f) v = useOf uses v := by
  rw [useOf, Table.get?_update_of_ne _ _ _ h]
  rfl

namespace Count

variable {c c' c'' : Count} {v : VarId}

/-- How many occurrences of a variable are waited for. -/
def waiting (c : Count) (v : VarId) : Nat := (c.pending.get? v).getD 0

/-- Counting passed a variable to calls and met it, as often as is said. Every occurrence that it
met was waited for, or it was counted as a read. -/
structure Meets (v : VarId) (passed met : Nat) (c c' : Count) : Prop where
  writes : (useOf c'.uses v).writes = (useOf c.uses v).writes
  definition : (useOf c'.uses v).definition = (useOf c.uses v).definition
  arguments : (useOf c'.uses v).arguments = (useOf c.uses v).arguments + passed
  reads : (useOf c'.uses v).reads + c.waiting v + passed =
    (useOf c.uses v).reads + c'.waiting v + met

theorem Meets.refl (v : VarId) (c : Count) : Meets v 0 0 c c := ⟨rfl, rfl, rfl, rfl⟩

/-- What is met one after the other adds up. -/
theorem Meets.trans {passed passed' met met' : Nat} (h : Meets v passed met c c')
    (h' : Meets v passed' met' c' c'') : Meets v (passed + passed') (met + met') c c'' where
  writes := h'.writes.trans h.writes
  definition := h'.definition.trans h.definition
  arguments := by rw [h'.arguments, h.arguments, Nat.add_assoc]
  reads := by
    have := h.reads
    have := h'.reads
    omega

theorem count_singleton_of_ne {w : VarId} (h : v ≠ w) : [w].count v = 0 :=
  List.count_eq_zero.mpr fun hv => h (List.mem_singleton.mp hv)

theorem count_cons_eq (v w : VarId) (ids : List VarId) :
    (w :: ids).count v = [w].count v + ids.count v := by
  rw [← List.singleton_append, List.count_append]

/-- An argument is waited for once more after it was counted in advance. -/
theorem waiting_argument (c : Count) (v w : VarId) :
    (c.argument w).waiting v = c.waiting v + [w].count v := by
  by_cases h : v = w
  · subst h
    rw [waiting, argument, Table.get?_update_self, List.count_singleton_self]
    rfl
  · rw [waiting, argument, Table.get?_update_of_ne _ _ _ h, count_singleton_of_ne h]
    rfl

/-- A variable that is passed is counted as an argument. -/
theorem meets_argument (c : Count) (v w : VarId) :
    Meets v ([w].count v) 0 c (c.argument w) := by
  have hwaiting := c.waiting_argument v w
  by_cases h : v = w
  · subst h
    have huse : useOf (c.argument v).uses v =
        { useOf c.uses v with arguments := (useOf c.uses v).arguments + 1 } :=
      useOf_update_self _ _ _
    rw [List.count_singleton_self] at hwaiting ⊢
    refine ⟨by rw [huse], by rw [huse], by rw [huse], ?_⟩
    rw [huse, hwaiting]
    dsimp only
    omega
  · have huse : useOf (c.argument w).uses v = useOf c.uses v := useOf_update_of_ne _ _ h
    rw [count_singleton_of_ne h] at hwaiting ⊢
    exact ⟨by rw [huse], by rw [huse], by rw [huse]; rfl, by rw [huse, hwaiting]; rfl⟩

/-- Arguments are counted in advance, one by one. -/
theorem meets_arguments (c : Count) (v : VarId) (ids : List VarId) :
    Meets v (ids.count v) 0 c (ids.foldl argument c) := by
  induction ids generalizing c with
  | nil => exact .refl v c
  | cons w rest ih =>
    rw [count_cons_eq v w rest]
    exact (meets_argument c v w).trans (ih (c.argument w))

/-- What is waited for is met first. -/
theorem occurrence_cases (c : Count) (w : VarId) :
    (∃ n, c.waiting w = n + 1 ∧ c.occurrence w = { c with pending := c.pending.insert w n }) ∨
    (c.waiting w = 0 ∧ c.occurrence w =
      { c with uses := c.uses.update w {} fun u => { u with reads := u.reads + 1 } }) := by
  unfold occurrence waiting
  split
  · rename_i n hn
    exact .inl ⟨n, by rw [hn]; rfl, rfl⟩
  · rename_i hnone
    refine .inr ⟨?_, rfl⟩
    cases hw : c.pending.get? w with
    | none => rfl
    | some n =>
      cases n with
      | zero => rfl
      | succ n => exact absurd hw (hnone n)

/-- An occurrence that was waited for is waited for no more. -/
theorem waiting_occurrence (c : Count) (v w : VarId) :
    (c.occurrence w).waiting v = c.waiting v - [w].count v := by
  by_cases h : v = w
  · subst h
    rw [List.count_singleton_self]
    rcases c.occurrence_cases v with ⟨n, hn, heq⟩ | ⟨hzero, heq⟩
    · rw [heq, hn, waiting, Table.get?_insert_self]
      rfl
    · rw [heq, hzero]
      exact hzero
  · rw [count_singleton_of_ne h]
    rcases c.occurrence_cases w with ⟨n, -, heq⟩ | ⟨-, heq⟩
    · rw [heq, waiting, Table.get?_insert_of_ne _ _ h]
      rfl
    · rw [heq]
      rfl

/-- An occurrence is met as an argument that was waited for, or else as a read. -/
theorem meets_occurrence (c : Count) (v w : VarId) :
    Meets v 0 ([w].count v) c (c.occurrence w) := by
  have hwaiting := c.waiting_occurrence v w
  by_cases h : v = w
  · subst h
    rw [List.count_singleton_self] at hwaiting ⊢
    rcases c.occurrence_cases v with ⟨n, hn, heq⟩ | ⟨hzero, heq⟩
    · refine ⟨by rw [heq], by rw [heq], by rw [heq]; rfl, ?_⟩
      rw [hwaiting, heq]
      dsimp only
      omega
    · have huse : useOf (c.occurrence v).uses v =
          { useOf c.uses v with reads := (useOf c.uses v).reads + 1 } := by
        rw [heq]
        exact useOf_update_self _ _ _
      refine ⟨by rw [huse], by rw [huse], by rw [huse]; rfl, ?_⟩
      rw [hwaiting, huse]
      dsimp only
      omega
  · have huse : useOf (c.occurrence w).uses v = useOf c.uses v := by
      rcases c.occurrence_cases w with ⟨n, -, heq⟩ | ⟨-, heq⟩
      · rw [heq]
      · rw [heq]
        exact useOf_update_of_ne _ _ h
    rw [count_singleton_of_ne h] at hwaiting ⊢
    exact ⟨by rw [huse], by rw [huse], by rw [huse]; rfl, by rw [huse, hwaiting]; rfl⟩

/-- Counting one part. -/
theorem meets_node (c : Count) (v : VarId) (e : Expr) :
    Meets v (e.passes.count v) (e.leaf?.toList.count (.var v)) c (c.node e) := by
  cases e with
  | call target args returns => exact meets_arguments c v _
  | leaf l =>
    cases l with
    | var w =>
      have hmet := meets_occurrence c v w
      rwa [← List.count_map_of_injective [w] Leaf.var fun _ _ => Leaf.var.inj] at hmet
    | _ => exact .refl v c
  | _ => exact .refl v c

/-- The parts of an expression are met in the order of the walk: a call announces its arguments
before they occur. -/
theorem meets_nodes (c : Count) (v : VarId) (es : List Expr) :
    Meets v ((es.flatMap passes).count v) ((es.filterMap leaf?).count (.var v)) c
      (es.foldl node c) := by
  induction es generalizing c with
  | nil => exact .refl v c
  | cons e rest ih =>
    have hleaves : (e :: rest).filterMap leaf? = e.leaf?.toList ++ rest.filterMap leaf? := by
      rw [List.filterMap_cons]
      cases e.leaf? <;> rfl
    rw [List.flatMap_cons, List.count_append, hleaves, List.count_append]
    exact (meets_node c v e).trans (ih (c.node e))

/-! ### Nothing is waited for at the end -/

/-- Counting all parts of one expression after the other. -/
theorem foldl_flatMap_nodes (c : Count) (es : List Expr) :
    (es.flatMap nodes).foldl node c = es.foldl (fun c e => e.nodes.foldl node c) c := by
  induction es generalizing c with
  | nil => rfl
  | cons e rest ih => rw [List.flatMap_cons, List.foldl_append, ih, List.foldl_cons]

theorem waiting_arguments (c : Count) (v : VarId) (ids : List VarId) :
    (ids.foldl argument c).waiting v = c.waiting v + ids.count v := by
  induction ids generalizing c with
  | nil => rfl
  | cons w rest ih =>
    rw [List.foldl_cons, ih, waiting_argument, count_cons_eq v w rest, Nat.add_assoc]

/-- Arguments that are variables are what a call waits for. -/
theorem waiting_foldl_arguments {v : VarId} {args : List Expr}
    (h : ∀ a ∈ args, ∀ c : Count, (a.nodes.foldl node c).waiting v ≤ c.waiting v) (c : Count) :
    (args.foldl (fun c a => a.nodes.foldl node c) c).waiting v ≤
      c.waiting v - (args.filterMap var?).count v := by
  induction args generalizing c with
  | nil => exact Nat.le_refl _
  | cons a rest ih =>
    obtain ⟨ha, hrest⟩ := List.forall_mem_cons.mp h
    rw [List.foldl_cons]
    refine Nat.le_trans (ih hrest _) ?_
    cases hvar : a.var? with
    | none =>
      rw [List.filterMap_cons_none hvar]
      exact Nat.sub_le_sub_right (ha c) _
    | some w =>
      have hwaiting : (a.nodes.foldl node c).waiting v = c.waiting v - [w].count v := by
        rw [eq_var_of_var? hvar]
        exact waiting_occurrence c v w
      rw [List.filterMap_cons_some hvar, hwaiting, count_cons_eq v w (rest.filterMap var?)]
      omega

/-- Nothing is left waiting at the end of an expression that was not before, since each argument
occurs after its call. -/
theorem waiting_nodes (c : Count) (v : VarId) (e : Expr) :
    (e.nodes.foldl node c).waiting v ≤ c.waiting v := by
  induction e using byAllParts generalizing c with
  | h e ih =>
    -- parts that are no arguments of a call are counted like arguments that are no variables
    have hparts : ∀ c : Count,
        (e.parts.foldl (fun c p => p.nodes.foldl node c) c).waiting v ≤ c.waiting v :=
      fun c => Nat.le_trans (waiting_foldl_arguments (fun p hp c => ih p hp c) c) (Nat.sub_le _ _)
    rw [nodes_eq, List.foldl_cons, foldl_flatMap_nodes]
    cases e with
    | call target args returns =>
      obtain ⟨htarget, hargs⟩ := List.forall_mem_cons.mp ih
      have hcall := c.waiting_arguments v (args.filterMap var?)
      have hafter := htarget ((args.filterMap var?).foldl argument c)
      refine Nat.le_trans (waiting_foldl_arguments (fun a ha c => hargs a ha c) _) ?_
      show (target.nodes.foldl node ((args.filterMap var?).foldl argument c)).waiting v - _ ≤ _
      omega
    | leaf l =>
      cases l with
      | var w =>
        show (c.occurrence w).waiting v ≤ _
        rw [waiting_occurrence]
        exact Nat.sub_le _ _
      | _ => exact Nat.le_refl _
    | _ => exact hparts c

end Count

/-- Counting the uses in an expression counts the variables that calls pass, and all other
occurrences as reads. -/
theorem useOf_countUses (uses : Uses) (v : VarId) (e : Expr) :
    (useOf (countUses uses e) v).writes = (useOf uses v).writes ∧
      (useOf (countUses uses e) v).definition = (useOf uses v).definition ∧
      (useOf (countUses uses e) v).arguments = (useOf uses v).arguments + e.passed.count v ∧
      (useOf (countUses uses e) v).reads + e.passed.count v =
        (useOf uses v).reads + e.leaves.count (.var v) := by
  have hmeets := Count.meets_nodes { uses } v e.nodes
  have hwaiting : (e.nodes.foldl Count.node { uses }).waiting v = 0 :=
    Nat.le_zero.mp (Count.waiting_nodes { uses } v e)
  have hreads := hmeets.reads
  rw [hwaiting] at hreads
  exact ⟨hmeets.writes, hmeets.definition, hmeets.arguments, hreads⟩

/-! ## Statements -/

/-- Some statements were counted. The variable is written as often as they assign to it and used as
often as they read it, and there is a definition of it when they assign to it. -/
structure Tells (v : VarId) (es : List Expr) (uses uses' : Uses) : Prop where
  writes : (useOf uses' v).writes = (useOf uses v).writes + (assignedIn es).count v
  used : (useOf uses' v).reads + (useOf uses' v).arguments =
    (useOf uses v).reads + (useOf uses v).arguments + (es.flatMap used).count (.var v)
  definition : (useOf uses v).definition.isSome = true ∨ v ∈ assignedIn es →
    (useOf uses' v).definition.isSome = true

variable {v : VarId} {uses uses' uses'' : Uses}

theorem Tells.refl (v : VarId) (uses : Uses) : Tells v [] uses uses where
  writes := rfl
  used := rfl
  definition h := h.resolve_right List.not_mem_nil

/-- Statements are counted one after the other. -/
theorem Tells.append {es es' : List Expr} (h : Tells v es uses uses')
    (h' : Tells v es' uses' uses'') : Tells v (es ++ es') uses uses'' where
  writes := by rw [assignedIn_append, List.count_append, h'.writes, h.writes, Nat.add_assoc]
  used := by
    have := h.used
    have := h'.used
    rw [List.flatMap_append, List.count_append]
    omega
  definition hd := by
    rw [assignedIn_append, List.mem_append, ← or_assoc] at hd
    exact h'.definition (hd.imp_left h.definition)

/-- A statement tells what it assigns to and what it uses, with arguments apart. Assignments to a
variable are split off first, since the target is written and not read. -/
theorem tells_statement (v : VarId) (block : BlockId) (position : Nat) (uses : Uses) (e : Expr) :
    Tells v [e] uses (countStatement block position uses e) := by
  unfold countStatement
  split
  · rename_i id value
    obtain ⟨hwrites, hdefinition, harguments, hreads⟩ := useOf_countUses (uses.update id {} fun u =>
      { u with writes := u.writes + 1, definition := some (block, position) }) v value
    have hassigned : assignedIn [.assign (.var id) value] = [id] := rfl
    have hused : [Expr.assign (.var id) value].flatMap used = value.leaves :=
      List.flatMap_singleton _ _
    by_cases h : v = id
    · subst h
      rw [useOf_update_self] at hwrites hdefinition harguments hreads
      dsimp only at hwrites hdefinition harguments hreads
      refine ⟨?_, ?_, fun _ => ?_⟩
      · rw [hassigned, hwrites, List.count_singleton_self]
      · rw [hused]
        omega
      · rw [hdefinition]
        rfl
    · rw [useOf_update_of_ne _ _ h] at hwrites hdefinition harguments hreads
      have hnot : v ∉ [id] := fun hv => h (List.mem_singleton.mp hv)
      refine ⟨?_, ?_, ?_⟩
      · rw [hassigned, hwrites, List.count_eq_zero.mpr hnot]
        rfl
      · rw [hused]
        omega
      · rw [hassigned, hdefinition]
        exact fun h => h.resolve_right hnot
  · rename_i hne
    have hnone : e.assigned? = none := by
      refine Option.eq_none_iff_forall_ne_some.mpr fun w hw => ?_
      obtain ⟨value, heq⟩ := assigned?_eq_some.mp hw
      exact hne w value heq
    obtain ⟨hwrites, hdefinition, harguments, hreads⟩ := useOf_countUses uses v e
    have hassigned : assignedIn [e] = [] := by rw [assignedIn, List.filterMap_cons_none hnone]; rfl
    refine ⟨?_, ?_, ?_⟩
    · rw [hassigned, hwrites]
      rfl
    · rw [List.flatMap_singleton, used_of_assigned? hnone]
      omega
    · rw [hassigned, hdefinition]
      exact fun h => h.resolve_right List.not_mem_nil

/-- The live statements of a block are counted in order. -/
theorem tells_statements (v : VarId) (block : BlockId) (ss : List Statement) (k : Nat)
    (uses : Uses) :
    Tells v ((ss.filter fun s => !s.eliminated).map (·.expr)) uses
      ((ss.zipIdx k).foldl (fun uses s =>
        if s.1.eliminated then uses else countStatement block s.2 uses s.1.expr) uses) := by
  induction ss generalizing k uses with
  | nil => exact .refl v uses
  | cons s rest ih =>
    rw [List.zipIdx_cons, List.foldl_cons]
    cases hs : s.eliminated with
    | true =>
      rw [List.filter_cons_of_neg (by simp [hs])]
      exact ih (k + 1) uses
    | false =>
      rw [List.filter_cons_of_pos (by simp [hs]), List.map_cons, ← List.singleton_append]
      exact (tells_statement v block k uses s.expr).append (ih (k + 1) _)

theorem tells_blocks (v : VarId) (bs : List Block) (uses : Uses) :
    Tells v (bs.flatMap Block.code) uses (bs.foldl countBlock uses) := by
  induction bs generalizing uses with
  | nil => exact .refl v uses
  | cons b rest ih =>
    rw [List.flatMap_cons, List.foldl_cons]
    exact (tells_statements v b.id b.statements 0 uses).append (ih _)

/-- The uses of a variable in a graph are counted exactly. -/
theorem tells_countGraph (v : VarId) (g : Graph) : Tells v g.liveCode {} (countGraph g) :=
  tells_blocks v g.blocks {}

/-- The variables that count as used once are those that live statements assign to once and read
once. -/
theorem isSingle_countGraph (v : VarId) (g : Graph) :
    (useOf (countGraph g) v).isSingle = true ↔
      (assignedIn g.liveCode).count v = 1 ∧ (g.liveCode.flatMap used).count (.var v) = 1 := by
  have h := tells_countGraph v g
  have hwrites : (useOf (countGraph g) v).writes = (assignedIn g.liveCode).count v :=
    h.writes.trans (Nat.zero_add _)
  have hused : (useOf (countGraph g) v).reads + (useOf (countGraph g) v).arguments =
      (g.liveCode.flatMap used).count (.var v) := h.used.trans (Nat.zero_add _)
  rw [← hwrites, ← hused]
  simp only [Use.isSingle, Bool.and_eq_true, Bool.or_eq_true, beq_iff_eq]
  omega

end VariableInlining

end MethodLift
