import MethodLift.Pass.Promotion
import MethodLift.Proofs.Expr.Relabel
import Mathlib.Data.List.Infix

/-!
# Promoting one statement

Promoting the registers of an expression puts, in the place of each register, the variable that it
is bound to in the end. Bindings only grow on the way: a register that was bound stays bound to the
same variable, and a register that was not is bound to a new one. `Promotes` lists all that can
happen to a statement.
-/

namespace MethodLift

def Variables.register? (t : Variables) (id : VarId) : Option String :=
  (t.get? id).map (·.register)

theorem Variables.lt_of_register? {t : Variables} {id : VarId} {r : String}
    (h : t.register? id = some r) : id < t.size := by
  obtain ⟨x, hx, -⟩ := Option.map_eq_some_iff.mp h
  exact (List.getElem?_eq_some_iff.mp hx).1

theorem Variables.register?_create (t : Variables) (r : String) :
    (t.create r).register? t.size = some r := by
  simp [register?, create]

/-- A table that was only appended to. -/
def Variables.Extends (t t' : Variables) : Prop := t.entries <+: t'.entries

namespace Variables.Extends

variable {t t' t'' : Variables}

theorem refl (t : Variables) : t.Extends t := List.prefix_rfl

theorem trans (h : t.Extends t') (h' : t'.Extends t'') : t.Extends t'' := List.IsPrefix.trans h h'

theorem size_le (h : t.Extends t') : t.size ≤ t'.size := h.length_le

theorem insert (t : Variables) (v : Variable) : t.Extends (t.insert v) := List.prefix_append _ _

theorem register? (h : t.Extends t') {id : VarId} {r : String} (hr : t.register? id = some r) :
    t'.register? id = some r := by
  obtain ⟨x, hx, hxr⟩ := Option.map_eq_some_iff.mp hr
  obtain ⟨hlt, rfl⟩ := List.getElem?_eq_some_iff.mp hx
  exact Option.map_eq_some_iff.mpr ⟨_, List.prefix_iff_getElem?.mp h id hlt, hxr⟩

end Variables.Extends

namespace Promotion

/-! ## What promoting reads does to the state -/

/-- Bindings that only grew, with new variables for the registers that became bound. -/
structure Grows (sp : String) (s t : State) : Prop where
  vars : s.vars.Extends t.vars
  kept : ∀ {r v}, s.bindings.get? r = some v → t.bindings.get? r = some v
  fresh : ∀ {r v}, t.bindings.get? r = some v → s.bindings.get? r = some v ∨
    r ≠ sp ∧ s.vars.size ≤ v ∧ t.vars.register? v = some r

namespace Grows

variable {sp : String} {s t u : State}

theorem refl (s : State) : Grows sp s s := ⟨.refl _, id, .inl⟩

/-- Growth in sequence: a binding at the end was there or is new in one of the two stretches. -/
theorem trans (h : Grows sp s t) (h' : Grows sp t u) : Grows sp s u where
  vars := h.vars.trans h'.vars
  kept hb := h'.kept (h.kept hb)
  fresh hb := by
    rcases h'.fresh hb with hb | ⟨hr, hle, hreg⟩
    · rcases h.fresh hb with hb | ⟨hr, hle, hreg⟩
      · exact .inl hb
      · exact .inr ⟨hr, hle, h'.vars.register? hreg⟩
    · exact .inr ⟨hr, h.vars.size_le.trans hle, hreg⟩

end Grows

/-- Binding a register that was not bound. -/
theorem grows_define {sp r : String} {s : State} (hr : r ≠ sp)
    (h : s.bindings.get? r = none) : Grows sp s (define r s).2 where
  vars := .insert _ _
  kept {r' v} hb := by
    have hne : r' ≠ r := by
      rintro rfl
      rw [h] at hb
      cases hb
    exact (Table.get?_insert_of_ne _ _ hne).trans hb
  fresh {r' v} hb := by
    by_cases hne : r' = r
    · subst hne
      have hb : (s.bindings.insert r' s.vars.size).get? r' = some v := hb
      rw [Table.get?_insert_self] at hb
      cases hb
      exact .inr ⟨hr, le_rfl, Variables.register?_create _ _⟩
    · exact .inl ((Table.get?_insert_of_ne _ _ hne).symm.trans hb)

/-- What a read binds the register to. -/
theorem grows_use {sp r : String} (hr : r ≠ sp) (s : State) :
    Grows sp s (use r s).2 ∧ (use r s).2.bindings.get? r = some (use r s).1 := by
  unfold use
  split
  · rename_i id hid
    exact ⟨⟨.refl _, fun hb => hb, .inl⟩, hid⟩
  · rename_i hnone
    exact ⟨grows_define hr hnone, Table.get?_insert_self _ _ _⟩

/-! ## Expressions -/

/-- The leaf that stands for a leaf under given bindings. -/
def promoted (sp : String) (bindings : Bindings) : Leaf → Leaf
  | .register r =>
    if r = sp then .register r
    else match bindings.get? r with
      | some v => .var v
      | none => .register r
  | v => v

/-- An expression whose registers were promoted: it is the old one with other leaves, also under
bindings that grew since then, and all its registers are bound. -/
structure Reads (sp : String) (e : Expr) (s : State) (p : Expr × State) : Prop where
  grows : Grows sp s p.2
  bound : ∀ {r}, .register r ∈ e.leaves → r ≠ sp → ∃ v, p.2.bindings.get? r = some v
  expr : ∀ {t}, Grows sp p.2 t → p.1 = e.relabel (promoted sp t.bindings)

namespace Reads

variable {sp : String} {s : State}

/-- Reading a register that has no variable yet makes one, and every other leaf makes none. -/
theorem leaf (v : Leaf) (s : State) : Reads sp (.leaf v) s (readNode sp (.leaf v) s) := by
  cases v with
  | register r =>
    by_cases hr : r = sp
    · simp only [readNode, if_pos hr]
      refine ⟨.refl s, fun hmem hne => ?_, fun _ => ?_⟩
      · simp only [Expr.leaves_leaf, List.mem_singleton, Leaf.register.injEq] at hmem
        exact absurd (hmem.trans hr) hne
      · exact congrArg Expr.leaf (if_pos hr).symm
    · simp only [readNode, if_neg hr]
      obtain ⟨hgrows, hbound⟩ := grows_use hr s
      refine ⟨hgrows, fun hmem _ => ?_, fun ht => ?_⟩
      · simp only [Expr.leaves_leaf, List.mem_singleton, Leaf.register.injEq] at hmem
        subst hmem
        exact ⟨_, hbound⟩
      · show Expr.var (use r s).1 = .leaf (promoted sp _ (.register r))
        simp [promoted, hr, ht.kept hbound]
  | _ => exact ⟨.refl s, by simp, fun _ => rfl⟩

/-- An expression with one part. -/
theorem one {e : Expr} {c : Expr → Expr} {p : Expr × State}
    (hc : ∀ φ, (c e).relabel φ = c (e.relabel φ)) (hl : (c e).leaves = e.leaves)
    (h : Reads sp e s p) : Reads sp (c e) s (c p.1, p.2) where
  grows := h.grows
  bound hr hne := h.bound (hl ▸ hr) hne
  expr ht := by
    rw [hc]
    exact congrArg c (h.expr ht)

/-- An expression with two parts. -/
theorem two {e e' : Expr} {c : Expr → Expr → Expr} {p q : Expr × State}
    (hc : ∀ φ, (c e e').relabel φ = c (e.relabel φ) (e'.relabel φ))
    (hl : ∀ v ∈ (c e e').leaves, v ∈ e.leaves ∨ v ∈ e'.leaves)
    (h : Reads sp e s p) (h' : Reads sp e' p.2 q) : Reads sp (c e e') s (c p.1 q.1, q.2) where
  grows := h.grows.trans h'.grows
  bound hr hne := by
    rcases hl _ hr with hr | hr
    · obtain ⟨v, hv⟩ := h.bound hr hne
      exact ⟨v, h'.grows.kept hv⟩
    · exact h'.bound hr hne
  expr ht := by
    rw [hc]
    exact congrArg₂ c (h.expr (h'.grows.trans ht)) (h'.expr ht)

end Reads

/-- A list with expressions in it, promoted from left to right. -/
structure ReadsAll {α : Type} (sp : String) (get : α → Expr) (put : α → Expr → α) (l : List α)
    (s : State) (p : List α × State) : Prop where
  grows : Grows sp s p.2
  bound : ∀ {r}, .register r ∈ l.flatMap (fun a => (get a).leaves) → r ≠ sp →
    ∃ v, p.2.bindings.get? r = some v
  list : ∀ {t}, Grows sp p.2 t →
    p.1 = l.map fun a => put a ((get a).relabel (promoted sp t.bindings))

/-- Reading several expressions in a row carries bindings along from one to the next. -/
theorem readsAll_mapM {α : Type} {sp : String} (get : α → Expr) (put : α → Expr → α) {l : List α}
    (h : ∀ a ∈ l, ∀ s, Reads sp (get a) s (reads sp (get a) s)) (s : State) :
    ReadsAll sp get put l s
      ((l.mapM fun a => reads sp (get a) >>= fun e => pure (put a e)).run s) := by
  induction l generalizing s with
  | nil => exact ⟨.refl s, by simp, fun _ => rfl⟩
  | cons a rest ih =>
    have ha := h a List.mem_cons_self s
    have hrest := ih (fun b hb => h b (List.mem_cons_of_mem a hb)) (reads sp (get a) s).2
    rw [List.mapM_cons]
    refine ⟨ha.grows.trans hrest.grows, fun hr hne => ?_, fun ht => ?_⟩
    · rw [List.flatMap_cons, List.mem_append] at hr
      rcases hr with hr | hr
      · obtain ⟨v, hv⟩ := ha.bound hr hne
        exact ⟨v, hrest.grows.kept hv⟩
      · exact hrest.bound hr hne
    · have hhead := ha.expr (hrest.grows.trans ht)
      have htail := hrest.list ht
      exact congrArg₂ (fun e l => put a e :: l) hhead htail

/-- An expression with one part and a list of parts. -/
theorem Reads.many {α : Type} {sp : String} {get : α → Expr} {put : α → Expr → α} {e : Expr}
    {l : List α} {s : State} {c : Expr → List α → Expr} {p : Expr × State} {q : List α × State}
    (hc : ∀ φ, (c e l).relabel φ = c (e.relabel φ) (l.map fun a => put a ((get a).relabel φ)))
    (hl : (c e l).leaves = e.leaves ++ l.flatMap fun a => (get a).leaves)
    (h : Reads sp e s p) (h' : ReadsAll sp get put l p.2 q) :
    Reads sp (c e l) s (c p.1 q.1, q.2) where
  grows := h.grows.trans h'.grows
  bound hr hne := by
    rw [hl, List.mem_append] at hr
    rcases hr with hr | hr
    · obtain ⟨v, hv⟩ := h.bound hr hne
      exact ⟨v, h'.grows.kept hv⟩
    · exact h'.bound hr hne
  expr ht := by
    rw [hc]
    exact congrArg₂ c (h.expr (h'.grows.trans ht)) (h'.list ht)

/-- Promoting the registers of an expression relabels its leaves. -/
theorem reads_reads (sp : String) (e : Expr) (s : State) : Reads sp e s (reads sp e s) := by
  induction e generalizing s with
  | leaf v => exact .leaf v s
  | assign target value ht hv =>
    exact .two (c := fun v t => .assign t v) (fun _ => rfl) (by simp) (hv s) (ht _)
  | compare kind left right hl hr =>
    exact .two (c := .compare kind) (fun _ => rfl) (by simp) (hl s) (hr _)
  | arith op left right hl hr =>
    exact .two (c := .arith op) (fun _ => rfl) (by simp) (hl s) (hr _)
  | complement operand ih => exact .one (c := .complement) (fun _ => rfl) rfl (ih s)
  | deref address ih => exact .one (c := .deref) (fun _ => rfl) rfl (ih s)
  | member object field ih => exact .one (c := (.member · field)) (fun _ => rfl) rfl (ih s)
  | jumpIf condition target ih => exact .one (c := (.jumpIf · target)) (fun _ => rfl) rfl (ih s)
  | ret value ih => exact .one (c := .ret) (fun _ => rfl) rfl (ih s)
  | lane vector index ih => exact .one (c := (.lane · index)) (fun _ => rfl) rfl (ih s)
  | call target args returns ht ha =>
    have hall := readsAll_mapM id (fun _ e => e) ha (reads sp target s).2
    have heq : Expr.bottomUpArgumentsM (readNode sp) args =
        args.mapM fun a => reads sp (id a) >>= fun e => pure e := by
      simp only [Expr.bottomUpArgumentsM_eq, bind_pure]
      rfl
    rw [← heq] at hall
    exact .many (c := (.call · · returns)) (fun φ => Expr.relabel_call φ target args returns)
      Expr.leaves_call (ht s) hall
  | guarded condition head body hc hb =>
    have hall := readsAll_mapM Stmt.expr (fun a e => { a with expr := e }) hb
      (reads sp condition s).2
    have heq : Expr.bottomUpBodyM (readNode sp) body =
        body.mapM fun a => reads sp a.expr >>= fun e => pure { a with expr := e } :=
      Expr.bottomUpBodyM_eq _ _
    rw [← heq] at hall
    exact .many (c := (.guarded · head ·)) (fun φ => Expr.relabel_guarded φ condition head body)
      Expr.leaves_guarded (hc s) hall
  | _ => exact ⟨.refl s, by simp, fun _ => rfl⟩

/-! ## Statements -/

/-- What can happen to a statement: it assigns to a register, which becomes a new variable, it
assigns to another place, or it is no assignment. -/
inductive Promotes (sp : String) (s : State) : Expr → Expr → State → Prop
  | define {r : String} {value : Expr} {p : Expr × State} (hr : r ≠ sp)
    (hvalue : Reads sp value s p) :
    Promotes sp s (.assign (.register r) value) (.assign (.var p.2.vars.size) p.1)
      (Promotion.define r p.2).2
  | assign {place value : Expr} {p q : Expr × State}
    (hplace : ∀ r, place = .register r → r = sp) (hvalue : Reads sp value s p)
    (hq : Reads sp place p.2 q) :
    Promotes sp s (.assign place value) (.assign q.1 p.1) q.2
  | other {e : Expr} {p : Expr × State} (he : ∀ place value, e ≠ .assign place value)
    (hp : Reads sp e s p) : Promotes sp s e p.1 p.2

/-- A statement is promoted as its kind says: a write binds its register to a new variable after the
value was read. -/
theorem promotes_statement (sp : String) (e : Expr) (s : State) :
    Promotes sp s e (statement sp e s).1 (statement sp e s).2 := by
  have value_then (value place : Expr) (hplace : ∀ r, place = .register r → r = sp) :
      Promotes sp s (.assign place value)
        (.assign (reads sp place (reads sp value s).2).1 (reads sp value s).1)
        (reads sp place (reads sp value s).2).2 :=
    .assign hplace (reads_reads sp value s) (reads_reads sp place _)
  cases e with
  | assign place value =>
    cases place with
    | leaf v =>
      cases v with
      | register r =>
        by_cases hr : r = sp
        · simp only [statement, target, if_pos hr]
          exact value_then value (.register r) (by simp [hr])
        · simp only [statement, target, if_neg hr]
          exact .define hr (reads_reads sp value s)
      | _ => exact value_then value _ (by simp)
    | _ => exact value_then value _ (by simp)
  | _ => exact .other (by simp) (reads_reads sp _ s)

/-- Statements that are promoted one after the other. -/
inductive PromotesAll (sp : String) : State → List Expr → List Expr → State → Prop
  | nil {s : State} : PromotesAll sp s [] [] s
  | cons {s t u : State} {e e' : Expr} {es es' : List Expr} (head : Promotes sp s e e' t)
    (tail : PromotesAll sp t es es' u) : PromotesAll sp s (e :: es) (e' :: es') u

theorem run_statements_cons (sp : String) (a : Statement) (rest : List Statement) (s : State) :
    (statements sp (a :: rest)).run s =
      ({ a with expr := (statement sp a.expr s).1 } ::
          ((statements sp rest).run (statement sp a.expr s).2).1,
        ((statements sp rest).run (statement sp a.expr s).2).2) := by
  rw [statements, List.mapM_cons]
  rfl

/-- The statements of a block keep their places and stay live. -/
theorem promotesAll_statements (sp : String) {ss : List Statement}
    (h : ∀ a ∈ ss, a.eliminated = false) (s : State) :
    PromotesAll sp s (ss.map (·.expr)) (((statements sp ss).run s).1.map (·.expr))
        ((statements sp ss).run s).2 ∧
      ∀ a ∈ ((statements sp ss).run s).1, a.eliminated = false := by
  induction ss generalizing s with
  | nil => exact ⟨.nil, List.forall_mem_nil _⟩
  | cons a rest ih =>
    have hrest := ih (fun b hb => h b (List.mem_cons_of_mem a hb)) (statement sp a.expr s).2
    rw [run_statements_cons]
    refine ⟨.cons (promotes_statement sp a.expr s) hrest.1, ?_⟩
    exact List.forall_mem_cons.mpr ⟨h a List.mem_cons_self, hrest.2⟩

end Promotion

end MethodLift
