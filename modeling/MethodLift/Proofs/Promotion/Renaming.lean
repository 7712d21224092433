import MethodLift.Block.Partition
import MethodLift.Proofs.Expr.Evaluation
import MethodLift.Proofs.Promotion.Entry

/-!
# Promotion renames

A register state and a variable state agree under given bindings when every bound register has the
value of its variable and every other register still has the value it had at the entry. Statements
before and after promotion, executed in states that agree, evaluate everything to the same values
and lead to states that agree.
-/

namespace MethodLift.Promotion

variable {V : Type}

/-- A register state and a variable state that stand for each other. `entry` is the register state
and `start` the variable state at the entry. -/
structure Agrees (sp : String) (entry : String → V) (start : VarId → V) (s : State)
    (env env' : Env V) : Prop where
  stack : env'.regs sp = env.regs sp
  bound : ∀ {r v}, s.bindings.get? r = some v → env'.vars v = env.regs r
  unbound : ∀ {r}, r ≠ sp → s.bindings.get? r = none → env.regs r = entry r
  ahead : ∀ {v}, s.vars.size ≤ v → env'.vars v = start v

section Agrees

variable {sp : String} {entry : String → V} {start : VarId → V} {s t : State} {env env' : Env V}

/-- Reads bind registers to variables that hold the values at the entry. -/
theorem Agrees.grows (h : Agrees sp entry start s env env') (hg : Grows sp s t)
    (hnew : ∀ {v r}, s.vars.size ≤ v → t.vars.register? v = some r → start v = entry r) :
    Agrees sp entry start t env env' where
  stack := h.stack
  bound {r v} hb := by
    rcases hg.fresh hb with hb | ⟨hr, hle, hreg⟩
    · exact h.bound hb
    · cases hold : s.bindings.get? r with
      | none => rw [h.ahead hle, hnew hle hreg, h.unbound hr hold]
      | some w =>
        have heq : w = v := Option.some.inj ((hg.kept hold).symm.trans hb)
        rw [← heq]
        exact h.bound hold
  unbound {r} hr hnone := by
    refine h.unbound hr ?_
    cases hold : s.bindings.get? r with
    | none => rfl
    | some w => exact absurd ((hg.kept hold).symm.trans hnone) (by simp)
  ahead hle := h.ahead (hg.vars.size_le.trans hle)

/-- A definition gives a new variable the value of its register. -/
theorem Agrees.define (h : Agrees sp entry start s env env') (hs : Sound sp s) {r : String}
    (hr : r ≠ sp) (x : V) :
    Agrees sp entry start (define r s).2 (env.setReg r x) (env'.setVar s.vars.size x) where
  stack := h.stack.trans (env.setReg_of_ne x (Ne.symm hr)).symm
  bound {r' v} hb := by
    rcases get?_define hb with ⟨rfl, rfl⟩ | hold
    · rw [Env.setVar_self, Env.setReg_self]
    · rw [env'.setVar_of_ne x (Nat.ne_of_lt (hs.lt hold))]
      by_cases hne : r' = r
      · subst hne
        have hself : (Promotion.define r' s).2.bindings.get? r' = some s.vars.size :=
          Table.get?_insert_self _ _ _
        have heq := Option.some.inj (hself.symm.trans hb)
        exact absurd heq.symm (Nat.ne_of_lt (hs.lt hold))
      · rw [env.setReg_of_ne x hne]
        exact h.bound hold
  unbound {r'} hr' hnone := by
    have hne : r' ≠ r := by
      rintro rfl
      have hself : (Promotion.define r' s).2.bindings.get? r' = some s.vars.size :=
        Table.get?_insert_self _ _ _
      rw [hself] at hnone
      cases hnone
    rw [env.setReg_of_ne x hne]
    exact h.unbound hr' ((Table.get?_insert_of_ne _ _ hne).symm.trans hnone)
  ahead {v} hle := by
    have hle : (s.vars.create r).size ≤ v := hle
    rw [Variables.size_create] at hle
    have hlt : s.vars.size < v := hle
    rw [env'.setVar_of_ne x (Nat.ne_of_gt hlt)]
    exact h.ahead (Nat.le_of_lt hlt)

/-- Variables that were made elsewhere change nothing. -/
theorem Agrees.later (h : Agrees sp entry start s env env') (hb : t.bindings = s.bindings)
    (hv : s.vars.Extends t.vars) : Agrees sp entry start t env env' where
  stack := h.stack
  bound hbound := h.bound (hb ▸ hbound)
  unbound hr hnone := h.unbound hr (hb ▸ hnone)
  ahead hle := h.ahead (hv.size_le.trans hle)

/-- A new value of the stack pointer. -/
theorem Agrees.setStack (h : Agrees sp entry start s env env') (hs : Sound sp s) (x : V) :
    Agrees sp entry start s (env.setReg sp x) (env'.setReg sp x) where
  stack := by rw [Env.setReg_self, Env.setReg_self]
  bound hb := by
    rw [env.setReg_of_ne x (hs.bound hb).1]
    exact h.bound hb
  unbound hr hnone := by
    rw [env.setReg_of_ne x hr]
    exact h.unbound hr hnone
  ahead hle := h.ahead hle

/-- A new value of a register that is bound, and of its variable. -/
theorem Agrees.setBound (h : Agrees sp entry start s env env') (hs : Sound sp s) {r : String}
    {v : VarId} (hb : s.bindings.get? r = some v) (x : V) :
    Agrees sp entry start s (env.setReg r x) (env'.setVar v x) where
  stack := h.stack.trans (env.setReg_of_ne x (Ne.symm (hs.bound hb).1)).symm
  bound {r' v'} hb' := by
    by_cases hne : r' = r
    · subst hne
      cases Option.some.inj (hb.symm.trans hb')
      rw [Env.setVar_self, Env.setReg_self]
    · have hv : v' ≠ v := by
        rintro rfl
        exact hne (Option.some.inj ((hs.bound hb').2.symm.trans (hs.bound hb).2))
      rw [env.setReg_of_ne x hne, env'.setVar_of_ne x hv]
      exact h.bound hb'
  unbound {r'} hr' hnone := by
    have hne : r' ≠ r := by
      rintro rfl
      rw [hb] at hnone
      cases hnone
    rw [env.setReg_of_ne x hne]
    exact h.unbound hr' hnone
  ahead {v'} hle := by
    rw [env'.setVar_of_ne x (Nat.ne_of_gt ((hs.lt hb).trans_le hle))]
    exact h.ahead hle

/-- Promoted leaves have the values of the leaves they stand for. -/
theorem Agrees.leaf (h : Agrees sp entry start s env env') (m : Machine V) {v : Leaf}
    (hvar : ∀ w, v ≠ .var w)
    (hbound : ∀ r, v = .register r → r ≠ sp → ∃ w, s.bindings.get? r = some w) :
    m.leaf env' (promoted sp s.bindings v) = m.leaf env v := by
  cases v with
  | register r =>
    by_cases hr : r = sp
    · subst hr
      rw [promoted, if_pos rfl]
      exact h.stack
    · obtain ⟨w, hw⟩ := hbound r rfl hr
      rw [promoted, if_neg hr, hw]
      exact h.bound hw
  | var w => exact absurd rfl (hvar w)
  | _ => rfl

end Agrees

/-! ## Statements -/

theorem isLocal_promoted (sp : String) (bindings : Bindings) (v : Leaf) :
    (promoted sp bindings v).isLocal = v.isLocal := by
  cases v with
  | register r =>
    by_cases hr : r = sp
    · rw [promoted, if_pos hr]
    · rw [promoted, if_neg hr]
      cases bindings.get? r <;> rfl
  | _ => rfl

section Statements

variable {sp : String} {entry : String → V} {start : VarId → V} {s t : State} {env env' : Env V}
variable {m : Machine V} {e e' : Expr} {p : Expr × State}

/-- The leaves of a promoted expression have the values of the old ones. -/
theorem Reads.leaf_eq (h : Reads sp e s p) (hvar : ∀ {w}, Leaf.var w ∉ e.leaves)
    (ha : Agrees sp entry start p.2 env env') :
    ∀ v ∈ e.leaves, m.leaf env' (promoted sp p.2.bindings v) = m.leaf env v := by
  intro v hv
  refine ha.leaf m ?_ ?_
  · rintro w rfl
    exact hvar hv
  · rintro r rfl hr
    exact h.bound hv hr

/-- An expression and its promotion have the same value where every bound register has the value of
its variable. -/
theorem Reads.eval_eq (h : Reads sp e s p) (hraw : e.Raw)
    (ha : Agrees sp entry start p.2 env env') : m.eval env' p.1 = m.eval env e := by
  rw [h.expr (.refl _)]
  exact Machine.eval_relabel (h.leaf_eq hraw.ne_var ha)

/-- Two runs of a statement that note the same and end in states that agree. -/
def Simulates (sp : String) (entry : String → V) (start : VarId → V) (t : State)
    (x x' : StateM (Log V) (Env V)) : Prop :=
  ∀ log, (x'.run log).2 = (x.run log).2 ∧ Agrees sp entry start t (x.run log).1 (x'.run log).1

/-- Runs in sequence that agree part by part agree as a whole. -/
theorem Simulates.bind {u : State} {x x' : StateM (Log V) (Env V)}
    {f f' : Env V → StateM (Log V) (Env V)} (h : Simulates sp entry start t x x')
    (hf : ∀ {env env'}, Agrees sp entry start t env env' →
      Simulates sp entry start u (f env) (f' env')) :
    Simulates sp entry start u (x >>= f) (x' >>= f') := by
  intro log
  obtain ⟨hlog, ha⟩ := h log
  have hnext := hf ha (x.run log).2
  show ((f' (x'.run log).1).run (x'.run log).2).2 = _ ∧
    Agrees sp entry start u _ ((f' (x'.run log).1).run (x'.run log).2).1
  rw [hlog]
  exact hnext

/-- Writing to a place that is not promoted to a new variable. -/
theorem simulates_write {place : Expr} (h : Reads sp place s p) (hraw : place.Raw)
    (hplace : ∀ r, place = .register r → r = sp) (hs : Sound sp p.2)
    (ha : Agrees sp entry start p.2 env env') (x : V) :
    Simulates sp entry start p.2 (m.write env x place) (m.write env' x p.1) := by
  have hleaf := h.leaf_eq (m := m) hraw.ne_var ha
  rw [h.expr (.refl _)]
  by_cases hlocal : place.isLocal = false
  · have hlocal' := hlocal
    rw [← Machine.isLocal_relabel (isLocal_promoted sp p.2.bindings)] at hlocal'
    rw [m.write_of_not_local env hlocal, m.write_of_not_local env' hlocal',
      Machine.store_relabel hleaf]
    exact fun log => ⟨rfl, ha⟩
  · cases place with
    | leaf v =>
      cases v with
      | register r =>
        obtain rfl := hplace r rfl
        rw [Expr.relabel_leaf, promoted, if_pos rfl]
        exact fun log => ⟨rfl, ha.setStack hs x⟩
      | var v => simp at hraw
      | _ => exact absurd rfl hlocal
    | lane vector index =>
      cases vector with
      | leaf v =>
        cases v with
        | register r =>
          by_cases hr : r = sp
          · subst hr
            rw [Expr.relabel_lane, Expr.relabel_leaf, promoted, if_pos rfl]
            simp only [Machine.write, ha.stack]
            exact fun log => ⟨rfl, ha.setStack hs _⟩
          · obtain ⟨v, hv⟩ := h.bound (by simp : Leaf.register r ∈ _) hr
            rw [Expr.relabel_lane, Expr.relabel_leaf, promoted, if_neg hr, hv]
            simp only [Machine.write, ha.bound hv]
            exact fun log => ⟨rfl, ha.setBound hs hv _⟩
        | var v => simp at hraw
        | _ => exact absurd rfl hlocal
      | _ => exact absurd rfl hlocal
    | _ => exact absurd rfl hlocal

variable {A : VarId → Prop}

/-- One statement, before and after promotion. Variables that were made for reads must hold the
values of their registers at the entry. -/
theorem Promotes.simulates (h : Promotes sp s e e' t) (he : e.Lifted) (hs : Sound sp s)
    (ha : Agrees sp entry start s env env') (hA : Apart A s [e'] t)
    (hstart : ∀ {v r}, t.vars.register? v = some r → ¬ A v → start v = entry r) :
    Simulates sp entry start t (Prod.snd <$> m.exec env e) (Prod.snd <$> m.exec env' e') := by
  cases h with
  | define hr hvalue =>
    rename_i r value p
    have hext : p.2.vars.Extends (Promotion.define r p.2).2.vars := .insert _ _
    have ha := ha.grows hvalue.grows fun hle hreg => hstart (hext.register? hreg)
      (hA.unassigned (fun a h => (Option.some.inj h).le) hext.size_le hle
        (Variables.lt_of_register? hreg))
    simp only [Machine.exec, hvalue.eval_eq he.2 ha]
    exact fun log => ⟨rfl, ha.define (hs.grows hvalue.grows) hr _⟩
  | assign hplace hvalue hq =>
    rename_i place value p q
    have hnone := assigned?_assign (p := p) hplace he.1 hq
    have hmid : ∀ a, (Expr.assign q.1 p.1).assigned? = some a → q.2.vars.size ≤ a := by
      simp [hnone]
    have hp := ha.grows hvalue.grows fun hle hreg => hstart (hq.grows.vars.register? hreg)
      (hA.unassigned hmid le_rfl hle (Variables.lt_of_register? (hq.grows.vars.register? hreg)))
    have hq' := hp.grows hq.grows fun hle hreg => hstart hreg
      (hA.unassigned hmid le_rfl (hvalue.grows.vars.size_le.trans hle)
        (Variables.lt_of_register? hreg))
    have hwrite := simulates_write (m := m) hq he.1 hplace
      ((hs.grows hvalue.grows).grows hq.grows) hq'
    simp only [Machine.exec, hvalue.eval_eq he.2 hp]
    exact fun log => hwrite _ _
  | other hne hp =>
    rename_i p
    have hnone := assigned?_other hne hp
    have ha := ha.grows hp.grows fun hle hreg => hstart hreg
      (hA.unassigned (by simp [hnone]) le_rfl hle (Variables.lt_of_register? hreg))
    have hne' : ∀ place value, p.1 ≠ .assign place value := by
      intro place value heq
      obtain ⟨place', value', rfl, -⟩ := Expr.relabel_eq_assign ((hp.expr (.refl _)).symm.trans heq)
      exact hne _ _ rfl
    rw [m.exec_of_ne_assign env hne, m.exec_of_ne_assign env' hne', hp.expr (.refl _),
      Machine.perform_relabel (hp.leaf_eq he.ne_var ha)]
    exact fun log => ⟨rfl, ha⟩

/-- Statements in a row, before and after promotion. -/
theorem PromotesAll.simulates {es es' : List Expr} (h : PromotesAll sp s es es' t)
    (hl : ∀ e ∈ es, e.Lifted) (hs : Sound sp s) (ha : Agrees sp entry start s env env')
    (hA : Apart A s es' t)
    (hstart : ∀ {v r}, t.vars.register? v = some r → ¬ A v → start v = entry r) :
    Simulates sp entry start t (m.runThrough es env) (m.runThrough es' env') := by
  induction h generalizing env env' with
  | nil => exact fun log => ⟨rfl, ha⟩
  | cons head tail ih =>
    rename_i s t u e e' es es'
    obtain ⟨hhead, htail⟩ := hA.split head tail hl
    have hstep := head.simulates (m := m) (hl e List.mem_cons_self) hs ha hhead
      fun hreg => hstart (tail.vars_extends.register? hreg)
    exact hstep.bind fun ha' =>
      ih (fun x hx => hl x (List.mem_cons_of_mem e hx)) (head.sound hs) ha' htail hstart

end Statements

end MethodLift.Promotion

namespace MethodLift

open Promotion

namespace Context

variable {ctx : Context} {V : Type} {m : Machine V} {entry : String → V} {start : VarId → V}
variable {env env' : Env V}

/-- The states at the entry agree, as long as the variables that are not assigned to hold the
values of their registers. -/
theorem agrees_entryState (hg : ctx.graph.AllLifted)
    (hsp : env'.regs ctx.stackPointer = env.regs ctx.stackPointer)
    (hstart : ∀ {v r}, ctx.promote.1.vars.register? v = some r →
      ¬ ctx.promote.1.graph.Assigns v → env'.vars v = env.regs r) :
    Agrees ctx.stackPointer env.regs env'.vars ctx.entryState env env' where
  stack := hsp
  bound {r v} hb := by
    have hreg := (ctx.sound_entryState.bound hb).2
    exact hstart (register?_promote_entry hg hreg)
      (not_assigns_of_lt hg (Variables.lt_of_register? hreg))
  unbound _ _ := rfl
  ahead _ := rfl

/-- Along a path, promotion keeps all values and leads to states that agree. -/
theorem simulates_trail (hg : ctx.graph.AllLifted)
    (ha : Agrees ctx.stackPointer entry start ctx.entryState env env')
    (hstart : ∀ {v r}, ctx.promote.1.vars.register? v = some r →
      ¬ ctx.promote.1.graph.Assigns v → start v = entry r)
    {path : List BlockId} {v : Visit} (h : Trail ctx.visits path v) :
    Simulates ctx.stackPointer entry start (v.finish ctx.stackPointer ctx.graph)
      (m.runThrough (ctx.graph.along path) env)
      (m.runThrough (ctx.promote.1.graph.along path) env') := by
  have block {v : Visit} (hv : v ∈ ctx.visits) {env env' : Env V}
      (ha : Agrees ctx.stackPointer entry start v.start env env') :
      Simulates ctx.stackPointer entry start (v.finish ctx.stackPointer ctx.graph)
        (m.runThrough (ctx.graph.code v.block) env)
        (m.runThrough (ctx.promote.1.graph.code v.block) env') := by
    rw [code_promote hg hv]
    exact (v.promotesAll hg).simulates hg.code (sound_visits hg hv) ha (apart_promote hg hv)
      fun hreg => hstart (register?_promote hg hv hreg)
  induction h with
  | entry hv hroot =>
    obtain ⟨-, hbindings, hvars⟩ := start_of_root hg hv hroot
    simp only [Graph.along, List.flatMap_singleton]
    exact block hv (ha.later hbindings hvars)
  | step hpath hv hparent ih =>
    obtain ⟨-, hbindings, hvars⟩ := start_of_parent hg hpath.mem hv hparent
    simp only [Graph.along, List.flatMap_append, List.flatMap_singleton]
    rw [m.runThrough_append, m.runThrough_append]
    exact ih.bind fun ha => block hv (ha.later hbindings hvars)

/-- Promotion renames registers along every path by which blocks are first reached. Statements that
write registers assign to variables afterwards, so the variables that no statement assigns to are
those of the parameters and those that were made for reads; at the entry they must hold the values
of their registers. Then everything on the path is evaluated to the same value, with the same
effects, and at its end every bound register has the value of its variable. The stack pointer stays
a register. -/
theorem renames_promote {s : Scope} {code : List Instruction} {g : Graph}
    {journal journal' : Journal}
    (hfill : (s.fill code g).run.run journal = (.ok ctx.graph, journal'))
    (m : Machine V) (env env' : Env V)
    (hsp : env'.regs ctx.stackPointer = env.regs ctx.stackPointer)
    (hstart : ∀ v x, ctx.promote.1.vars.get? v = some x → ¬ ctx.promote.1.graph.Assigns v →
      env'.vars v = env.regs x.register)
    {path : List BlockId} {v : Visit} (hpath : Trail ctx.visits path v) (log : Log V) :
    let before := (m.runThrough (ctx.graph.along path) env).run log
    let after := (m.runThrough (ctx.promote.1.graph.along path) env').run log
    after.2 = before.2 ∧
      after.1.regs ctx.stackPointer = before.1.regs ctx.stackPointer ∧
      ∀ r w, (v.finish ctx.stackPointer ctx.graph).bindings.get? r = some w →
        after.1.vars w = before.1.regs r := by
  have hg := Graph.allLifted_of_fill hfill
  have hregister : ∀ {v r}, ctx.promote.1.vars.register? v = some r →
      ¬ ctx.promote.1.graph.Assigns v → env'.vars v = env.regs r := by
    intro v r hr hnot
    obtain ⟨x, hx, rfl⟩ := Option.map_eq_some_iff.mp hr
    exact hstart v x hx hnot
  have hagrees := agrees_entryState hg hsp hregister
  obtain ⟨hlog, hend⟩ := simulates_trail (m := m) hg hagrees hregister hpath log
  exact ⟨hlog, hend.stack, fun r w hw => hend.bound hw⟩

end Context

/-! ## A path past a conditional jump -/

/-- Code that returns a register, after it was written unless another one is zero. -/
def choice : List Instruction :=
  [⟨0, .compare, [.register "ecx", .immediate 0], .next⟩, ⟨1, .jumpIfEqual, [.target 3], .branch⟩,
    ⟨2, .move, [.register "eax", .register "edx"], .next⟩, ⟨3, .ret, [.register "eax"], .ret⟩]

def choiceMethod : Method := { id := 0, name := "choice", declaringName := "Sample" }

def choiceFilled : Except Error Graph × Journal :=
  (Scope.fill ⟨{ isa := .x64 }, choiceMethod⟩ choice
    ((Graph.ofCode choice).toOption.getD {})).run.run {}

def choiceContext : Context where
  image := { isa := .x64 }
  method := choiceMethod
  graph := choiceFilled.1.toOption.getD {}

/-- Registers at the entry of `choice`. -/
def choiceRegisters : String → Int
  | "rcx" => 5
  | "rdx" => 7
  | _ => 0

/-- Variables at the entry of `choice`. -/
def choiceVariables (v : VarId) : Int :=
  ((choiceContext.promote.1.vars.get? v).map fun x => choiceRegisters x.register).getD 0

/-- The register that is returned has the value of its second definition. -/
theorem Context.renames_promote_choice : ∃ v w, Trail choiceContext.visits [0, 1] v ∧
    (v.finish choiceContext.stackPointer choiceContext.graph).bindings.get? "rax" = some w ∧
    ((numbers.runThrough (choiceContext.promote.1.graph.along [0, 1])
      ⟨choiceRegisters, choiceVariables⟩).run {}).1.vars w = 7 := by
  have hfill : choiceFilled = (.ok choiceContext.graph, choiceFilled.2) :=
    eq_ok_of_isSome (by decide +kernel) {}
  have hvisits : choiceContext.visits.map (fun v => (v.parent, v.block,
      (v.finish choiceContext.stackPointer choiceContext.graph).bindings.get? "rax")) =
      [(none, 0, none), (some 0, 2, some 1), (some 0, 1, some 3)] := by
    decide +kernel
  have hvisit {x : Option BlockId × BlockId × Option VarId}
      (hx : x ∈ [(none, 0, none), (some 0, 2, some 1), (some 0, 1, some 3)]) :
      ∃ v ∈ choiceContext.visits, (v.parent, v.block, (v.finish choiceContext.stackPointer
        choiceContext.graph).bindings.get? "rax") = x :=
    List.mem_map.mp (hvisits ▸ hx)
  obtain ⟨u, hu, hux⟩ := hvisit (x := (none, 0, none)) (by simp)
  obtain ⟨v, hv, hvx⟩ := hvisit (x := (some 0, 1, some 3)) (by simp)
  simp only [Prod.mk.injEq] at hux hvx
  have htrail : Trail choiceContext.visits ([u.block] ++ [v.block]) v :=
    .step (.entry hu hux.1) hv (hvx.1.trans (congrArg some hux.2.1.symm))
  rw [hux.2.1, hvx.2.1] at htrail
  have hend := renames_promote hfill numbers ⟨choiceRegisters, fun _ => 0⟩
    ⟨choiceRegisters, choiceVariables⟩ rfl (fun v x hx _ => by simp [choiceVariables, hx])
    htrail {}
  refine ⟨v, 3, htrail, hvx.2.2, ?_⟩
  exact (hend.2.2 "rax" 3 hvx.2.2).trans (by decide +kernel)

end MethodLift
