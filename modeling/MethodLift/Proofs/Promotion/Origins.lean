import MethodLift.Proofs.Expr.Jumps
import MethodLift.Proofs.Promotion.Scoping

/-!
# Where variables come from

A variable of the table was there at the entry, was made for a read, or was made for the one
assignment that writes it: `perm_origins` says that each variable is in exactly one of these lists.
Putting its register back in the place of each variable gives the code before promotion, and only
the stack pointer is still a register after it.
-/

namespace MethodLift

/-! ## Tables -/

namespace Variables

variable {t t' t'' : Variables}

/-- The variables by which a table grew. -/
def added (t t' : Variables) : List VarId := List.range' t.size (t'.size - t.size)

theorem mem_added {v : VarId} : v ∈ t.added t' ↔ t.size ≤ v ∧ v < t'.size := by
  have h (a b v : Nat) : a ≤ v ∧ v < a + (b - a) ↔ a ≤ v ∧ v < b := by omega
  rw [added, List.mem_range'_1]
  exact h t.size t'.size v

theorem added_self (t : Variables) : t.added t = [] := by
  simp [added]

theorem added_create (t : Variables) (r : String) : t.added (t.create r) = [t.size] := by
  simp [added]

/-- What is added in two stretches is what is added altogether. -/
theorem added_append (h : t.Extends t') (h' : t'.Extends t'') :
    t.added t' ++ t'.added t'' = t.added t'' := by
  have hstart : t.size + (t'.size - t.size) = t'.size := Nat.add_sub_of_le h.size_le
  have hlength : t'.size - t.size + (t''.size - t'.size) = t''.size - t.size := by
    rw [Nat.add_comm]
    exact Nat.sub_add_sub_cancel h'.size_le h.size_le
  have happend := List.range'_append_1 (s := t.size) (m := t'.size - t.size)
    (n := t''.size - t'.size)
  rwa [hstart, hlength] at happend

/-- The variables of the longer table are those of the shorter one and those that were added. -/
theorem range_append_added (h : t.Extends t') :
    List.range t.size ++ t.added t' = List.range t'.size := by
  rw [List.range_eq_range', List.range_eq_range']
  have hempty : Extends {} t := List.nil_prefix
  exact added_append hempty h

/-- Puts the register that a variable stands for in its place. -/
def restore (t : Variables) : Leaf → Leaf
  | .var v => match t.register? v with
    | some r => .register r
    | none => .var v
  | l => l

theorem restore_var {v : VarId} {r : String} (h : t.register? v = some r) :
    t.restore (.var v) = .register r := by
  simp only [restore, h]

theorem size_assignNames (t : Variables) : (Promotion.assignNames t).size = t.size := by
  have hlength := congrArg List.length (Promotion.registers_nameAll
    { taken := (t.entries.map (·.name)).filter fun name => !name.isEmpty } t.entries)
  rwa [List.length_map, List.length_map] at hlength

/-- Names do not matter for restoring registers. -/
theorem restore_assignNames (t : Variables) : (Promotion.assignNames t).restore = t.restore := by
  funext l
  cases l with
  | var v => simp only [restore, Promotion.register?_assignNames]
  | _ => rfl

end Variables

namespace Promotion

open Expr (assignedIn)

variable {sp : String} {s t : State} {e e' : Expr} {es es' : List Expr}

/-! ## Known variables -/

/-- Some register is bound to the variable. -/
def State.Knows (s : State) (v : VarId) : Prop := ∃ r, s.bindings.get? r = some v

theorem Sound.lt_of_knows (h : Sound sp s) {v : VarId} (hv : s.Knows v) : v < s.vars.size := by
  obtain ⟨r, hr⟩ := hv
  exact h.lt hr

/-- A variable that is bound was bound before or was added. -/
theorem Grows.origin (h : Grows sp s t) {v : VarId} (hv : t.Knows v) :
    s.Knows v ∨ v ∈ s.vars.added t.vars := by
  obtain ⟨r, hr⟩ := hv
  rcases h.fresh hr with hold | ⟨-, hle, hreg⟩
  · exact .inl ⟨r, hold⟩
  · exact .inr (Variables.mem_added.mpr ⟨hle, Variables.lt_of_register? hreg⟩)

/-- A variable that is bound after a statement, or that stands in it, was bound before or is
new. -/
theorem Promotes.origin (h : Promotes sp s e e' t) (he : e.Lifted) {v : VarId}
    (hv : t.Knows v ∨ .var v ∈ e'.leaves) : s.Knows v ∨ v ∈ s.vars.added t.vars := by
  obtain ⟨mid, hmid⟩ := h.exists_midway he
  have hcases : mid.Knows v ∨ e'.assigned? = some v := by
    rcases hv with ⟨r, hr⟩ | hleaf
    · exact (hmid.bound hr).imp_left fun hr => ⟨r, hr⟩
    · rcases Expr.mem_used_or_assigned? hleaf with hused | ⟨a, heq, ha⟩
      · exact .inl (hmid.used hused)
      · cases heq
        exact .inr ha
  rcases hcases with hknown | hassigned
  · refine (hmid.grows.origin hknown).imp_right fun hadded => ?_
    obtain ⟨hle, hlt⟩ := Variables.mem_added.mp hadded
    exact Variables.mem_added.mpr ⟨hle, hlt.trans_le hmid.size_le⟩
  · exact .inr (Variables.mem_added.mpr (h.assigned?_bounds he hassigned))

/-- Variables in promoted code were bound before it or were added by it. -/
theorem PromotesAll.origin (h : PromotesAll sp s es es' t) (hl : ∀ e ∈ es, e.Lifted) {v : VarId}
    (hv : t.Knows v ∨ ∃ e ∈ es', .var v ∈ e.leaves) :
    s.Knows v ∨ v ∈ s.vars.added t.vars := by
  induction h with
  | nil =>
    rcases hv with hknown | ⟨e, he, -⟩
    · exact .inl hknown
    · cases he
  | cons head tail ih =>
    rename_i s t u e e' es es'
    have hhead {v : VarId} (hv : t.Knows v ∨ .var v ∈ e'.leaves) :
        s.Knows v ∨ v ∈ s.vars.added u.vars := by
      rw [← Variables.added_append head.vars_extends tail.vars_extends]
      exact (head.origin (hl e List.mem_cons_self) hv).imp_right (List.mem_append_left _)
    have htail (hv : u.Knows v ∨ ∃ e ∈ es', .var v ∈ e.leaves) :
        s.Knows v ∨ v ∈ s.vars.added u.vars := by
      rcases ih (fun x hx => hl x (List.mem_cons_of_mem e hx)) hv with hknown | hadded
      · exact hhead (.inl hknown)
      · rw [← Variables.added_append head.vars_extends tail.vars_extends]
        exact .inr (List.mem_append_right _ hadded)
    rcases hv with hknown | ⟨x, hx, hleaf⟩
    · exact htail (.inl hknown)
    · rcases List.mem_cons.mp hx with rfl | hx
      · exact hhead (.inr hleaf)
      · exact htail (.inr ⟨x, hx, hleaf⟩)

/-! ## Registers that are left -/

/-- The only register that is left after reading is the stack pointer. -/
theorem Reads.register_eq {p : Expr × State} (h : Reads sp e s p) {r : String}
    (hr : .register r ∈ p.1.leaves) : r = sp := by
  rw [h.expr (.refl _), Expr.leaves_relabel] at hr
  obtain ⟨x, hx, heq⟩ := List.mem_map.mp hr
  cases x with
  | register r' =>
    by_cases hsp : r' = sp
    · rw [promoted, if_pos hsp] at heq
      cases heq
      exact hsp
    · obtain ⟨v, hv⟩ := h.bound hx hsp
      simp [promoted, hsp, hv] at heq
  | _ => cases heq

/-- The only register that is left in a statement is the stack pointer. -/
theorem Promotes.register_eq (h : Promotes sp s e e' t) {r : String}
    (hr : .register r ∈ e'.leaves) : r = sp := by
  cases h with
  | define hne hvalue =>
    rw [Expr.leaves_assign, List.mem_append] at hr
    rcases hr with hr | hr
    · exact hvalue.register_eq hr
    · simp at hr
  | assign hplace hvalue hq =>
    rw [Expr.leaves_assign, List.mem_append] at hr
    exact hr.elim hvalue.register_eq hq.register_eq
  | other hne hp => exact hp.register_eq hr

/-- The only register that is left in promoted code is the stack pointer. -/
theorem PromotesAll.register_eq (h : PromotesAll sp s es es' t) (he : e ∈ es') {r : String}
    (hr : .register r ∈ e.leaves) : r = sp := by
  induction h with
  | nil => cases he
  | cons head tail ih =>
    rcases List.mem_cons.mp he with rfl | he
    · exact head.register_eq hr
    · exact ih he

/-! ## Registers that were replaced -/

section Restored

variable {vars : Variables}

/-- Restoring registers undoes the reads of an expression: a register that is read is bound to a
variable of it. -/
theorem Reads.restored {p : Expr × State} (h : Reads sp e s p) (hs : Sound sp s)
    (hvar : ∀ {w}, Leaf.var w ∉ e.leaves) (hvars : p.2.vars.Extends vars) :
    p.1.relabel vars.restore = e := by
  rw [h.expr (.refl _), Expr.relabel_relabel]
  apply Expr.relabel_eq_self
  intro x hx
  show vars.restore (promoted sp p.2.bindings x) = x
  cases x with
  | register r =>
    by_cases hr : r = sp
    · rw [promoted, if_pos hr]
      rfl
    · obtain ⟨v, hv⟩ := h.bound hx hr
      have hreg := hvars.register? ((hs.grows h.grows).bound hv).2
      simp only [promoted, if_neg hr, hv]
      exact Variables.restore_var hreg
  | var w => exact absurd hx hvar
  | _ => rfl

/-- Restoring registers undoes the promotion of a statement. -/
theorem Promotes.restored (h : Promotes sp s e e' t) (he : e.Lifted) (hs : Sound sp s)
    (hvars : t.vars.Extends vars) : e'.relabel vars.restore = e := by
  cases h with
  | define hr hvalue =>
    rename_i r value p
    have hextends : p.2.vars.Extends vars := Variables.Extends.trans (.insert _ _) hvars
    have hreg : vars.register? p.2.vars.size = some r :=
      hvars.register? (Variables.register?_create _ _)
    rw [Expr.relabel_assign, hvalue.restored hs he.2.ne_var hextends]
    exact congrArg (fun l => Expr.assign (.leaf l) value) (Variables.restore_var hreg)
  | assign hplace hvalue hq =>
    rw [Expr.relabel_assign, hq.restored (hs.grows hvalue.grows) he.1.ne_var hvars,
      hvalue.restored hs he.2.ne_var (hq.grows.vars.trans hvars)]
  | other hne hp => exact hp.restored hs he.ne_var hvars

/-- Restoring registers undoes the promotion of code, statement by statement. -/
theorem PromotesAll.restored (h : PromotesAll sp s es es' t) (hl : ∀ e ∈ es, e.Lifted)
    (hs : Sound sp s) (hvars : t.vars.Extends vars) : es'.map (·.relabel vars.restore) = es := by
  induction h with
  | nil => rfl
  | cons head tail ih =>
    rename_i s t u e e' es es'
    obtain ⟨he, hrest⟩ := List.forall_mem_cons.mp hl
    rw [List.map_cons, head.restored he hs (tail.vars_extends.trans hvars),
      ih hrest (head.sound hs) hvars]

end Restored

/-! ## Variables that are made for reads -/

/-- The part of a statement in which all registers are read: its value, where it writes a register
that is to become a variable. -/
def readPart (sp : String) : Expr → Expr
  | .assign (.leaf (.register r)) value => if r = sp then .assign (.register r) value else value
  | e => e

/-- The variables that are made for the reads of statements, in order. -/
def madeForReads (sp : String) : List Expr → State → List VarId
  | [], _ => []
  | e :: rest, s =>
    s.vars.added (reads sp (readPart sp e) s).2.vars ++
      madeForReads sp rest (statement sp e s).2

/-- A statement writes a register that becomes a variable, or all its registers are read. -/
theorem statement_cases (sp : String) (e : Expr) (s : State) :
    (∃ r value, e = .assign (.register r) value ∧ readPart sp e = value ∧
      statement sp e s = (.assign (.var (reads sp value s).2.vars.size) (reads sp value s).1,
        (define r (reads sp value s).2).2)) ∨
    (∀ r value, e = .assign (.register r) value → r = sp) ∧ readPart sp e = e ∧
      statement sp e s = reads sp e s := by
  cases e with
  | assign place value =>
    cases place with
    | leaf v =>
      cases v with
      | register r =>
        by_cases hr : r = sp
        · refine .inr ⟨?_, if_pos hr, ?_⟩
          · rintro r' value' heq
            cases heq
            exact hr
          · simp only [statement, target, if_pos hr]
            rfl
        · refine .inl ⟨r, value, rfl, if_neg hr, ?_⟩
          simp only [statement, target, if_neg hr]
          rfl
      | _ => exact .inr ⟨by simp, rfl, rfl⟩
    | _ => exact .inr ⟨by simp, rfl, rfl⟩
  | _ => exact .inr ⟨by simp, rfl, rfl⟩

/-- The variables that a statement makes: first those for its reads, then the one it writes. -/
theorem added_statement (he : e.Lifted) (s : State) :
    s.vars.added (reads sp (readPart sp e) s).2.vars ++ (statement sp e s).1.assigned?.toList =
      s.vars.added (statement sp e s).2.vars := by
  rcases statement_cases sp e s with ⟨r, value, -, hpart, heq⟩ | ⟨hplace, hpart, heq⟩
  · have hextends := (reads_reads sp value s).grows.vars
    rw [hpart, heq]
    show _ ++ [(reads sp value s).2.vars.size] = s.vars.added ((reads sp value s).2.vars.create r)
    rw [← Variables.added_create _ r]
    exact Variables.added_append hextends (.insert _ _)
  · have hnone : (reads sp e s).1.assigned? = none := by
      rw [Option.eq_none_iff_forall_ne_some, (reads_reads sp e s).expr (.refl _)]
      intro v hv
      obtain ⟨w, value, rfl, hw⟩ := Expr.assigned?_relabel hv
      cases w with
      | register r =>
        rw [promoted, if_pos (hplace r value rfl)] at hw
        cases hw
      | var w => exact he.ne_var (v := w) (by simp)
      | _ => cases hw
    rw [hpart, heq, hnone, Option.toList_none, List.append_nil]

theorem perm_append_swap {α : Type} (a b c d : List α) :
    ((a ++ b) ++ (c ++ d)).Perm ((a ++ c) ++ (b ++ d)) := by
  rw [List.append_assoc, List.append_assoc]
  exact (List.perm_append_comm_assoc b c d).append_left a

/-- The variables that a block makes are those for its reads and those that it writes. -/
theorem perm_statements {ss : List Statement}
    (h : ∀ a ∈ ss, a.expr.Lifted ∧ a.eliminated = false) (s : State) :
    (madeForReads sp (ss.map (·.expr)) s ++
        assignedIn (((statements sp ss).run s).1.map (·.expr))).Perm
      (s.vars.added ((statements sp ss).run s).2.vars) := by
  induction ss generalizing s with
  | nil => exact .of_eq (Variables.added_self s.vars).symm
  | cons a rest ih =>
    obtain ⟨⟨ha, -⟩, hrest⟩ := List.forall_mem_cons.mp h
    have hhead := (promotes_statement sp a.expr s).vars_extends
    have htail := (promotesAll_statements sp (fun b hb => (hrest b hb).2)
      (statement sp a.expr s).2).1.vars_extends
    rw [run_statements_cons, ← Variables.added_append hhead htail, ← added_statement ha]
    simp only [List.map_cons, madeForReads, Expr.assignedIn_cons]
    exact (perm_append_swap _ _ _ _).trans ((ih hrest _).append_left _)

/-! ## Visits -/

def Visit.made (sp : String) (g : Graph) (v : Visit) : List VarId :=
  v.start.vars.added (v.finish sp g).vars

def Visit.madeForReads (sp : String) (g : Graph) (v : Visit) : List VarId :=
  Promotion.madeForReads sp (g.code v.block) v.start

section Visits

variable {g : Graph} {base vars : Variables} {vs : List Visit} {t : Tour}

/-- A visit makes variables for its reads and for its writes, and no others. -/
theorem Visit.perm_made (hg : g.AllLifted) (v : Visit) :
    (v.madeForReads sp g ++ assignedIn (v.body sp g)).Perm (v.made sp g) := by
  unfold madeForReads made body finish run Graph.code
  cases hb : g.block? v.block with
  | none => exact .of_eq (Variables.added_self v.start.vars).symm
  | some b =>
    have hall := hg b (Graph.mem_blocks_of_block? hb)
    dsimp only
    rw [Block.code_of_live fun s hs => (hall s hs).2]
    exact perm_statements hall v.start

/-- Visits in a row only add variables. -/
theorem Chained.vars_extends (hg : g.AllLifted) (h : Chained sp g base vs vars) :
    base.Extends vars := by
  induction vs generalizing base with
  | nil =>
    rw [show vars = base from h]
    exact .refl _
  | cons v rest ih =>
    obtain ⟨rfl, hrest⟩ := h
    exact (v.vars_extends hg).trans (ih hrest)

/-- The variables that are made in a row of visits are those for reads and those that are
written. -/
theorem Chained.perm_added (hg : g.AllLifted) (h : Chained sp g base vs vars) :
    (vs.flatMap (·.madeForReads sp g) ++ vs.flatMap fun v => assignedIn (v.body sp g)).Perm
      (base.added vars) := by
  induction vs generalizing base with
  | nil =>
    rw [show vars = base from h]
    exact .of_eq (Variables.added_self base).symm
  | cons v rest ih =>
    obtain ⟨rfl, hrest⟩ := h
    rw [← Variables.added_append (v.vars_extends hg) (hrest.vars_extends hg), List.flatMap_cons,
      List.flatMap_cons]
    exact (perm_append_swap _ _ _ _).trans ((v.perm_made hg).append (ih hrest))

end Visits

end Promotion

/-! ## Targets -/

namespace Graph

def targets (g : Graph) : List VarId :=
  g.blocks.flatMap fun b => Expr.assignedIn (b.statements.map (·.expr))

theorem flatMap_range {α : Type} (g : Graph) (k : Block → List α) :
    (List.range g.size).flatMap (fun i => (g.block? i).elim [] k) = g.blocks.flatMap k := by
  have hblocks : (List.range g.size).map g.block? = g.blocks.map some := by
    apply List.ext_getElem
    · simp [size]
    · intro i hi hi'
      simp [block?]
  have hflat := congrArg (List.flatMap fun b => b.elim [] k) hblocks
  rwa [List.flatMap_map, List.flatMap_map] at hflat

/-- Where all statements are live, a graph's targets are those of its code, block by block. -/
theorem targets_eq (g : Graph)
    (h : ∀ {i b}, g.block? i = some b → ∀ s ∈ b.statements, s.eliminated = false) :
    g.targets = (List.range g.size).flatMap fun i => Expr.assignedIn (g.code i) := by
  rw [targets, ← flatMap_range]
  apply List.flatMap_congr
  rintro i -
  cases hb : g.block? i with
  | none => simp [code, hb, Expr.assignedIn]
  | some b =>
    rw [code_eq hb, Block.code_of_live (h hb)]
    rfl

end Graph

open Promotion Expr in
/-- The targets of the promoted graph are those of the visits, each block having one. -/
theorem Promotion.Toured.perm_targets {sp : String} {g : Graph} {base : Variables}
    {vs : List Visit} {t : Tour} (h : Toured sp g base vs t)
    (hall : ∀ i < g.size, i ∈ t.visited) :
    t.graph.targets.Perm (vs.flatMap fun v => assignedIn (v.body sp g)) := by
  have hsize : t.graph.size = g.size := h.heads.size_eq
  -- Edges may lead out of the graph, so that blocks are visited which do not exist.
  have hvisits : (vs.flatMap fun v => assignedIn (v.body sp g)) =
      (t.visited.filter (· < g.size)).flatMap fun i => assignedIn (t.graph.code i) := by
    rw [flatMap_filter_of_nil fun i _ hi => ?_, h.visited, List.flatMap_map]
    · exact List.flatMap_congr fun v hv => by rw [h.code v hv]
    · cases hb : t.graph.block? i with
      | none => simp [Graph.code, hb, assignedIn]
      | some b =>
        have hlt : i < g.size := hsize ▸ Graph.block?_lt hb
        exact absurd hlt (of_decide_eq_false hi)
  rw [hvisits, Graph.targets_eq _ h.live, hsize]
  apply List.Perm.flatMap_right
  apply (List.perm_ext_iff_of_nodup List.nodup_range (h.nodup.filter _)).mpr
  intro i
  rw [List.mem_range, List.mem_filter, decide_eq_true_iff]
  exact ⟨fun hi => ⟨hall i hi, hi⟩, And.right⟩

namespace Context

open Promotion

variable {ctx : Context}

/-- The variables that promotion makes for reads. -/
def madeForReads (ctx : Context) : List VarId :=
  ctx.allVisits.flatMap (·.madeForReads ctx.stackPointer ctx.graph)

/-- Each variable was there at the entry, or was made for a read, or is assigned to by one
statement. -/
theorem perm_origins (hg : ctx.graph.AllLifted) :
    (List.range ctx.entryState.vars.size ++ (ctx.madeForReads ++ ctx.promote.1.graph.targets)).Perm
      (List.range ctx.promote.1.vars.size) := by
  obtain ⟨htour, hall⟩ := toured_allVisits hg
  rw [ctx.promote_eq.1, ctx.promote_eq.2, Variables.size_assignNames,
    ← Variables.range_append_added htour.vars_extends]
  refine List.Perm.append_left _ ?_
  exact ((htour.perm_targets hall).append_left _).trans (htour.chained.perm_added hg)

/-- The code of each block comes from its visit. -/
theorem exists_visit_of_code (hg : ctx.graph.AllLifted) {e : Expr} {i : BlockId}
    (he : e ∈ ctx.promote.1.graph.code i) : ∃ u ∈ ctx.allVisits, u.block = i ∧
      ctx.promote.1.graph.code i = u.body ctx.stackPointer ctx.graph := by
  obtain ⟨htour, hall⟩ := toured_allVisits hg
  rw [ctx.promote_eq.1] at he ⊢
  exact htour.exists_visit hall he

/-- Only the stack pointer is still a register. -/
theorem register_eq_of_code (hg : ctx.graph.AllLifted) {e : Expr} {i : BlockId}
    (he : e ∈ ctx.promote.1.graph.code i) {r : String} (hr : .register r ∈ e.leaves) :
    r = ctx.stackPointer := by
  obtain ⟨u, -, -, hbody⟩ := exists_visit_of_code hg he
  rw [hbody] at he
  exact (u.promotesAll hg).register_eq he hr

/-- All variables are in the table. -/
theorem var_lt_of_code (hg : ctx.graph.AllLifted) {e : Expr} {i : BlockId}
    (he : e ∈ ctx.promote.1.graph.code i) {v : VarId} (hv : .var v ∈ e.leaves) :
    v < ctx.promote.1.vars.size := by
  obtain ⟨htour, -⟩ := toured_allVisits hg
  obtain ⟨u, hu, -, hbody⟩ := exists_visit_of_code hg he
  rw [hbody] at he
  have hlt : v < (u.finish ctx.stackPointer ctx.graph).vars.size := by
    rcases (u.promotesAll hg).origin hg.code (.inr ⟨e, he, hv⟩) with hknown | hadded
    · exact ((htour.sound u hu).lt_of_knows hknown).trans_le (u.vars_extends hg).size_le
    · exact (Variables.mem_added.mp hadded).2
  rw [ctx.promote_eq.2, Variables.size_assignNames]
  exact hlt.trans_le (htour.done u hu).size_le

/-- Putting back the registers of variables gives the statements before promotion. -/
theorem restored_promote (hg : ctx.graph.AllLifted) (i : BlockId) :
    ((ctx.promote.1.graph.block? i).map fun b =>
        b.statements.map fun a => a.expr.relabel ctx.promote.1.vars.restore) =
      (ctx.graph.block? i).map fun b => b.statements.map (·.expr) := by
  obtain ⟨htour, hall⟩ := toured_allVisits hg
  have hheads := sameHeads_promote hg
  cases hb' : ctx.promote.1.graph.block? i with
  | none =>
    have hnone := hheads i
    rw [hb'] at hnone
    rw [Option.map_eq_none_iff.mp hnone.symm]
    rfl
  | some b' =>
    obtain ⟨b, hb, -⟩ := hheads.block? hb'
    have hvisited := hall i (Graph.block?_lt hb)
    rw [htour.visited] at hvisited
    obtain ⟨u, hu, rfl⟩ := List.mem_map.mp hvisited
    have hbefore : ctx.graph.code u.block = b.statements.map (·.expr) := by
      rw [Graph.code_eq hb]
      exact Block.code_of_live fun s hs => (hg b (Graph.mem_blocks_of_block? hb) s hs).2
    have hafter : u.body ctx.stackPointer ctx.graph = b'.statements.map (·.expr) := by
      rw [← htour.code u hu, ← ctx.promote_eq.1, Graph.code_eq hb']
      exact Block.code_of_live (live_promote hg hb')
    have hrestored := (u.promotesAll hg).restored hg.code (htour.sound u hu) (htour.done u hu)
    rw [hbefore, hafter, List.map_map, ← Variables.restore_assignNames, ← ctx.promote_eq.2]
      at hrestored
    rw [hb]
    exact congrArg some hrestored

/-- Promotion leaves static single assignment in all blocks, whether they can be reached or not.
Only the stack pointer is still a register, all variables are in the table, and each of them was
there at the entry, was made for a read, or is what one statement of the graph assigns to. The
register of a variable is the one that it has taken the place of, wherever it occurs. -/
theorem static_promote {s : Scope} {code : List Instruction} {g : Graph}
    {journal journal' : Journal}
    (hfill : (s.fill code g).run.run journal = (.ok ctx.graph, journal')) :
    let after := ctx.promote.1
    (∀ b ∈ after.graph.blocks, ∀ a ∈ b.statements,
      (∀ r, .register r ∈ a.expr.leaves → r = ctx.stackPointer) ∧
        ∀ v, .var v ∈ a.expr.leaves → v < after.vars.size) ∧
    (after.graph.targets.Nodup ∧ (∀ v < ctx.entryState.vars.size, v ∉ after.graph.targets) ∧
      (∀ v ∈ ctx.madeForReads, v ∉ after.graph.targets) ∧
      ∀ v, v < after.vars.size ↔
        v < ctx.entryState.vars.size ∨ v ∈ ctx.madeForReads ∨ v ∈ after.graph.targets) ∧
    ∀ i, (after.graph.block? i).map (fun b =>
        b.statements.map fun a => a.expr.relabel after.vars.restore) =
      (ctx.graph.block? i).map fun b => b.statements.map (·.expr) := by
  have hg := Graph.allLifted_of_fill hfill
  have hperm := perm_origins hg
  have hnodup := hperm.nodup_iff.mpr List.nodup_range
  obtain ⟨-, hmade, hseeded⟩ := List.nodup_append.mp hnodup
  obtain ⟨-, hnodup, happart⟩ := List.nodup_append.mp hmade
  refine ⟨fun b hb a ha => ?_, ⟨hnodup, fun v hv hmem => ?_, fun v hv hmem => ?_, fun v => ?_⟩,
    restored_promote hg⟩
  · obtain ⟨i, hblock⟩ := Graph.exists_block?_of_mem hb
    have hcode := mem_code_promote hg hblock ha
    exact ⟨fun r hr => register_eq_of_code hg hcode hr, fun v hv => var_lt_of_code hg hcode hv⟩
  · exact hseeded v (List.mem_range.mpr hv) v (List.mem_append_right _ hmem) rfl
  · exact happart v hv v hmem rfl
  · rw [← List.mem_range, ← List.mem_range, ← hperm.mem_iff, List.mem_append, List.mem_append]

end Context

/-! ## A spilled receiver and a block that cannot be reached -/

/-- Code that keeps its receiver on the stack and jumps over a write. -/
def spill : List Instruction :=
  [⟨0, .move, [.stack 8, .register "rcx"], .next⟩,
    ⟨1, .move, [.register "rax", .register "rdx"], .next⟩, ⟨2, .goto, [.target 4], .jump⟩,
    ⟨3, .move, [.register "rax", .register "rbx"], .next⟩, ⟨4, .ret, [.register "rax"], .ret⟩]

def spillScope : Scope :=
  ⟨{ isa := .x64 }, { id := 0, name := "spill", declaringName := "Sample", isStatic := false }⟩

def spillFilled : Except Error Graph × Journal :=
  (spillScope.fill spill ((Graph.ofCode spill).toOption.getD {})).run.run {}

def spillContext : Context where
  image := spillScope.image
  method := spillScope.method
  graph := spillFilled.1.toOption.getD {}

/-- One variable is the receiver's, two are made for reads and two for writes. -/
theorem Context.static_promote_spill :
    spillContext.entryState.vars.size = 1 ∧ spillContext.madeForReads = [1, 3] ∧
      spillContext.promote.1.graph.targets = [2, 4] ∧
      (∀ b ∈ spillContext.promote.1.graph.blocks, ∀ a ∈ b.statements,
        ∀ r, .register r ∈ a.expr.leaves → r = "rsp") ∧
      (∀ v, v < spillContext.promote.1.vars.size ↔ v < 1 ∨ v ∈ [1, 3] ∨ v ∈ [2, 4]) ∧
      ((spillContext.promote.1.graph.block? 1).map fun b => b.statements.map fun a =>
        a.expr.relabel spillContext.promote.1.vars.restore).map (List.map Expr.leaves) =
        some [[.register "rbx", .register "rax"]] := by
  have hfill : spillFilled = (.ok spillContext.graph, spillFilled.2) :=
    eq_ok_of_isSome (by decide +kernel) {}
  have hentry : spillContext.entryState.vars.size = 1 := by decide +kernel
  have hmade : spillContext.madeForReads = [1, 3] := by decide +kernel
  have htargets : spillContext.promote.1.graph.targets = [2, 4] := by decide +kernel
  obtain ⟨hleaves, ⟨-, -, -, horigins⟩, hrestored⟩ := static_promote hfill
  rw [hentry, hmade, htargets] at horigins
  refine ⟨hentry, hmade, htargets, fun b hb a ha => (hleaves b hb a ha).1, horigins, ?_⟩
  rw [hrestored 1]
  decide +kernel

end MethodLift
