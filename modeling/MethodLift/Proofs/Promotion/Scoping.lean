import MethodLift.Proofs.Block.Layout
import MethodLift.Proofs.Promotion.Entry

/-!
# Promotion gives every variable one definition

A statement reads variables that its block was entered with, that were defined before it in the
block, or that stand for the registers at the entry. Where control flow does not join, every walk
from the entry follows the visits of the promotion, so a definition comes before all reads of its
variable. What a statement assigns to is numbered after everything it reads.
-/

namespace MethodLift.Promotion

open Expr (assignedIn Scoped Closed)

variable {sp : String} {s t : State} {e e' : Expr} {es es' : List Expr} {A : VarId → Prop}

/-! ## Statements -/

/-- The variables of a promoted expression are bound. -/
theorem Reads.exists_binding {p : Expr × State} (h : Reads sp e s p)
    (hvar : ∀ {w}, Leaf.var w ∉ e.leaves) {v : VarId} (hv : .var v ∈ p.1.leaves) :
    ∃ r, p.2.bindings.get? r = some v := by
  rw [h.expr (.refl _), Expr.leaves_relabel] at hv
  obtain ⟨x, hx, heq⟩ := List.mem_map.mp hv
  cases x with
  | register r =>
    by_cases hr : r = sp
    · rw [promoted, if_pos hr] at heq
      cases heq
    · rw [promoted, if_neg hr] at heq
      cases hb : p.2.bindings.get? r with
      | none =>
        rw [hb] at heq
        cases heq
      | some w =>
        rw [hb] at heq
        cases heq
        exact ⟨r, hb⟩
  | var w => exact absurd hx hvar
  | _ => cases heq

/-- The state after the reads of a statement and before its definition. -/
structure Midway (sp : String) (s : State) (e' : Expr) (t mid : State) : Prop where
  grows : Grows sp s mid
  size_le : mid.vars.size ≤ t.vars.size
  assigned : ∀ {v}, e'.assigned? = some v → v = mid.vars.size
  used : ∀ {v}, .var v ∈ e'.used → ∃ r, mid.bindings.get? r = some v
  bound : ∀ {r v}, t.bindings.get? r = some v → mid.bindings.get? r = some v ∨
    e'.assigned? = some v

/-- A statement is promoted in two steps: what it reads, and then what it writes. -/
theorem Promotes.exists_midway (h : Promotes sp s e e' t) (he : e.Lifted) :
    ∃ mid, Midway sp s e' t mid := by
  cases h with
  | define hr hvalue =>
    rename_i r value p
    refine ⟨p.2, hvalue.grows, ?_, fun hv => ?_, fun hv => ?_, fun hb => ?_⟩
    · exact Variables.Extends.size_le (.insert _ _)
    · exact (Option.some.inj hv).symm
    · exact hvalue.exists_binding he.2.ne_var hv
    · rcases get?_define hb with ⟨-, rfl⟩ | hb
      · exact .inr rfl
      · exact .inl hb
  | assign hplace hvalue hq =>
    rename_i place value p q
    have hnone := assigned?_assign (p := p) hplace he.1 hq
    refine ⟨q.2, hvalue.grows.trans hq.grows, Nat.le_refl _, fun hv => ?_, fun hv => ?_, .inl⟩
    · rw [hnone] at hv
      cases hv
    · have hleaf := Expr.used_subset _ hv
      rw [Expr.leaves_assign] at hleaf
      rcases List.mem_append.mp hleaf with hleaf | hleaf
      · obtain ⟨r, hb⟩ := hvalue.exists_binding he.2.ne_var hleaf
        exact ⟨r, hq.grows.kept hb⟩
      · exact hq.exists_binding he.1.ne_var hleaf
  | other hne hp =>
    have hnone := assigned?_other hne hp
    refine ⟨_, hp.grows, Nat.le_refl _, fun hv => ?_, fun hv => ?_, .inl⟩
    · rw [hnone] at hv
      cases hv
    · exact hp.exists_binding he.ne_var (Expr.used_subset _ hv)

/-- A statement assigns to a variable with a larger number than those it reads. -/
theorem Promotes.used_lt (h : Promotes sp s e e' t) (he : e.Lifted) (hs : Sound sp s) {v w : VarId}
    (hv : e'.assigned? = some v) (hw : .var w ∈ e'.used) : w < v := by
  obtain ⟨mid, hmid⟩ := h.exists_midway he
  obtain ⟨r, hb⟩ := hmid.used hw
  rw [hmid.assigned hv]
  exact (hs.grows hmid.grows).lt hb

/-! ## Blocks -/

/-- After some statements: those variables of bound registers that are assigned to at all were
assigned to, and all that were are old. -/
structure Settled (A : VarId → Prop) (s : State) (done : List Expr) : Prop where
  bound : ∀ {r v}, s.bindings.get? r = some v → A v → v ∈ assignedIn done
  old : ∀ v ∈ assignedIn done, v < s.vars.size

theorem Settled.later {done : List Expr} (h : Settled A s done) (hb : t.bindings = s.bindings)
    (hv : s.vars.Extends t.vars) : Settled A t done where
  bound hbound := h.bound (hb ▸ hbound)
  old v hmem := (h.old v hmem).trans_le hv.size_le

/-- A promoted statement reads variables that were assigned to before it, or are assigned to
nowhere, and assigns to a variable that was not. -/
theorem Promotes.settled (h : Promotes sp s e e' t) (he : e.Lifted) (hA : Apart A s [e'] t)
    {done : List Expr} (hd : Settled A s done) :
    (∀ v, .var v ∈ e'.used → A v → v ∈ assignedIn done) ∧
      (∀ v, e'.assigned? = some v → v ∉ assignedIn done) ∧ Settled A t (done ++ [e']) := by
  obtain ⟨mid, hmid⟩ := h.exists_midway he
  have hbound {r v} (hb : mid.bindings.get? r = some v) (ha : A v) : v ∈ assignedIn done := by
    rcases hmid.grows.fresh hb with hb | ⟨-, hle, hreg⟩
    · exact hd.bound hb ha
    · have hge : ∀ a, e'.assigned? = some a → mid.vars.size ≤ a :=
        fun a hsome => (hmid.assigned hsome).ge
      exact absurd ha (hA.unassigned hge hmid.size_le hle (Variables.lt_of_register? hreg))
  refine ⟨fun v hv ha => ?_, fun v hv hmem => ?_, ⟨fun hb ha => ?_, fun v hmem => ?_⟩⟩
  · obtain ⟨r, hb⟩ := hmid.used hv
    exact hbound hb ha
  · have hlt := hd.old v hmem
    rw [hmid.assigned hv] at hlt
    exact absurd hlt (Nat.not_lt.mpr hmid.grows.vars.size_le)
  · rw [Expr.assignedIn_append, List.mem_append]
    rcases hmid.bound hb with hb | hsome
    · exact .inl (hbound hb ha)
    · exact .inr (List.mem_filterMap.mpr ⟨e', List.mem_singleton_self e', hsome⟩)
  · rw [Expr.assignedIn_append, List.mem_append] at hmem
    rcases hmem with hmem | hmem
    · exact (hd.old v hmem).trans_le h.vars_extends.size_le
    · have hsome : e'.assigned? = some v := by simpa [assignedIn] using hmem
      exact (h.assigned?_bounds he hsome).2

/-- Promoted code is scoped, by induction along its statements. -/
theorem PromotesAll.settled (h : PromotesAll sp s es es' t) (hl : ∀ e ∈ es, e.Lifted)
    (hA : Apart A s es' t) {done : List Expr} (hd : Settled A s done) :
    Scoped A done es' ∧ Settled A t (done ++ es') := by
  induction h generalizing done with
  | nil => exact ⟨trivial, by simpa using hd⟩
  | cons head tail ih =>
    rename_i s t u e e' es es'
    obtain ⟨hhead, htail⟩ := hA.split head tail hl
    obtain ⟨hused, hnew, hd'⟩ := head.settled (hl e List.mem_cons_self) hhead hd
    obtain ⟨hrest, hend⟩ := ih (fun x hx => hl x (List.mem_cons_of_mem e hx)) htail hd'
    rw [List.append_assoc] at hend
    exact ⟨⟨hused, hnew, hrest⟩, hend⟩

/-- Promoted code assigns to no variable twice, since each write makes its own. -/
theorem PromotesAll.nodup (h : PromotesAll sp s es es' t) (hl : ∀ e ∈ es, e.Lifted) :
    (assignedIn es').Nodup := by
  induction h with
  | nil => exact .nil
  | cons head tail ih =>
    rename_i s t u e e' es es'
    have hlater := tail.assigned_bounds fun x hx => hl x (List.mem_cons_of_mem e hx)
    have hrest := ih fun x hx => hl x (List.mem_cons_of_mem e hx)
    cases hv : e'.assigned? with
    | none =>
      rw [assignedIn, List.filterMap_cons_none hv]
      exact hrest
    | some v =>
      rw [assignedIn, List.filterMap_cons_some hv]
      refine List.nodup_cons.mpr ⟨fun hmem => ?_, hrest⟩
      have hlt := (head.assigned?_bounds (hl e List.mem_cons_self) hv).2
      exact absurd hlt (Nat.not_lt.mpr (hlater v hmem).1)

/-- A statement reads variables that are older than the one it assigns to. -/
theorem PromotesAll.used_lt (h : PromotesAll sp s es es' t) (hl : ∀ e ∈ es, e.Lifted)
    (hs : Sound sp s) {v w : VarId} (he : e ∈ es') (hv : e.assigned? = some v)
    (hw : .var w ∈ e.used) : w < v := by
  induction h with
  | nil => cases he
  | cons head tail ih =>
    rename_i s t u x x' es es'
    rcases List.mem_cons.mp he with rfl | he
    · exact head.used_lt (hl x List.mem_cons_self) hs hv hw
    · exact ih (fun y hy => hl y (List.mem_cons_of_mem x hy)) (head.sound hs) he

end MethodLift.Promotion

namespace MethodLift.Context

open Promotion
open Expr (assignedIn Scoped)

variable {ctx : Context}

/-! ## Walks -/

/-- Promotion changes statements only. -/
theorem sameHeads_promote (hg : ctx.graph.AllLifted) :
    ctx.graph.SameHeads ctx.promote.1.graph := by
  obtain ⟨htour, -⟩ := toured_allVisits hg
  rw [ctx.promote_eq.1]
  exact htour.heads

/-- Where control flow does not join, walks from the entry follow the visits. -/
theorem exists_trail (hg : ctx.graph.AllLifted) (hw : ctx.graph.Wired)
    (hj : ctx.graph.JoinFree) (hpos : 0 < ctx.graph.size) {path : List BlockId} {i : BlockId}
    (h : ctx.graph.Walk path i) : ∃ v, v.block = i ∧ Trail ctx.visits (path ++ [i]) v := by
  have reach {v : Visit} (hv : v ∈ ctx.visits) : v.block ∈ ctx.graph.reachable := by
    rw [ctx.reachable_eq]
    exact List.mem_map_of_mem hv
  have visit {i : BlockId} (hi : i ∈ ctx.graph.reachable) : ∃ v ∈ ctx.visits, v.block = i := by
    rw [ctx.reachable_eq] at hi
    exact List.mem_map.mp hi
  induction h with
  | entry =>
    obtain ⟨v, hv, hblock⟩ := visit (ctx.graph.zero_mem_reachable hpos)
    rcases linked_visits hg hv with ⟨hroot, -⟩ | ⟨u, hu, -, hedge, -⟩
    · refine ⟨v, hblock, ?_⟩
      have htrail := Trail.entry hv hroot
      rwa [hblock] at htrail
    · exact absurd hblock (hj.ne_zero hw (reach hu) hedge)
  | step hwalk hedge ih =>
    rename_i path i j
    obtain ⟨u, rfl, htrail⟩ := ih
    obtain ⟨v, hv, rfl⟩ := visit (Graph.reachable_closed hw (reach htrail.mem) hedge)
    rcases linked_visits hg hv with ⟨-, hzero, -⟩ | ⟨w, hw', hparent, hedge', -⟩
    · exact absurd hzero (hj.ne_zero hw (reach htrail.mem) hedge)
    · rw [← hj.unique hw (reach htrail.mem) (reach hw') hedge hedge'] at hparent
      exact ⟨v, rfl, .step htrail hv hparent⟩

/-- The code along a path of visits is in scope. -/
theorem settled_trail (hg : ctx.graph.AllLifted) {path : List BlockId} {v : Visit}
    (h : Trail ctx.visits path v) :
    Scoped ctx.promote.1.graph.Assigns [] (ctx.promote.1.graph.along path) ∧
      Settled ctx.promote.1.graph.Assigns (v.finish ctx.stackPointer ctx.graph)
        (ctx.promote.1.graph.along path) := by
  have block {v : Visit} (hv : v ∈ ctx.visits) {done : List Expr}
      (hd : Settled ctx.promote.1.graph.Assigns v.start done) :=
    (v.promotesAll hg).settled hg.code (apart_promote hg hv) hd
  induction h with
  | entry hv hroot =>
    rename_i v
    obtain ⟨-, hbindings, hvars⟩ := start_of_root hg hv hroot
    have hd : Settled ctx.promote.1.graph.Assigns ctx.entryState [] :=
      ⟨fun hb ha => absurd ha (not_assigns_of_lt hg (ctx.sound_entryState.lt hb)),
        List.forall_mem_nil _⟩
    rw [Graph.along_singleton, code_promote hg hv]
    exact block hv (hd.later hbindings hvars)
  | step hpath hv hparent ih =>
    obtain ⟨-, hbindings, hvars⟩ := start_of_parent hg hpath.mem hv hparent
    obtain ⟨hscoped, hd⟩ := ih
    obtain ⟨hrest, hend⟩ := block hv (hd.later hbindings hvars)
    rw [Graph.along_append, Graph.along_singleton, code_promote hg hv]
    exact ⟨Expr.scoped_append.mpr ⟨hscoped, hrest⟩, hend⟩

/-- Promotion leaves code in which every variable has one definition. -/
theorem single_promote (hg : ctx.graph.AllLifted) (hw : ctx.graph.Wired) :
    ctx.promote.1.graph.SingleAssignment := by
  have hheads := sameHeads_promote hg
  obtain ⟨htour, hall⟩ := toured_allVisits hg
  rw [ctx.promote_eq.1] at hheads ⊢
  constructor
  case id_eq => exact (hheads.wired hw).id_eq
  case once =>
    intro i
    rcases List.eq_nil_or_concat (ctx.tour.graph.code i) with hnil | ⟨es, e, hcode⟩
    · rw [hnil]
      exact .nil
    · have he : e ∈ ctx.tour.graph.code i := by simp [hcode]
      obtain ⟨u, -, -, hbody⟩ := htour.exists_visit hall he
      rw [hbody]
      exact (u.promotesAll hg).nodup hg.code
  case apart =>
    -- The numbers that two visits give do not overlap.
    intro i j hne a hi hj
    obtain ⟨u, hu, hui, -, hule, hult⟩ := htour.exists_assigned hg hall hi
    obtain ⟨v, hv, hvj, -, hvle, hvlt⟩ := htour.exists_assigned hg hall hj
    rcases htour.total hu hv with rfl | hbefore | hafter
    · exact hne (hui.symm.trans hvj)
    · exact absurd (hult.trans_le hbefore.size_le) (Nat.not_lt.mpr hvle)
    · exact absurd (hvlt.trans_le hafter.size_le) (Nat.not_lt.mpr hule)
  case smaller =>
    intro i v value hmem w hv
    obtain ⟨u, hu, -, hbody⟩ := htour.exists_visit hall hmem
    rw [hbody] at hmem
    exact (u.promotesAll hg).used_lt hg.code (htour.sound u hu) hmem rfl hv

/-- Where control flow does not join, definitions come before their uses. -/
theorem disciplined_promote (hg : ctx.graph.AllLifted) (hw : ctx.graph.Wired)
    (hj : ctx.graph.JoinFree) (hpos : 0 < ctx.graph.size)
    (hlane : ∀ b ∈ ctx.promote.1.graph.blocks, ∀ e ∈ b.code, e.assignsLane = false) :
    ctx.promote.1.graph.Disciplined := by
  have hheads := sameHeads_promote hg
  constructor
  case toSingleAssignment => exact single_promote hg hw
  case inScope =>
    intro path i hwalk
    obtain ⟨v, -, htrail⟩ := exists_trail hg hw hj hpos
      (hwalk.congr fun i => (hheads.successors_eq i).symm)
    exact (settled_trail hg htrail).1
  case laneless => exact Graph.forall_code hlane

end MethodLift.Context
