import MethodLift.Proofs.Promotion.Visits

/-!
# Promoting a method

The state at the entry binds the registers of the receiver and of the parameters, if the options
say so; the stack pointer is none of them. From there, the visits of a promotion account for
everything in the graph that it leaves. Names that are given in the end change no register.
-/

namespace MethodLift

/-! ## Registers of arguments -/

namespace Convention

@[simp] theorem length_assignFrom (c : Convention) (ints floats : Nat) (types : List TypeRef) :
    (c.assignFrom ints floats types).length = types.length := by
  fun_induction assignFrom c ints floats types with
  | case1 => rfl
  | case2 ints floats type rest hfloat ih => exact congrArg Nat.succ ih
  | case3 ints floats type rest hfloat ih => exact congrArg Nat.succ ih

/-- Arguments are passed in registers of the two banks. -/
theorem mem_of_assignFrom (c : Convention) (ints floats : Nat) (types : List TypeRef) {r : String}
    (h : some r ∈ c.assignFrom ints floats types) : r ∈ c.integer ∨ r ∈ c.float := by
  fun_induction assignFrom c ints floats types with
  | case1 => cases h
  | case2 ints floats type rest hfloat ih =>
    rcases List.mem_cons.mp h with hhead | htail
    · exact .inr (List.mem_of_getElem? hhead.symm)
    · exact ih htail
  | case3 ints floats type rest hfloat ih =>
    rcases List.mem_cons.mp h with hhead | htail
    · exact .inl (List.mem_of_getElem? hhead.symm)
    · exact ih htail

/-- The stack pointer carries no arguments. -/
theorem ne_stackPointer (isa : InstructionSet) {r : String}
    (h : r ∈ (Convention.of isa).integer ∨ r ∈ (Convention.of isa).float) :
    r ≠ Register.stackPointer isa := by
  rintro rfl
  cases isa <;> revert h <;> decide

end Convention

namespace Promotion

/-- The makers of variables stand for the registers that they are given. -/
theorem registers_filterMap_zip {makers : List (String → Variable)}
    {registers : List (Option String)} (hlength : makers.length = registers.length)
    (hmakers : ∀ maker ∈ makers, ∀ r, (maker r).register = r) :
    ((makers.zip registers).filterMap fun p => p.2.map p.1).map (·.register) =
      registers.filterMap id := by
  induction makers generalizing registers with
  | nil =>
    rw [List.eq_nil_of_length_eq_zero hlength.symm]
    rfl
  | cons maker rest ih =>
    cases registers with
    | nil => cases hlength
    | cons r registers =>
      obtain ⟨hmaker, hrest⟩ := List.forall_mem_cons.mp hmakers
      have htail := ih (Nat.succ.inj hlength) hrest
      cases r with
      | none => simpa using htail
      | some r => simpa [hmaker] using htail

/-- The variables at the entry stand for the registers that arguments have. -/
theorem registers_entryVariables (c : Convention) (m : Method) :
    (entryVariables c m).map (·.register) = (c.assign m.passedTypes).filterMap id := by
  refine registers_filterMap_zip ?_ fun maker hmaker r => ?_
  · rw [Convention.assign, Convention.length_assignFrom, Method.passedTypes]
    cases m.isStatic <;> simp
  · rcases List.mem_append.mp hmaker with hthis | hparameter
    · split at hthis
      · cases hthis
      · rw [List.mem_singleton.mp hthis]
        rfl
    · obtain ⟨p, -, rfl⟩ := List.mem_map.mp hparameter
      rfl

/-- No variable stands for the stack pointer at the entry. -/
theorem ne_stackPointer_of_entryVariables {isa : InstructionSet} {method : Method} {v : Variable}
    (h : v ∈ entryVariables (Convention.of isa) method) :
    v.register ≠ Register.stackPointer isa := by
  have hregister := List.mem_map_of_mem (f := (·.register)) h
  rw [registers_entryVariables] at hregister
  obtain ⟨r, hr, heq⟩ := List.mem_filterMap.mp hregister
  cases heq
  exact Convention.ne_stackPointer isa (Convention.mem_of_assignFrom _ _ _ _ hr)

/-- Binding a register to a new variable of it keeps bindings sound. -/
theorem sound_insert {sp : String} {s : State} (h : Sound sp s) {v : Variable}
    (hv : v.register ≠ sp) :
    Sound sp { vars := s.vars.insert v, bindings := s.bindings.insert v.register s.vars.size } where
  bound {r w} hb := by
    by_cases hne : r = v.register
    · subst hne
      rw [Table.get?_insert_self] at hb
      cases hb
      exact ⟨hv, by simp [Variables.register?]⟩
    · rw [Table.get?_insert_of_ne _ _ hne] at hb
      exact ⟨(h.bound hb).1, Variables.Extends.register? (.insert _ _) (h.bound hb).2⟩

/-- The bindings at the entry are sound, by induction along the arguments. -/
theorem sound_seed {sp : String} (vars : Variables) {vs : List Variable}
    (hvs : ∀ v ∈ vs, v.register ≠ sp) :
    Sound sp { vars := (seed vars vs).1, bindings := (seed vars vs).2 } := by
  have hempty : Sound sp { vars, bindings := {} } := sound_empty
  unfold seed
  generalize ({} : Bindings) = bindings at hempty
  induction vs generalizing vars bindings with
  | nil => exact hempty
  | cons v rest ih =>
    rw [List.foldl_cons]
    exact ih _ (fun w hw => hvs w (List.mem_cons_of_mem v hw)) _
      (sound_insert hempty (hvs v List.mem_cons_self))

/-! ## Names -/

/-- Naming variables does not change what registers they stand for. -/
theorem registers_nameAll (n : Naming) (vs : List Variable) :
    (nameAll n vs).map (·.register) = vs.map (·.register) := by
  induction vs generalizing n with
  | nil => rfl
  | cons v rest ih =>
    have hname : (nameVariable n v).2.register = v.register := by
      unfold nameVariable
      split <;> rfl
    simp only [nameAll, List.map_cons, ih, hname]

theorem register?_assignNames (t : Variables) (id : VarId) :
    (assignNames t).register? id = t.register? id := by
  have h (t : Variables) : t.register? id = (t.entries.map (·.register))[id]? := by
    rw [List.getElem?_map]
    rfl
  rw [h, h, assignNames, registers_nameAll]

end Promotion

/-! ## The visits of a promotion -/

open Promotion

namespace Context

def stackPointer (ctx : Context) : String := Register.stackPointer ctx.image.isa

/-- The variables and bindings at the entry. -/
def entryState (ctx : Context) : State :=
  if ctx.options.enabled .seedParameters then
    let p := seed ctx.vars (entryVariables (Convention.of ctx.image.isa) ctx.method)
    { vars := p.1, bindings := p.2 }
  else { vars := ctx.vars, bindings := {} }

/-- Each method starts with sound bindings. -/
theorem sound_entryState (ctx : Context) : Sound ctx.stackPointer ctx.entryState := by
  unfold entryState
  split
  · exact sound_seed _ fun v hv => ne_stackPointer_of_entryVariables hv
  · exact sound_empty

/-- What is to be visited first. -/
def roots (ctx : Context) : List (Option BlockId × BlockId × Bindings) :=
  if ctx.graph.blocks.isEmpty then [] else [(none, 0, ctx.entryState.bindings)]

/-- The visits of the blocks that can be reached, in order. -/
def visits (ctx : Context) : List Visit :=
  Promotion.visits ctx.stackPointer ctx.graph ctx.graph.size ctx.roots [] ctx.entryState.vars

/-- The tour of a promotion after the blocks that can be reached. -/
def reached (ctx : Context) : Tour :=
  visitReachable ctx.stackPointer ctx.graph.size (ctx.roots.map Prod.snd)
    { graph := ctx.graph, vars := ctx.entryState.vars }

def tour (ctx : Context) : Tour := visitRest ctx.stackPointer ctx.reached

/-- The visits of all blocks, those that cannot be reached last. -/
def allVisits (ctx : Context) : List Visit :=
  ctx.visits ++ strays ctx.stackPointer ctx.graph (List.range ctx.graph.size) ctx.reached.visited
    ctx.reached.vars

/-- Promotion is the tour of all blocks, and naming afterwards. -/
theorem promote_eq (ctx : Context) : ctx.promote.1.graph = ctx.tour.graph ∧
    ctx.promote.1.vars = assignNames ctx.tour.vars := by
  have hroots : ctx.roots.map Prod.snd =
      if ctx.graph.blocks.isEmpty then [] else [(0, ctx.entryState.bindings)] := by
    unfold roots
    split <;> rfl
  rw [tour, reached, hroots]
  unfold promote entryState stackPointer
  cases ctx.options.enabled .seedParameters <;> exact ⟨rfl, rfl⟩

variable {ctx : Context}

/-- Promotion visits the blocks that can be reached. -/
theorem toured_reached (hg : ctx.graph.AllLifted) :
    Toured ctx.stackPointer ctx.graph ctx.entryState.vars ctx.visits ctx.reached := by
  have hstart := toured_nil ctx.stackPointer hg ctx.entryState.vars
  have hroots : ∀ entry ∈ ctx.roots,
      Sound ctx.stackPointer { vars := ctx.entryState.vars, bindings := entry.2.2 } := by
    intro entry hentry
    unfold roots at hentry
    split at hentry
    · cases hentry
    · rw [List.mem_singleton.mp hentry]
      exact ctx.sound_entryState.later rfl (.refl _)
  exact toured_visitReachable hg ctx.graph.size ctx.roots hroots hstart

/-- Promotion visits the blocks that can be reached, then all others. -/
theorem toured_allVisits (hg : ctx.graph.AllLifted) :
    Toured ctx.stackPointer ctx.graph ctx.entryState.vars ctx.allVisits ctx.tour ∧
      ∀ i < ctx.graph.size, i ∈ ctx.tour.visited :=
  toured_visitRest hg (toured_reached hg)

/-- How the visits of a promotion start. -/
theorem linked_visits (hg : ctx.graph.AllLifted) {v : Visit} (hv : v ∈ ctx.visits) :
    v.parent = none ∧ v.block = 0 ∧ v.start.bindings = ctx.entryState.bindings ∧
      ctx.entryState.vars.Extends v.start.vars ∨
    ∃ u ∈ ctx.visits, v.parent = some u.block ∧ v.block ∈ ctx.graph.successors u.block ∧
      v.start.bindings = (u.finish ctx.stackPointer ctx.graph).bindings ∧
      (u.finish ctx.stackPointer ctx.graph).vars.Extends v.start.vars := by
  rcases visits_linked hg _ _ _ _ v hv with hroot | ⟨u, hu, hparent, hbindings, hedge, hvars⟩
  · refine .inl ?_
    unfold roots at hroot
    split at hroot
    · cases hroot
    · simp only [List.mem_singleton, Prod.mk.injEq] at hroot
      exact ⟨hroot.1, hroot.2.1, hroot.2.2, visits_extends hg _ _ _ _ v hv⟩
  · exact .inr ⟨u, hu, hparent, hedge, hbindings, hvars⟩

/-- Every block has at most one visit. -/
theorem eq_of_block_eq {u v : Visit} (hu : u ∈ ctx.visits) (hv : v ∈ ctx.visits)
    (h : u.block = v.block) : u = v := by
  have hnodup : (ctx.visits.map Visit.block).Nodup := visits_nodup _ _ [] _ List.nodup_nil
  exact List.inj_on_of_nodup_map hnodup hu hv h

/-- The first visit starts with the state at the entry. -/
theorem start_of_root (hg : ctx.graph.AllLifted) {v : Visit} (hv : v ∈ ctx.visits)
    (hroot : v.parent = none) : v.block = 0 ∧ v.start.bindings = ctx.entryState.bindings ∧
      ctx.entryState.vars.Extends v.start.vars := by
  rcases linked_visits hg hv with ⟨-, h⟩ | ⟨u, -, hparent, -⟩
  · exact h
  · rw [hroot] at hparent
    cases hparent

/-- Every other visit starts with the bindings at the end of its parent. -/
theorem start_of_parent (hg : ctx.graph.AllLifted) {u v : Visit} (hu : u ∈ ctx.visits)
    (hv : v ∈ ctx.visits) (hparent : v.parent = some u.block) :
    v.block ∈ ctx.graph.successors u.block ∧
      v.start.bindings = (u.finish ctx.stackPointer ctx.graph).bindings ∧
      (u.finish ctx.stackPointer ctx.graph).vars.Extends v.start.vars := by
  rcases linked_visits hg hv with ⟨hroot, -⟩ | ⟨w, hw, hparent', h⟩
  · rw [hparent] at hroot
    cases hroot
  · obtain rfl := eq_of_block_eq hu hw (Option.some.inj (hparent.symm.trans hparent'))
    exact h

/-- Every visit starts with sound bindings. -/
theorem sound_visits (hg : ctx.graph.AllLifted) {v : Visit} (hv : v ∈ ctx.visits) :
    Sound ctx.stackPointer v.start := by
  obtain ⟨htour, -⟩ := toured_allVisits hg
  exact htour.sound v (List.mem_append_left _ hv)

/-- The visited blocks are those that can be reached. -/
theorem reachable_eq (ctx : Context) : ctx.graph.reachable = ctx.visits.map Visit.block := by
  unfold Graph.reachable visits roots
  split
  · have hnone : [] = ctx.graph.visit ctx.graph.size [] [] := by
      cases ctx.graph.size <;> rfl
    exact hnone.trans (visit_eq_visits ctx.graph.size [] [] ctx.entryState.vars)
  · exact visit_eq_visits ctx.graph.size [(none, 0, ctx.entryState.bindings)] [] _

/-- The variables of the entry are never assigned to: statements assign to new ones. -/
theorem not_assigns_of_lt (hg : ctx.graph.AllLifted) {v : VarId}
    (h : v < ctx.entryState.vars.size) : ¬ ctx.promote.1.graph.Assigns v := by
  obtain ⟨htour, hall⟩ := toured_allVisits hg
  rw [ctx.promote_eq.1]
  exact htour.not_assigns hg hall h

/-- A variable of the entry stands for its register to the end. -/
theorem register?_promote_entry (hg : ctx.graph.AllLifted) {v : VarId} {r : String}
    (h : ctx.entryState.vars.register? v = some r) :
    ctx.promote.1.vars.register? v = some r := by
  obtain ⟨htour, -⟩ := toured_allVisits hg
  rw [ctx.promote_eq.2, register?_assignNames]
  exact htour.vars_extends.register? h

/-- A variable stands for the same register at the end of a visit and of the promotion. -/
theorem register?_promote (hg : ctx.graph.AllLifted) {u : Visit} (hu : u ∈ ctx.visits) {v : VarId}
    {r : String} (h : (u.finish ctx.stackPointer ctx.graph).vars.register? v = some r) :
    ctx.promote.1.vars.register? v = some r := by
  obtain ⟨htour, -⟩ := toured_allVisits hg
  rw [ctx.promote_eq.2, register?_assignNames]
  exact (htour.done u (List.mem_append_left _ hu)).register? h

/-- The variables that a visit made for writes are assigned to by the code of its block, and all
others by no code at all. -/
theorem apart_promote (hg : ctx.graph.AllLifted) {u : Visit} (hu : u ∈ ctx.visits) :
    Apart ctx.promote.1.graph.Assigns u.start (u.body ctx.stackPointer ctx.graph)
      (u.finish ctx.stackPointer ctx.graph) := by
  obtain ⟨htour, hall⟩ := toured_allVisits hg
  rw [ctx.promote_eq.1]
  exact htour.apart hg hall (List.mem_append_left _ hu)

/-- The code of a block is what its visit made of it. -/
theorem code_promote (hg : ctx.graph.AllLifted) {u : Visit} (hu : u ∈ ctx.visits) :
    ctx.promote.1.graph.code u.block = u.body ctx.stackPointer ctx.graph := by
  obtain ⟨htour, -⟩ := toured_allVisits hg
  rw [ctx.promote_eq.1]
  exact htour.code u (List.mem_append_left _ hu)

/-- Promotion eliminates no statement. -/
theorem live_promote (hg : ctx.graph.AllLifted) {i : BlockId} {b : Block}
    (hb : ctx.promote.1.graph.block? i = some b) : ∀ s ∈ b.statements, s.eliminated = false := by
  rw [ctx.promote_eq.1] at hb
  exact (toured_allVisits hg).1.live hb

theorem mem_code_promote (hg : ctx.graph.AllLifted) {i : BlockId} {b : Block}
    (hb : ctx.promote.1.graph.block? i = some b) {s : Statement} (hs : s ∈ b.statements) :
    s.expr ∈ ctx.promote.1.graph.code i := by
  rw [Graph.code_eq hb, Block.code_of_live (live_promote hg hb)]
  exact List.mem_map_of_mem hs

end Context

end MethodLift
