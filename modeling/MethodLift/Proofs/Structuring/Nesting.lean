import MethodLift.Proofs.Block.Flat
import MethodLift.Proofs.Structuring.Plan

/-!
# Carrying out a plan

`Nested g p i b` says that `b` is the block `i` of a graph with everything that the plan `p` moves
into it: a block that absorbs nothing as it is, and any other with its child, nested in the same
way, as the body of the conditional at its end. Carrying out the plan in its order leaves every
absorbed block empty and every other block nested.
-/

namespace MethodLift

/-! ## Last statements -/

namespace Block

variable {b : Block} {e : Expr} {s : Statement} {init : List Statement}

theorem live_append (b : Block) (e : Expr) : (b.append e).live = b.live ++ [{ expr := e }] := by
  simp [append, live]

/-- What is replaced is the last live statement; only eliminated ones come after it. -/
theorem exists_replaceLast {ss : List Statement}
    (h : ss.filter (fun s => !s.eliminated) = init ++ [s]) :
    ∃ before after, ss = before ++ s :: after ∧ (∀ x ∈ after, x.eliminated = true) ∧
      s.eliminated = false ∧ ∀ e, replaceLast e ss = before ++ { s with expr := e } :: after := by
  induction ss generalizing init with
  | nil => simp at h
  | cons x rest ih =>
    by_cases hany : rest.any (fun r => !r.eliminated) = true
    · -- the last live statement stands further on
      have hrest : ∃ init', rest.filter (fun s => !s.eliminated) = init' ++ [s] := by
        obtain ⟨y, hy, hlive⟩ := List.any_eq_true.mp hany
        have hmem : y ∈ rest.filter fun s => !s.eliminated := List.mem_filter.mpr ⟨hy, hlive⟩
        rw [List.filter_cons] at h
        split at h
        · cases init with
          | nil =>
            rw [(List.cons.inj h).2] at hmem
            cases hmem
          | cons z init => exact ⟨init, (List.cons.inj h).2⟩
        · exact ⟨init, h⟩
      obtain ⟨init', hrest⟩ := hrest
      obtain ⟨before, after, hss, hafter, hs, hreplace⟩ := ih hrest
      refine ⟨x :: before, after, congrArg (x :: ·) hss, hafter, hs, fun e => ?_⟩
      rw [replaceLast, if_pos hany, hreplace e]
      rfl
    · have hgone : ∀ y ∈ rest, y.eliminated = true := by simpa using hany
      have hrest : rest.filter (fun s => !s.eliminated) = [] := by simpa using hgone
      have hx : x.eliminated = false := by
        by_contra hx
        simp [hx, hrest] at h
      have hxs : x = s := by
        simp only [List.filter_cons, hx, hrest, Bool.not_false, if_true] at h
        cases init with
        | nil => exact (List.cons.inj h).1
        | cons z init => simp at h
      subst hxs
      refine ⟨[], rest, rfl, hgone, hx, fun e => ?_⟩
      rw [replaceLast, if_neg hany, hx, if_neg Bool.false_ne_true]
      rfl

/-- Replacing the last live statement leaves the others. -/
theorem live_replaceLast {ss : List Statement}
    (h : ss.filter (fun s => !s.eliminated) = init ++ [s]) :
    (replaceLast e ss).filter (fun s => !s.eliminated) = init ++ [{ s with expr := e }] := by
  obtain ⟨before, after, rfl, hafter, hs, hreplace⟩ := exists_replaceLast h
  have hnone : after.filter (fun s => !s.eliminated) = [] := by simpa using hafter
  rw [hreplace e]
  simp only [List.filter_append, List.filter_cons, hs, hnone, Bool.not_false, if_true] at h ⊢
  rw [List.append_cancel_right h]

theorem live_setLast (h : b.live = init ++ [s]) :
    (b.setLast e).live = init ++ [{ s with expr := e }] :=
  live_replaceLast h

/-- The last live statement is what the live statements end with. -/
theorem last?_eq_some_iff : b.last? = some e ↔ ∃ init s, b.live = init ++ [s] ∧ s.expr = e := by
  unfold last?
  constructor
  · intro h
    obtain ⟨s, hs, rfl⟩ := Option.map_eq_some_iff.mp h
    exact ⟨_, s, (List.dropLast_append_getLast? s hs).symm, rfl⟩
  · rintro ⟨init, s, h, rfl⟩
    rw [h, List.getLast?_concat]
    rfl

/-- The conditional jump of a block is its last live statement. -/
theorem branch?_eq_some_iff {condition : Expr} {target : Nat} :
    b.branch? = some (.jumpIf condition target) ↔ b.last? = some (.jumpIf condition target) := by
  unfold branch?
  split
  · rename_i heq
    rw [heq]
  · rename_i hne
    constructor
    · intro h
      cases h
    · intro h
      exact absurd h (hne condition target)

end Block

namespace Structuring

variable {g g' : Graph} {p done : Plan}

/-! ## Nested blocks -/

@[simp] theorem toBlockHead_asBody (g : Graph) (b : Block) :
    (asBody g b).toBlockHead = b.toBlockHead := by
  unfold asBody
  split
  · rfl
  · split <;> rfl

@[simp] theorem toBlockHead_nest (b : Block) (condition : Expr) (body : Block) (negated : Bool)
    (taken : Option Nat) : (nest b condition body negated taken).toBlockHead = b.toBlockHead := by
  unfold nest
  cases negated with
  | false => rfl
  | true => cases taken <;> rfl

/-- Where the taken target of a block starts. -/
def takenStart? (g : Graph) (b : Block) : Option Nat :=
  (b.taken?.bind g.block?).map fun c => c.start

/-- A block of a graph with everything that a plan moves into it. -/
inductive Nested (g : Graph) (p : Plan) : Nat → Block → Prop
  | leaf {i : Nat} {b : Block} (hb : g.block? i = some b) (hfree : ∀ a ∈ p, a.owner ≠ i) :
    Nested g p i b
  | node {a : Absorption} {b c : Block} {condition : Expr} {target : Nat} (ha : a ∈ p)
    (hb : g.block? a.owner = some b) (hbranch : b.branch? = some (.jumpIf condition target))
    (hbody : Nested g p a.child c) :
    Nested g p a.owner (nest b condition (asBody g c) a.negated (takenStart? g b))

/-- Nesting keeps the head of a block. -/
theorem Nested.head {i : Nat} {b' : Block} (h : Nested g p i b') :
    ∃ b, g.block? i = some b ∧ b'.toBlockHead = b.toBlockHead := by
  cases h with
  | leaf hb _ => exact ⟨b', hb, rfl⟩
  | node _ hb _ _ => exact ⟨_, hb, toBlockHead_nest _ _ _ _ _⟩

/-! ## One absorption after the other -/

/-- The blocks of two graphs start alike. -/
def StartsAlike (g g' : Graph) : Prop :=
  ∀ i : Nat, (g'.block? i).map (fun b => b.start) = (g.block? i).map fun b => b.start

/-- Where a block runs on depends on where blocks start. -/
theorem resume?_congr (h : StartsAlike g g') (b : Block) : resume? g' b = resume? g b := by
  unfold resume?
  cases b.kind with
  | fallthrough =>
    cases hs : b.successors[0]? with
    | none => rfl
    | some i => exact h i
  | branch =>
    cases hs : b.successors[1]? with
    | none => rfl
    | some i => exact h i
  | jump => rfl
  | exit => rfl

/-- What a block becomes as a body depends on where blocks start. -/
theorem asBody_congr (h : StartsAlike g g') (b : Block) : asBody g' b = asBody g b := by
  unfold asBody
  rw [resume?_congr h]

theorem takenStart?_congr (h : StartsAlike g g') (b : Block) :
    takenStart? g' b = takenStart? g b := by
  unfold takenStart?
  cases b.taken? with
  | none => rfl
  | some i => exact h i

/-- What a graph has become after some absorptions of a plan. -/
structure Carried (g : Graph) (p done : Plan) (g' : Graph) : Prop where
  starts : StartsAlike g g'
  gone : ∀ a ∈ done, g'.block? a.child = (g.block? a.child).map vacate
  grown : ∀ a ∈ done, (∀ x ∈ done, x.child ≠ a.owner) →
    ∃ b, g'.block? a.owner = some b ∧ Nested g p a.owner b
  same : ∀ i, (∀ x ∈ done, x.owner ≠ i) → (∀ x ∈ done, x.child ≠ i) → g'.block? i = g.block? i

/-- Before the first absorption nothing was carried out. -/
theorem Carried.nil : Carried g p [] g where
  starts _ := rfl
  gone _ ha := nomatch ha
  grown _ ha := nomatch ha
  same _ _ _ := rfl

/-- A block that is not absorbed yet, and owns nothing that is still to be absorbed, is nested. -/
theorem Carried.nested (h : Carried g p done g') {i : Nat} {b : Block} (hb : g.block? i = some b)
    (hfree : ∀ x ∈ done, x.child ≠ i) (hinner : ∀ x ∈ p, x.owner = i → x ∈ done) :
    ∃ b', g'.block? i = some b' ∧ Nested g p i b' := by
  by_cases howner : ∃ x ∈ done, x.owner = i
  · obtain ⟨x, hx, rfl⟩ := howner
    exact h.grown x hx hfree
  · have hnone : ∀ x ∈ done, x.owner ≠ i := fun x hx ho => howner ⟨x, hx, ho⟩
    refine ⟨b, (h.same i hnone hfree).trans hb, .leaf hb fun x hx ho => ?_⟩
    exact hnone x (hinner x hx ho) ho

theorem vacate_eq {b c : Block} (h : c.toBlockHead = b.toBlockHead) : vacate c = vacate b := by
  unfold vacate
  rw [h]

/-- The graph after one absorption, when the owner still ends in its conditional jump. -/
theorem graph_absorb {ctx : Context} {a : Absorption} {b c : Block} {condition : Expr}
    {target : Nat} (hchild : ctx.graph.block? a.child = some c)
    (howner : ctx.graph.block? a.owner = some b) (hne : a.child ≠ a.owner)
    (hbranch : b.branch? = some (.jumpIf condition target)) :
    (absorb ctx a).graph = (ctx.graph.modify a.child vacate).modify a.owner fun x =>
      nest x condition (asBody ctx.graph c) a.negated
        (takenStart? (ctx.graph.modify a.child vacate) b) := by
  have howner' : (ctx.graph.modify a.child vacate).block? a.owner = some b := by
    rw [Graph.block?_modify_of_ne _ _ hne, howner]
  unfold absorb
  simp only [hchild, howner', Option.bind_some, hbranch]
  rfl

/-- Absorbing one more block, after all that lies inside it. -/
theorem Carried.absorb {ctx : Context} (h : Carried g p done ctx.graph) (hp : Grows g p)
    (hdone : InsideOut p done) {a : Absorption} (ha : a ∈ p) (hnew : a ∉ done)
    (hinner : ∀ b ∈ p, b.owner = a.child → b ∈ done) :
    Carried g p (done ++ [a]) (absorb ctx a).graph := by
  obtain ⟨b, c, hfits⟩ := hp.fits a ha
  obtain ⟨condition, target, hbranch⟩ := hfits.branch
  have howner := hdone.owner_ne hp.forest ha hnew
  have hchild := hdone.child_ne hp.forest ha hnew
  have houter := hdone.child_ne_owner ha hnew
  obtain ⟨c', hc', hnested⟩ := h.nested hfits.child hchild hinner
  have hb := (h.same a.owner howner houter).trans hfits.owner
  have hvacated : StartsAlike ctx.graph (ctx.graph.modify a.child vacate) := by
    intro i
    rw [Graph.block?_modify]
    cases ctx.graph.block? i with
    | none => rfl
    | some x =>
      simp only [Option.map_some, Option.some.injEq]
      split <;> rfl
  have hstarts : StartsAlike g (ctx.graph.modify a.child vacate) := fun i =>
    (hvacated i).trans (h.starts i)
  have hgraph := graph_absorb hc' hb hfits.ne_owner hbranch
  rw [takenStart?_congr hstarts, asBody_congr h.starts] at hgraph
  have hlook : ∀ i : Nat, (Structuring.absorb ctx a).graph.block? i =
      if i = a.owner then some (nest b condition (asBody g c') a.negated (takenStart? g b))
      else if i = a.child then some (vacate c') else ctx.graph.block? i := by
    intro i
    rw [hgraph, Graph.block?_modify, Graph.block?_modify]
    by_cases ho : i = a.owner
    · subst ho
      simp [hb, hfits.ne_owner.symm]
    · by_cases hc : i = a.child
      · subst hc
        simp [ho, hc']
      · simp [ho, hc]
  obtain ⟨c₀, hc₀, hhead⟩ := hnested.head
  constructor
  · intro i
    rw [hgraph, Graph.block?_modify, ← hstarts i]
    cases (ctx.graph.modify a.child vacate).block? i with
    | none => rfl
    | some x =>
      simp only [Option.map_some, Option.some.injEq]
      split
      · exact congrArg BlockHead.start (toBlockHead_nest _ _ _ _ _)
      · rfl
  · intro x hx
    rcases List.mem_append.mp hx with hx | hx
    · rw [hlook, if_neg (houter x hx), if_neg (hchild x hx)]
      exact h.gone x hx
    · cases List.mem_singleton.mp hx
      rw [hlook, if_neg hfits.ne_owner, if_pos rfl, hc₀, vacate_eq hhead]
      rfl
  · intro x hx hfree
    rcases List.mem_append.mp hx with hx | hx
    · have hxa : a.child ≠ x.owner := hfree a (List.mem_append_right _ List.mem_cons_self)
      rw [hlook, if_neg (howner x hx), if_neg hxa.symm]
      exact h.grown x hx fun y hy => hfree y (List.mem_append_left _ hy)
    · cases List.mem_singleton.mp hx
      rw [hlook, if_pos rfl]
      exact ⟨_, rfl, .node ha hfits.owner hbranch hnested⟩
  · intro i howns hfree
    have hi : a.owner ≠ i := howns a (List.mem_append_right _ List.mem_cons_self)
    have hi' : a.child ≠ i := hfree a (List.mem_append_right _ List.mem_cons_self)
    rw [hlook, if_neg hi.symm, if_neg hi'.symm]
    exact h.same i (fun x hx => howns x (List.mem_append_left _ hx))
      fun x hx => hfree x (List.mem_append_left _ hx)

/-- Absorptions from the inside out are carried out one by one: the body of each is finished before
it moves. -/
theorem carried_foldl (ctx : Context) (hp : Grows ctx.graph p) (hdone : InsideOut p done) :
    Carried ctx.graph p done (done.foldl absorb ctx).graph := by
  induction hdone with
  | nil => exact .nil
  | snoc hdone ha hnew hinner ih =>
    rw [List.foldl_append]
    exact ih.absorb hp hdone ha hnew hinner

/-! ## The structured graph -/

/-- The states that planning notes change nothing that a plan is about. -/
theorem Grows.markBlocks (h : Grows g p) (q : Plan) : Grows (markBlocks q g) p where
  forest := h.forest
  fits a ha := by
    obtain ⟨b, c, hfits⟩ := h.fits a ha
    refine ⟨{ b with state := plannedState q b }, { c with state := plannedState q c }, ?_, ?_,
      hfits.branch, hfits.edges, hfits.predecessors, hfits.ne_entry, hfits.ne_owner⟩
    · have := hfits.owner
      simp_all [Structuring.markBlocks, Graph.block?]
    · have := hfits.child
      simp_all [Structuring.markBlocks, Graph.block?]

theorem refines_markBlocks (q : Plan) (g : Graph) : g.Refines (markBlocks q g) := by
  unfold Graph.Refines markBlocks
  rw [List.forall₂_map_right_iff, List.forall₂_same]
  exact fun b _ => ⟨rfl, List.forall₂_same.mpr fun s _ => .refl s⟩

/-- What structuring makes of a graph: absorbed blocks are empty, and the others hold what was
moved into them. -/
structure Structured (g : Graph) (p : Plan) (g' : Graph) : Prop where
  grows : Grows g p
  starts : StartsAlike g g'
  gone : ∀ a ∈ p, g'.block? a.child = (g.block? a.child).map vacate
  nested : ∀ {i b}, g.block? i = some b → (∀ a ∈ p, a.child ≠ i) →
    ∃ b', g'.block? i = some b' ∧ Nested g p i b'

/-- The blocks of a structured graph: either moved away, or with what was moved into them. -/
theorem Structured.cases (h : Structured g p g') {k : Nat} {b' : Block}
    (hb' : g'.block? k = some b') : ∃ b, g.block? k = some b ∧
      ((∃ a ∈ p, a.child = k) ∧ b' = vacate b ∨ (∀ a ∈ p, a.child ≠ k) ∧ Nested g p k b') := by
  have hstart := h.starts k
  rw [hb'] at hstart
  obtain ⟨b, hb, -⟩ := Option.map_eq_some_iff.mp hstart.symm
  refine ⟨b, hb, ?_⟩
  by_cases hmoved : ∃ a ∈ p, a.child = k
  · obtain ⟨a, ha, rfl⟩ := hmoved
    have hgone := h.gone a ha
    rw [hb, hb'] at hgone
    exact .inl ⟨⟨a, ha, rfl⟩, Option.some.inj hgone⟩
  · have hfree : ∀ a ∈ p, a.child ≠ k := fun a ha hc => hmoved ⟨a, ha, hc⟩
    obtain ⟨c, hc, hnested⟩ := h.nested hb hfree
    cases hc.symm.trans hb'
    exact .inr ⟨hfree, hnested⟩

/-- Structuring carries out its plan, if there is anything to do. -/
theorem structureBranches_eq (ctx : Context) : ctx.structureBranches.1 =
    (order (plan ctx.graph) ctx.graph).foldl absorb
      { ctx with graph := markBlocks (plan ctx.graph) ctx.graph } := by
  dsimp only [Context.structureBranches]
  split
  · rename_i hempty
    rw [List.isEmpty_iff] at hempty
    have horder : order [] ctx.graph = [] := List.foldl_fixed' (fun _ => rfl) _
    rw [hempty, horder]
    rfl
  · rfl

/-- Structuring carries out its plan: all absorbed blocks are nested, and the others have their
bodies in them. -/
theorem structured_structureBranches (ctx : Context) (hg : ctx.graph.Numbered) :
    Structured (markBlocks (plan ctx.graph) ctx.graph) (plan ctx.graph)
      ctx.structureBranches.1.graph := by
  have hgrows := grows_plan hg
  have hmarked := hgrows.markBlocks (plan ctx.graph)
  obtain ⟨hordered, hall⟩ := insideOut_order hgrows hg
  have hcarried := carried_foldl { ctx with graph := markBlocks (plan ctx.graph) ctx.graph }
    hmarked hordered
  rw [← structureBranches_eq] at hcarried
  refine ⟨hmarked, hcarried.starts, fun a ha => hcarried.gone a (hall a ha), fun hb hfree => ?_⟩
  exact hcarried.nested hb (fun x hx => hfree x (hordered.subset x hx)) fun x hx _ => hall x hx

end Structuring

end MethodLift
