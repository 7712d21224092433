import Mathlib.Logic.Function.Iterate
import MethodLift.Pass.LabelCount
import MethodLift.Proofs.Block.Assignments
import MethodLift.Proofs.Block.Execution
import MethodLift.Proofs.Expr.Evaluation

/-!
# Running graphs on machines

A machine gives statements their meaning: the state is an environment together with what was noted
so far. `Graph.Shows` says what history a run from the entry makes, step by step as in
`Graph.advance`, where a jump that is taken leaves its block at once.

The walk that a run takes follows the edges of the graph as long as jumps stand at the ends of their
blocks and lead along edges, `Graph.JumpsLast`. In a block that was cut in the middle of a jump and
the code behind it, a jump may leave before definitions that other blocks rely on.
-/

namespace MethodLift

variable {V : Type}

/-- What statements do to the environment and to the log. -/
def Machine.meaning (m : Machine V) : Meaning (Env V × Log V) where
  act e s := (((m.exec s.1 e).run s.2).1.2, ((m.exec s.1 e).run s.2).2)
  test condition s := ((m.takes s.1 condition).run s.2).1
  after condition s := (s.1, ((m.takes s.1 condition).run s.2).2)

/-- What is left of a block when some of its statements are still to be done. -/
def BlockHead.rest (b : BlockHead) (es : List Expr) : List Task := es.map .run ++ [b.ending]

/-- At its start nothing of a block is done. -/
theorem Block.tasks_eq (b : Block) : b.tasks = b.rest b.code := by
  rw [tasks, BlockHead.rest, code, List.map_map]
  rfl

@[simp] theorem BlockHead.isEmpty_rest (b : BlockHead) (es : List Expr) :
    (b.rest es).isEmpty = false := by
  cases es <;> rfl

/-- When each step is matched by some number of steps, so is every number of steps. -/
theorem exists_iterate {α β : Type} {f : α → α} {f' : β → β} {R : α → β → Prop}
    (hstep : ∀ a b, R a b → ∃ k, R (f a) (f'^[k] b)) (n : Nat) {a : α} {b : β} (h : R a b) :
    ∃ k, R (f^[n] a) (f'^[k] b) := by
  induction n generalizing a b with
  | zero => exact ⟨0, h⟩
  | succ n ih =>
    obtain ⟨k, hk⟩ := hstep a b h
    obtain ⟨l, hl⟩ := ih hk
    refine ⟨l + k, ?_⟩
    rwa [Function.iterate_succ_apply, Function.iterate_add_apply]

namespace Graph

variable {g g' : Graph} {m : Machine V} {env : Env V} {h h' : History V} {ended : Bool}

/-! ## Histories -/

/-- The configuration after a number of steps from the entry on. -/
def after {σ : Type} (g : Graph) (M : Meaning σ) (start : σ) (n : Nat) : Config σ :=
  (g.advance M)^[n] ⟨g.resume 0, start⟩

/-- A run from the entry comes to a point where it has made a history; it may be over there. -/
def Shows (g : Graph) (m : Machine V) (env : Env V) (h : History V) (ended : Bool) : Prop :=
  ∃ n, (g.after m.meaning (env, {}) n).state.2.history = h ∧
    (g.after m.meaning (env, {}) n).tasks.isEmpty = ended

/-- What is shown is shown by every run that matches the steps. -/
theorem Shows.of_steps {R : Config (Env V × Log V) → Config (Env V × Log V) → Prop}
    (hsame : ∀ {c c'}, R c c' →
      c'.state.2.history = c.state.2.history ∧ c'.tasks.isEmpty = c.tasks.isEmpty)
    (hstep : ∀ c c', R c c' → ∃ k, R (g.advance m.meaning c) ((g'.advance m.meaning)^[k] c'))
    (hentry : R ⟨g.resume 0, (env, {})⟩ ⟨g'.resume 0, (env, {})⟩) (hg : g.Shows m env h ended) :
    g'.Shows m env h ended := by
  obtain ⟨n, rfl, rfl⟩ := hg
  obtain ⟨k, hk⟩ := exists_iterate hstep n hentry
  exact ⟨k, hsame hk⟩

/-- Nothing happens when a run is over. -/
theorem advance_of_ended {σ : Type} {M : Meaning σ} {c : Config σ} (hc : c.tasks.isEmpty = true) :
    g.advance M c = c := by
  obtain ⟨tasks, s⟩ := c
  cases List.isEmpty_iff.mp hc
  rfl

/-- A run that is over has made one history. -/
theorem Shows.unique (hg : g.Shows m env h true) (hg' : g.Shows m env h' true) : h = h' := by
  obtain ⟨n, hn, hended⟩ := hg
  obtain ⟨n', hn', hended'⟩ := hg'
  have hstay (k : Nat) {c : Config (Env V × Log V)} (hc : c.tasks.isEmpty = true) :
      (g.advance m.meaning)^[k] c = c :=
    Function.iterate_fixed (advance_of_ended hc) k
  rcases Nat.le_total n n' with hle | hle
  · obtain ⟨k, rfl⟩ := Nat.exists_eq_add_of_le' hle
    rw [after, Function.iterate_add_apply, ← after, hstay k hended] at hn'
    exact hn.symm.trans hn'
  · obtain ⟨k, rfl⟩ := Nat.exists_eq_add_of_le' hle
    rw [after, Function.iterate_add_apply, ← after, hstay k hended'] at hn
    exact hn.symm.trans hn'

/-! ## Where control goes in graphs with the same heads -/

/-- The block that a jump enters stands where its identity says. -/
theorem block?_of_entrance? (hg : g.Wired) {target : Nat} {b : Block}
    (hb : g.entrance? target = some b) : g.block? b.id = some b := by
  obtain ⟨i, hi⟩ := exists_block?_of_mem (List.mem_of_find?_eq_some hb)
  rwa [hg.id_eq hi]

theorem SameHeads.map_blocks (hs : g.SameHeads g') :
    g'.blocks.map (·.toBlockHead) = g.blocks.map (·.toBlockHead) := by
  apply List.ext_getElem?
  intro i
  rw [List.getElem?_map, List.getElem?_map]
  exact hs i

/-- A jump enters blocks with the same head where only statements differ. -/
theorem SameHeads.entrance?_eq (hs : g.SameHeads g') (target : Nat) :
    (g'.entrance? target).map (·.toBlockHead) = (g.entrance? target).map (·.toBlockHead) := by
  have hfind (g : Graph) : (g.entrance? target).map (·.toBlockHead) =
      (g.blocks.map (·.toBlockHead)).find? fun b => !b.ignored && b.start == target := by
    rw [List.find?_map]
    rfl
  rw [hfind, hfind, hs.map_blocks]

/-- A jump enters no block of either graph, or the same block of both. -/
theorem SameHeads.enter (hs : g.SameHeads g') (hg : g.Wired) (target : Nat) :
    (g.enter target = [] ∧ g'.enter target = []) ∨
      ∃ b b', g.entrance? target = some b ∧ g.block? b.id = some b ∧ g'.block? b.id = some b' ∧
        g.enter target = b.tasks ∧ g'.enter target = b'.tasks := by
  have heq := hs.entrance?_eq target
  cases hb : g.entrance? target with
  | none =>
    rw [hb, Option.map_none, Option.map_eq_none_iff] at heq
    exact .inl ⟨by rw [Graph.enter, hb], by rw [Graph.enter, heq]⟩
  | some b =>
    rw [hb] at heq
    obtain ⟨b', hb', hhead⟩ := Option.map_eq_some_iff.mp heq
    have hblock' := block?_of_entrance? (hs.wired hg) hb'
    rw [show b'.id = b.id from congrArg BlockHead.id hhead] at hblock'
    exact .inr ⟨b, b', rfl, block?_of_entrance? hg hb, hblock', by rw [Graph.enter, hb],
      by rw [Graph.enter, hb']⟩

/-- No block is left to run into. -/
theorem resume_of_le {i : Nat} (hi : g.size ≤ i) : g.resume i = [] := by
  rw [resume, List.drop_eq_nil_of_le hi]
  rfl

/-! ## Walks of runs -/

/-- The jumps of blocks that can be reached end their blocks, and lead along an edge if they lead to
a block. -/
structure JumpsLast (g : Graph) : Prop where
  last : ∀ i ∈ g.reachable, ∀ e ∈ (g.code i).dropLast, LabelCount.target? e = none
  edge : ∀ i ∈ g.reachable, ∀ e ∈ g.code i, ∀ target ∈ LabelCount.target? e,
    ∀ b ∈ g.entrance? target, b.id ∈ g.successors i

instance (g : Graph) : Decidable g.JumpsLast :=
  decidable_of_iff
    ((∀ i ∈ g.reachable, ∀ e ∈ (g.code i).dropLast, LabelCount.target? e = none) ∧
      ∀ i ∈ g.reachable, ∀ e ∈ g.code i, ∀ target ∈ LabelCount.target? e,
        ∀ b ∈ g.entrance? target, b.id ∈ g.successors i)
    ⟨fun h => ⟨h.1, h.2⟩, fun h => ⟨h.last, h.edge⟩⟩

/-- What the heads of blocks say about running on: all blocks are written, and a block that runs on
has an edge to the next one. -/
structure InLine (g : Graph) : Prop where
  wired : g.Wired
  size_pos : 0 < g.size
  visible : ∀ {i b}, g.block? i = some b → b.ignored = false
  next : ∀ {i b}, g.block? i = some b → b.kind = .fallthrough ∨ b.kind = .branch →
    i + 1 < g.size → i + 1 ∈ b.successors

/-- Control leaves a block that can be reached along an edge. -/
structure Routed (g : Graph) : Prop extends InLine g where
  tidy : ∀ {i b}, g.block? i = some b → ∀ s ∈ b.statements, s.expr.Tidy
  jumps : g.JumpsLast

/-- Whether blocks stand in line is a matter of their heads. -/
theorem SameHeads.inLine (hs : g.SameHeads g') (hg : g.InLine) : g'.InLine where
  wired := hs.wired hg.wired
  size_pos := hs.size_eq ▸ hg.size_pos
  visible hb := by
    obtain ⟨b, hb, heq⟩ := hs.block? hb
    rw [heq]
    exact hg.visible hb
  next hb hk hi := by
    obtain ⟨b, hb, heq⟩ := hs.block? hb
    rw [heq] at hk ⊢
    exact hg.next hb hk (hs.size_eq ▸ hi)

/-- Statements of blocks that can be reached are tidy. -/
theorem Routed.tidy_of_mem (hg : g.Routed) {i : Nat} {e : Expr} (he : e ∈ g.code i) : e.Tidy := by
  obtain ⟨b, hb, he⟩ := exists_block?_of_mem_code he
  obtain ⟨s, hs, rfl⟩ := List.mem_map.mp he
  exact hg.tidy hb s (List.mem_of_mem_filter hs)

/-- Where walks arrive can be reached. -/
theorem Walk.mem_reachable {path : List BlockId} {i : BlockId} (hwalk : g.Walk path i)
    (hg : g.Wired) (hpos : 0 < g.size) : i ∈ g.reachable := by
  induction hwalk with
  | entry => exact g.zero_mem_reachable hpos
  | step _ hj ih => exact reachable_closed hg ih hj

/-- Laid out code is in line. -/
theorem Laid.inLine {code : List Instruction} (hg : Laid code g) : g.InLine where
  wired := hg.wired
  size_pos := hg.size_pos
  visible hb := (hg.placed hb).ignored_eq
  next {i b} hb hk hi := by
    obtain ⟨last, -, hkind, hleaves⟩ := (hg.placed hb).last
    have hmem : i + 1 ∈ g.next i := by
      rw [Graph.next, if_pos hi]
      exact List.mem_singleton_self _
    unfold Leaves at hleaves
    rw [← hkind] at hleaves
    rcases hk with hk | hk
    · rw [hk] at hleaves
      rw [hleaves]
      exact hmem
    · rw [hk] at hleaves
      obtain ⟨j, c, -, -, hsucc⟩ := hleaves
      rw [hsucc]
      exact mem_foldl_appendNew.mpr (.inr hmem)

/-- At most one statement of a block of a flat graph jumps, the last one, and it leads along an
edge. -/
theorem Closes.exists_last {b : Block} (hclose : g.Closes b) :
    ∃ init rest : List Expr, b.code = init ++ rest ∧ rest.length ≤ 1 ∧
      (∀ e ∈ init, LabelCount.target? e = none) ∧ ∀ e ∈ rest, ∀ target ∈ LabelCount.target? e,
        ∃ j ∈ b.successors, ∃ c, g.block? j = some c ∧ c.start = target := by
  have hplain {init : List Statement} (hinit : ∀ x ∈ init, x.expr.Plain) :
      ∀ e ∈ init.map (·.expr), LabelCount.target? e = none := by
    intro e he
    obtain ⟨s, hs, rfl⟩ := List.mem_map.mp he
    have hc := (hinit s hs).isControl_eq
    generalize s.expr = e at hc
    cases e <;> first | rfl | cases hc
  have hcode {init : List Statement} {s : Statement} (hlive : b.live = init ++ [s]) :
      b.code = init.map (·.expr) ++ [s.expr] := by
    rw [Block.code, hlive, List.map_append, List.map_singleton]
  cases hclose with
  | quiet hlive _ => exact ⟨b.code, [], (List.append_nil _).symm, by simp, hplain hlive, by simp⟩
  | @leave init s hlive hinit hs _ =>
    refine ⟨_, _, hcode hlive, Nat.le_refl 1, hplain hinit, List.forall_mem_singleton.mpr ?_⟩
    rcases Expr.eq_of_control_leave hs with ⟨value, heq⟩ | heq <;> rw [heq] <;> rintro _ ⟨⟩
  | @jump init s j c hlive hinit hs _ hc hj =>
    refine ⟨_, _, hcode hlive, Nat.le_refl 1, hplain hinit, List.forall_mem_singleton.mpr ?_⟩
    rw [hs]
    rintro _ ⟨⟩
    exact ⟨j, hj ▸ List.mem_singleton_self j, c, hc, rfl⟩
  | @branch init s condition j c hlive hinit hs _ _ hc hj =>
    refine ⟨_, _, hcode hlive, Nat.le_refl 1, hplain hinit, List.forall_mem_singleton.mpr ?_⟩
    rw [hs]
    rintro _ ⟨⟩
    exact ⟨j, hj ▸ mem_foldl_appendNew.mpr (.inl List.mem_cons_self), c, hc, rfl⟩

/-- In a flat graph, jumps end their blocks and lead along edges. -/
theorem Flat.jumpsLast (hg : g.Flat) : g.JumpsLast := by
  constructor
  case last =>
    intro i _ e he
    have hmem := List.dropLast_subset _ he
    obtain ⟨b, hb, -⟩ := exists_block?_of_mem_code hmem
    obtain ⟨init, rest, hcode, hlength, hinit, -⟩ := (hg.closes hb).exists_last
    rw [code_eq hb, hcode] at he
    cases rest with
    | nil =>
      rw [List.append_nil] at he
      exact hinit e (List.dropLast_subset _ he)
    | cons x xs =>
      cases List.length_eq_zero_iff.mp (Nat.le_zero.mp (Nat.le_of_succ_le_succ hlength))
      rw [List.dropLast_concat] at he
      exact hinit e he
  case edge =>
    intro i _ e he target ht d hd
    obtain ⟨b, hb, he⟩ := exists_block?_of_mem_code he
    obtain ⟨init, rest, hcode, -, hinit, hrest⟩ := (hg.closes hb).exists_last
    rw [hcode] at he
    rcases List.mem_append.mp he with he | he
    · rw [hinit e he] at ht
      cases ht
    · obtain ⟨j, hj, c, hc, rfl⟩ := hrest e he target ht
      have hstart := List.find?_some hd
      rw [Bool.and_eq_true, beq_iff_eq] at hstart
      rw [hg.start_injective (block?_of_entrance? hg.wired hd) hc hstart.2, successors, hb]
      exact hj

end Graph

end MethodLift
