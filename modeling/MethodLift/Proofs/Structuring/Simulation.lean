import MethodLift.Proofs.Block.Execution
import MethodLift.Proofs.Pass.Rewriting
import MethodLift.Proofs.Structuring.Edges

/-!
# Structuring keeps the execution

The graphs before and after structuring are executed side by side. While the one is inside a block,
the other is inside the same block, wherever it was moved to: `Mirrors g p b rest tasks` says that
`tasks` do what the statements `rest` at the end of the block `b` and its ending would do. A negated
conditional is the only place where the two take different numbers of steps.
-/

namespace MethodLift

namespace Structuring

variable {g g' : Graph} {p : Plan}

/-! ## Full graphs -/

/-- Blocks that run on have a next block, and conditional jumps two different targets. -/
structure Full (g : Graph) : Prop where
  branch : ∀ {i b}, g.block? i = some b → b.kind = .branch → b.successors.length = 2
  fallthrough : ∀ {i b}, g.block? i = some b → b.kind = .fallthrough → b.successors.length = 1

/-- A block that runs on runs into the next one. -/
theorem Full.resume? (h : Full g) (hg : g.Flat) {i : Nat} {b : Block} (hb : g.block? i = some b)
    (hk : b.kind = .fallthrough ∨ b.kind = .branch) :
    ∃ d, g.block? (i + 1) = some d ∧ i + 1 ∈ b.successors ∧ resume? g b = some d.start := by
  rcases hk with hk | hk
  · have hexits := hg.exits hb
    unfold Graph.Exits at hexits
    rw [hk] at hexits
    have hone := h.fallthrough hb hk
    have hsucc := hexits.1
    unfold Graph.next at hsucc
    split at hsucc
    · rename_i hlt
      obtain ⟨d, hd⟩ := Graph.exists_block? hlt
      refine ⟨d, hd, by simp [hsucc], ?_⟩
      simp [Structuring.resume?, hk, hsucc, hd]
    · rw [hsucc] at hone
      cases hone
  · have hexits := hg.exits hb
    unfold Graph.Exits at hexits
    rw [hk] at hexits
    obtain ⟨j, -, -, hsucc, -⟩ := hexits
    have hlt : 1 < b.successors.length := by
      rw [h.branch hb hk]
      exact Nat.one_lt_two
    obtain ⟨-, hsize, -, hsucc⟩ := edges_of_branch hsucc (List.getElem?_eq_getElem hlt)
    obtain ⟨d, hd⟩ := Graph.exists_block? hsize
    refine ⟨d, hd, by simp [hsucc], ?_⟩
    simp [Structuring.resume?, hk, hsucc, hd]

/-! ## The relation -/

/-- Tasks that do what the rest of a block and its ending would do. -/
inductive Mirrors (g : Graph) (p : Plan) : Block → List Statement → List Task → Prop
  | step {b : Block} {s : Statement} {rest : List Statement} {tasks : List Task}
    (hs : s.expr.Plain) (h : Mirrors g p b rest tasks) :
    Mirrors g p b (s :: rest) (.run s.expr :: tasks)
  | jump {b : Block} {s : Statement} {target : Nat} {tasks : List Task}
    (hs : s.expr = .jump target) (h : Lands g p target) :
    Mirrors g p b [s] (.run (.jump target) :: tasks)
  | leave {b : Block} {s : Statement} {tasks : List Task} (hs : s.expr.control = .leave) :
    Mirrors g p b [s] (.run s.expr :: tasks)
  | branch {b : Block} {s : Statement} {condition : Expr} {target : Nat} {tasks : List Task}
    (hs : s.expr = .jumpIf condition target) (ht : Lands g p target) (h : Mirrors g p b [] tasks) :
    Mirrors g p b [s] (.run (.jumpIf condition target) :: tasks)
  /-- The taken target is the body. -/
  | taken {b c : Block} {k : Nat} {s : Statement} {condition : Expr} {head : BlockHead}
    {body : List Statement} {tasks : List Task} (hs : s.expr = .jumpIf condition c.start)
    (hc : g.block? k = some c) (hbody : Mirrors g p c c.live (head.bodyTasks body ++ tasks))
    (h : Mirrors g p b [] tasks) :
    Mirrors g p b [s] (.run (.guarded condition head body) :: tasks)
  /-- The next block is the body, and a jump leads to the taken target. -/
  | next {b c : Block} {s : Statement} {condition : Expr} {target : Nat} {head : BlockHead}
    {body : List Statement} {tasks : List Task} (hs : s.expr = .jumpIf condition target)
    (ht : Lands g p target) (hb : b.ending = .fall (b.id + 1)) (hc : g.block? (b.id + 1) = some c)
    (hbody : Mirrors g p c c.live (head.bodyTasks body ++ .run (.jump target) :: tasks)) :
    Mirrors g p b [s]
      (.run (.guarded (negate condition) head body) :: .run (.jump target) :: tasks)
  | fall {b c : Block} (hb : b.ending = .fall (b.id + 1)) (hc : g.block? (b.id + 1) = some c)
    (hfree : ∀ a ∈ p, a.child ≠ b.id + 1) : Mirrors g p b [] [.fall (b.id + 1)]
  | goto {b c : Block} {tasks : List Task} (hb : b.ending = .fall (b.id + 1))
    (hc : g.block? (b.id + 1) = some c) (hfree : ∀ a ∈ p, a.child ≠ b.id + 1) :
    Mirrors g p b [] (.run (.jump c.start) :: tasks)
  | halt {b : Block} {tasks : List Task} (hb : b.ending = .halt) :
    Mirrors g p b [] (.halt :: tasks)

/-- Plain statements in front are executed alike. -/
theorem Mirrors.append {b : Block} {init rest : List Statement} {tasks : List Task}
    (hinit : ∀ s ∈ init, s.expr.Plain) (h : Mirrors g p b rest tasks) :
    Mirrors g p b (init ++ rest) (init.map (fun s => .run s.expr) ++ tasks) := by
  induction init with
  | nil => exact h
  | cons s init ih =>
    obtain ⟨hs, hinit⟩ := List.forall_mem_cons.mp hinit
    exact .step hs (ih hinit)

/-! ## Nested blocks mirror the blocks they come from -/

/-- A block that absorbs nothing, followed by tasks for its ending. -/
theorem mirrors_leaf (hg : g.Flat) (hp : Grows g p) {i : Nat} {b : Block}
    (hb : g.block? i = some b) (hfree : ∀ a ∈ p, a.owner ≠ i) {tasks : List Task}
    (htasks : b.endsInJump = false → Mirrors g p b [] tasks) :
    Mirrors g p b b.live (Task.ofStatements b.statements ++ tasks) := by
  change Mirrors g p b b.live (b.live.map (fun s => .run s.expr) ++ tasks)
  cases hg.closes hb with
  | quiet hlive _ =>
    have := Mirrors.append hlive (htasks (endsInJump_of_plain hlive))
    rwa [List.append_nil] at this
  | leave hlive hinit hs _ =>
    rw [hlive, List.map_append, List.append_assoc]
    exact .append hinit (.leave hs)
  | jump hlive hinit hs _ hc hj =>
    rw [hlive, List.map_append, List.append_assoc, List.map_singleton, hs]
    exact .append hinit (.jump hs (hp.lands hg.wired hb hfree (by simp [hj]) hc))
  | branch hlive hinit hs _ _ hc hj =>
    have hends : b.endsInJump = false := by rw [endsInJump_of_last hlive, hs]
    rw [hlive, List.map_append, List.append_assoc, List.map_singleton, hs]
    have hmem : _ ∈ b.successors := hj ▸ mem_foldl_appendNew.mpr (.inl List.mem_cons_self)
    exact .append hinit (.branch hs (hp.lands hg.wired hb hfree hmem hc) (htasks hends))

/-- At the end of a block that does not jump, control falls through to the next one. -/
theorem ending_of_kind {b : Block} (h : b.kind = .fallthrough ∨ b.kind = .branch) :
    b.ending = .fall (b.id + 1) := by
  unfold BlockHead.ending
  rcases h with h | h <;> rw [h]

/-- What follows a nested block that runs on was not moved. -/
theorem Nested.free_next (hg : g.Flat) (hfull : Full g) (hp : Grows g p) {i : Nat} {b b' : Block}
    (h : Nested g p i b') (hb : g.block? i = some b)
    (hk : b.kind = .fallthrough ∨ b.kind = .branch) (hends : b'.endsInJump = false) :
    ∀ a ∈ p, a.child ≠ i + 1 := by
  obtain ⟨d, hd, hmem, hresume⟩ := hfull.resume? hg hb hk
  obtain ⟨j, e, he, hstart, hj⟩ := h.lands_resume hg hp hb hends hresume
  rwa [hg.start_injective he hd hstart] at hj

/-- A block that mirrors its original before tasks for its ending does so as a body as well,
whatever follows the conditional. -/
theorem mirrors_body (hg : g.Flat) (hfull : Full g) (hp : Grows g p) {i : Nat} {b b' : Block}
    (h : Nested g p i b') (hb : g.block? i = some b)
    (hmirrors : ∀ {tasks}, (b'.endsInJump = false → Mirrors g p b [] tasks) →
      Mirrors g p b b.live (Task.ofStatements b'.statements ++ tasks)) (tasks : List Task) :
    Mirrors g p b b.live
      ((asBody g b').toBlockHead.bodyTasks (asBody g b').statements ++ tasks) := by
  obtain ⟨b₀, hb₀, hhead⟩ := h.head
  cases hb₀.symm.trans hb
  have hid := hg.wired.id_eq hb
  unfold BlockHead.bodyTasks
  rw [toBlockHead_asBody, List.append_assoc]
  cases hends : b'.endsInJump with
  | true =>
    rw [asBody, if_pos hends]
    exact hmirrors fun h => absurd (hends.symm.trans h) (by simp)
  | false =>
    by_cases hk : b.kind = .fallthrough ∨ b.kind = .branch
    · -- the body runs on, by a jump that is added to it
      obtain ⟨d, hd, -, hresume⟩ := hfull.resume? hg hb hk
      have hresume' : Structuring.resume? g b' = some d.start := by
        rw [← hresume, Structuring.resume?, Structuring.resume?, hhead]
      have hstatements : Task.ofStatements (asBody g b').statements =
          Task.ofStatements b'.statements ++ [.run (.jump d.start)] := by
        rw [asBody, hends, if_neg Bool.false_ne_true, hresume']
        simp [Block.append, Task.ofStatements]
      rw [hstatements, List.append_assoc]
      refine hmirrors fun _ => .goto (ending_of_kind hk) (hid ▸ hd) ?_
      rw [hid]
      exact h.free_next hg hfull hp hb hk hends
    · have hexit : b.kind = .exit := by
        cases hkind : b.kind with
        | exit => rfl
        | jump => exact absurd (h.endsInJump_of_jump hg hp hb hkind) (by simp [hends])
        | fallthrough => exact absurd (.inl hkind) hk
        | branch => exact absurd (.inr hkind) hk
      have hbody : asBody g b' = b' := by
        rw [asBody, hends, if_neg Bool.false_ne_true]
        simp [Structuring.resume?, hhead, hexit]
      rw [hbody, hhead, if_pos hexit]
      exact hmirrors fun _ => .halt (by simp [BlockHead.ending, hexit])

/-- A nested block, followed by tasks for its ending. -/
theorem mirrors_nested (hg : g.Flat) (hfull : Full g) (hp : Grows g p) {i : Nat} {b b' : Block}
    (h : Nested g p i b') (hb : g.block? i = some b) {tasks : List Task}
    (htasks : b'.endsInJump = false → Mirrors g p b [] tasks) :
    Mirrors g p b b.live (Task.ofStatements b'.statements ++ tasks) := by
  induction h generalizing b tasks with
  | leaf hb' hfree =>
    cases hb'.symm.trans hb
    exact mirrors_leaf hg hp hb hfree htasks
  | @node a b₀ c condition target ha hb₀ hbranch hbody ih =>
    cases hb₀.symm.trans hb
    obtain ⟨d, j, init, s, hsplits⟩ := hp.splits hg ha hb hbranch
    obtain ⟨c₀, hc₀, -⟩ := hbody.head
    have hmirrors := mirrors_body hg hfull hp hbody hc₀ (ih hc₀)
    have hlive := hsplits.live_nest (asBody g c)
    have hends := hsplits.endsInJump_nest (asBody g c)
    have hid := hg.wired.id_eq hb
    generalize nest b₀ condition (asBody g c) a.negated (takenStart? g b₀) = b' at *
    change Mirrors g p b₀ b₀.live (b'.live.map (fun s => .run s.expr) ++ tasks)
    rw [hlive, hsplits.live, List.map_append, List.append_assoc]
    refine .append hsplits.plain ?_
    have hchild := hsplits.child
    cases hn : a.negated with
    | false =>
      rw [hn] at hchild hends
      rw [Absorption.test, hn]
      rw [hchild] at hc₀
      cases hc₀.symm.trans hsplits.taken
      exact .taken hsplits.last hc₀ (hmirrors tasks) (htasks hends)
    | true =>
      rw [hn, if_pos rfl] at hchild
      rw [Absorption.test, hn]
      have hland := hsplits.lands_taken hg.wired hp ha hb hn
      rw [hchild, ← hid] at hc₀
      exact .next hsplits.last hland (ending_of_kind (.inr hsplits.kind)) hc₀ (hmirrors _)

/-- A block that stays in the list of blocks is entered where it was entered before, and mirrors
what it was. -/
theorem Structured.enters (h : Structured g p g') (hg : g.Flat) (hfull : Full g) {k : Nat}
    {c : Block} (hc : g.block? k = some c) (hfree : ∀ a ∈ p, a.child ≠ k) :
    ∃ b : Block, g'.enter c.start = b.tasks ∧ g'.resume k = b.tasks ∧
      Mirrors g p c c.live b.tasks := by
  obtain ⟨b, hb, hnested⟩ := h.nested hc hfree
  obtain ⟨c₀, hc₀, hhead⟩ := hnested.head
  cases hc₀.symm.trans hc
  have hwritten : b.ignored = false := by
    rw [hhead]
    exact hg.visible hc
  have honly : ∀ {j d}, g'.block? j = some d → d.start = b.start → j = k := by
    intro j d hd hstart
    have halike := h.starts j
    rw [hd] at halike
    obtain ⟨d₀, hd₀, heq⟩ := Option.map_eq_some_iff.mp halike.symm
    exact hg.start_injective hd₀ hc (heq.trans (hstart.trans (congrArg BlockHead.start hhead)))
  have henter := Graph.enter_eq hb hwritten honly
  rw [hhead] at henter
  refine ⟨b, henter, Graph.resume_eq hb hwritten, ?_⟩
  have hid := hg.wired.id_eq hc
  unfold Block.tasks
  refine mirrors_nested hg hfull h.grows hnested hc fun hends => ?_
  rw [hhead]
  by_cases hk : c.kind = .fallthrough ∨ c.kind = .branch
  · obtain ⟨d, hd, -⟩ := hfull.resume? hg hc hk
    rw [ending_of_kind hk]
    refine .fall (ending_of_kind hk) (hid ▸ hd) ?_
    rw [hid]
    exact hnested.free_next hg hfull h.grows hc hk hends
  · have hhalt : c.ending = .halt := by
      unfold BlockHead.ending
      split
      · rename_i hkind
        exact absurd (.inl hkind) hk
      · rename_i hkind
        exact absurd (.inr hkind) hk
      · rfl
      · rfl
    rw [hhalt]
    exact .halt hhalt

/-! ## The simulation -/

/-- A negated condition is tested to the opposite. -/
theorem test_negate {σ : Type} {M : Meaning σ} (hM : M.Negates) (condition : Expr) (s : σ) :
    M.test (negate condition) s = !M.test condition s := by
  unfold negate
  split
  · split
    · rename_i opposite hopposite
      exact hM.compare hopposite
    · exact hM.complement _ s
  · rw [hM.complement, Bool.not_not]
  · exact hM.complement _ s

/-- Testing the opposite of a condition leaves the same state. -/
theorem after_negate {σ : Type} {M : Meaning σ} (hM : M.Negates) (condition : Expr) (s : σ) :
    M.after (negate condition) s = M.after condition s := by
  unfold negate
  split
  · split
    · rename_i opposite hopposite
      exact hM.after_compare hopposite
    · exact hM.after_complement _ s
  · exact (hM.after_complement _ s).symm
  · exact hM.after_complement _ s

/-- The executions are in the same block, or both are over. -/
def Alongside {σ : Type} (g : Graph) (p : Plan) (c c' : Config σ) : Prop :=
  c.state = c'.state ∧ ((c.tasks = [] ∧ c'.tasks = []) ∨ ∃ i b rest, g.block? i = some b ∧
    c.tasks = rest.map (fun s => .run s.expr) ++ [b.ending] ∧ Mirrors g p b rest c'.tasks)

/-- Executions are alongside at the start of a block. -/
theorem alongside_tasks {σ : Type} {i : Nat} {b : Block} (hb : g.block? i = some b)
    {tasks : List Task} (h : Mirrors g p b b.live tasks) (s : σ) :
    Alongside g p ⟨b.tasks, s⟩ ⟨tasks, s⟩ :=
  ⟨rfl, .inr ⟨i, b, b.live, hb, rfl, h⟩⟩

/-- Jumps that land on a block that was not moved keep the executions together. -/
theorem Structured.alongside_enter {σ : Type} (h : Structured g p g') (hg : g.Flat)
    (hfull : Full g) {target : Nat} (ht : Lands g p target) (s : σ) :
    Alongside g p ⟨g.enter target, s⟩ ⟨g'.enter target, s⟩ := by
  obtain ⟨k, c, hc, rfl, hfree⟩ := ht
  obtain ⟨b, henter, -, hmirrors⟩ := h.enters hg hfull hc hfree
  rw [henter, hg.enter_eq hc]
  exact alongside_tasks hc hmirrors s

/-- Structuring matches the execution step by step. -/
theorem Structured.matches {σ : Type} (h : Structured g p g') (hg : g.Flat) (hfull : Full g)
    {M : Meaning σ} (hM : M.Negates) : Graph.Matches g g' M (Alongside g p) := by
  rintro ⟨tasks, s⟩ ⟨tasks', _⟩ ⟨rfl, hover | ⟨i, b, rest, hb, rfl, hmirrors⟩⟩
  · exact .inl hover
  right
  cases hmirrors with
  | @step _ t rest tasks ht hrest =>
    refine ⟨_, _, _, g.leads_plain M ht _ s, g'.leads_plain M ht _ s, rfl, .inr ?_⟩
    exact ⟨i, b, rest, hb, rfl, hrest⟩
  | @jump _ t target tasks ht hland =>
    rw [List.map_singleton, ht]
    exact ⟨_, _, _, Graph.leads_advance _, Graph.leads_advance _,
      h.alongside_enter hg hfull hland s⟩
  | @leave _ t tasks ht =>
    exact ⟨_, _, _, g.leads_leave M ht _ s, g'.leads_leave M ht _ s, rfl, .inl ⟨rfl, rfl⟩⟩
  | @branch _ t condition target tasks ht hland hrest =>
    rw [List.map_singleton, ht]
    cases htest : M.test condition s with
    | true =>
      exact ⟨_, _, _, g.leads_taken htest _, g'.leads_taken htest _,
        h.alongside_enter hg hfull hland _⟩
    | false =>
      exact ⟨_, _, _, g.leads_not_taken htest _, g'.leads_not_taken htest _, rfl,
        .inr ⟨i, b, [], hb, rfl, hrest⟩⟩
  | @taken _ c k t condition head body tasks ht hc hbody hrest =>
    rw [List.map_singleton, ht]
    cases htest : M.test condition s with
    | true =>
      refine ⟨_, _, _, g.leads_taken htest _, g'.leads_body htest _, ?_⟩
      rw [hg.enter_eq hc]
      exact alongside_tasks hc hbody _
    | false =>
      exact ⟨_, _, _, g.leads_not_taken htest _, g'.leads_past_body htest _, rfl,
        .inr ⟨i, b, [], hb, rfl, hrest⟩⟩
  | @next _ c t condition target head body tasks ht hland hfall hc hbody =>
    rw [List.map_singleton, ht]
    have hnegated := test_negate hM condition s
    have hafter := after_negate hM condition s
    cases htest : M.test condition s with
    | true =>
      -- the structured side skips the body first and then jumps
      rw [htest] at hnegated
      refine ⟨_, _, _, g.leads_taken htest _,
        (g'.leads_past_body hnegated _).trans (Graph.leads_advance _), ?_⟩
      change Alongside g p _ ⟨g'.enter target, M.after (negate condition) s⟩
      rw [hafter]
      exact h.alongside_enter hg hfull hland _
    | false =>
      -- the flat side runs on into the block that the structured side enters at once
      rw [htest] at hnegated
      rw [hfall]
      refine ⟨_, _, _, (g.leads_not_taken htest _).trans (Graph.leads_advance _),
        g'.leads_body hnegated _, ?_⟩
      change Alongside g p ⟨g.resume (b.id + 1), M.after condition s⟩ _
      rw [Graph.resume_eq hc (hg.visible hc), hafter]
      exact alongside_tasks hc hbody _
  | @fall _ c hfall hc hfree =>
    obtain ⟨b', -, hresume, hmirrors⟩ := h.enters hg hfull hc hfree
    rw [hfall]
    refine ⟨_, _, _, Graph.leads_advance _, Graph.leads_advance _, ?_⟩
    change Alongside g p ⟨g.resume (b.id + 1), s⟩ ⟨g'.resume (b.id + 1), s⟩
    rw [hresume, Graph.resume_eq hc (hg.visible hc)]
    exact alongside_tasks hc hmirrors s
  | @goto _ c tasks hfall hc hfree =>
    obtain ⟨b', henter, -, hmirrors⟩ := h.enters hg hfull hc hfree
    rw [hfall]
    refine ⟨_, _, _, Graph.leads_advance _, Graph.leads_advance _, ?_⟩
    change Alongside g p ⟨g.resume (b.id + 1), s⟩ ⟨g'.enter c.start, s⟩
    rw [henter, Graph.resume_eq hc (hg.visible hc)]
    exact alongside_tasks hc hmirrors s
  | halt hhalt =>
    rw [hhalt]
    exact ⟨_, _, _, Graph.leads_advance _, Graph.leads_advance _, rfl, .inl ⟨rfl, rfl⟩⟩

/-! ## Executions of methods -/

/-- Whether a graph is full depends on kinds and edges only. -/
theorem Full.of_forall₂ {R : Block → Block → Prop} (h : Full g)
    (hblocks : List.Forall₂ R g.blocks g'.blocks)
    (hR : ∀ {b b'}, R b b' → b'.kind = b.kind ∧ b'.successors = b.successors) : Full g' where
  branch hb' hk := by
    obtain ⟨b, hb, hr⟩ := Graph.block?_of_forall₂ hblocks hb'
    obtain ⟨hkind, hsucc⟩ := hR hr
    rw [hsucc]
    exact h.branch hb (hkind ▸ hk)
  fallthrough hb' hk := by
    obtain ⟨b, hb, hr⟩ := Graph.block?_of_forall₂ hblocks hb'
    obtain ⟨hkind, hsucc⟩ := hR hr
    rw [hsucc]
    exact h.fallthrough hb (hkind ▸ hk)

theorem Full.refine (h : Full g) (hr : g.Refines g') : Full g' :=
  h.of_forall₂ hr fun hb => ⟨hb.kind_eq, hb.successors_eq⟩

/-- Noting states does not change where jumps go. -/
theorem enter_markBlocks (q : Plan) (target : Nat) :
    (markBlocks q g).enter target = g.enter target := by
  have hentrance : (markBlocks q g).entrance? target =
      (g.entrance? target).map fun b => { b with state := plannedState q b } :=
    List.find?_map
  unfold Graph.enter
  rw [hentrance]
  cases g.entrance? target <;> rfl

theorem resume_markBlocks (q : Plan) (i : Nat) : (markBlocks q g).resume i = g.resume i := by
  have hfind : ((markBlocks q g).blocks.drop i).find? (fun b => !b.ignored) =
      ((g.blocks.drop i).find? fun b => !b.ignored).map fun b =>
        { b with state := plannedState q b } := by
    rw [markBlocks, ← List.map_drop]
    exact List.find?_map
  unfold Graph.resume
  rw [hfind]
  cases (g.blocks.drop i).find? fun b => !b.ignored <;> rfl

/-- The states that planning notes play no part in executions. -/
theorem executes_markBlocks {σ : Type} {M : Meaning σ} (q : Plan) (start : σ) (t : Trace σ) :
    (markBlocks q g).Executes M start t ↔ g.Executes M start t := by
  unfold Graph.Executes
  rw [resume_markBlocks]
  simp only [Graph.run_congr (enter_markBlocks (g := g) q) (resume_markBlocks q)]

/-- Structuring a full flat graph keeps its executions. -/
theorem executes_of_flat {ctx : Context} (hg : ctx.graph.Flat) (hfull : Full ctx.graph) {σ : Type}
    {M : Meaning σ} (hM : M.Negates) (start : σ) (t : Trace σ) :
    ctx.graph.Executes M start t ↔ ctx.structureBranches.1.graph.Executes M start t := by
  have hrefines := refines_markBlocks (plan ctx.graph) ctx.graph
  have hstructured := structured_structureBranches ctx hg.wired.numbered
  have hflat := hrefines.flat hg
  have hmarked := hfull.refine hrefines
  obtain ⟨entry, hentry⟩ := Graph.exists_block? hflat.size_pos
  have hfree : ∀ a ∈ plan ctx.graph, a.child ≠ 0 := by
    intro a ha
    obtain ⟨b, c, hfits⟩ := hstructured.grows.fits a ha
    exact hfits.ne_entry
  obtain ⟨b, -, hresume, hmirrors⟩ := hstructured.enters hflat hmarked hentry hfree
  have hmatch := hstructured.matches hflat hmarked hM
  have hstart := alongside_tasks hentry hmirrors start
  rw [← hresume, ← Graph.resume_eq hentry (hflat.visible hentry)] at hstart
  rw [← hmatch.executes_iff hstart t, executes_markBlocks]

end Structuring

open Structuring

/-- Structuring keeps the executions of a method. Its code has distinct indexes and the flow that
its mnemonics imply; every conditional jump of its graph has two successors and every block that
runs on has one. Any passes that rebuild statements may have run before. -/
theorem Context.executes_structureBranches {code : List Instruction} {g : Graph} {scope : Scope}
    {journal journal' : Journal} {ctx ctx' : Context} (hcode : Graph.ofCode code = .ok g)
    (hindex : (code.map fun x => x.index).Nodup) (hflow : ∀ x ∈ code, x.flow = x.mnemonic.flow)
    (hbranch : ∀ b ∈ g.blocks, b.kind = .branch → b.successors.length = 2)
    (hfallthrough : ∀ b ∈ g.blocks, b.kind = .fallthrough → b.successors.length = 1)
    (hfill : (scope.fill code g).run.run journal = (.ok ctx.graph, journal'))
    (hctx : ctx.Rebuilt ctx') {σ : Type} {M : Meaning σ} (hM : M.Negates) (start : σ)
    (t : Trace σ) :
    ctx'.graph.Executes M start t ↔ ctx'.structureBranches.1.graph.Executes M start t := by
  have hfilled := scope.filled_fill hfill
  have hflat : ctx.graph.Flat := Graph.flat_of_fill hcode hfilled hindex hflow
  have hfull : Full g :=
    ⟨fun hb => hbranch _ (Graph.mem_blocks_of_block? hb),
      fun hb => hfallthrough _ (Graph.mem_blocks_of_block? hb)⟩
  have hfull' : Full ctx.graph := hfull.of_forall₂ hfilled fun hb => by
    obtain ⟨part, journal, -, rfl⟩ := hb
    exact ⟨rfl, rfl⟩
  exact executes_of_flat (hctx.refines.flat hflat) (hfull'.refine hctx.refines) hM start t

namespace Structuring

/-- Code that returns on both sides of a comparison. -/
def fork : List Instruction :=
  [⟨0, .compare, [.immediate 1, .immediate 2], .next⟩, ⟨1, .jumpIfEqual, [.target 3], .branch⟩,
    ⟨2, .ret, [], .ret⟩, ⟨3, .ret, [], .ret⟩]

def forkScope : Scope := ⟨{ isa := .x64 }, { id := 0, name := "fork", declaringName := "Sample" }⟩

def forkGraph : Graph := (Graph.ofCode fork).toOption.getD {}

def forkContext : Context where
  image := forkScope.image
  method := forkScope.method
  graph := ((forkScope.fill fork forkGraph).run.run {}).1.toOption.getD {}

/-- Comparisons that hold in even states, with their opposites in odd ones. -/
def parity : Meaning Nat where
  act _ s := s + 1
  test e s := holds e s
where
  holds : Expr → Nat → Bool
    | .compare .equal _ _, s | .compare .less _ _, s | .compare .lessOrEqual _ _, s => s % 2 == 0
    | .compare _ _ _, s => s % 2 == 1
    | .complement e, s => !holds e s
    | _, _ => true

/-- Opposite comparisons hold in different states. -/
theorem negates_parity : parity.Negates where
  compare {kind opposite left right s} h := by
    have hodd : (s % 2 == 1) = !(s % 2 == 0) := by
      rcases Nat.mod_two_eq_zero_or_one s with hs | hs <;> rw [hs] <;> rfl
    cases kind <;> cases h <;> simp only [parity, parity.holds, hodd, Bool.not_not]
  complement e s := rfl
  after_compare _ := rfl
  after_complement _ _ := rfl

end Structuring

/-- The comparison holds at the start, and both graphs return at once. -/
theorem Context.executes_structureBranches_fork :
    plan forkContext.foldConstants.1.graph = [⟨0, 2, false⟩] ∧
      (forkContext.foldConstants.1.graph.Executes parity 0 [(.retVoid, 0)] ↔
        forkContext.foldConstants.1.structureBranches.1.graph.Executes parity 0
          [(.retVoid, 0)]) := by
  refine ⟨by decide, ?_⟩
  have hcode : Graph.ofCode fork = .ok forkGraph := rfl
  have hfill : (forkScope.fill fork forkGraph).run.run {} = (.ok forkContext.graph, {}) := rfl
  have hrun : (Pass.folding.run 0).run.run forkContext =
      (.ok forkContext.foldConstants.2, forkContext.foldConstants.1) := rfl
  exact executes_structureBranches hcode (by decide) (by decide) (by decide) (by decide) hfill
    (.run .refl (by simp [Pass.rebuilding]) hrun) negates_parity 0 _

end MethodLift
