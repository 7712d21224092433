import MethodLift.Proofs.Block.Running
import MethodLift.Proofs.Inlining.Following
import MethodLift.Proofs.Pass.Rewriting
import MethodLift.Proofs.Promotion.Scoping

/-!
# Inlining keeps what can be seen

A run of the code before inlining is followed step by step by a run of the code after it: both go
along the same walk from the entry, `Abreast`. Dropped definitions are steps of the first run only.

That the runs follow a walk needs jumps that end their blocks. A jump in the middle of a block may
leave it before a definition that was inlined into the block that it enters; `skip` is code where
that happens.
-/

namespace MethodLift.VariableInlining

open Expr (assignedIn Closed)

variable {V : Type} {m : Machine V} {r : Replacements} {g g' : Graph} {e : Expr} {es : List Expr}

/-! ## Runs -/

/-- Two runs are over, or they are inside the same block after the same walk. -/
inductive Abreast (m : Machine V) (r : Replacements) (g : Graph) :
    Config (Env V × Log V) → Config (Env V × Log V) → Prop
  | ended {s s' : Env V × Log V} (hl : s'.2.history = s.2.history) : Abreast m r g ⟨[], s⟩ ⟨[], s'⟩
  | inside {path : List BlockId} {i : BlockId} {b : Block} {before es : List Expr}
    {s s' : Env V × Log V} (hwalk : g.Walk path i) (hb : g.block? i = some b)
    (hcode : b.code = before ++ es) (hf : Follows m r (g.along path ++ before) s.1 s'.1)
    (hl : s'.2.history = s.2.history) : Abreast m r g ⟨b.rest es, s⟩ ⟨b.rest (rewrite r es), s'⟩

/-- The runs are over, or have something left to do, at the same time, and show the same. -/
theorem Abreast.same {c c' : Config (Env V × Log V)} (h : Abreast m r g c c') :
    c'.state.2.history = c.state.2.history ∧ c'.tasks.isEmpty = c.tasks.isEmpty := by
  cases h with
  | ended hl => exact ⟨hl, rfl⟩
  | @inside _ _ b _ es _ _ _ _ _ _ hl =>
    rw [BlockHead.isEmpty_rest, BlockHead.isEmpty_rest]
    exact ⟨hl, rfl⟩

/-- What is known about the next statement of a block that a walk arrived at. -/
theorem next_of_walk (hg : g.Disciplined) {path : List BlockId} {i : BlockId}
    (hwalk : g.Walk path i) {before : List Expr} (hcode : g.code i = before ++ e :: es) :
    Closed g.Assigns (g.along path ++ before) ∧ Next g.Assigns (g.along path ++ before) e := by
  have hscoped := hg.inScope hwalk
  rw [Graph.along_append, Graph.along_singleton, hcode, ← List.append_assoc,
    Expr.scoped_append] at hscoped
  obtain ⟨hbefore, hused, hfresh, -⟩ := hscoped
  have hmem : e ∈ g.code i := hcode ▸ List.mem_append_right _ List.mem_cons_self
  refine ⟨Expr.closed_nil.append hbefore, hused, hfresh, ?_, hg.laneless e hmem⟩
  exact fun v hv => ⟨i, List.mem_filterMap.mpr ⟨e, hmem, hv⟩⟩

namespace Inlines

variable {path : List BlockId} {i j : BlockId} {b c c' : Block} {before : List Expr}
  {s s' : Env V × Log V}

/-- What was done so far, with the next statement, defines copies of what they are replaced by. -/
theorem copies_before (h : Inlines r g g') (hg : g.Disciplined) (path : List BlockId)
    (hcode : g.code i = before ++ e :: es) : Copies r (g.along path ++ before ++ [e]) := by
  have hcopies := h.copies hg.toSingleAssignment (path ++ [i])
  rw [Graph.along_append, Graph.along_singleton, hcode] at hcopies
  refine fun _ _ _ hv hmem => hcopies hv ?_
  rw [List.append_assoc, List.mem_append] at hmem
  refine List.mem_append.mpr (hmem.imp_right fun hmem => ?_)
  exact (((List.nil_sublist es).cons_cons e).append_left before).subset hmem

/-- The block after inlining has the statements that were not dropped, replaced. -/
theorem tasks_eq (h : Inlines r g g') (hc : g.block? j = some c) (hc' : g'.block? j = some c') :
    c'.tasks = c.rest (rewrite r c.code) := by
  have hcode := h.code j
  rw [Graph.code_eq hc', Graph.code_eq hc] at hcode
  obtain ⟨c₀, hc₀, hhead⟩ := h.heads.block? hc'
  cases hc.symm.trans hc₀
  rw [Block.tasks_eq, hcode, hhead]

/-- Runs that leave a block along the same edge are inside the same block again. -/
theorem abreast_tasks (h : Inlines r g g') (hwalk : g.Walk path i)
    (hf : Follows m r (g.along path ++ g.code i) s.1 s'.1) (hl : s'.2.history = s.2.history)
    (hj : j ∈ g.successors i) (hc : g.block? j = some c) (hc' : g'.block? j = some c') :
    Abreast m r g ⟨c.tasks, s⟩ ⟨c'.tasks, s'⟩ := by
  rw [h.tasks_eq hc hc', Block.tasks_eq]
  refine .inside (hwalk.step hj) hc (List.nil_append _).symm ?_ hl
  rwa [List.append_nil, Graph.along_append, Graph.along_singleton]

/-- Jumps lead both runs to the same block. -/
theorem abreast_enter (h : Inlines r g g') (hr : g.Routed) (hwalk : g.Walk path i)
    (hf : Follows m r (g.along path ++ g.code i) s.1 s'.1) (hl : s'.2.history = s.2.history)
    (he : e ∈ g.code i) {target : Nat} (ht : LabelCount.target? e = some target) :
    Abreast m r g ⟨g.enter target, s⟩ ⟨g'.enter target, s'⟩ := by
  rcases h.heads.enter hr.wired target with ⟨hnone, hnone'⟩ | ⟨c, c', hentrance, hc, hc', heq, heq'⟩
  · rw [hnone, hnone']
    exact .ended hl
  · have hedge := hr.jumps.edge i (hwalk.mem_reachable hr.wired hr.size_pos) e he target ht c
      hentrance
    rw [heq, heq']
    exact h.abreast_tasks hwalk hf hl hedge hc hc'

/-- At the end of a block, both runs go on with the same block, or are over. -/
theorem abreast_end (h : Inlines r g g') (hr : g.Routed) (hwalk : g.Walk path i)
    (hb : g.block? i = some b) (hf : Follows m r (g.along path ++ b.code) s.1 s'.1)
    (hl : s'.2.history = s.2.history) :
    Abreast m r g (g.advance m.meaning ⟨b.rest [], s⟩) (g'.advance m.meaning ⟨b.rest [], s'⟩) := by
  have hfall (hk : b.kind = .fallthrough ∨ b.kind = .branch) :
      Abreast m r g ⟨g.resume (b.id + 1), s⟩ ⟨g'.resume (b.id + 1), s'⟩ := by
    rw [hr.wired.id_eq hb]
    rcases Nat.lt_or_ge (i + 1) g.size with hi | hi
    · obtain ⟨c, hc⟩ := Graph.exists_block? hi
      obtain ⟨c', hc'⟩ := Graph.exists_block? (h.heads.size_eq ▸ hi)
      have hedge : i + 1 ∈ g.successors i := by
        rw [Graph.successors, hb]
        exact hr.next hb hk hi
      rw [Graph.resume_eq hc (hr.visible hc),
        Graph.resume_eq hc' ((h.heads.inLine hr.toInLine).visible hc')]
      rw [← Graph.code_eq hb] at hf
      exact h.abreast_tasks hwalk hf hl hedge hc hc'
    · rw [Graph.resume_of_le hi, Graph.resume_of_le (h.heads.size_eq ▸ hi)]
      exact .ended hl
  show Abreast m r g (g.advance m.meaning ⟨[b.ending], s⟩) (g'.advance m.meaning ⟨[b.ending], s'⟩)
  unfold BlockHead.ending
  cases hk : b.kind with
  | fallthrough => exact hfall (.inl hk)
  | branch => exact hfall (.inr hk)
  | jump => exact .ended hl
  | exit => exact .ended hl

/-- A definition that is dropped is a step of the first run only. -/
theorem advance_dropped (h : Inlines r g g') (hg : g.Disciplined) (hwalk : g.Walk path i)
    (hcode : g.code i = before ++ e :: es) (hf : Follows m r (g.along path ++ before) s.1 s'.1)
    (hl : s'.2.history = s.2.history) (hdropped : kept r e = false) :
    ∃ s₁, g.advance m.meaning ⟨b.rest (e :: es), s⟩ = ⟨b.rest es, s₁⟩ ∧
      Follows m r (g.along path ++ (before ++ [e])) s₁.1 s'.1 ∧
      s'.2.history = s₁.2.history := by
  have hr := h.admissible hg.toSingleAssignment
  obtain ⟨hclosed, hn⟩ := next_of_walk hg hwalk hcode
  have hcopies := h.copies_before hg path hcode
  obtain ⟨v, value, x, rfl, hv⟩ := exists_of_dropped hdropped
  obtain ⟨l, rfl⟩ := hr.leaves.get? hv
  cases hcopies hv (List.mem_append_right _ List.mem_cons_self)
  have hdrop := hf.drop hr hcopies.left hclosed hv (hn.fresh v rfl)
  rw [List.append_assoc] at hdrop
  exact ⟨_, rfl, hdrop, hl⟩

/-- A statement that is kept is a step of both runs. -/
theorem abreast_step (h : Inlines r g g') (hg : g.Disciplined) (hr : g.Routed)
    (hwalk : g.Walk path i) (hb : g.block? i = some b) (hcode : b.code = before ++ e :: es)
    (hf : Follows m r (g.along path ++ before) s.1 s'.1) (hl : s'.2.history = s.2.history)
    (hkept : kept r e = true) :
    Abreast m r g (g.advance m.meaning ⟨b.rest (e :: es), s⟩)
      (g'.advance m.meaning ⟨b.rest (rewrite r (e :: es)), s'⟩) := by
  have hadmissible := h.admissible hg.toSingleAssignment
  have hblock := Graph.code_eq hb
  rw [← hblock] at hcode
  obtain ⟨hclosed, hn⟩ := next_of_walk hg hwalk hcode
  have hcopies := h.copies_before hg path hcode
  have hmem : e ∈ g.code i := hcode ▸ List.mem_append_right _ List.mem_cons_self
  have htidy := hr.tidy_of_mem hmem
  have hlast {target : Nat} (ht : LabelCount.target? e = some target) : es = [] := by
    refine List.eq_nil_iff_forall_not_mem.mpr fun x hx => ?_
    have hinner : e ∈ (g.code i).dropLast := by
      rw [hcode, List.dropLast_append_of_ne_nil (List.cons_ne_nil e es),
        List.dropLast_cons_of_ne_nil (List.ne_nil_of_mem hx)]
      exact List.mem_append_right _ List.mem_cons_self
    have hnone := hr.jumps.last i (hwalk.mem_reachable hr.wired hr.size_pos) e hinner
    rw [ht] at hnone
    cases hnone
  have hstep : b.code = (before ++ [e]) ++ es := by
    rw [← hblock, hcode, List.append_assoc]
    rfl
  have hskip (hnone : e.assigned? = none) :
      Follows m r (g.along path ++ (before ++ [e])) s.1 s'.1 := by
    rw [← List.append_assoc]
    exact hf.skip hnone
  obtain ⟨hhistory, -, hfollows⟩ :=
    mimics_exec hf hadmissible hcopies.left hclosed hn hkept s.2 s'.2 hl
  rw [List.append_assoc] at hfollows
  rw [rewrite_cons_of_kept hkept]
  cases e with
  | jump target =>
    cases hlast rfl
    rw [List.append_nil] at hstep
    exact h.abreast_enter hr hwalk (hblock.trans hstep ▸ hskip rfl) hl hmem rfl
  | jumpIf condition target =>
    cases hlast rfl
    obtain ⟨hl, htaken⟩ := mimics_takes hf hadmissible hcopies.left hclosed hn s.2 s'.2 hl
    rw [Expr.relabel_jumpIf]
    show Abreast m r g
      ⟨if ((m.takes s.1 condition).run s.2).1 then g.enter target else b.rest [], _⟩
      ⟨if ((m.takes s'.1 (condition.relabel (rename r))).run s'.2).1 then g'.enter target
        else b.rest [], _⟩
    rw [← htaken]
    split
    · rw [List.append_nil] at hstep
      exact h.abreast_enter hr hwalk (hblock.trans hstep ▸ hskip rfl) hl hmem rfl
    · exact .inside hwalk hb hstep (hskip rfl) hl
  | ret value => exact .ended hhistory
  | retVoid => exact .ended hhistory
  | guarded condition head body => exact absurd (Expr.Plain.isControl_eq htidy) (by simp)
  | call target args returns =>
    rw [Expr.relabel_call] at hfollows hhistory ⊢
    exact .inside hwalk hb hstep hfollows hhistory
  | _ => exact .inside hwalk hb hstep hfollows hhistory

/-- What the run before inlining does in a step, the run after it does in one step or none. -/
theorem exists_iterate_after (h : Inlines r g g') (hg : g.Disciplined) (hr : g.Routed)
    {c c' : Config (Env V × Log V)} (hc : Abreast m r g c c') :
    ∃ k, Abreast m r g (g.advance m.meaning c) ((g'.advance m.meaning)^[k] c') := by
  cases hc with
  | ended hl => exact ⟨0, .ended hl⟩
  | @inside path i b before es s s' hwalk hb hcode hf hl =>
    cases es with
    | nil =>
      rw [List.append_nil] at hcode
      exact ⟨1, h.abreast_end hr hwalk hb (hcode ▸ hf) hl⟩
    | cons e es =>
      cases hkept : kept r e with
      | true => exact ⟨1, h.abreast_step hg hr hwalk hb hcode hf hl hkept⟩
      | false =>
        obtain ⟨s₁, heq, hf, hl⟩ :=
          h.advance_dropped hg hwalk ((Graph.code_eq hb).trans hcode) hf hl hkept
        rw [List.append_cons] at hcode
        rw [heq, rewrite_cons_of_dropped hkept]
        exact ⟨0, .inside hwalk hb hcode hf hl⟩

/-- What the run after inlining does in a step, the run before it does in some steps: first it makes
the definitions that were dropped. -/
theorem exists_iterate_before (h : Inlines r g g') (hg : g.Disciplined) (hr : g.Routed)
    {c c' : Config (Env V × Log V)} (hc : Abreast m r g c c') :
    ∃ k, Abreast m r g ((g.advance m.meaning)^[k] c) (g'.advance m.meaning c') := by
  cases hc with
  | ended hl => exact ⟨0, .ended hl⟩
  | @inside path i b before es s s' hwalk hb hcode hf hl =>
    induction es generalizing before s with
    | nil =>
      rw [List.append_nil] at hcode
      exact ⟨1, h.abreast_end hr hwalk hb (hcode ▸ hf) hl⟩
    | cons e es ih =>
      cases hkept : kept r e with
      | true => exact ⟨1, h.abreast_step hg hr hwalk hb hcode hf hl hkept⟩
      | false =>
        obtain ⟨s₁, heq, hf, hl⟩ :=
          h.advance_dropped hg hwalk ((Graph.code_eq hb).trans hcode) hf hl hkept
        rw [List.append_cons] at hcode
        obtain ⟨k, hk⟩ := ih hcode hf hl
        refine ⟨k + 1, ?_⟩
        rwa [Function.iterate_succ_apply, heq, rewrite_cons_of_dropped hkept]

/-- A round of inlining shows nothing else than before. -/
theorem shows_iff (h : Inlines r g g') (hg : g.Disciplined) (hr : g.Routed) (m : Machine V)
    (env : Env V) (t : History V) (ended : Bool) :
    g'.Shows m env t ended ↔ g.Shows m env t ended := by
  have hentry : Abreast m r g ⟨g.resume 0, (env, {})⟩ ⟨g'.resume 0, (env, {})⟩ := by
    obtain ⟨c, hc⟩ := Graph.exists_block? hr.size_pos
    obtain ⟨c', hc'⟩ := Graph.exists_block? (h.heads.size_eq ▸ hr.size_pos)
    rw [Graph.resume_eq hc (hr.visible hc),
      Graph.resume_eq hc' ((h.heads.inLine hr.toInLine).visible hc'), h.tasks_eq hc hc',
      Block.tasks_eq]
    exact .inside .entry hc (List.nil_append _).symm (.refl m r env) rfl
  constructor
  · refine Graph.Shows.of_steps (R := fun c' c => Abreast m r g c c') ?_ ?_ hentry
    · exact fun hc => ⟨hc.same.1.symm, hc.same.2.symm⟩
    · exact fun _ _ hc => h.exists_iterate_before hg hr hc
  · exact Graph.Shows.of_steps Abreast.same (fun _ _ hc => h.exists_iterate_after hg hr hc) hentry

/-! ## Another round -/

/-- The statements at the ends of blocks stay there, if they are kept. -/
theorem mem_dropLast_rewrite {e' : Expr} (h : e' ∈ (rewrite r es).dropLast) :
    ∃ e ∈ es.dropLast, e.relabel (rename r) = e' := by
  rcases List.eq_nil_or_concat es with rfl | ⟨init, x, rfl⟩
  · cases h
  · rw [List.concat_eq_append, rewrite_append] at h
    rw [List.concat_eq_append, List.dropLast_concat]
    have hnil : rewrite r [] = [] := rfl
    have hinit : e' ∈ rewrite r init := by
      cases hkept : kept r x with
      | true => rwa [rewrite_cons_of_kept hkept, hnil, List.dropLast_concat] at h
      | false =>
        rw [rewrite_cons_of_dropped hkept, hnil, List.append_nil] at h
        exact List.dropLast_subset _ h
    obtain ⟨e, he, -, heq⟩ := mem_rewrite.mp hinit
    exact ⟨e, he, heq⟩

/-- A jump goes to the same place under other names. -/
theorem target?_relabel (φ : Leaf → Leaf) (e : Expr) :
    LabelCount.target? (e.relabel φ) = LabelCount.target? e := by
  cases e with
  | call target args returns => rw [Expr.relabel_call]; rfl
  | guarded condition head body => rw [Expr.relabel_guarded]; rfl
  | _ => rfl

/-- Jumps still end their blocks after a round. -/
theorem jumpsLast (h : Inlines r g g') (hr : g.Routed) : g'.JumpsLast := by
  constructor
  case last =>
    intro i hi e' he'
    rw [h.heads.reachable_eq] at hi
    rw [h.code] at he'
    obtain ⟨e, he, rfl⟩ := mem_dropLast_rewrite he'
    rw [target?_relabel]
    exact hr.jumps.last i hi e he
  case edge =>
    intro i hi e' he' target ht b' hb'
    rw [h.heads.reachable_eq] at hi
    rw [h.code] at he'
    obtain ⟨e, he, -, rfl⟩ := mem_rewrite.mp he'
    rw [target?_relabel] at ht
    have hentrance := h.heads.entrance?_eq target
    rw [hb'] at hentrance
    obtain ⟨b, hb, heq⟩ := Option.map_eq_some_iff.mp hentrance.symm
    rw [h.heads.successors_eq, ← congrArg BlockHead.id heq]
    exact hr.jumps.edge i hi e he target ht b hb

end Inlines

end MethodLift.VariableInlining

namespace MethodLift

namespace Context

variable {V : Type} {ctx : Context}

def inlineRounds : Nat → Context → Context
  | 0, ctx => ctx
  | n + 1, ctx => inlineRounds n ctx.inlineVariables.1

/-- One run of inlining shows the same histories, in both directions. -/
theorem shows_inlineVariables (hg : ctx.graph.Disciplined) (hr : ctx.graph.Routed) (m : Machine V)
    (env : Env V) (t : History V) (ended : Bool) :
    ctx.inlineVariables.1.graph.Shows m env t ended ↔ ctx.graph.Shows m env t ended := by
  rcases inlines_inlineVariables hg.toSingleAssignment with heq | ⟨r, h⟩
  · rw [heq]
  · exact h.shows_iff hg hr m env t ended

/-- Control still leaves blocks along edges after a round. -/
theorem routed_inlineVariables (hg : ctx.graph.Disciplined) (hr : ctx.graph.Routed) :
    ctx.inlineVariables.1.graph.Routed := by
  rcases inlines_inlineVariables hg.toSingleAssignment with heq | ⟨r, h⟩
  · rw [heq]
    exact hr
  · exact ⟨h.heads.inLine hr.toInLine, ctx.refines_inlineVariables.tidy hr.tidy, h.jumpsLast hr⟩

/-- Where control flow does not join, no lane of a vector is assigned to, and jumps end their blocks
and lead along edges, any number of rounds of inlining leaves everything as it is that can be seen
of a run from the entry: loads, stores and calls with their values, the outcomes of conditional
jumps, what is returned, and whether the run is over. The values at the entry are arbitrary, and so
are the answers of memory and calls, which may depend on all that happened before. -/
theorem shows_inlineRounds {s : Scope} {code : List Instruction} {parts : List CodeRange}
    {g : Graph} {journal journal' : Journal} (hcut : Graph.ofPartition code parts = .ok g)
    (hfill : (s.fill code g).run.run journal = (.ok ctx.graph, journal'))
    (hjoin : ctx.promote.1.graph.JoinFree)
    (hlane : ∀ b ∈ ctx.promote.1.graph.blocks, ∀ e ∈ b.code, e.assignsLane = false)
    (hjumps : ctx.promote.1.graph.JumpsLast) (rounds : Nat) (m : Machine V) (env : Env V)
    (h : History V) (ended : Bool) :
    (inlineRounds rounds ctx.promote.1).graph.Shows m env h ended ↔
      ctx.promote.1.graph.Shows m env h ended := by
  have hlifted := Graph.allLifted_of_fill hfill
  have hlaid := Graph.ofPartition_laid hcut
  have hheads := Graph.sameHeads_of_fill hfill
  have hpromoted := sameHeads_promote hlifted
  have hinline := hheads.inLine hlaid.inLine
  have hg : ctx.promote.1.graph.Disciplined :=
    disciplined_promote hlifted hinline.wired (hjoin.congr hpromoted.symm) hinline.size_pos hlane
  have hr : ctx.promote.1.graph.Routed :=
    ⟨hpromoted.inLine hinline, ctx.refines_promote.tidy fun hb t ht =>
      (hlifted _ (Graph.mem_blocks_of_block? hb) t ht).1.tidy, hjumps⟩
  generalize ctx.promote.1 = c at hg hr
  induction rounds generalizing c with
  | zero => rfl
  | succ rounds ih =>
    rw [inlineRounds]
    exact (ih c.inlineVariables.1 (disciplined_inlineVariables hg)
      (routed_inlineVariables hg hr)).trans (shows_inlineVariables hg hr m env h ended)

/-- Where code is cut at the targets of its jumps, jumps end their blocks and lead along edges. -/
theorem jumpsLast_promote {s : Scope} {code : List Instruction} {g : Graph}
    {journal journal' : Journal} (hcode : Graph.ofCode code = .ok g)
    (hindex : (code.map fun x => x.index).Nodup) (hflow : ∀ x ∈ code, x.flow = x.mnemonic.flow)
    (hfill : (s.fill code g).run.run journal = (.ok ctx.graph, journal')) :
    ctx.promote.1.graph.JumpsLast :=
  (ctx.refines_promote.flat (Graph.flat_of_fill hcode (s.filled_fill hfill) hindex hflow)).jumpsLast

end Context

/-! ## Samples -/

namespace VariableInlining

/-- Code and the ranges that it is cut into. -/
structure Sample where
  code : List Instruction
  parts : List CodeRange

namespace Sample

def scope : Scope := ⟨{ isa := .x64 }, { id := 0, name := "sample", declaringName := "Sample" }⟩

def graph (x : Sample) : Graph := (Graph.ofPartition x.code x.parts).toOption.getD {}

def context (x : Sample) : Context where
  image := scope.image
  method := scope.method
  graph := ((scope.fill x.code x.graph).run.run {}).1.toOption.getD {}

/-- The code can be cut and lifted, control flow does not join, and no lane is assigned to. -/
structure Admitted (x : Sample) : Prop where
  cut : Graph.ofPartition x.code x.parts = .ok x.graph
  filled : (scope.fill x.code x.graph).run.run {} = (.ok x.context.graph, {})
  joinFree : x.context.promote.1.graph.JoinFree
  laneless : ∀ b ∈ x.context.promote.1.graph.blocks, ∀ e ∈ b.code, e.assignsLane = false

end Sample

/-- Returns a copy of a register on one side of a comparison. -/
def copy : Sample where
  code :=
    [⟨0, .move, [.register "eax", .register "edx"], .next⟩,
      ⟨1, .compare, [.register "ecx", .immediate 0], .next⟩,
      ⟨2, .jumpIfEqual, [.target 4], .branch⟩, ⟨3, .ret, [.register "eax"], .ret⟩,
      ⟨4, .ret, [.register "ecx"], .ret⟩]
  parts := [⟨0, 3⟩, ⟨3, 4⟩, ⟨4, 5⟩]

/-- Jumps over an assignment of its own block to the block that stores what was assigned to. -/
def skip : Sample where
  code :=
    [⟨0, .goto, [.target 4], .jump⟩, ⟨1, .move, [.register "rax", .immediate 5], .next⟩,
      ⟨2, .compare, [.register "rcx", .immediate 0], .next⟩,
      ⟨3, .jumpIfEqual, [.target 6], .branch⟩,
      ⟨4, .move, [.memory { addend := 4096 }, .register "rax"], .next⟩, ⟨5, .ret, [], .ret⟩,
      ⟨6, .ret, [], .ret⟩]
  parts := [⟨0, 4⟩, ⟨4, 6⟩, ⟨6, 7⟩]

/-- Jumps over the block with an assignment, although its flow only leads into that block. -/
def detour : Sample where
  code :=
    [⟨0, .goto, [.target 2], .next⟩, ⟨1, .move, [.register "rax", .immediate 5], .next⟩,
      ⟨2, .move, [.memory { addend := 4096 }, .register "rax"], .next⟩, ⟨3, .ret, [], .ret⟩]
  parts := [⟨0, 1⟩, ⟨1, 2⟩, ⟨2, 4⟩]

/-- Registers hold zero, and variables different numbers. -/
def entry : Env Int := ⟨fun _ => 0, fun v => v + 7⟩

end VariableInlining

open VariableInlining in
/-- The copy is gone after a round, and what is returned is still seen. -/
theorem Context.shows_inlineRounds_copy :
    Expr.assignedIn (copy.context.promote.1.graph.code 0) = [1] ∧
      Expr.assignedIn ((inlineRounds 1 copy.context.promote.1).graph.code 0) = [] ∧
      (inlineRounds 1 copy.context.promote.1).graph.Shows numbers entry
        [.branch false, .leave (some 7)] true := by
  refine ⟨by decide +kernel, by decide +kernel, ?_⟩
  have hcut : Graph.ofPartition copy.code copy.parts = .ok copy.graph := rfl
  have hfill := eq_ok_of_isSome (x := (Sample.scope.fill copy.code copy.graph).run.run {})
    (by decide +kernel) {}
  have hjoin : copy.context.promote.1.graph.JoinFree := by decide +kernel
  have hlane : ∀ b ∈ copy.context.promote.1.graph.blocks, ∀ e ∈ b.code,
      e.assignsLane = false := by
    decide +kernel
  have hjumps : copy.context.promote.1.graph.JumpsLast := by decide +kernel
  rw [shows_inlineRounds hcut hfill hjoin hlane hjumps]
  exact ⟨6, by decide +kernel, by decide +kernel⟩

open VariableInlining in
/-- Jumps in the middle of blocks, and jumps that lead along no edge, may pass by definitions that
were inlined into the blocks that they enter: what was in the variable at the entry is stored before
a round, and the number of the definition after it. -/
theorem Context.not_shows_inlineRounds :
    (skip.Admitted ∧
      skip.context.promote.1.graph.Shows numbers entry [.store 4096 7, .leave none] true ∧
      ¬(inlineRounds 1 skip.context.promote.1).graph.Shows numbers entry
        [.store 4096 7, .leave none] true) ∧
    detour.Admitted ∧
      detour.context.promote.1.graph.Shows numbers entry [.store 4096 7, .leave none] true ∧
      ¬(inlineRounds 1 detour.context.promote.1).graph.Shows numbers entry
        [.store 4096 7, .leave none] true := by
  have hne : [.store 4096 7, .leave none] ≠ ([.store 4096 5, .leave none] : History Int) := by
    decide
  constructor
  · have hstored : (inlineRounds 1 skip.context.promote.1).graph.Shows numbers entry
        [.store 4096 5, .leave none] true := ⟨5, by decide +kernel, by decide +kernel⟩
    refine ⟨⟨rfl, ?_, ?_, ?_⟩, ⟨5, ?_, ?_⟩, fun h => hne (h.unique hstored)⟩
    · exact eq_ok_of_isSome (by decide +kernel) {}
    all_goals decide +kernel
  · have hstored : (inlineRounds 1 detour.context.promote.1).graph.Shows numbers entry
        [.store 4096 5, .leave none] true := ⟨5, by decide +kernel, by decide +kernel⟩
    refine ⟨⟨rfl, ?_, ?_, ?_⟩, ⟨5, ?_, ?_⟩, fun h => hne (h.unique hstored)⟩
    · exact eq_ok_of_isSome (by decide +kernel) {}
    all_goals decide +kernel

end MethodLift
