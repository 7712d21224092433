import MethodLift.Proofs.Block.DepthFirst
import MethodLift.Proofs.Promotion.Origins

/-!
# Variables stay below the block that makes them

The stack of a promotion holds a block several times, with the bindings at the end of different
blocks. The entry that is taken is the call of the recursive depth-first search that finds the
block, so a block starts with the bindings of its parent in the tree of that search. A variable that
is made in a block can only be bound in the block and below it, and blocks that cannot be reached
start without bindings.
-/

namespace MethodLift.Promotion

variable {sp : String} {g : Graph}

/-! ## The stack and the search -/

/-- The call of the depth-first search that a visit answers. -/
def Visit.call (v : Visit) : Graph.Call := (v.parent, v.block)

/-- More steps only append visits. -/
theorem visits_extend (steps extra : Nat) (stack : List (Option BlockId × BlockId × Bindings))
    (visited : List BlockId) (vars : Variables) :
    visits sp g steps stack visited vars <+: visits sp g (steps + extra) stack visited vars := by
  induction steps generalizing stack visited vars with
  | zero => exact List.nil_prefix
  | succ steps ih =>
    rw [Nat.succ_add]
    cases hdrop : stack.dropWhile fun entry => visited.contains entry.2.1 with
    | nil =>
      simp only [visits, hdrop]
      exact List.prefix_rfl
    | cons entry rest =>
      simp only [visits, hdrop]
      exact List.cons_prefix_cons.mpr ⟨rfl, ih _ _ _⟩

/-- With a step for each block that may be found, the visits are what the recursive search finds,
in the same order and with the same parents. -/
theorem depthFirst_visits (sp : String) {ids : List BlockId} (hids : ∀ i, g.successors i ⊆ ids)
    (steps : Nat) (stack : List (Option BlockId × BlockId × Bindings)) (visited : List BlockId)
    (vars : Variables) (found : List Graph.Call) (hfound : found.map Prod.snd = visited)
    (hstack : ∀ entry ∈ stack, entry.2.1 ∈ ids) (hvisited : visited ⊆ ids) (hnodup : visited.Nodup)
    (hsteps : ids.length ≤ steps + visited.length) :
    g.DepthFirst (stack.map fun entry => (entry.1, entry.2.1)) found
      (found ++ (visits sp g steps stack visited vars).map Visit.call) := by
  have hdropped (stack : List (Option BlockId × BlockId × Bindings)) (visited : List BlockId) :
      (stack.map fun entry => (entry.1, entry.2.1)).dropWhile
          (fun call => visited.contains call.2) =
        (stack.dropWhile fun entry => visited.contains entry.2.1).map
          fun entry => (entry.1, entry.2.1) :=
    List.dropWhile_map
  induction steps generalizing stack visited vars found with
  | zero =>
    rw [visits, List.map_nil, List.append_nil]
    apply Graph.DepthFirst.of_found
    intro call hcall
    obtain ⟨entry, hentry, rfl⟩ := List.mem_map.mp hcall
    rw [Nat.zero_add] at hsteps
    rw [hfound]
    exact Graph.mem_of_nodup hnodup hvisited hsteps (hstack entry hentry)
  | succ steps ih =>
    apply Graph.DepthFirst.of_dropWhile
    rw [hfound, hdropped]
    cases hdrop : stack.dropWhile fun entry => visited.contains entry.2.1 with
    | nil =>
      simp only [visits, hdrop, List.map_nil, List.append_nil]
      exact .done
    | cons entry rest =>
      obtain ⟨parent, id, bindings⟩ := entry
      have hnew : id ∉ visited := Graph.not_mem_of_dropWhile hdrop
      have hsub : ∀ entry ∈ (parent, id, bindings) :: rest, entry ∈ stack := by
        rw [← hdrop]
        exact fun entry h => List.dropWhile_subset _ h
      have hid : id ∈ ids := hstack _ (hsub _ List.mem_cons_self)
      let s := Visit.finish sp g ⟨parent, id, { vars, bindings }⟩
      let pending := (g.successors id).map (fun next => (some id, next, s.bindings)) ++ rest
      have hpending : ∀ entry ∈ pending, entry.2.1 ∈ ids := by
        intro entry hentry
        rcases List.mem_append.mp hentry with hentry | hentry
        · obtain ⟨next, hnext, rfl⟩ := List.mem_map.mp hentry
          exact hids id hnext
        · exact hstack entry (hsub entry (List.mem_cons_of_mem _ hentry))
      have hvisited' : visited ++ [id] ⊆ ids :=
        List.append_subset.mpr ⟨hvisited, List.cons_subset.mpr ⟨hid, List.nil_subset _⟩⟩
      have hnodup' : (visited ++ [id]).Nodup := by
        rw [List.nodup_append_comm]
        exact List.nodup_cons.mpr ⟨hnew, hnodup⟩
      have hsteps' : ids.length ≤ steps + (visited ++ [id]).length := by
        rw [List.length_append, List.length_singleton]
        omega
      have hfound' : (found ++ [(parent, id)]).map Prod.snd = visited ++ [id] := by
        rw [List.map_append, hfound]
        rfl
      have hall := ih pending (visited ++ [id]) s.vars _ hfound' hpending hvisited' hnodup' hsteps'
      rw [List.map_append, List.map_map] at hall
      obtain ⟨inner, hinner, hrest⟩ := hall.exists_of_append
      simp only [visits, hdrop, List.map_cons]
      rw [List.append_assoc] at hrest
      exact .enter (hfound ▸ hnew) hinner hrest

/-! ## Ancestors -/

/-- Every visit is at the end of a path of visits. -/
theorem exists_trail_visits {vs : List Visit} (steps : Nat)
    (stack : List (Option BlockId × BlockId × Bindings)) (visited : List BlockId) (vars : Variables)
    (hsub : visits sp g steps stack visited vars ⊆ vs)
    (hstack : ∀ entry ∈ stack, ∀ w ∈ vs, w.parent = entry.1 → ∃ path, Trail vs path w) :
    ∀ w ∈ visits sp g steps stack visited vars, ∃ path, Trail vs path w := by
  fun_induction visits sp g steps stack visited vars with
  | case1 => simp
  | case2 => simp
  | case3 steps stack visited vars parent id bindings rest hdrop v s ih =>
    have hold : ∀ entry ∈ (parent, id, bindings) :: rest, entry ∈ stack := by
      rw [← hdrop]
      exact fun entry h => List.dropWhile_subset _ h
    obtain ⟨hv, hlater⟩ := List.cons_subset.mp hsub
    obtain ⟨path, htrail⟩ := hstack _ (hold _ List.mem_cons_self) v hv rfl
    intro w hw
    rcases List.mem_cons.mp hw with rfl | hw
    · exact ⟨path, htrail⟩
    · refine ih hlater (fun entry hentry w hw hparent => ?_) w hw
      rcases List.mem_append.mp hentry with hentry | hentry
      · obtain ⟨next, -, rfl⟩ := List.mem_map.mp hentry
        exact ⟨path ++ [w.block], .step htrail hw hparent⟩
      · exact hstack entry (hold entry (List.mem_cons_of_mem _ hentry)) w hw hparent

/-- No two visits make the same variable. -/
theorem Toured.eq_of_made {base : Variables} {vs : List Visit} {t : Tour}
    (h : Toured sp g base vs t) {u w : Visit} (hu : u ∈ vs) (hw : w ∈ vs) {v : VarId}
    (huv : v ∈ u.made sp g) (hwv : v ∈ w.made sp g) : u = w := by
  obtain ⟨hule, hult⟩ := Variables.mem_added.mp huv
  obtain ⟨hwle, hwlt⟩ := Variables.mem_added.mp hwv
  rcases h.total hu hw with heq | hbefore | hafter
  · exact heq
  · exact absurd (hult.trans_le hbefore.size_le) (Nat.not_lt.mpr hwle)
  · exact absurd (hwlt.trans_le hafter.size_le) (Nat.not_lt.mpr hule)

end MethodLift.Promotion

namespace MethodLift.Context

open Promotion
open Graph (ParentIn)

variable {ctx : Context}

/-- The variable is made while the block is promoted. -/
def Makes (ctx : Context) (b : BlockId) (v : VarId) : Prop :=
  ∃ u ∈ ctx.allVisits, u.block = b ∧ v ∈ u.made ctx.stackPointer ctx.graph

/-- Every variable that was not there at the entry is made in one block. -/
theorem existsUnique_makes (hg : ctx.graph.AllLifted) {v : VarId}
    (hle : ctx.entryState.vars.size ≤ v) (hlt : v < ctx.promote.1.vars.size) :
    ∃! b, ctx.Makes b v := by
  obtain ⟨htour, -⟩ := toured_allVisits hg
  rw [ctx.promote_eq.2, Variables.size_assignNames] at hlt
  have hadded := (htour.chained.perm_added hg).mem_iff.mpr (Variables.mem_added.mpr ⟨hle, hlt⟩)
  have hmade : ∃ u ∈ ctx.allVisits, v ∈ u.made ctx.stackPointer ctx.graph := by
    rcases List.mem_append.mp hadded with hmem | hmem
    · obtain ⟨u, hu, hv⟩ := List.mem_flatMap.mp hmem
      exact ⟨u, hu, (u.perm_made hg).mem_iff.mp (List.mem_append_left _ hv)⟩
    · obtain ⟨u, hu, hv⟩ := List.mem_flatMap.mp hmem
      exact ⟨u, hu, (u.perm_made hg).mem_iff.mp (List.mem_append_right _ hv)⟩
  obtain ⟨u, hu, hv⟩ := hmade
  refine ⟨u.block, ⟨u, hu, rfl, hv⟩, ?_⟩
  rintro b ⟨w, hw, rfl, hwv⟩
  rw [htour.eq_of_made hw hu hwv hv]

/-- The visits are calls of the recursive search. -/
theorem exists_tree (ctx : Context) : ∃ tree,
    ctx.graph.DepthFirst ctx.graph.entryCalls [] tree ∧ ∀ w ∈ ctx.visits, w.call ∈ tree := by
  let ids := 0 :: ctx.graph.blocks.flatMap (·.successors)
  have hids (i : BlockId) : ctx.graph.successors i ⊆ ids := by
    intro j hj
    unfold Graph.successors at hj
    split at hj
    · rename_i b hb
      exact List.mem_cons_of_mem _
        (List.mem_flatMap.mpr ⟨b, Graph.mem_blocks_of_block? hb, hj⟩)
    · cases hj
  have hroots : ∀ entry ∈ ctx.roots, entry.2.1 ∈ ids := by
    intro entry hentry
    unfold roots at hentry
    split at hentry
    · cases hentry
    · rw [List.mem_singleton.mp hentry]
      exact List.mem_cons_self
  have hcalls : (ctx.roots.map fun entry => (entry.1, entry.2.1)) = ctx.graph.entryCalls := by
    unfold roots Graph.entryCalls
    split <;> rfl
  have hsearch := depthFirst_visits ctx.stackPointer hids (ctx.graph.size + ids.length)
    ctx.roots [] ctx.entryState.vars [] rfl hroots (List.nil_subset _) .nil
    (Nat.le_trans (Nat.le_add_left _ _) (Nat.le_add_right _ _))
  rw [hcalls, List.nil_append] at hsearch
  refine ⟨_, hsearch, fun w hw => List.mem_map_of_mem ?_⟩
  exact (visits_extend _ _ _ _ _).subset hw

/-- What a block starts with comes from the entry or from the blocks above it. -/
theorem origin_of_trail (hg : ctx.graph.AllLifted) {tree : List Graph.Call}
    (htree : ∀ w ∈ ctx.visits, w.call ∈ tree) {path : List BlockId} {w : Visit}
    (h : Trail ctx.visits path w) {v : VarId} (hv : w.start.Knows v) :
    v < ctx.entryState.vars.size ∨ ∃ u ∈ ctx.visits, v ∈ u.made ctx.stackPointer ctx.graph ∧
      Relation.ReflTransGen (ParentIn tree) u.block w.block := by
  induction h with
  | entry hw hroot =>
    obtain ⟨-, hbindings, -⟩ := start_of_root hg hw hroot
    obtain ⟨r, hr⟩ := hv
    rw [hbindings] at hr
    exact .inl (ctx.sound_entryState.lt hr)
  | step hpath hw hparent ih =>
    rename_i path u w
    obtain ⟨-, hbindings, -⟩ := start_of_parent hg hpath.mem hw hparent
    have hedge : ParentIn tree u.block w.block := by
      have hcall := htree w hw
      rwa [Visit.call, hparent] at hcall
    have hfinish : (u.finish ctx.stackPointer ctx.graph).Knows v := by
      obtain ⟨r, hr⟩ := hv
      exact ⟨r, hbindings ▸ hr⟩
    rcases (u.promotesAll hg).origin hg.code (.inl hfinish) with hstart | hmade
    · refine (ih hstart).imp_right ?_
      rintro ⟨x, hx, hmade, hbelow⟩
      exact ⟨x, hx, hmade, hbelow.tail hedge⟩
    · exact .inr ⟨u, hpath.mem, hmade, .single hedge⟩

/-- Every visit is at the end of a path of first visits from the entry. -/
theorem exists_trail_of_mem {w : Visit} (hw : w ∈ ctx.visits) :
    ∃ path, Trail ctx.visits path w := by
  refine exists_trail_visits _ _ _ _ (List.Subset.refl _) (fun entry hentry w hw hparent => ?_) w hw
  have hnone : entry.1 = none := by
    unfold roots at hentry
    split at hentry
    · cases hentry
    · rw [List.mem_singleton.mp hentry]
  exact ⟨[w.block], .entry hw (hparent.trans hnone)⟩

/-- What a block starts with was there at the entry, or was made in a block above it. -/
theorem exists_maker (hg : ctx.graph.AllLifted) {tree : List Graph.Call}
    (htree : ∀ w ∈ ctx.visits, w.call ∈ tree) {w : Visit} (hw : w ∈ ctx.allVisits) {v : VarId}
    (hv : w.start.Knows v) :
    v < ctx.entryState.vars.size ∨ ∃ u ∈ ctx.visits, v ∈ u.made ctx.stackPointer ctx.graph ∧
      Relation.ReflTransGen (ParentIn tree) u.block w.block := by
  rcases List.mem_append.mp hw with hw | hstray
  · obtain ⟨path, htrail⟩ := exists_trail_of_mem hw
    exact origin_of_trail hg htree htrail hv
  · obtain ⟨r, hr⟩ := hv
    rw [bindings_of_mem_strays hstray] at hr
    cases hr

/-- The blocks of the search can be reached by walks. -/
theorem walk_of_trail (hg : ctx.graph.AllLifted) {path : List BlockId} {w : Visit}
    (h : Trail ctx.visits path w) : ∃ path, ctx.graph.Walk path w.block := by
  induction h with
  | entry hw hroot =>
    rw [(start_of_root hg hw hroot).1]
    exact ⟨[], .entry⟩
  | step hpath hw hparent ih =>
    obtain ⟨path, hwalk⟩ := ih
    exact ⟨_, .step hwalk (start_of_parent hg hpath.mem hw hparent).1⟩

/-- A variable stays in the block in which it is made and in the blocks below it, in the tree of the
recursive depth-first search from the entry, whatever the edges. So two blocks of which neither is
above the other share no variable that one of them makes. A variable that is made in a block which
cannot be reached stays in that block. -/
theorem isolated_promote {s : Scope} {code : List Instruction} {g : Graph}
    {journal journal' : Journal}
    (hfill : (s.fill code g).run.run journal = (.ok ctx.graph, journal')) :
    ∃ tree, (∀ t, ctx.graph.DepthFirst ctx.graph.entryCalls [] t ↔ t = tree) ∧
      (∀ v, ctx.entryState.vars.size ≤ v → v < ctx.promote.1.vars.size → ∃! b, ctx.Makes b v) ∧
      ∀ b v, ctx.Makes b v → ∀ i x, ctx.promote.1.graph.block? i = some x →
        (∃ a ∈ x.statements, .var v ∈ a.expr.leaves) →
          Relation.ReflTransGen (ParentIn tree) b i ∧
            ((∀ path, ¬ ctx.graph.Walk path b) → i = b) := by
  have hg := Graph.allLifted_of_fill hfill
  obtain ⟨htour, -⟩ := toured_allVisits hg
  obtain ⟨tree, hsearch, htree⟩ := ctx.exists_tree
  refine ⟨tree, fun t => ?_, fun v => existsUnique_makes hg, ?_⟩
  · constructor
    · exact fun h => h.unique hsearch
    · rintro rfl
      exact hsearch
  · rintro b v ⟨u, hu, rfl, hmade⟩ i x hx ⟨a, ha, hleaf⟩
    have hcode := mem_code_promote hg hx ha
    obtain ⟨w, hw, rfl, hbody⟩ := exists_visit_of_code hg hcode
    rw [hbody] at hcode
    rcases (w.promotesAll hg).origin hg.code (.inr ⟨a.expr, hcode, hleaf⟩) with hknown | hmade'
    · rcases exists_maker hg htree hw hknown with hlt | ⟨u', hu', hmade', hbelow⟩
      · have hle := (htour.begun u hu).size_le.trans (Variables.mem_added.mp hmade).1
        exact absurd hlt (Nat.not_lt.mpr hle)
      · obtain rfl := htour.eq_of_made (List.mem_append_left _ hu') hu hmade' hmade
        obtain ⟨path, htrail⟩ := exists_trail_of_mem hu'
        obtain ⟨path, hwalk⟩ := walk_of_trail hg htrail
        exact ⟨hbelow, fun hno => absurd hwalk (hno path)⟩
    · obtain rfl := htour.eq_of_made hw hu hmade' hmade
      exact ⟨.refl, fun _ => rfl⟩

end MethodLift.Context

namespace MethodLift

/-! ## A join inside a loop, and a block that cannot be reached -/

/-- Code that sets a register on both sides of a comparison and starts again while it is zero. -/
def weave : List Instruction :=
  [⟨0, .compare, [.register "ecx", .immediate 0], .next⟩, ⟨1, .jumpIfEqual, [.target 5], .branch⟩,
    ⟨2, .move, [.register "eax", .register "edx"], .next⟩, ⟨3, .goto, [.target 6], .jump⟩,
    ⟨4, .move, [.register "eax", .register "r9d"], .next⟩,
    ⟨5, .move, [.register "eax", .register "r8d"], .next⟩,
    ⟨6, .compare, [.register "eax", .immediate 0], .next⟩, ⟨7, .jumpIfEqual, [.target 0], .branch⟩,
    ⟨8, .ret, [.register "eax"], .ret⟩]

def weaveFilled : Except Error Graph × Journal :=
  (Scope.fill ⟨{ isa := .x64 }, { id := 0, name := "weave", declaringName := "Sample" }⟩ weave
    ((Graph.ofCode weave).toOption.getD {})).run.run {}

def weaveContext : Context where
  image := { isa := .x64 }
  method := { id := 0, name := "weave", declaringName := "Sample" }
  graph := weaveFilled.1.toOption.getD {}

/-- The join is found below the jump target. -/
def weaveTree : List Graph.Call :=
  [(none, 0), (some 0, 3), (some 3, 4), (some 4, 5), (some 0, 1)]

/-- The search, step by step. -/
theorem depthFirst_weave :
    weaveContext.graph.DepthFirst weaveContext.graph.entryCalls [] weaveTree := by
  have hentry : weaveContext.graph.entryCalls = [(none, 0)] := by decide +kernel
  have h0 : weaveContext.graph.successors 0 = [3, 1] := by decide +kernel
  have h1 : weaveContext.graph.successors 1 = [4] := by decide +kernel
  have h3 : weaveContext.graph.successors 3 = [4] := by decide +kernel
  have h4 : weaveContext.graph.successors 4 = [0, 5] := by decide +kernel
  have h5 : weaveContext.graph.successors 5 = [] := by decide +kernel
  have htaken : weaveContext.graph.DepthFirst ((weaveContext.graph.successors 3).map (some 3, ·))
      [(none, 0), (some 0, 3)] [(none, 0), (some 0, 3), (some 3, 4), (some 4, 5)] := by
    rw [h3]
    refine .enter (by decide) ?_ .done
    rw [h4]
    refine .skip (by decide) (.enter (by decide) ?_ .done)
    rw [h5]
    exact .done
  have hother : weaveContext.graph.DepthFirst ((weaveContext.graph.successors 1).map (some 1, ·))
      weaveTree weaveTree := by
    rw [h1]
    exact .skip (by decide) .done
  rw [hentry]
  refine .enter (by decide) ?_ .done
  rw [h0]
  exact .enter (by decide) htaken (.enter (by decide) hother .done)

open Graph in
/-- The variable of the one side does not occur in the join, although control goes there. -/
theorem Context.isolated_promote_weave :
    weaveContext.Makes 1 4 ∧ 4 ∈ weaveContext.graph.successors 1 ∧
      ∀ i x, weaveContext.promote.1.graph.block? i = some x →
        (∃ a ∈ x.statements, .var 4 ∈ a.expr.leaves) → i = 1 := by
  have hfill : weaveFilled = (.ok weaveContext.graph, weaveFilled.2) :=
    eq_ok_of_isSome (by decide +kernel) {}
  have hmakes : weaveContext.Makes 1 4 := by
    show ∃ u ∈ _, _
    decide +kernel
  obtain ⟨tree, hsearch, -, hstay⟩ := isolated_promote hfill
  obtain rfl := (hsearch weaveTree).mp depthFirst_weave
  refine ⟨hmakes, by decide +kernel, fun i x hx hleaf => ?_⟩
  -- The search found no block from the one that falls through to the join.
  rcases (hstay 1 4 hmakes i x hx hleaf).1.cases_head with heq | ⟨j, hedge, -⟩
  · exact heq.symm
  · simp [ParentIn, weaveTree] at hedge

end MethodLift
