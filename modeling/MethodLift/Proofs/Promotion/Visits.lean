import MethodLift.Proofs.Block.Assignments
import MethodLift.Proofs.Promotion.Fresh

/-!
# Visiting blocks

The visits of a promotion in order: the block that each block was first reached from, and the
variables and bindings at its start. `Promotion.visits` follows the search with these data; that
it is the same search is said by `toured_visitReachable`. A tour that is over has one visit of each
block, and the code of a block is what its visit made of it.
-/

namespace MethodLift

/-- The statements are those of lifted code. -/
def Graph.AllLifted (g : Graph) : Prop :=
  ∀ b ∈ g.blocks, ∀ s ∈ b.statements, s.expr.Lifted ∧ s.eliminated = false

theorem Block.code_of_live {b : Block} (h : ∀ s ∈ b.statements, s.eliminated = false) :
    b.code = b.statements.map (·.expr) := by
  have hlive : b.live = b.statements := List.filter_eq_self.mpr fun s hs => by simp [h s hs]
  rw [code, hlive]

theorem Graph.allLifted_of_filled {s : Scope} {code : List Instruction} {g g' : Graph}
    (h : List.Forall₂ (s.Filled code) g.blocks g'.blocks) : g'.AllLifted := by
  intro b hb
  obtain ⟨b₀, -, part, j, -, rfl⟩ := exists_of_forall₂ h hb
  exact s.lifted_statements b₀.id part j

/-- Blocks that were filled hold lifted code. -/
theorem Graph.allLifted_of_fill {s : Scope} {code : List Instruction} {g g' : Graph}
    {journal journal' : Journal} (h : (s.fill code g).run.run journal = (.ok g', journal')) :
    g'.AllLifted :=
  allLifted_of_filled (s.filled_fill h)

/-- Filling blocks with statements changes nothing else. -/
theorem Graph.sameHeads_of_fill {s : Scope} {code : List Instruction} {g g' : Graph}
    {journal journal' : Journal} (h : (s.fill code g).run.run journal = (.ok g', journal')) :
    g.SameHeads g' := by
  have hheads : g'.blocks.map (·.toBlockHead) = g.blocks.map (·.toBlockHead) := by
    have hfilled := s.filled_fill h
    generalize g.blocks = bs at hfilled
    generalize g'.blocks = bs' at hfilled
    induction hfilled with
    | nil => rfl
    | cons hb _ ih =>
      obtain ⟨part, j, -, rfl⟩ := hb
      rw [List.map_cons, List.map_cons, ih]
  intro i
  have hi := congrArg (·[i]?) hheads
  simp only [List.getElem?_map] at hi
  exact hi

/-- The code of every block is lifted. -/
theorem Graph.AllLifted.code {g : Graph} (h : g.AllLifted) {id : BlockId} :
    ∀ e ∈ g.code id, e.Lifted := by
  intro e he
  obtain ⟨b, hb, he⟩ := Graph.exists_block?_of_mem_code he
  obtain ⟨s, hs, rfl⟩ := List.mem_map.mp he
  exact (h b (Graph.mem_blocks_of_block? hb) s (List.mem_of_mem_filter hs)).1

namespace Promotion

open Expr (assignedIn)

/-- A visit of a block. -/
structure Visit where
  /-- The block that it was first reached from. -/
  parent : Option BlockId
  block : BlockId
  /-- The variables and bindings at its start. -/
  start : State

namespace Visit

variable (sp : String) (g : Graph)

def run (v : Visit) : List Statement × State :=
  match g.block? v.block with
  | some b => (statements sp b.statements).run v.start
  | none => ([], v.start)

/-- The variables and bindings at the end of the block. -/
def finish (v : Visit) : State := (v.run sp g).2

def body (v : Visit) : List Expr := (v.run sp g).1.map (·.expr)

variable {sp g}

/-- A visit promotes the code of its block, from its start to its finish. -/
theorem promotesAll (hg : g.AllLifted) (v : Visit) :
    PromotesAll sp v.start (g.code v.block) (v.body sp g) (v.finish sp g) := by
  unfold body finish run Graph.code
  cases hb : g.block? v.block with
  | none => exact .nil
  | some b =>
    have hlive : ∀ s ∈ b.statements, s.eliminated = false :=
      fun s hs => (hg b (Graph.mem_blocks_of_block? hb) s hs).2
    dsimp only
    rw [Block.code_of_live hlive]
    exact (promotesAll_statements sp hlive v.start).1

/-- A visit eliminates nothing. -/
theorem live_run (hg : g.AllLifted) (v : Visit) :
    ∀ s ∈ (v.run sp g).1, s.eliminated = false := by
  unfold run
  cases hb : g.block? v.block with
  | none => exact List.forall_mem_nil _
  | some b =>
    have hlive : ∀ s ∈ b.statements, s.eliminated = false :=
      fun s hs => (hg b (Graph.mem_blocks_of_block? hb) s hs).2
    exact (promotesAll_statements sp hlive v.start).2

/-- The code of a block after its visit. -/
theorem code_run (hg : g.AllLifted) (v : Visit) :
    (match (g.block? v.block).map fun b => { b with statements := (v.run sp g).1 } with
      | some b => b.code
      | none => []) = v.body sp g := by
  have hlive : ∀ s ∈ (v.run sp g).1, s.eliminated = false := v.live_run hg
  unfold body
  cases hb : g.block? v.block with
  | none => simp [run, hb]
  | some b => exact Block.code_of_live hlive

/-- A visit only adds variables. -/
theorem vars_extends (hg : g.AllLifted) (v : Visit) :
    v.start.vars.Extends (v.finish sp g).vars :=
  (v.promotesAll hg).vars_extends

end Visit

/-- The visits of a depth-first search in order. An entry of the stack has the block that it comes
from, the block to visit, and the bindings at its start. -/
def visits (sp : String) (g : Graph) : Nat → List (Option BlockId × BlockId × Bindings) →
    List BlockId → Variables → List Visit
  | 0, _, _, _ => []
  | steps + 1, stack, visited, vars =>
    match stack.dropWhile fun entry => visited.contains entry.2.1 with
    | [] => []
    | (parent, id, bindings) :: rest =>
      let v : Visit := { parent, block := id, start := { vars, bindings } }
      let s := v.finish sp g
      v :: visits sp g steps
        ((g.successors id).map (fun next => (some id, next, s.bindings)) ++ rest)
        (visited ++ [id]) s.vars

/-- The visits of those blocks of a list that were not visited before, each without bindings. -/
def strays (sp : String) (g : Graph) : List BlockId → List BlockId → Variables → List Visit
  | [], _, _ => []
  | id :: rest, visited, vars =>
    if visited.contains id then strays sp g rest visited vars
    else
      let v : Visit := { parent := none, block := id, start := { vars, bindings := {} } }
      v :: strays sp g rest (visited ++ [id]) (v.finish sp g).vars

/-- A block that cannot be reached starts without bindings. -/
theorem bindings_of_mem_strays {sp : String} {g : Graph} {ids visited : List BlockId}
    {vars : Variables} {v : Visit} (h : v ∈ strays sp g ids visited vars) :
    v.start.bindings = {} := by
  induction ids generalizing visited vars with
  | nil => cases h
  | cons id rest ih =>
    rw [strays] at h
    split at h
    · exact ih h
    · rcases List.mem_cons.mp h with rfl | h
      · rfl
      · exact ih h

/-- Visits in a row: each starts with the variables that the one before it left. -/
def Chained (sp : String) (g : Graph) : Variables → List Visit → Variables → Prop
  | vars, [], vars' => vars' = vars
  | vars, v :: rest, vars' =>
    v.start.vars = vars ∧ Chained sp g (v.finish sp g).vars rest vars'

theorem Chained.snoc {sp : String} {g : Graph} {vars vars' : Variables} {vs : List Visit}
    (h : Chained sp g vars vs vars') {v : Visit} (hv : v.start.vars = vars') :
    Chained sp g vars (vs ++ [v]) (v.finish sp g).vars := by
  induction vs generalizing vars with
  | nil => exact ⟨hv.trans h, rfl⟩
  | cons u rest ih => exact ⟨h.1, ih h.2⟩

/-! ## The tree of visits -/

section Visits

variable {sp : String} {g : Graph}

/-- Later visits start with all variables of earlier ones. -/
theorem visits_extends (hg : g.AllLifted) (steps : Nat)
    (stack : List (Option BlockId × BlockId × Bindings)) (visited : List BlockId)
    (vars : Variables) : ∀ v ∈ visits sp g steps stack visited vars, vars.Extends v.start.vars := by
  fun_induction visits sp g steps stack visited vars with
  | case1 => simp
  | case2 => simp
  | case3 steps stack visited vars parent id bindings rest hdrop v s ih =>
    intro u hu
    rcases List.mem_cons.mp hu with rfl | hu
    · exact .refl _
    · exact (v.vars_extends hg).trans (ih u hu)

/-- A visit comes from the stack, or from the end of an earlier visit along an edge. -/
theorem visits_linked (hg : g.AllLifted) (steps : Nat)
    (stack : List (Option BlockId × BlockId × Bindings)) (visited : List BlockId)
    (vars : Variables) : ∀ v ∈ visits sp g steps stack visited vars,
      (v.parent, v.block, v.start.bindings) ∈ stack ∨
      ∃ u ∈ visits sp g steps stack visited vars, v.parent = some u.block ∧
        v.start.bindings = (u.finish sp g).bindings ∧ v.block ∈ g.successors u.block ∧
        (u.finish sp g).vars.Extends v.start.vars := by
  fun_induction visits sp g steps stack visited vars with
  | case1 => simp
  | case2 => simp
  | case3 steps stack visited vars parent id bindings rest hdrop v s ih =>
    have hsub : ∀ entry ∈ (parent, id, bindings) :: rest, entry ∈ stack := by
      rw [← hdrop]
      exact fun entry h => List.dropWhile_subset _ h
    intro u hu
    rcases List.mem_cons.mp hu with rfl | hu
    · exact .inl (hsub _ List.mem_cons_self)
    · rcases ih u hu with hstack | ⟨w, hw, hrest⟩
      · rcases List.mem_append.mp hstack with hnew | hold
        · obtain ⟨next, hnext, heq⟩ := List.mem_map.mp hnew
          simp only [Prod.mk.injEq] at heq
          refine .inr ⟨v, List.mem_cons_self, heq.1.symm, heq.2.2.symm, ?_, ?_⟩
          · exact heq.2.1 ▸ hnext
          · exact visits_extends hg _ _ _ _ u hu
        · exact .inl (hsub _ (List.mem_cons_of_mem _ hold))
      · exact .inr ⟨w, List.mem_cons_of_mem _ hw, hrest⟩

/-- The search is the one for the blocks that can be reached. -/
theorem visit_eq_visits (steps : Nat) (stack : List (Option BlockId × BlockId × Bindings))
    (visited : List BlockId) (vars : Variables) :
    g.visit steps (stack.map (·.2.1)) visited =
      visited ++ (visits sp g steps stack visited vars).map Visit.block := by
  induction steps generalizing stack visited vars with
  | zero => simp [Graph.visit, visits]
  | succ steps ih =>
    have hmap := List.dropWhile_map (f := fun entry : Option BlockId × BlockId × Bindings =>
      entry.2.1) (l := stack) (p := visited.contains)
    cases hdrop : stack.dropWhile fun entry => visited.contains entry.2.1 with
    | nil =>
      have hdrop' := hmap.trans (congrArg (List.map (·.2.1)) hdrop)
      simp only [Graph.visit, visits, hdrop, hdrop', List.map_nil, List.append_nil]
    | cons entry rest =>
      obtain ⟨parent, id, bindings⟩ := entry
      have hdrop' := hmap.trans (congrArg (List.map (·.2.1)) hdrop)
      have hall := ih ((g.successors id).map (fun next => (some id, next,
        (Visit.finish sp g ⟨parent, id, { vars, bindings }⟩).bindings)) ++ rest)
        (visited ++ [id]) (Visit.finish sp g ⟨parent, id, { vars, bindings }⟩).vars
      have hnext : ((g.successors id).map fun next => (some id, next,
          (Visit.finish sp g ⟨parent, id, { vars, bindings }⟩).bindings)).map (·.2.1) =
          g.successors id := by
        rw [List.map_map]
        exact List.map_id _
      rw [List.map_append, hnext, List.append_assoc] at hall
      simp only [Graph.visit, visits, hdrop, hdrop', List.map_cons]
      exact hall

/-- No block is visited twice. -/
theorem visits_nodup (steps : Nat) (stack : List (Option BlockId × BlockId × Bindings))
    (visited : List BlockId) (vars : Variables) (h : visited.Nodup) :
    (visited ++ (visits sp g steps stack visited vars).map Visit.block).Nodup := by
  fun_induction visits sp g steps stack visited vars with
  | case1 => simpa using h
  | case2 => simpa using h
  | case3 steps stack visited vars parent id bindings rest hdrop v s ih =>
    have hnew : id ∉ visited := Graph.not_mem_of_dropWhile hdrop
    have hnodup : (visited ++ [id]).Nodup := by
      rw [List.nodup_append_comm]
      exact List.nodup_cons.mpr ⟨hnew, h⟩
    have hall := ih hnodup
    rw [List.append_assoc] at hall
    exact hall

end Visits

/-! ## Paths -/

/-- A path along the edges by which blocks were first reached, with the visit of its last
block. -/
inductive Trail (vs : List Visit) : List BlockId → Visit → Prop
  | entry {v : Visit} (hv : v ∈ vs) (hroot : v.parent = none) : Trail vs [v.block] v
  | step {path : List BlockId} {u v : Visit} (h : Trail vs path u) (hv : v ∈ vs)
    (hparent : v.parent = some u.block) : Trail vs (path ++ [v.block]) v

theorem Trail.mem {vs : List Visit} {path : List BlockId} {v : Visit} (h : Trail vs path v) :
    v ∈ vs := by
  cases h with
  | entry hv => exact hv
  | step _ hv => exact hv

/-! ## Tours -/

/-- A tour after some visits, which began with given variables. -/
structure Toured (sp : String) (g : Graph) (base : Variables) (vs : List Visit) (t : Tour) :
    Prop where
  visited : t.visited = vs.map Visit.block
  nodup : t.visited.Nodup
  code : ∀ v ∈ vs, t.graph.code v.block = v.body sp g
  untouched : ∀ i ∉ t.visited, t.graph.block? i = g.block? i
  heads : g.SameHeads t.graph
  live : ∀ {i b}, t.graph.block? i = some b → ∀ s ∈ b.statements, s.eliminated = false
  ordered : vs.Pairwise fun u v => (u.finish sp g).vars.Extends v.start.vars
  sound : ∀ v ∈ vs, Sound sp v.start
  begun : ∀ v ∈ vs, base.Extends v.start.vars
  done : ∀ v ∈ vs, (v.finish sp g).vars.Extends t.vars
  vars_extends : base.Extends t.vars
  chained : Chained sp g base vs t.vars

section Toured

variable {sp : String} {g : Graph} {base : Variables} {vs : List Visit} {t : Tour}

/-- Before the first visit the graph is as it was. -/
theorem toured_nil (sp : String) (hg : g.AllLifted) (vars : Variables) :
    Toured sp g vars [] { graph := g, vars } where
  visited := rfl
  nodup := .nil
  code := by simp
  untouched _ _ := rfl
  heads _ := rfl
  live hb s hs := (hg _ (Graph.mem_blocks_of_block? hb) s hs).2
  ordered := .nil
  sound := by simp
  begun := by simp
  done := by simp
  vars_extends := .refl _
  chained := rfl

/-- What a visit of a block that was not visited before does. -/
theorem visitBlock_eq (h : Toured sp g base vs t) {id : BlockId} (hnew : id ∉ t.visited)
    (parent : Option BlockId) (bindings : Bindings) :
    let v : Visit := { parent, block := id, start := { vars := t.vars, bindings } }
    let p := visitBlock sp id bindings t
    p.2 = (v.finish sp g).bindings ∧ p.1.vars = (v.finish sp g).vars ∧
      p.1.visited = t.visited ++ [id] ∧
      ∀ i, p.1.graph.block? i =
        if i = id then (g.block? id).map fun b => { b with statements := (v.run sp g).1 }
        else t.graph.block? i := by
  have hblock := h.untouched id hnew
  cases hb : g.block? id with
  | none =>
    rw [hb] at hblock
    simp only [visitBlock, Visit.finish, Visit.run, hblock, hb]
    refine ⟨trivial, trivial, trivial, fun i => ?_⟩
    split
    · rename_i hi
      rw [hi, hblock]
      rfl
    · rfl
  | some b =>
    rw [hb] at hblock
    simp only [visitBlock, Visit.finish, Visit.run, hblock, hb]
    refine ⟨rfl, rfl, rfl, fun i => ?_⟩
    by_cases hi : i = id
    · rw [if_pos hi, hi]
      exact (Graph.block?_modify_self _ _ _).trans (by rw [hblock]; rfl)
    · rw [if_neg hi]
      exact Graph.block?_modify_of_ne _ _ (Ne.symm hi)

/-- One more visit rewrites one more block. What was known of the blocks visited before stays, and
the new one is promoted from the variables so far. -/
theorem Toured.visit (h : Toured sp g base vs t) (hg : g.AllLifted) {id : BlockId}
    (hnew : id ∉ t.visited) (parent : Option BlockId) {bindings : Bindings}
    (hsound : Sound sp { vars := t.vars, bindings }) :
    Toured sp g base (vs ++ [{ parent, block := id, start := { vars := t.vars, bindings } }])
      (visitBlock sp id bindings t).1 := by
  obtain ⟨-, hvars, hvisited, hgraph⟩ := visitBlock_eq h hnew parent bindings
  generalize hv : ({ parent, block := id, start := { vars := t.vars, bindings } } : Visit) = v at *
  have hid : v.block = id := by rw [← hv]
  have hfrom : v.start.vars = t.vars := by rw [← hv]
  have hstart : Sound sp v.start := by
    rw [← hv]
    exact hsound
  refine ⟨?_, ?_, fun u hu => ?_, fun i hi => ?_, fun i => ?_, fun {i b} hb => ?_, ?_,
    fun u hu => ?_, fun u hu => ?_, fun u hu => ?_, ?_, ?_⟩
  · rw [hvisited, h.visited, List.map_append, List.map_singleton, hid]
  · rw [hvisited, List.nodup_append_comm]
    exact List.nodup_cons.mpr ⟨hnew, h.nodup⟩
  · rcases List.mem_append.mp hu with hu | hu
    · have hne : u.block ≠ id := by
        rintro rfl
        exact hnew (h.visited ▸ List.mem_map_of_mem hu)
      rw [Graph.code, hgraph, if_neg hne]
      exact h.code u hu
    · rw [List.mem_singleton.mp hu, Graph.code, hgraph, if_pos hid, ← hid]
      exact v.code_run hg
  · rw [hvisited, List.mem_append, List.mem_singleton, not_or] at hi
    rw [hgraph, if_neg hi.2]
    exact h.untouched i hi.1
  · rw [hgraph]
    split
    · rename_i hi
      rw [hi, Option.map_map]
      rfl
    · exact h.heads i
  · rw [hgraph] at hb
    split at hb
    · rw [← hid] at hb
      obtain ⟨c, hc, rfl⟩ := Option.map_eq_some_iff.mp hb
      exact v.live_run hg
    · exact h.live hb
  · refine List.pairwise_append.mpr ⟨h.ordered, List.pairwise_singleton _ _, ?_⟩
    intro u hu w hw
    rw [List.mem_singleton.mp hw, hfrom]
    exact h.done u hu
  · rcases List.mem_append.mp hu with hu | hu
    · exact h.sound u hu
    · rw [List.mem_singleton.mp hu]
      exact hstart
  · rcases List.mem_append.mp hu with hu | hu
    · exact h.begun u hu
    · rw [List.mem_singleton.mp hu, hfrom]
      exact h.vars_extends
  · rw [hvars]
    rcases List.mem_append.mp hu with hu | hu
    · exact (h.done u hu).trans (hfrom ▸ v.vars_extends hg)
    · rw [List.mem_singleton.mp hu]
      exact .refl _
  · rw [hvars]
    exact h.vars_extends.trans (hfrom ▸ v.vars_extends hg)
  · rw [hvars]
    exact h.chained.snoc hfrom

/-- The blocks that can be reached are visited by `visits`. -/
theorem toured_visitReachable (hg : g.AllLifted) (steps : Nat)
    (stack : List (Option BlockId × BlockId × Bindings))
    (hstack : ∀ entry ∈ stack, Sound sp { vars := t.vars, bindings := entry.2.2 })
    (h : Toured sp g base vs t) :
    Toured sp g base (vs ++ visits sp g steps stack t.visited t.vars)
      (visitReachable sp steps (stack.map Prod.snd) t) := by
  induction steps generalizing vs t stack with
  | zero => simpa [visits, visitReachable] using h
  | succ steps ih =>
    have hmap := List.dropWhile_map (f := Prod.snd) (l := stack)
      (p := fun entry : BlockId × Bindings => t.visited.contains entry.1)
    cases hdrop : stack.dropWhile fun entry => t.visited.contains entry.2.1 with
    | nil =>
      have hdrop' := hmap.trans (congrArg (List.map Prod.snd) hdrop)
      simp only [visits, visitReachable, hdrop, hdrop', List.map_nil, List.append_nil]
      exact h
    | cons entry rest =>
      obtain ⟨parent, id, bindings⟩ := entry
      have hdrop' := hmap.trans (congrArg (List.map Prod.snd) hdrop)
      have hnew : id ∉ t.visited := Graph.not_mem_of_dropWhile hdrop
      have hsub : ∀ entry ∈ (parent, id, bindings) :: rest, entry ∈ stack := by
        rw [← hdrop]
        exact fun entry h => List.dropWhile_subset _ h
      have hsound := hstack _ (hsub _ List.mem_cons_self)
      obtain ⟨hbindings, hvars, hvisited, -⟩ := visitBlock_eq h hnew parent bindings
      have hnext := h.visit hg hnew parent hsound
      have hext := @Visit.vars_extends sp g hg ⟨parent, id, { vars := t.vars, bindings }⟩
      simp only [visits, visitReachable, hdrop, hdrop', List.map_cons]
      rw [hnext.heads.successors_eq, hbindings, ← List.singleton_append, ← List.append_assoc,
        ← hvisited, ← hvars]
      have hall := ih ((g.successors id).map (fun next => (some id, next,
        (Visit.finish sp g ⟨parent, id, { vars := t.vars, bindings }⟩).bindings)) ++ rest)
        (fun entry hentry => ?_) hnext
      · rw [List.map_append, List.map_map] at hall
        exact hall
      · rw [hvars]
        rcases List.mem_append.mp hentry with hentry | hentry
        · obtain ⟨next, -, rfl⟩ := List.mem_map.mp hentry
          exact ((Visit.promotesAll hg ⟨parent, id, { vars := t.vars, bindings }⟩).sound
            hsound).later rfl (.refl _)
        · exact (hstack entry (hsub _ (List.mem_cons_of_mem _ hentry))).later rfl hext

/-- Visiting blocks of a list that were not visited before. -/
theorem toured_foldl (hg : g.AllLifted) (ids : List BlockId) (h : Toured sp g base vs t) :
    let t' := ids.foldl
      (fun t id => if t.visited.contains id then t else (visitBlock sp id {} t).1) t
    Toured sp g base (vs ++ strays sp g ids t.visited t.vars) t' ∧ t.visited ⊆ t'.visited ∧
      ids ⊆ t'.visited := by
  induction ids generalizing vs t with
  | nil => exact ⟨by simpa [strays] using h, List.Subset.refl _, List.nil_subset _⟩
  | cons id rest ih =>
    rw [List.foldl_cons, strays]
    split
    · rename_i hold
      obtain ⟨hall, hsub, hrest⟩ := ih h
      exact ⟨hall, hsub, List.cons_subset.mpr ⟨hsub (List.contains_iff_mem.mp hold), hrest⟩⟩
    · rename_i hnew
      have hnew : id ∉ t.visited := fun hmem => hnew (List.contains_iff_mem.mpr hmem)
      obtain ⟨-, hvars, hvisited, -⟩ := visitBlock_eq h hnew none {}
      obtain ⟨hall, hsub, hrest⟩ := ih (h.visit hg hnew none sound_empty)
      rw [hvisited, hvars, List.append_assoc] at hall
      rw [hvisited] at hsub
      refine ⟨hall, ?_, ?_⟩
      · exact List.Subset.trans (List.subset_append_left _ _) hsub
      · exact List.cons_subset.mpr ⟨hsub (List.mem_append_right _ List.mem_cons_self), hrest⟩

/-- All other blocks are visited in the end. -/
theorem toured_visitRest (hg : g.AllLifted) (h : Toured sp g base vs t) :
    Toured sp g base (vs ++ strays sp g (List.range g.size) t.visited t.vars) (visitRest sp t) ∧
      ∀ i < g.size, i ∈ (visitRest sp t).visited := by
  obtain ⟨hall, -, hids⟩ := toured_foldl hg (List.range t.graph.size) h
  rw [← h.heads.size_eq]
  exact ⟨hall, fun i hi => hids (List.mem_range.mpr hi)⟩

/-- Whatever code there is in the end comes from some visit. -/
theorem Toured.exists_visit (h : Toured sp g base vs t) (hall : ∀ i < g.size, i ∈ t.visited)
    {e : Expr} {i : BlockId} (he : e ∈ t.graph.code i) :
    ∃ u ∈ vs, u.block = i ∧ t.graph.code i = u.body sp g := by
  have hi : i < g.size := by
    obtain ⟨b, hb, -⟩ := Graph.exists_block?_of_mem_code he
    rw [← h.heads.size_eq]
    exact Graph.block?_lt hb
  have hvisited := hall i hi
  rw [h.visited] at hvisited
  obtain ⟨u, hu, rfl⟩ := List.mem_map.mp hvisited
  exact ⟨u, hu, rfl, h.code u hu⟩

/-- Whatever is assigned to in the end is assigned to in some visit. -/
theorem Toured.exists_assigned (h : Toured sp g base vs t) (hg : g.AllLifted)
    (hall : ∀ i < g.size, i ∈ t.visited) {a : VarId} {i : BlockId}
    (ha : a ∈ assignedIn (t.graph.code i)) : ∃ u ∈ vs, u.block = i ∧
      a ∈ assignedIn (u.body sp g) ∧ u.start.vars.size ≤ a ∧ a < (u.finish sp g).vars.size := by
  obtain ⟨e, he, -⟩ := List.mem_filterMap.mp ha
  obtain ⟨u, hu, hblock, hcode⟩ := h.exists_visit hall he
  rw [hcode] at ha
  exact ⟨u, hu, hblock, ha, (u.promotesAll hg).assigned_bounds hg.code a ha⟩

/-- Of two visits, one comes first, and the other starts with all of its variables. -/
theorem Toured.total (h : Toured sp g base vs t) {u v : Visit} (hu : u ∈ vs) (hv : v ∈ vs) :
    u = v ∨ (u.finish sp g).vars.Extends v.start.vars ∨
      (v.finish sp g).vars.Extends u.start.vars := by
  exact List.Pairwise.forall_of_forall_of_flip (R := fun u v => u = v ∨
    (u.finish sp g).vars.Extends v.start.vars ∨ (v.finish sp g).vars.Extends u.start.vars)
    (fun _ _ => .inl rfl) (h.ordered.imp fun hle => .inr (.inl hle))
    (h.ordered.imp fun hle => .inr (.inr hle)) hu hv

/-- The variables that were made during a visit are assigned to in the same block or not at all. -/
theorem Toured.apart (h : Toured sp g base vs t) (hg : g.AllLifted)
    (hall : ∀ i < g.size, i ∈ t.visited) {v : Visit} (hv : v ∈ vs) :
    Apart t.graph.Assigns v.start (v.body sp g) (v.finish sp g) := by
  rintro a ⟨i, ha⟩
  obtain ⟨u, hu, -, hbody, hle, hlt⟩ := h.exists_assigned hg hall ha
  rcases h.total hu hv with rfl | hbefore | hafter
  · exact .inr (.inl hbody)
  · exact .inl (hlt.trans_le hbefore.size_le)
  · exact .inr (.inr (hafter.size_le.trans hle))

/-- Variables that were there before are not assigned to. -/
theorem Toured.not_assigns (h : Toured sp g base vs t) (hg : g.AllLifted)
    (hall : ∀ i < g.size, i ∈ t.visited) {a : VarId} (ha : a < base.size) :
    ¬ t.graph.Assigns a := by
  rintro ⟨i, hmem⟩
  obtain ⟨u, hu, -, -, hle, -⟩ := h.exists_assigned hg hall hmem
  exact absurd ha (Nat.not_lt.mpr ((h.begun u hu).size_le.trans hle))

end Toured

end Promotion

end MethodLift
