import MethodLift.Proofs.Block.DepthFirst
import MethodLift.Proofs.Block.Edits

/-!
# The search for the blocks that can be reached

`Graph.search` is the loop of the search in full. It takes one entry off the stack at a time, drops
the entry if its block was visited while it waited, and else puts on the stack those successors that
were not visited yet. The stack may grow, but only when a block is visited for the first time, so
the loop ends.

The loop and `Graph.reachable`, which skips stale entries in one go, both follow the recursive
search `Graph.DepthFirst`, and that has one outcome.
-/

namespace MethodLift.Graph

variable {g : Graph} {i j : BlockId}

/-! ## The loop -/

def unvisited (g : Graph) (order : List BlockId) : Nat := unmet id (List.range g.size) order

theorem unvisited_concat_le (g : Graph) (order : List BlockId) (i : BlockId) :
    g.unvisited (order ++ [i]) ≤ g.unvisited order :=
  unmet_le (List.subset_append_left _ _)

/-- Visiting a block for the first time leaves one block less. -/
theorem unvisited_concat_lt {order : List BlockId} (hi : i < g.size) (hnew : i ∉ order) :
    g.unvisited (order ++ [i]) < g.unvisited order := by
  refine unmet_lt (List.subset_append_left _ _) (List.mem_range.mpr hi) hnew ?_
  exact List.mem_append_right _ List.mem_cons_self

/-- Where nothing is left to visit, every block was visited. -/
theorem mem_of_unvisited_eq_zero {order : List BlockId} (h : g.unvisited order = 0)
    (hi : i < g.size) : i ∈ order := by
  have hnone := List.filter_eq_nil_iff.mp (List.length_eq_zero_iff.mp h)
  simpa using hnone i (List.mem_range.mpr hi)

theorem successors_of_size_le (h : g.size ≤ i) : g.successors i = [] := by
  have hnone : g.block? i = none := List.getElem?_eq_none h
  rw [successors, hnone]

/-- The loop of the search. Blocks wait on the stack, its top first; those that were visited are
listed in order. -/
def search (g : Graph) (stack order : List BlockId) : List BlockId :=
  match stack with
  | [] => order
  | id :: rest =>
    if id ∈ order then g.search rest order
    else g.search ((g.successors id).filter (· ∉ order ++ [id]) ++ rest) (order ++ [id])
termination_by (g.unvisited order, stack.length)
decreasing_by
  · exact Prod.Lex.right _ (Nat.lt_succ_self _)
  · rename_i hnew
    rcases Nat.lt_or_ge id g.size with hlt | hge
    · exact Prod.Lex.left _ _ (unvisited_concat_lt hlt hnew)
    -- A block that is missing has no successors, so the stack gets shorter.
    · rw [successors_of_size_le hge]
      rcases Nat.lt_or_eq_of_le (g.unvisited_concat_le order id) with hlt | heq
      · exact Prod.Lex.left _ _ hlt
      · rw [heq]
        exact Prod.Lex.right _ (Nat.lt_succ_self _)

/-- The loop finds what the recursive search finds, in the same order. -/
theorem exists_depthFirst_search (g : Graph) (stack order : List BlockId) :
    ∀ calls found : List Call, calls.map Prod.snd = stack → found.map Prod.snd = order →
      ∃ tree, g.DepthFirst calls found tree ∧ tree.map Prod.snd = g.search stack order := by
  fun_induction search g stack order with
  | case1 order =>
    intro calls found hcalls hfound
    obtain rfl := List.map_eq_nil_iff.mp hcalls
    exact ⟨found, .done, hfound⟩
  | case2 order id rest hold ih =>
    intro calls found hcalls hfound
    obtain ⟨call, calls, rfl, rfl, hrest⟩ := List.map_eq_cons_iff.mp hcalls
    obtain ⟨tree, hsearch, htree⟩ := ih calls found hrest hfound
    exact ⟨tree, .skip (hfound ▸ hold) hsearch, htree⟩
  | case3 order id rest hnew ih =>
    intro calls found hcalls hfound
    obtain ⟨call, calls, rfl, rfl, hrest⟩ := List.map_eq_cons_iff.mp hcalls
    have hfound' : (found ++ [call]).map Prod.snd = order ++ [call.2] := by
      rw [List.map_append, hfound]
      rfl
    let next := (g.successors call.2).map fun j => (some call.2, j)
    let fresh := next.filter fun c => c.2 ∉ order ++ [call.2]
    have hfresh : fresh.map Prod.snd =
        (g.successors call.2).filter (· ∉ order ++ [call.2]) := by
      simp only [fresh, next, List.filter_map, List.map_map]
      exact List.map_id _
    obtain ⟨tree, hsearch, htree⟩ := ih (fresh ++ calls) (found ++ [call])
      (by rw [List.map_append, hfresh, hrest]) hfound'
    obtain ⟨inner, hinner, houter⟩ := hsearch.exists_of_append
    refine ⟨tree, .enter (hfound ▸ hnew) (.of_filter ?_ hinner) houter, htree⟩
    rw [hfound']
    exact List.Subset.refl _

/-! ## The blocks that can be reached -/

/-- With a step for each block that was not found, skipping stale entries in one go finds what the
recursive search finds, in the same order. -/
theorem exists_depthFirst_visit (hg : g.Wired) (steps : Nat) (calls found : List Call)
    (hcalls : ∀ call ∈ calls, call.2 < g.size)
    (hsteps : g.unvisited (found.map Prod.snd) ≤ steps) :
    ∃ tree, g.DepthFirst calls found tree ∧
      tree.map Prod.snd = g.visit steps (calls.map Prod.snd) (found.map Prod.snd) := by
  induction steps generalizing calls found with
  | zero =>
    refine ⟨found, .of_found fun call hcall => ?_, rfl⟩
    exact mem_of_unvisited_eq_zero (Nat.le_zero.mp hsteps) (hcalls call hcall)
  | succ steps ih =>
    have hmap := List.dropWhile_map (f := (Prod.snd : Call → BlockId)) (l := calls)
      (p := (found.map Prod.snd).contains)
    cases hdrop : calls.dropWhile fun call => (found.map Prod.snd).contains call.2 with
    | nil =>
      have hdrop' := hmap.trans (congrArg (List.map Prod.snd) hdrop)
      refine ⟨found, .of_dropWhile (hdrop ▸ .done), ?_⟩
      simp only [visit, hdrop', List.map_nil]
    | cons call rest =>
      have hdrop' := hmap.trans (congrArg (List.map Prod.snd) hdrop)
      have hsub : ∀ c ∈ call :: rest, c ∈ calls := by
        rw [← hdrop]
        exact fun c h => List.dropWhile_subset _ h
      have hnew : call.2 ∉ found.map Prod.snd := not_mem_of_dropWhile hdrop
      have hlt : call.2 < g.size := hcalls call (hsub call List.mem_cons_self)
      have hfound : (found ++ [call]).map Prod.snd = found.map Prod.snd ++ [call.2] := by
        rw [List.map_append]
        rfl
      have hnext : ((g.successors call.2).map fun j => (some call.2, j)).map Prod.snd =
          g.successors call.2 := by
        rw [List.map_map]
        exact List.map_id _
      obtain ⟨tree, hsearch, htree⟩ := ih
        ((g.successors call.2).map (fun j => (some call.2, j)) ++ rest) (found ++ [call]) (by
          intro c hc
          rcases List.mem_append.mp hc with hc | hc
          · obtain ⟨j, hj, rfl⟩ := List.mem_map.mp hc
            exact successors_lt hg hj
          · exact hcalls c (hsub c (List.mem_cons_of_mem call hc))) (by
          rw [hfound]
          exact Nat.le_of_lt_succ (Nat.lt_of_lt_of_le (unvisited_concat_lt hlt hnew) hsteps))
      obtain ⟨inner, hinner, houter⟩ := hsearch.exists_of_append
      refine ⟨tree, .of_dropWhile (hdrop ▸ .enter hnew hinner houter), ?_⟩
      rw [List.map_append, hnext, hfound] at htree
      simp only [visit, hdrop', List.map_cons]
      exact htree

theorem mem_entryCalls {call : Call} :
    call ∈ g.entryCalls ↔ 0 < g.size ∧ call = (none, 0) := by
  unfold entryCalls
  cases hblocks : g.blocks with
  | nil => simp [size, hblocks]
  | cons b rest => simp [size, hblocks]

/-- The search from the entry is the one that finds the blocks that can be reached. -/
theorem visit_entryCalls (g : Graph) :
    g.visit g.size (g.entryCalls.map Prod.snd) [] = g.reachable := by
  unfold entryCalls reachable
  split
  · cases g.size <;> rfl
  · rfl

/-- The blocks that can be reached are listed in depth-first preorder. -/
theorem exists_depthFirst_reachable (hg : g.Wired) :
    ∃ tree, g.DepthFirst g.entryCalls [] tree ∧ tree.map Prod.snd = g.reachable := by
  have hsteps : g.unvisited [] ≤ g.size :=
    Nat.le_trans (List.length_filter_le _ _) (Nat.le_of_eq List.length_range)
  have hentry : ∀ call ∈ g.entryCalls, call.2 < g.size := by
    intro call hcall
    obtain ⟨hpos, rfl⟩ := mem_entryCalls.mp hcall
    exact hpos
  rw [← visit_entryCalls]
  exact exists_depthFirst_visit hg g.size g.entryCalls [] hentry hsteps

/-- The loop ends with the blocks that can be reached. -/
theorem search_entryCalls (hg : g.Wired) :
    g.search (g.entryCalls.map Prod.snd) [] = g.reachable := by
  obtain ⟨tree, hsearch, htree⟩ := exists_depthFirst_reachable hg
  obtain ⟨tree', hsearch', htree'⟩ := g.exists_depthFirst_search _ [] g.entryCalls [] rfl rfl
  rw [← htree, ← htree', hsearch.unique hsearch']

theorem nodup_reachable (hg : g.Wired) : g.reachable.Nodup := by
  obtain ⟨tree, hsearch, htree⟩ := exists_depthFirst_reachable hg
  rw [← htree]
  exact hsearch.nodup List.nodup_nil

/-- A block is listed exactly where edges lead to it from the entry. -/
theorem mem_reachable_iff (hg : g.Wired) :
    i ∈ g.reachable ↔
      0 < g.size ∧ Relation.ReflTransGen (fun i j => j ∈ g.successors i) 0 i := by
  constructor
  · intro hi
    obtain ⟨tree, hsearch, htree⟩ := exists_depthFirst_reachable hg
    rw [← htree] at hi
    obtain ⟨x, hx, rfl⟩ := List.mem_map.mp hi
    rcases hsearch.exists_reaches x hx with hx | ⟨call, hcall, hreach⟩
    · cases hx
    · obtain ⟨hpos, rfl⟩ := mem_entryCalls.mp hcall
      exact ⟨hpos, hreach⟩
  · rintro ⟨hpos, hreach⟩
    induction hreach with
    | refl => exact g.zero_mem_reachable hpos
    | tail _ hj ih => exact reachable_closed hg ih hj

/-- Only the empty graph has no block that can be reached, since the entry always can. -/
theorem reachable_eq_nil_iff (g : Graph) : g.reachable = [] ↔ g.blocks = [] := by
  constructor
  · intro h
    by_contra hne
    have hzero := g.zero_mem_reachable (List.length_pos_iff.mpr hne)
    rw [h] at hzero
    cases hzero
  · intro h
    exact reachable_of_size_eq_zero (List.length_eq_zero_iff.mpr h)

/-- On every graph that requests build, the loop of the search ends, and its outcome is the
depth-first preorder: what the recursive search finds that visits successors in the order in which
they are listed. It lists the blocks to which edges lead from the entry, each of them once, and
nothing else; it lists nothing only where there are no blocks. -/
theorem preorder_reachable (edits : List Edit) :
    (edited edits).search ((edited edits).entryCalls.map Prod.snd) [] = (edited edits).reachable ∧
      (∃ tree, (∀ t, (edited edits).DepthFirst (edited edits).entryCalls [] t ↔ t = tree) ∧
        (edited edits).reachable = tree.map Prod.snd) ∧
      (edited edits).reachable.Nodup ∧
      (∀ i, i ∈ (edited edits).reachable ↔ 0 < (edited edits).size ∧
        Relation.ReflTransGen (fun i j => j ∈ (edited edits).successors i) 0 i) ∧
      ((edited edits).reachable = [] ↔ (edited edits).blocks = []) := by
  have hg : (edited edits).Wired := wired_empty.edit edits
  obtain ⟨tree, hsearch, htree⟩ := exists_depthFirst_reachable hg
  refine ⟨search_entryCalls hg, ⟨tree, fun t => ?_, htree.symm⟩, nodup_reachable hg,
    fun i => mem_reachable_iff hg, reachable_eq_nil_iff _⟩
  constructor
  · exact fun h => h.unique hsearch
  · rintro rfl
    exact hsearch

/-- Two branches meet in a block that leads back to the entry, which puts it on the stack twice; one
more block is out of reach. -/
def diamondEdits : List Edit :=
  [.pushEmpty .branch, .pushEmpty .jump, .pushEmpty .fallthrough, .pushEmpty .jump,
    .pushEmpty .jump, .edge 0 2, .edge 0 1, .edge 1 3, .edge 2 3, .edge 3 0, .edge 4 1]

/-- The join is found below the branch that is searched first, and the search goes on with the other
one. -/
theorem preorder_reachable_diamond :
    (edited diamondEdits).reachable = [0, 2, 3, 1] ∧
      ∃ tree, (edited diamondEdits).DepthFirst (edited diamondEdits).entryCalls [] tree ∧
        tree.map Prod.snd = [0, 2, 3, 1] := by
  obtain ⟨-, ⟨tree, hunique, htree⟩, -⟩ := preorder_reachable diamondEdits
  have hreachable : (edited diamondEdits).reachable = [0, 2, 3, 1] := by decide
  exact ⟨hreachable, tree, (hunique tree).mpr rfl, htree.symm.trans hreachable⟩

end MethodLift.Graph
