import MethodLift.Proofs.Block.Wiring

/-!
# Walks from the entry

The depth-first search finds every block that can be reached along edges. Where no two edges between
such blocks meet, and none leads back to the entry, every block has one way of being reached.
-/

namespace MethodLift.Graph

variable {g g' : Graph} {i j : Nat}

/-! ## Graphs with the same heads -/

/-- Only statements differ. -/
def SameHeads (g g' : Graph) : Prop :=
  ∀ i, (g'.block? i).map (·.toBlockHead) = (g.block? i).map (·.toBlockHead)

namespace SameHeads

theorem block? (h : g.SameHeads g') {b' : Block} (hb : g'.block? i = some b') :
    ∃ b, g.block? i = some b ∧ b'.toBlockHead = b.toBlockHead := by
  have hi := h i
  rw [hb] at hi
  obtain ⟨b, hb, heq⟩ := Option.map_eq_some_iff.mp hi.symm
  exact ⟨b, hb, heq.symm⟩

theorem symm (h : g.SameHeads g') : g'.SameHeads g := fun i => (h i).symm

theorem size_eq (h : g.SameHeads g') : g'.size = g.size := by
  have hnone (i : Nat) : g'.block? i = none ↔ g.block? i = none := by
    rw [← Option.map_eq_none_iff, h i, Option.map_eq_none_iff]
  apply Nat.le_antisymm
  · exact List.getElem?_eq_none_iff.mp ((hnone g.size).mpr (List.getElem?_eq_none (Nat.le_refl _)))
  · exact List.getElem?_eq_none_iff.mp ((hnone g'.size).mp (List.getElem?_eq_none (Nat.le_refl _)))

theorem successors_eq (h : g.SameHeads g') (i : BlockId) : g'.successors i = g.successors i := by
  have hi := h i
  unfold successors
  cases hb : g.block? i with
  | none =>
    rw [hb] at hi
    rw [Option.map_eq_none_iff.mp hi]
  | some b =>
    rw [hb] at hi
    obtain ⟨b', hb', heq⟩ := Option.map_eq_some_iff.mp hi
    rw [hb']
    exact congrArg BlockHead.successors heq

theorem wired (h : g.SameHeads g') (hg : g.Wired) : g'.Wired := by
  refine hg.of_edges h.size_eq fun hb => ?_
  obtain ⟨b, hb, heq⟩ := h.block? hb
  exact ⟨b, hb, congrArg BlockHead.id heq, congrArg BlockHead.successors heq,
    congrArg BlockHead.predecessors heq⟩

/-- Searches only look at edges, so they take the same course where only statements differ. -/
theorem visit_eq (h : g.SameHeads g') (steps : Nat) (stack visited : List BlockId) :
    g'.visit steps stack visited = g.visit steps stack visited := by
  induction steps generalizing stack visited with
  | zero => rfl
  | succ steps ih =>
    unfold visit
    split
    · rfl
    · rw [h.successors_eq, ih]

/-- The same blocks can be reached where only statements differ. -/
theorem reachable_eq (h : g.SameHeads g') : g'.reachable = g.reachable := by
  have hempty : g'.blocks.isEmpty = g.blocks.isEmpty := by
    rw [Bool.eq_iff_iff, List.isEmpty_iff_length_eq_zero, List.isEmpty_iff_length_eq_zero]
    exact Eq.congr_left h.size_eq
  rw [reachable, reachable, hempty, h.size_eq, h.visit_eq]

end SameHeads

/-! ## The search is complete -/

/-- Successors of visited blocks were visited or wait on the stack. -/
def Frontier (g : Graph) (stack visited : List BlockId) : Prop :=
  ∀ i ∈ visited, ∀ j ∈ g.successors i, j ∈ visited ∨ j ∈ stack

/-- Dropping visited blocks from the stack loses nothing. -/
theorem mem_dropWhile {stack : List BlockId} (visited : List BlockId) (h : j ∈ stack) :
    j ∈ visited ∨ j ∈ stack.dropWhile visited.contains := by
  induction stack with
  | nil => cases h
  | cons k rest ih =>
    rw [List.dropWhile_cons]
    split
    · rename_i hk
      rcases List.mem_cons.mp h with rfl | h
      · exact .inl (List.contains_iff_mem.mp hk)
      · exact ih h
    · exact .inr h

/-- Where dropping ends was not visited. -/
theorem not_mem_of_dropWhile {α : Type} {block : α → BlockId} {stack rest : List α} {entry : α}
    {visited : List BlockId}
    (h : stack.dropWhile (fun entry => visited.contains (block entry)) = entry :: rest) :
    block entry ∉ visited := by
  have hhead := List.head?_dropWhile_not (fun entry => visited.contains (block entry)) stack
  rw [h] at hhead
  simpa using hhead

/-- As many different blocks as there are in a list of blocks are all of them. -/
theorem mem_of_nodup {ids visited : List BlockId} (hnodup : visited.Nodup)
    (hvisited : visited ⊆ ids) (hlength : ids.length ≤ visited.length) (hj : j ∈ ids) :
    j ∈ visited := by
  by_cases hmem : j ∈ visited
  · exact hmem
  · have hsub : j :: visited ⊆ ids := List.cons_subset.mpr ⟨hj, hvisited⟩
    have hle := List.Nodup.length_le_of_subset (List.nodup_cons.mpr ⟨hmem, hnodup⟩) hsub
    rw [List.length_cons] at hle
    exact absurd (Nat.le_trans hle hlength) (Nat.not_succ_le_self _)

theorem successors_lt (hg : g.Wired) (hj : j ∈ g.successors i) : j < g.size := by
  unfold successors at hj
  split at hj
  · rename_i b hb
    exact hg.succ_lt hb hj
  · cases hj

/-- A search with a step for every block that was not visited yet visits everything along the
edges. -/
theorem visit_closed (hg : g.Wired) (steps : Nat) {stack visited : List BlockId}
    (hstack : ∀ j ∈ stack, j < g.size) (hvisited : ∀ j ∈ visited, j < g.size)
    (hnodup : visited.Nodup) (hsteps : g.size ≤ steps + visited.length)
    (hfrontier : g.Frontier stack visited) :
    ∀ i ∈ g.visit steps stack visited, ∀ j ∈ g.successors i, j ∈ g.visit steps stack visited := by
  induction steps generalizing stack visited with
  | zero =>
    intro i hi j hj
    rw [Nat.zero_add, ← List.length_range (n := g.size)] at hsteps
    have hsub : visited ⊆ List.range g.size := fun k hk => List.mem_range.mpr (hvisited k hk)
    exact mem_of_nodup hnodup hsub hsteps (List.mem_range.mpr (successors_lt hg hj))
  | succ steps ih =>
    unfold visit
    cases hdrop : stack.dropWhile visited.contains with
    | nil =>
      intro i hi j hj
      rcases hfrontier i hi j hj with h | h
      · exact h
      · have hmem := mem_dropWhile visited h
        rw [hdrop] at hmem
        exact hmem.resolve_right List.not_mem_nil
    | cons id rest =>
      have hnew : id ∉ visited := not_mem_of_dropWhile hdrop
      have hsub : ∀ j ∈ id :: rest, j ∈ stack := by
        rw [← hdrop]
        exact fun j h => List.dropWhile_subset _ h
      have hid : id < g.size := hstack id (hsub id List.mem_cons_self)
      refine ih ?_ ?_ ?_ ?_ ?_
      · intro j hj
        rcases List.mem_append.mp hj with hj | hj
        · exact successors_lt hg hj
        · exact hstack j (hsub j (List.mem_cons_of_mem id hj))
      · intro j hj
        rcases List.mem_append.mp hj with hj | hj
        · exact hvisited j hj
        · rw [List.mem_singleton.mp hj]
          exact hid
      · exact List.nodup_append.mpr ⟨hnodup, List.pairwise_singleton _ _,
          fun a ha b hb => by rintro rfl; exact hnew (List.mem_singleton.mp hb ▸ ha)⟩
      · rw [List.length_append, List.length_singleton]
        omega
      · intro i hi j hj
        rcases List.mem_append.mp hi with hi | hi
        · rcases hfrontier i hi j hj with h | h
          · exact .inl (List.mem_append_left _ h)
          · rcases mem_dropWhile visited h with h | h
            · exact .inl (List.mem_append_left _ h)
            · rw [hdrop] at h
              rcases List.mem_cons.mp h with rfl | h
              · exact .inl (List.mem_append_right _ List.mem_cons_self)
              · exact .inr (List.mem_append_right _ h)
        · rw [List.mem_singleton.mp hi] at hj
          exact .inr (List.mem_append_left _ hj)

theorem reachable_of_pos (hpos : 0 < g.size) : g.reachable = g.visit g.size [0] [] := by
  have hne : g.blocks ≠ [] := List.ne_nil_of_length_pos hpos
  rw [reachable, if_neg]
  simpa using hne

theorem reachable_of_size_eq_zero (h : g.size = 0) : g.reachable = [] := by
  rw [reachable, if_pos]
  exact List.isEmpty_iff.mpr (List.length_eq_zero_iff.mp h)

/-- Whatever was visited stays visited. -/
theorem visited_prefix_visit (steps : Nat) (stack visited : List BlockId) :
    visited <+: g.visit steps stack visited := by
  fun_induction visit g steps stack visited with
  | case1 => exact List.prefix_rfl
  | case2 => exact List.prefix_rfl
  | case3 steps stack visited id rest hdrop ih =>
    exact (List.prefix_append visited [id]).trans ih

/-- The entry can be reached. -/
theorem zero_mem_reachable (g : Graph) (hpos : 0 < g.size) : 0 ∈ g.reachable := by
  rw [reachable_of_pos hpos]
  cases hsize : g.size with
  | zero => exact absurd hpos (hsize ▸ Nat.lt_irrefl 0)
  | succ n => exact (visited_prefix_visit n _ [0]).subset List.mem_cons_self

/-- Whatever an edge leads to from a block that can be reached can be reached. -/
theorem reachable_closed (hg : g.Wired) (hi : i ∈ g.reachable) (hj : j ∈ g.successors i) :
    j ∈ g.reachable := by
  rcases Nat.eq_zero_or_pos g.size with hzero | hpos
  · rw [reachable_of_size_eq_zero hzero] at hi
    cases hi
  · rw [reachable_of_pos hpos] at hi ⊢
    refine visit_closed hg g.size ?_ ?_ .nil ?_ ?_ i hi j hj
    · simpa using hpos
    · simp
    · exact Nat.le_add_right _ _
    · simp [Frontier]

/-! ## Walks -/

/-- A walk from the entry: the blocks that were left, and the block it arrived at. -/
inductive Walk (g : Graph) : List BlockId → BlockId → Prop
  | entry : Walk g [] 0
  | step {path : List BlockId} {i j : BlockId} (h : Walk g path i) (hj : j ∈ g.successors i) :
    Walk g (path ++ [i]) j

theorem Walk.congr (hs : ∀ i, g'.successors i = g.successors i) {path : List BlockId}
    (h : Walk g path i) : Walk g' path i := by
  induction h with
  | entry => exact .entry
  | step _ hj ih => exact .step ih (hs _ ▸ hj)

/-- The predecessors of a block that can be reached. -/
def sources (g : Graph) (id : BlockId) : List BlockId :=
  match g.block? id with
  | some b => b.predecessors.filter g.reachable.contains
  | none => []

/-- Control flow that never joins: no edge from a block that can be reached leads to the entry, and
exactly one leads to every other such block. -/
structure JoinFree (g : Graph) : Prop where
  entry : g.sources 0 = []
  single : ∀ id ∈ g.reachable, id ≠ 0 → (g.sources id).length = 1

instance (g : Graph) : Decidable g.JoinFree :=
  decidable_of_iff (g.sources 0 = [] ∧ ∀ id ∈ g.reachable, id ≠ 0 → (g.sources id).length = 1)
    ⟨fun h => ⟨h.1, h.2⟩, fun h => ⟨h.entry, h.single⟩⟩

/-- A reachable block counts among the sources of its successors. -/
theorem mem_sources (hg : g.Wired) (hi : i ∈ g.reachable) (hj : j ∈ g.successors i) :
    i ∈ g.sources j := by
  unfold successors at hj
  split at hj
  · rename_i a ha
    obtain ⟨b, hb⟩ := exists_block? (hg.succ_lt ha hj)
    rw [sources, hb]
    exact List.mem_filter.mpr ⟨(hg.mem_pred_iff ha hb).mpr hj, List.contains_iff_mem.mpr hi⟩
  · cases hj

/-- No edge from a block that can be reached leads to the entry. -/
theorem JoinFree.ne_zero (h : g.JoinFree) (hg : g.Wired) (hi : i ∈ g.reachable)
    (hj : j ∈ g.successors i) : j ≠ 0 := by
  rintro rfl
  have hmem := mem_sources hg hi hj
  rw [h.entry] at hmem
  cases hmem

/-- Edges that meet come from the same block. -/
theorem JoinFree.unique (h : g.JoinFree) (hg : g.Wired) {k : Nat} (hi : i ∈ g.reachable)
    (hk : k ∈ g.reachable) (hij : j ∈ g.successors i) (hkj : j ∈ g.successors k) : i = k := by
  obtain ⟨x, hx⟩ := List.length_eq_one_iff.mp
    (h.single j (reachable_closed hg hi hij) (h.ne_zero hg hi hij))
  have hmem := mem_sources hg hi hij
  have hmem' := mem_sources hg hk hkj
  rw [hx, List.mem_singleton] at hmem hmem'
  exact hmem.trans hmem'.symm

/-- Whether blocks join does not depend on their statements. -/
theorem JoinFree.congr (h : g.JoinFree) (hs : g.SameHeads g') : g'.JoinFree := by
  have hsources (i : BlockId) : g'.sources i = g.sources i := by
    have hi := hs i
    unfold sources
    rw [hs.reachable_eq]
    cases hb : g.block? i with
    | none =>
      rw [hb] at hi
      rw [Option.map_eq_none_iff.mp hi]
    | some b =>
      rw [hb] at hi
      obtain ⟨b', hb', heq⟩ := Option.map_eq_some_iff.mp hi
      rw [hb']
      exact congrArg (fun head => head.predecessors.filter g.reachable.contains) heq
  constructor
  · rw [hsources]
    exact h.entry
  · rw [hs.reachable_eq]
    intro id hid hne
    rw [hsources]
    exact h.single id hid hne

end MethodLift.Graph
