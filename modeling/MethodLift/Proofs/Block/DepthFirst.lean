import MethodLift.Proofs.Block.Walks
import Mathlib.Logic.Relation

/-!
# Recursive depth-first search

`Graph.DepthFirst` is the search as it is written with recursion: a call goes to a block, which is
found unless it was found before, and makes a call for each successor in order before the next call
of the caller is made. What was found is listed with the callers, in the order in which it was
found; the callers make a tree. A search that keeps the pending calls of all callers on one stack
finds the same, since the pending calls may be split at any place.
-/

namespace MethodLift.Graph

/-- A call of the search: the block that makes it, and the block to go to. -/
abbrev Call := Option BlockId × BlockId

/-- Making calls one after the other, each with all calls that follow from it, after some blocks
were found; lists what was found then. -/
inductive DepthFirst (g : Graph) : List Call → List Call → List Call → Prop
  | done {found : List Call} : DepthFirst g [] found found
  | skip {call : Call} {calls found found' : List Call} (hold : call.2 ∈ found.map Prod.snd)
    (hrest : DepthFirst g calls found found') : DepthFirst g (call :: calls) found found'
  | enter {call : Call} {calls found inner found' : List Call}
    (hnew : call.2 ∉ found.map Prod.snd)
    (hinner : DepthFirst g ((g.successors call.2).map (some call.2, ·)) (found ++ [call]) inner)
    (hrest : DepthFirst g calls inner found') : DepthFirst g (call :: calls) found found'

/-- The calls of a search that starts at the entry. -/
def entryCalls (g : Graph) : List Call := if g.blocks.isEmpty then [] else [(none, 0)]

/-- A block was found by a call of another one. -/
def ParentIn (tree : List Call) (i j : BlockId) : Prop := (some i, j) ∈ tree

namespace DepthFirst

variable {g : Graph} {calls calls' found tree tree' : List Call}

/-- The search has one outcome: each rule says what the next call does, and no two rules apply to
the same call. -/
theorem unique (h : g.DepthFirst calls found tree) (h' : g.DepthFirst calls found tree') :
    tree = tree' := by
  induction h generalizing tree' with
  | done =>
    cases h'
    rfl
  | skip hold hrest ih =>
    cases h' with
    | skip _ hrest' => exact ih hrest'
    | enter hnew => exact absurd hold hnew
  | enter hnew hinner hrest ihinner ihrest =>
    cases h' with
    | skip hold => exact absurd hold hnew
    | enter _ hinner' hrest' =>
      obtain rfl := ihinner hinner'
      exact ihrest hrest'

/-- Calls may be split at any place. -/
theorem exists_of_append (h : g.DepthFirst (calls ++ calls') found tree) :
    ∃ inner, g.DepthFirst calls found inner ∧ g.DepthFirst calls' inner tree := by
  induction calls generalizing found with
  | nil => exact ⟨found, .done, h⟩
  | cons call rest ih =>
    cases h with
    | skip hold hrest =>
      obtain ⟨inner, hleft, hright⟩ := ih hrest
      exact ⟨inner, .skip hold hleft, hright⟩
    | enter hnew hinner hrest =>
      obtain ⟨inner, hleft, hright⟩ := ih hrest
      exact ⟨inner, .enter hnew hinner hleft, hright⟩

/-- Calls that go to blocks which were found before may be left out. -/
theorem of_dropWhile
    (h : g.DepthFirst (calls.dropWhile fun call => (found.map Prod.snd).contains call.2)
      found tree) :
    g.DepthFirst calls found tree := by
  induction calls with
  | nil => exact h
  | cons call rest ih =>
    rw [List.dropWhile_cons] at h
    split at h
    · rename_i hold
      exact .skip (List.contains_iff_mem.mp hold) (ih h)
    · exact h

/-- Where all blocks were found before, nothing new is found. -/
theorem of_found (h : ∀ call ∈ calls, call.2 ∈ found.map Prod.snd) :
    g.DepthFirst calls found found := by
  induction calls with
  | nil => exact .done
  | cons call rest ih =>
    obtain ⟨hhead, hrest⟩ := List.forall_mem_cons.mp h
    exact .skip hhead (ih hrest)

/-- What was found stays found, and new blocks are listed behind it. -/
theorem found_prefix (h : g.DepthFirst calls found tree) : found <+: tree := by
  induction h with
  | done => exact List.prefix_rfl
  | skip _ _ ih => exact ih
  | enter _ _ _ ihinner ihrest =>
    exact (List.prefix_append _ _).trans (ihinner.trans ihrest)

/-- Calls that go to blocks which were found before may be put in anywhere. -/
theorem of_filter {old : List BlockId} (hold : old ⊆ found.map Prod.snd)
    (h : g.DepthFirst (calls.filter fun call => call.2 ∉ old) found tree) :
    g.DepthFirst calls found tree := by
  induction calls generalizing found with
  | nil => exact h
  | cons call rest ih =>
    by_cases hcall : call.2 ∈ old
    · rw [List.filter_cons_of_neg (by simpa using hcall)] at h
      exact .skip (hold hcall) (ih hold h)
    · rw [List.filter_cons_of_pos (by simpa using hcall)] at h
      cases h with
      | skip hfound hrest => exact .skip hfound (ih hold hrest)
      | enter hnew hinner hrest =>
        have hmore := ((List.prefix_append _ _).trans hinner.found_prefix).map Prod.snd
        exact .enter hnew hinner (ih (List.Subset.trans hold hmore.subset) hrest)

/-- No block is found twice. -/
theorem nodup (h : g.DepthFirst calls found tree) (hfound : (found.map Prod.snd).Nodup) :
    (tree.map Prod.snd).Nodup := by
  induction h with
  | done => exact hfound
  | skip _ _ ih => exact ih hfound
  | enter hnew _ _ ihinner ihrest =>
    refine ihrest (ihinner ?_)
    rw [List.map_append, List.nodup_append_comm]
    exact List.nodup_cons.mpr ⟨hnew, hfound⟩

/-- What is found is reached along edges from the block of a call. -/
theorem exists_reaches (h : g.DepthFirst calls found tree) :
    ∀ x ∈ tree, x ∈ found ∨
      ∃ call ∈ calls, Relation.ReflTransGen (fun i j => j ∈ g.successors i) call.2 x.2 := by
  induction h with
  | done => exact fun x hx => .inl hx
  | skip _ _ ih =>
    intro x hx
    rcases ih x hx with hx | ⟨c, hc, hreach⟩
    · exact .inl hx
    · exact .inr ⟨c, List.mem_cons_of_mem _ hc, hreach⟩
  | @enter call calls _ _ _ _ _ _ ihinner ihrest =>
    intro x hx
    rcases ihrest x hx with hx | ⟨c, hc, hreach⟩
    · rcases ihinner x hx with hx | ⟨c, hc, hreach⟩
      · rcases List.mem_append.mp hx with hx | hx
        · exact .inl hx
        · rw [List.mem_singleton.mp hx]
          exact .inr ⟨call, List.mem_cons_self, .refl⟩
      · obtain ⟨next, hnext, rfl⟩ := List.mem_map.mp hc
        exact .inr ⟨call, List.mem_cons_self, hreach.head hnext⟩
    · exact .inr ⟨c, List.mem_cons_of_mem _ hc, hreach⟩

end DepthFirst

end MethodLift.Graph
