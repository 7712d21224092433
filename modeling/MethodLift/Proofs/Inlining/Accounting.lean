import MethodLift.Proofs.Inlining.Definitions
import MethodLift.Proofs.Pass.Placeholders

/-!
# Inlining is accounted for

A round of inlining records an event for each assignment that it eliminates, and it eliminates only
what is live. Uses are counted in a table with one entry for each variable, so a variable is a
candidate once only, and the place of its assignment is not struck twice. Neither what is eliminated
nor what takes the place of a variable holds a placeholder.
-/

namespace MethodLift

open Expr

/-! ## Tables with one entry per key -/

namespace Table

variable {κ α : Type} {t : Table κ α}

/-- No key has two entries. -/
def Keyed (t : Table κ α) : Prop := (t.entries.map Prod.fst).Nodup

/-- An update gives the key one entry, whatever was there. -/
theorem Keyed.update [BEq κ] [LawfulBEq κ] (h : t.Keyed) (k : κ) (d : α) (f : α → α) :
    (t.update k d f).Keyed := by
  refine List.nodup_cons.mpr ⟨fun hk => ?_, ?_⟩
  · obtain ⟨entry, hentry, heq⟩ := List.mem_map.mp hk
    exact absurd heq (by simpa using (List.mem_filter.mp hentry).2)
  · exact List.Nodup.sublist (List.filter_sublist.map _) h

end Table

namespace VariableInlining

theorem keyed_countGraph (g : Graph) : (countGraph g).Keyed :=
  countGraph_of (fun _ _ _ h => h.update _ _ _) List.nodup_nil fun _ _ _ _ h => h.update _ _ _

/-- A variable is a candidate once only. -/
theorem nodup_candidates {uses : Uses} (h : uses.Keyed) :
    ((candidates uses).map Prod.fst).Nodup := by
  refine ((List.mergeSort_perm _ _).map Prod.fst).nodup_iff.mpr ?_
  refine List.pairwise_map.mpr (List.pairwise_filterMap.mpr ?_)
  refine (List.pairwise_map.mp h).imp ?_
  rintro ⟨v, u⟩ ⟨w, x⟩ hne c hc c' hc'
  dsimp only at hne hc hc'
  split at hc
  · split at hc'
    · obtain ⟨d, -, rfl⟩ := Option.map_eq_some_iff.mp hc
      obtain ⟨d', -, rfl⟩ := Option.map_eq_some_iff.mp hc'
      exact hne
    · cases hc'
  · cases hc

/-! ## One elimination -/

/-- Values that may be moved are leaves and hold no placeholders. -/
theorem placeholders_of_isMovable {e : Expr} (h : isMovable e = true) : e.placeholders = [] := by
  cases e with
  | leaf v =>
    cases v with
    | address _ => cases h
    | _ => rfl
  | _ => cases h

theorem exists_modify {α : Type} {l : List α} {i : Nat} {a : α} (h : l[i]? = some a) (f : α → α) :
    ∃ before after, l = before ++ a :: after ∧ l.modify i f = before ++ f a :: after := by
  obtain ⟨hlt, rfl⟩ := List.getElem?_eq_some_iff.mp h
  exact ⟨l.take i, l.drop (i + 1), by simp, List.modify_eq_take_cons_drop hlt⟩

/-- Eliminating changes the mark of one statement. -/
theorem exists_eliminate {g : Graph} {i p : Nat} {b : Block} {st : Statement}
    (hb : g.block? i = some b) (hst : b.statements[p]? = some st) :
    ∃ before after, g.statements = before ++ st :: after ∧
      (eliminate g i p).statements = before ++ { st with eliminated := true } :: after := by
  obtain ⟨bs, bs', hblocks, hmodify⟩ := exists_modify hb fun b =>
    { b with statements := b.statements.modify p fun s => { s with eliminated := true } }
  obtain ⟨ss, ss', hss, hmodify'⟩ := exists_modify hst fun s => { s with eliminated := true }
  refine ⟨bs.flatMap (fun b => b.statements) ++ ss, ss' ++ bs'.flatMap fun b => b.statements,
    ?_, ?_⟩
  · rw [Graph.statements, hblocks, List.flatMap_append, List.flatMap_cons, hss]
    simp
  · rw [Graph.statements, eliminate, Graph.modify, hmodify, List.flatMap_append, List.flatMap_cons,
      hmodify']
    simp

/-- Eliminating a live statement adds it to those that are eliminated. -/
theorem exists_eliminated {g : Graph} {i p : Nat} {b : Block} {st : Statement}
    (hb : g.block? i = some b) (hst : b.statements[p]? = some st) (hlive : st.eliminated = false) :
    ∃ before after, g.eliminated = before ++ after ∧
      (eliminate g i p).eliminated = before ++ { st with eliminated := true } :: after := by
  obtain ⟨before, after, hbefore, hafter⟩ := exists_eliminate hb hst
  refine ⟨before.filter fun s => s.eliminated, after.filter fun s => s.eliminated, ?_, ?_⟩
  · rw [Graph.eliminated, hbefore, List.filter_append, List.filter_cons_of_neg (by simp [hlive])]
  · rw [Graph.eliminated, hafter, List.filter_append, List.filter_cons_of_pos rfl]

/-- An eliminated statement keeps its placeholders; it is only not written any more. -/
theorem placeholders_eliminate {g : Graph} {i p : Nat} {b : Block} {st : Statement}
    (hb : g.block? i = some b) (hst : b.statements[p]? = some st) :
    (eliminate g i p).placeholders = g.placeholders := by
  obtain ⟨before, after, hbefore, hafter⟩ := exists_eliminate hb hst
  simp [Graph.placeholders, hbefore, hafter]

/-- A statement that is taken assigns to its candidate, and it is live unless the candidate was
taken before. -/
theorem Taken.exists_statement {g : Graph} {D : List (BlockId × Nat)} {s : State}
    (h : Taken g D s) {c : VarId × BlockId × Nat} {value : Expr} (hc : DefinedAt g c.2 c.1 value)
    (hfresh : s.replacements.get? c.1 = none) :
    ∃ b st, s.graph.block? c.2.1 = some b ∧ b.statements[c.2.2]? = some st ∧
      st.expr = .assign (.var c.1) value ∧ st.eliminated = false := by
  obtain ⟨b, st, hb, hst, hlive, hexpr⟩ := hc
  have hnot : D.contains c.2 = false := by
    rw [Bool.eq_false_iff, Ne, List.contains_iff_mem]
    intro hmem
    obtain ⟨v, e, ⟨b', st', hb', hst', -, hexpr'⟩, hsome⟩ := h.place c.2 hmem
    cases hb.symm.trans hb'
    cases hst.symm.trans hst'
    cases hexpr.symm.trans hexpr'
    rw [hfresh] at hsome
    cases hsome
  have hblock := h.graph c.2.1
  rw [hb] at hblock
  refine ⟨_, st, hblock, ?_, hexpr, hlive⟩
  rw [getElem?_strike, hst, Option.map_some, hnot, Bool.or_false]

/-! ## A round -/

/-- What eliminating assignments has done to a graph so far. -/
structure Eliminates (g : Graph) (s : State) : Prop where
  taken : ∃ D, Taken g D s
  movable : ∀ entry ∈ s.replacements.entries, isMovable entry.2 = true
  /-- Every event stands for a statement that was eliminated. -/
  count : s.graph.eliminated.length = g.eliminated.length + s.events.length
  kinds : ∀ e ∈ s.events, e.kind = .variableInlined
  placeholders : s.graph.placeholders = g.placeholders
  bare : g.Bare → s.graph.Bare

/-- Taking one candidate eliminates one statement, which is recorded once. The candidate is new, so
its definition was live until then. -/
theorem Eliminates.take {g : Graph} {s : State} (h : Eliminates g s) (vars : Variables)
    {c : VarId × BlockId × Nat} (hc : ∃ value, DefinedAt g c.2 c.1 value)
    (hfresh : s.replacements.get? c.1 = none) : Eliminates g (take vars s c) := by
  obtain ⟨D, hD⟩ := h.taken
  have htaken := hD.take vars hc
  obtain ⟨value, hvalue⟩ := hc
  obtain ⟨b, st, hb, hst, hexpr, hlive⟩ := hD.exists_statement hvalue hfresh
  unfold VariableInlining.take at htaken ⊢
  split at htaken
  · exact h
  · rename_i value' hm
    obtain ⟨hmov, b', target, eliminated, source, hb', hst'⟩ := movable?_eq_some hm
    cases hb.symm.trans hb'
    cases hst.symm.trans hst'
    cases hexpr
    obtain ⟨before, after, hbefore, hafter⟩ := exists_eliminated hb hst hlive
    refine ⟨htaken, ?_, ?_, ?_, (placeholders_eliminate hb hst).trans h.placeholders, fun hg => ?_⟩
    · intro entry hentry
      rcases List.mem_cons.mp hentry with rfl | hold
      · exact hmov
      · exact h.movable entry (List.mem_of_mem_filter hold)
    · have hcount := h.count
      rw [hbefore, List.length_append] at hcount
      rw [hafter, List.length_append, List.length_cons, List.length_append, List.length_singleton]
      omega
    · exact List.forall_mem_append.mpr ⟨h.kinds, List.forall_mem_singleton.mpr rfl⟩
    · have hbare := h.bare hg
      rw [Graph.Bare, hbefore] at hbare
      obtain ⟨hleft, hright⟩ := List.forall_mem_append.mp hbare
      have hcomplete : (Expr.assign (.var c.1) value).placeholders = [] := by
        rw [placeholders_assign, placeholders_of_isMovable hmov]
        rfl
      rw [Graph.Bare, hafter]
      exact List.forall_mem_append.mpr ⟨hleft, List.forall_mem_cons.mpr ⟨hcomplete, hright⟩⟩

/-- Taking a candidate leaves the others to be taken. -/
theorem get?_take_of_ne (vars : Variables) (s : State) {c : VarId × BlockId × Nat} {v : VarId}
    (h : v ≠ c.1) : (take vars s c).replacements.get? v = s.replacements.get? v := by
  unfold take
  split
  · rfl
  · exact Table.get?_insert_of_ne _ _ h

/-- Candidates are different variables, so each is taken at most once. -/
theorem Eliminates.foldl {g : Graph} {s : State} (h : Eliminates g s) (vars : Variables)
    {cs : List (VarId × BlockId × Nat)} (hcs : ∀ c ∈ cs, ∃ value, DefinedAt g c.2 c.1 value)
    (hnodup : (cs.map Prod.fst).Nodup) (hfresh : ∀ c ∈ cs, s.replacements.get? c.1 = none) :
    Eliminates g (cs.foldl (VariableInlining.take vars) s) := by
  induction cs generalizing s with
  | nil => exact h
  | cons c rest ih =>
    obtain ⟨hc, hrest⟩ := List.forall_mem_cons.mp hcs
    obtain ⟨hnew, hnodup⟩ := List.nodup_cons.mp hnodup
    obtain ⟨hfirst, hothers⟩ := List.forall_mem_cons.mp hfresh
    refine ih (h.take vars hc hfirst) hrest hnodup fun x hx => ?_
    have hne : x.1 ≠ c.1 := fun heq => hnew (heq ▸ List.mem_map_of_mem hx)
    rw [get?_take_of_ne vars s hne]
    exact hothers x hx

/-- All candidates of a graph are taken, each once. -/
theorem eliminates_candidates {g : Graph} (hg : ∀ {i b}, g.block? i = some b → b.id = i)
    (vars : Variables) :
    Eliminates g ((candidates (countGraph g)).foldl (take vars) { graph := g }) := by
  have hstart : Eliminates g { graph := g } :=
    ⟨⟨[], .refl g, List.forall_mem_nil _, fun hv => nomatch hv⟩, List.forall_mem_nil _, rfl,
      List.forall_mem_nil _, rfl, fun h => h⟩
  exact hstart.foldl vars (fun c hc => definedAt_candidates hg hc)
    (nodup_candidates (keyed_countGraph g)) fun _ _ => rfl

/-! ## Replacing variables -/

/-- Replacements hold no placeholders, so putting one in the place of a variable adds none. -/
theorem loyal_node {r : Replacements} (h : ∀ entry ∈ r.entries, isMovable entry.2 = true) :
    Loyal fun e => (pure (node r e) : StateM Unit Expr) := by
  intro e
  refine .pure ?_
  unfold node
  split
  · rename_i id
    cases hr : resolve r r.size id with
    | none => rfl
    | some e' =>
      have hmov := resolve_of (P := fun e => isMovable e = true) (fun _ => rfl) h _ hr
      exact placeholders_of_isMovable hmov
  · rfl

/-- Replacing variables leaves all placeholders where they are. -/
theorem intact_replaceAll {r : Replacements} (h : ∀ entry ∈ r.entries, isMovable entry.2 = true)
    (g : Graph) : g.Intact (replaceAll r g) := by
  have hloyal : ∀ (_ : Block) (s : Statement),
      Yields (pure (s.expr.bottomUp (node r)) : StateM Unit Expr) fun e =>
        e.placeholders = s.expr.placeholders := by
    intro _ s
    rw [← bottomUpM_pure]
    exact (loyal_node h).bottomUpM s.expr
  have hrun := Graph.intact_mapLiveM hloyal g ()
  rw [Graph.mapLiveM_pure] at hrun
  rw [replaceAll, Graph.mapLiveM_pure]
  exact hrun

end VariableInlining

open VariableInlining in
/-- A round of inlining records an event for each statement that it eliminates, and keeps the
placeholders. -/
theorem Context.account_inlineVariables {ctx : Context}
    (hg : ∀ {i b}, ctx.graph.block? i = some b → b.id = i) :
    ∃ n, ctx.inlineVariables.1.graph.eliminated.length = ctx.graph.eliminated.length + n ∧
      ctx.inlineVariables.1.journal.events.account =
        ctx.journal.events.account ++ List.replicate n .variableInlined ∧
      ctx.inlineVariables.1.graph.placeholders = ctx.graph.placeholders ∧
      (ctx.graph.Bare → ctx.inlineVariables.1.graph.Bare) := by
  have h := eliminates_candidates hg ctx.vars
  dsimp only [inlineVariables]
  generalize (candidates (countGraph ctx.graph)).foldl (take ctx.vars) { graph := ctx.graph } = s
    at h
  split
  · exact ⟨0, rfl, (List.append_nil _).symm, rfl, fun hbare => hbare⟩
  · have hintact := intact_replaceAll h.movable s.graph
    refine ⟨s.events.length, ?_, ?_, ?_, fun hbare => hintact.bare (h.bare hbare)⟩
    · exact hintact.eliminated.length_eq.symm.trans h.count
    · rw [Journal.events_recordAll, Events.account_append, Events.account_eq_replicate h.kinds rfl]
    · exact hintact.placeholders_eq.trans h.placeholders

end MethodLift
