import MethodLift.Proofs.Block.Assignments
import MethodLift.Proofs.Inlining.Resolution

/-!
# Definitions that are inlined

Counting uses finds, for a variable, a live statement that assigns to it. Where every variable has
one definition, inlining drops exactly the definitions of the variables that it replaces and
relabels the leaves of everything else; `Inlines` says so.
-/

namespace MethodLift

namespace VariableInlining

open Expr (assignedIn)

/-! ## Counting -/

section Counting

variable {P : Uses → Prop} {uses : Uses}
  (hread : ∀ {uses : Uses} (id : VarId) {f : Use → Use}, (∀ u, (f u).definition = u.definition) →
    P uses → P (uses.update id {} f))

include hread

/-! What counting a single read or write keeps, counting a graph keeps. Reads find no definition. -/

theorem Count.node_of {c : Count} (h : P c.uses) (e : Expr) : P (c.node e).uses := by
  unfold Count.node
  split
  · refine List.foldlRecOn (motive := fun c : Count => P c.uses) _ _ h ?_
    intro c hc id _
    show P (c.uses.update id {} fun u => { u with arguments := u.arguments + 1 })
    exact hread id (fun u => by rfl) hc
  · rename_i id
    unfold Count.occurrence
    split
    · exact h
    · show P (c.uses.update id {} fun u => { u with reads := u.reads + 1 })
      exact hread id (fun u => by rfl) h
  · exact h

theorem countUses_of (h : P uses) (e : Expr) : P (countUses uses e) :=
  List.foldlRecOn (motive := fun c : Count => P c.uses) e.nodes Count.node h
    fun _ hc part _ => Count.node_of hread hc part

/-- A property of the counts that the steps keep holds of a whole graph, by induction along blocks
and statements. -/
theorem countGraph_of {g : Graph} (hempty : P {})
    (hwrite : ∀ {uses : Uses} {b : Block} {p : Nat} {s : Statement} {v : VarId}, b ∈ g.blocks →
      b.statements[p]? = some s → s.eliminated = false → s.expr.assigned? = some v → P uses →
      P (uses.update v {} fun u =>
        { u with writes := u.writes + 1, definition := some (b.id, p) })) :
    P (countGraph g) := by
  refine List.foldlRecOn g.blocks countBlock hempty ?_
  intro uses h b hb
  refine List.foldlRecOn b.statements.zipIdx _ h ?_
  intro uses h s hs
  split
  · exact h
  · rename_i hlive
    have hs := List.mem_zipIdx_iff_getElem?.mp hs
    unfold countStatement
    split
    · rename_i id value heq
      refine countUses_of hread (hwrite hb hs (by simpa using hlive) ?_ h) value
      rw [heq]
      rfl
    · exact countUses_of hread h _

end Counting

/-- The definitions that were found have a property. -/
def Located (P : BlockId × Nat → VarId → Prop) (uses : Uses) : Prop :=
  ∀ entry ∈ uses.entries, ∀ d, entry.2.definition = some d → P d entry.1

section Located

variable {P : BlockId × Nat → VarId → Prop} {uses : Uses} {id : VarId} {f : Use → Use}

/-- Counting reads and arguments finds no new definitions. -/
theorem Located.update (h : Located P uses) (hf : ∀ u, (f u).definition = u.definition) :
    Located P (uses.update id {} f) := by
  intro entry hentry d hd
  rcases Table.mem_update hentry with rfl | hold
  · rw [hf] at hd
    cases hu : uses.get? id with
    | none =>
      rw [hu] at hd
      cases hd
    | some u =>
      rw [hu] at hd
      exact h (id, u) (Table.mem_of_get? hu) d hd
  · exact h entry hold d hd

/-- Counting a write keeps what was located, if the place of the write is right. -/
theorem Located.define (h : Located P uses) {d : BlockId × Nat} (hd : P d id) :
    Located P (uses.update id {} fun u =>
      { u with writes := u.writes + 1, definition := some d }) := by
  intro entry hentry d' hd'
  rcases Table.mem_update hentry with rfl | hold
  · cases hd'
    exact hd
  · exact h entry hold d' hd'

end Located

/-- A live statement assigns a value to a variable. -/
def DefinedAt (g : Graph) (d : BlockId × Nat) (v : VarId) (value : Expr) : Prop :=
  ∃ b s, g.block? d.1 = some b ∧ b.statements[d.2]? = some s ∧ s.eliminated = false ∧
    s.expr = .assign (.var v) value

/-- The definitions that counting finds. -/
theorem located_countGraph {g : Graph} (hid : ∀ {i b}, g.block? i = some b → b.id = i) :
    Located (fun d v => ∃ value, DefinedAt g d v value) (countGraph g) := by
  refine countGraph_of (fun _ _ hf h => h.update hf) (by simp [Located]) ?_
  intro uses b p s v hb hs hlive hv h
  obtain ⟨i, hi⟩ := Graph.exists_block?_of_mem hb
  obtain ⟨value, hvalue⟩ := Expr.assigned?_eq_some.mp hv
  refine h.define ⟨value, b, s, ?_, hs, hlive, hvalue⟩
  show g.block? b.id = some b
  rw [hid hi]
  exact hi

/-- A candidate names the place where the variable is assigned to. -/
theorem definedAt_candidates {g : Graph} (hid : ∀ {i b}, g.block? i = some b → b.id = i)
    {c : VarId × BlockId × Nat} (hc : c ∈ candidates (countGraph g)) :
    ∃ value, DefinedAt g c.2 c.1 value := by
  obtain ⟨⟨v, u⟩, hentry, heq⟩ := List.mem_filterMap.mp (List.mem_mergeSort.mp hc)
  dsimp only at heq
  split at heq
  · obtain ⟨d, hd, rfl⟩ := Option.map_eq_some_iff.mp heq
    exact located_countGraph hid (v, u) hentry d hd
  · cases heq

/-! ## Taking definitions -/

/-- Eliminates the statements at some positions. -/
def strike (at? : Nat → Bool) (ss : List Statement) : List Statement :=
  ss.mapIdx fun p s => { s with eliminated := s.eliminated || at? p }

theorem getElem?_strike (at? : Nat → Bool) (ss : List Statement) (p : Nat) :
    (strike at? ss)[p]? =
      ss[p]?.map fun s => { s with eliminated := s.eliminated || at? p } :=
  List.getElem?_mapIdx

theorem strike_none (ss : List Statement) : strike (fun _ => false) ss = ss := by
  apply List.ext_getElem?
  intro p
  rw [getElem?_strike]
  cases ss[p]? <;> simp

/-- Eliminating one more statement eliminates those at one more place. -/
theorem modify_strike (at? : Nat → Bool) (ss : List Statement) (q : Nat) :
    (strike at? ss).modify q (fun s => { s with eliminated := true }) =
      strike (fun p => decide (p = q) || at? p) ss := by
  apply List.ext_getElem?
  intro p
  rw [List.getElem?_modify, getElem?_strike, getElem?_strike]
  by_cases h : p = q
  · subst h
    cases ss[p]? <;> simp
  · cases ss[p]? <;> simp [h, Ne.symm h]

/-- A graph without the statements at some places. -/
def Without (D : List (BlockId × Nat)) (g g' : Graph) : Prop :=
  ∀ i, g'.block? i = (g.block? i).map fun b =>
    { b with statements := strike (fun p => D.contains (i, p)) b.statements }

theorem Without.refl (g : Graph) : Without [] g g := by
  intro i
  cases g.block? i with
  | none => rfl
  | some b =>
    have h : strike (fun p => [].contains (i, p)) b.statements = b.statements :=
      strike_none b.statements
    rw [Option.map_some, h]

/-- One statement more is left out. -/
theorem Without.eliminate {D : List (BlockId × Nat)} {g g' : Graph} (h : Without D g g')
    (d : BlockId × Nat) : Without (d :: D) g (eliminate g' d.1 d.2) := by
  intro i
  rw [VariableInlining.eliminate, Graph.block?_modify, h i, Option.map_map]
  refine congrArg (Option.map · (g.block? i)) (funext fun b => ?_)
  show (if i = d.1 then _ else _) = _
  by_cases hi : i = d.1
  · rw [if_pos hi]
    show { b with statements := (strike _ b.statements).modify d.2 _ } = _
    rw [modify_strike]
    subst hi
    congr 2
    funext p
    rw [List.contains_cons]
    congr 1
    rw [Bool.eq_iff_iff, decide_eq_true_iff, beq_iff_eq, Prod.ext_iff]
    exact ⟨fun h => ⟨rfl, h⟩, And.right⟩
  · rw [if_neg hi]
    congr 2
    funext p
    have hne : ((i, p) == d) = false := by
      rw [beq_eq_false_iff_ne]
      rintro rfl
      exact hi rfl
    rw [List.contains_cons, hne, Bool.false_or]

/-- Definitions that were taken from a graph, with the places where they stood. -/
structure Taken (g : Graph) (D : List (BlockId × Nat)) (s : State) : Prop where
  graph : Without D g s.graph
  place : ∀ d ∈ D, ∃ v e, DefinedAt g d v e ∧ (s.replacements.get? v).isSome = true
  moved : ∀ {v e}, s.replacements.get? v = some e → isMovable e = true ∧ ∃ d ∈ D, DefinedAt g d v e

/-- Taking one candidate eliminates its definition and replaces its variable, or leaves all as it
was. -/
theorem Taken.take {g : Graph} {D : List (BlockId × Nat)} {s : State} (h : Taken g D s)
    (vars : Variables) {c : VarId × BlockId × Nat} (hc : ∃ value, DefinedAt g c.2 c.1 value) :
    ∃ D', Taken g D' (take vars s c) := by
  unfold VariableInlining.take
  split
  · exact ⟨D, h⟩
  · rename_i value hm
    obtain ⟨hmov, b', target, eliminated, source, hb', hs'⟩ := movable?_eq_some hm
    obtain ⟨value', b, st, hb, hs, hlive, hexpr⟩ := hc
    -- The statement is still the one that was counted.
    have hvalue : value = value' := by
      rw [h.graph, hb] at hb'
      cases hb'
      rw [getElem?_strike, hs] at hs'
      have hassign := congrArg Stmt.expr (Option.some.inj hs')
      exact (Expr.assign.inj (hexpr.symm.trans hassign)).2.symm
    subst hvalue
    have hdef : DefinedAt g c.2 c.1 value := ⟨b, st, hb, hs, hlive, hexpr⟩
    refine ⟨c.2 :: D, h.graph.eliminate c.2, ?_, ?_⟩
    · intro d hd
      rcases List.mem_cons.mp hd with rfl | hd
      · exact ⟨c.1, value, hdef, by simp⟩
      · obtain ⟨v, e, hde, hsome⟩ := h.place d hd
        refine ⟨v, e, hde, ?_⟩
        by_cases hne : v = c.1
        · rw [hne]
          simp
        · rw [Table.get?_insert_of_ne _ _ hne]
          exact hsome
    · intro v e hv
      by_cases hne : v = c.1
      · subst hne
        rw [Table.get?_insert_self] at hv
        cases hv
        exact ⟨hmov, c.2, List.mem_cons_self, hdef⟩
      · rw [Table.get?_insert_of_ne _ _ hne] at hv
        obtain ⟨hmov', d, hd, hde⟩ := h.moved hv
        exact ⟨hmov', d, List.mem_cons_of_mem _ hd, hde⟩

/-- Inlining eliminates definitions and replaces their variables, candidate by candidate. -/
theorem exists_taken {g : Graph} (hid : ∀ {i b}, g.block? i = some b → b.id = i)
    (vars : Variables) :
    ∃ D, Taken g D ((candidates (countGraph g)).foldl (take vars) { graph := g }) := by
  refine List.foldlRecOn (motive := fun s => ∃ D, Taken g D s) _ _ ⟨[], ?_⟩ ?_
  · exact ⟨.refl g, List.forall_mem_nil _, fun hv => nomatch hv⟩
  · rintro s ⟨D, h⟩ c hc
    exact h.take vars (definedAt_candidates hid hc)

/-! ## One definition for every variable -/

theorem DefinedAt.mem_code {g : Graph} {d : BlockId × Nat} {v : VarId} {e : Expr}
    (h : DefinedAt g d v e) : .assign (.var v) e ∈ g.code d.1 := by
  obtain ⟨b, s, hb, hs, hlive, hexpr⟩ := h
  rw [Graph.code_eq hb, ← hexpr]
  exact List.mem_map_of_mem (List.mem_filter.mpr ⟨List.mem_of_getElem? hs, by rw [hlive]; rfl⟩)

/-- The definition of a variable stands in one place. -/
theorem DefinedAt.unique {g : Graph} (hg : g.SingleAssignment) {d d' : BlockId × Nat} {v : VarId}
    {e e' : Expr} (h : DefinedAt g d v e) (h' : DefinedAt g d' v e') : d = d' := by
  obtain ⟨i, p⟩ := d
  obtain ⟨j, q⟩ := d'
  have hblock : i = j := by
    by_contra hne
    exact hg.apart hne (Expr.mem_assignedIn.mpr ⟨e, h.mem_code⟩)
      (Expr.mem_assignedIn.mpr ⟨e', h'.mem_code⟩)
  subst hblock
  obtain ⟨b, s, hb, hs, hlive, hexpr⟩ := h
  obtain ⟨b', s', hb', hs', hlive', hexpr'⟩ := h'
  cases hb.symm.trans hb'
  have honce := hg.once i
  rw [Graph.code_eq hb, Block.code, Block.live, assignedIn, List.Nodup, List.pairwise_filterMap,
    List.pairwise_map, List.pairwise_filter, List.pairwise_iff_getElem] at honce
  obtain ⟨hp, rfl⟩ := List.getElem?_eq_some_iff.mp hs
  obtain ⟨hq, rfl⟩ := List.getElem?_eq_some_iff.mp hs'
  dsimp only at hp hq hlive hlive' hexpr hexpr'
  rcases Nat.lt_trichotomy p q with hlt | rfl | hlt
  · exact absurd rfl (honce p q hp hq hlt (by simpa using hlive) (by simpa using hlive')
      v (Expr.assigned?_eq_some.mpr ⟨e, hexpr⟩) v (Expr.assigned?_eq_some.mpr ⟨e', hexpr'⟩))
  · rfl
  · exact absurd rfl (honce q p hq hp hlt (by simpa using hlive') (by simpa using hlive)
      v (Expr.assigned?_eq_some.mpr ⟨e', hexpr'⟩) v (Expr.assigned?_eq_some.mpr ⟨e, hexpr⟩))

/-- The statement defines no variable that is replaced. -/
def kept (r : Replacements) (e : Expr) : Bool :=
  match e.assigned? with
  | some v => (r.get? v).isNone
  | none => true

theorem kept_assign (r : Replacements) (v : VarId) (value : Expr) :
    kept r (.assign (.var v) value) = (r.get? v).isNone := rfl

/-- What is dropped is the definition of a variable that is replaced. -/
theorem exists_of_dropped {r : Replacements} {e : Expr} (h : kept r e = false) :
    ∃ v value x, e = .assign (.var v) value ∧ r.get? v = some x := by
  unfold kept at h
  split at h
  · rename_i v hv
    obtain ⟨value, rfl⟩ := Expr.assigned?_eq_some.mp hv
    cases hx : r.get? v with
    | none =>
      rw [hx] at h
      cases h
    | some x => exact ⟨v, value, x, rfl, hx⟩
  · cases h

/-- The statements that were struck are the definitions of the variables that are replaced. -/
theorem Taken.contains_eq {g : Graph} {D : List (BlockId × Nat)} {s : State} (h : Taken g D s)
    (hg : g.SingleAssignment) {i p : Nat} {b : Block} {st : Statement} (hb : g.block? i = some b)
    (hst : b.statements[p]? = some st) (hlive : st.eliminated = false) :
    D.contains (i, p) = !kept s.replacements st.expr := by
  rw [Bool.eq_iff_iff, List.contains_iff_mem, Bool.not_eq_true']
  constructor
  · intro hmem
    obtain ⟨v, e, ⟨b', st', hb', hst', -, hexpr⟩, hsome⟩ := h.place _ hmem
    cases hb.symm.trans hb'
    cases hst.symm.trans hst'
    rw [hexpr, kept_assign, ← Option.not_isSome, hsome]
    rfl
  · intro hkept
    obtain ⟨v, value, e, hexpr, he⟩ := exists_of_dropped hkept
    obtain ⟨-, d, hd, hde⟩ := h.moved he
    have hdef : DefinedAt g (i, p) v value := ⟨b, st, hb, hst, hlive, hexpr⟩
    rwa [hdef.unique hg hde]

/-! ## The code after inlining -/

/-- Eliminates the statements that are not to be kept. -/
def sift (keep : Expr → Bool) (ss : List Statement) : List Statement :=
  ss.map fun s => { s with eliminated := s.eliminated || !keep s.expr }

/-- Eliminating by place and by statement come to the same where places are those of the
statements. -/
theorem strike_eq_sift {at? : Nat → Bool} {keep : Expr → Bool} {ss : List Statement}
    (h : ∀ {p s}, ss[p]? = some s → s.eliminated = false → at? p = !keep s.expr) :
    strike at? ss = sift keep ss := by
  apply List.ext_getElem?
  intro p
  rw [getElem?_strike, sift, List.getElem?_map]
  cases hs : ss[p]? with
  | none => rfl
  | some s =>
    cases hlive : s.eliminated with
    | true => simp [hlive]
    | false => simp [hlive, h hs hlive]

theorem code_sift (keep : Expr → Bool) (b : Block) :
    Block.code { b with statements := sift keep b.statements } = b.code.filter keep := by
  rw [Block.code, Block.live, sift, List.filter_map, List.map_map, Block.code, Block.live,
    List.filter_map, List.filter_filter]
  congr 1
  refine List.filter_congr fun s _ => ?_
  simp [Bool.and_comm]

end VariableInlining

theorem Block.code_mapLive (f : Expr → Expr) (b : Block) :
    (b.mapLive fun s => f s.expr).code = b.code.map f := by
  unfold code live mapLive
  induction b.statements with
  | nil => rfl
  | cons s rest ih =>
    cases hs : s.eliminated <;> simp_all

namespace VariableInlining

/-- Drops the definitions of the variables that are replaced and replaces them everywhere else. -/
def rewrite (r : Replacements) (es : List Expr) : List Expr :=
  (es.filter (kept r)).map (Expr.relabel (rename r))

/-- One graph is the other with variables replaced. -/
structure Inlines (r : Replacements) (g g' : Graph) : Prop where
  heads : g.SameHeads g'
  leaves : AllLeaves r
  code : ∀ i, g'.code i = rewrite r (g.code i)
  moved : ∀ {v e}, r.get? v = some e → isMovable e = true ∧ ∃ i, .assign (.var v) e ∈ g.code i
  /-- What is eliminated was eliminated before, or defines a variable that is replaced. -/
  gone : ∀ {i b'}, g'.block? i = some b' → ∀ s' ∈ b'.statements, s'.eliminated = true →
    ∃ b, g.block? i = some b ∧ ∃ s ∈ b.statements, s'.expr = s.expr ∧
      (s.eliminated = true ∨ kept r s.expr = false)

/-- What is eliminated in a block after striking and rebuilding was eliminated before or struck. -/
theorem exists_of_mem_mapLive_strike {f : Statement → Expr} {at? : Nat → Bool} {b : Block}
    {s' : Statement}
    (hs' : s' ∈ (Block.mapLive f { b with statements := strike at? b.statements }).statements)
    (hgone : s'.eliminated = true) : ∃ p s, b.statements[p]? = some s ∧ s'.expr = s.expr ∧
      (s.eliminated = true ∨ at? p = true) := by
  obtain ⟨t, ht, rfl⟩ := List.mem_map.mp hs'
  obtain ⟨p, hp⟩ := List.mem_iff_getElem?.mp ht
  rw [getElem?_strike] at hp
  obtain ⟨s, hs, rfl⟩ := Option.map_eq_some_iff.mp hp
  dsimp only at hgone ⊢
  split at hgone
  · rename_i hstruck
    rw [if_pos hstruck]
    exact ⟨p, s, hs, rfl, Bool.or_eq_true_iff.mp hstruck⟩
  · rename_i hlive
    exact absurd hgone hlive

/-- The blocks after definitions were taken and their variables replaced. -/
theorem Taken.block?_replaceAll {g : Graph} {D : List (BlockId × Nat)} {s : State}
    (h : Taken g D s) (hr : AllLeaves s.replacements) (i : BlockId) :
    (replaceAll s.replacements s.graph).block? i =
      (g.block? i).map fun b => Block.mapLive (fun st => st.expr.relabel (rename s.replacements))
        { b with statements := strike (fun p => D.contains (i, p)) b.statements } := by
  rw [replaceAll, Graph.mapLiveM_pure, node_eq_relabelNode hr]
  show (List.map _ s.graph.blocks)[i]? = _
  rw [List.getElem?_map]
  show Option.map _ (s.graph.block? i) = _
  rw [h.graph i, Option.map_map]
  rfl

/-- With single assignment, the definitions that were eliminated are all those of the variables that
are replaced, so inlining can be told from the statements alone. -/
theorem Taken.inlines {g : Graph} {D : List (BlockId × Nat)} {s : State} (h : Taken g D s)
    (hg : g.SingleAssignment) (hr : AllLeaves s.replacements) :
    Inlines s.replacements g (replaceAll s.replacements s.graph) := by
  have hblock := h.block?_replaceAll hr
  refine ⟨?_, hr, ?_, ?_, ?_⟩
  · intro i
    rw [hblock, Option.map_map]
    rfl
  · intro i
    unfold Graph.code
    rw [hblock]
    cases hb : g.block? i with
    | none => rfl
    | some b =>
      show (Block.mapLive _ _).code = rewrite _ b.code
      rw [Block.code_mapLive, strike_eq_sift fun hst hlive => h.contains_eq hg hb hst hlive,
        code_sift, rewrite]
  · intro v e hv
    obtain ⟨hmov, d, -, hd⟩ := h.moved hv
    exact ⟨hmov, d.1, hd.mem_code⟩
  · intro i b' hb' s' hs' hgone
    rw [hblock] at hb'
    obtain ⟨b, hb, rfl⟩ := Option.map_eq_some_iff.mp hb'
    obtain ⟨p, st, hst, hexpr, hor⟩ := exists_of_mem_mapLive_strike hs' hgone
    refine ⟨b, hb, st, List.mem_of_getElem? hst, hexpr, ?_⟩
    cases hlive : st.eliminated with
    | true => exact .inl rfl
    | false =>
      rw [hlive, h.contains_eq hg hb hst hlive] at hor
      exact .inr (by simpa using hor)

end VariableInlining

open VariableInlining in
/-- A run of inlining leaves the graph alone or replaces variables. -/
theorem Context.inlines_inlineVariables {ctx : Context} (hg : ctx.graph.SingleAssignment) :
    ctx.inlineVariables.1.graph = ctx.graph ∨
      ∃ r, Inlines r ctx.graph ctx.inlineVariables.1.graph := by
  obtain ⟨D, h⟩ := exists_taken hg.id_eq ctx.vars
  obtain ⟨-, hr⟩ := refines_foldl_take ctx.vars (candidates (countGraph ctx.graph))
    (s := { graph := ctx.graph }) (.refl _) (by simp [AllLeaves])
  dsimp only [inlineVariables]
  split
  · exact .inl rfl
  · exact .inr ⟨_, h.inlines hg hr⟩

end MethodLift
