import MethodLift.Proofs.Block.Layout
import MethodLift.Proofs.Expr.OfInstruction

/-!
# Flat graphs

A graph is *flat* as long as branches are not structured: control stands at the top of statements
and at the end of blocks, it agrees with the edges of the blocks, and no two blocks start alike.
Filling the graph of code with its statements gives a flat graph. Whatever rebuilds statements one
by one and keeps their control, `Graph.Refines`, keeps a graph flat.
-/

namespace MethodLift

namespace Graph

variable {g g' g'' : Graph} {code : List Instruction}

/-! ## The invariant -/

/-- The statements of a block end as its kind says, and its edges lead where they go. -/
def Exits (g : Graph) (i : Nat) (b : Block) : Prop :=
  match b.kind with
  | .branch => ∃ j c, g.block? j = some c ∧ b.successors = (g.next i).foldl appendNew [j] ∧
      (Ends b.statements (.branch c.start) ∨ Ends b.statements .step)
  | .jump => ∃ j c, g.block? j = some c ∧ b.successors = [j] ∧ Ends b.statements (.jump c.start)
  | .fallthrough => b.successors = g.next i ∧ Ends b.statements .step
  | .exit => b.successors = [] ∧ (Ends b.statements .leave ∨ Ends b.statements .step)

/-- Control stands at the ends of blocks and agrees with the edges. -/
structure Flat (g : Graph) : Prop where
  wired : g.Wired
  size_pos : 0 < g.size
  start_injective : ∀ {i j a b}, g.block? i = some a → g.block? j = some b →
    a.start = b.start → i = j
  visible : ∀ {i b}, g.block? i = some b → b.ignored = false
  tidy : ∀ {i b}, g.block? i = some b → ∀ s ∈ b.statements, s.expr.Tidy
  exits : ∀ {i b}, g.block? i = some b → g.Exits i b

/-- A block of the second graph comes from the block with its identity in the first. -/
theorem block?_of_forall₂ {R : Block → Block → Prop} (h : List.Forall₂ R g.blocks g'.blocks)
    {i : Nat} {b' : Block} (hb : g'.block? i = some b') : ∃ b, g.block? i = some b ∧ R b b' := by
  rw [List.forall₂_iff_get] at h
  obtain ⟨hlt, rfl⟩ := List.getElem?_eq_some_iff.mp hb
  have hlt' : i < g.blocks.length := h.1 ▸ hlt
  exact ⟨g.blocks[i], List.getElem?_eq_getElem hlt', h.2 i hlt' hlt⟩

theorem size_of_forall₂ {R : Block → Block → Prop} (h : List.Forall₂ R g.blocks g'.blocks) :
    g'.size = g.size := h.length_eq.symm

theorem block?_of_forall₂_left {R : Block → Block → Prop}
    (h : List.Forall₂ R g.blocks g'.blocks) {i : Nat} {b : Block} (hb : g.block? i = some b) :
    ∃ b', g'.block? i = some b' ∧ R b b' := by
  obtain ⟨b', hb'⟩ := exists_block? (size_of_forall₂ h ▸ block?_lt hb : i < g'.size)
  obtain ⟨c, hc, hr⟩ := block?_of_forall₂ h hb'
  rw [hb] at hc
  cases hc
  exact ⟨b', hb', hr⟩

/-- How the live statements of a block end. -/
inductive Closes (g : Graph) (b : Block) : Prop
  | quiet (hlive : ∀ s ∈ b.live, s.expr.Plain) (hk : b.kind ≠ .jump)
  | leave {init : List Statement} {s : Statement} (hlive : b.live = init ++ [s])
    (hinit : ∀ x ∈ init, x.expr.Plain) (hs : s.expr.control = .leave) (hk : b.kind = .exit)
  | jump {init : List Statement} {s : Statement} {j : Nat} {c : Block}
    (hlive : b.live = init ++ [s]) (hinit : ∀ x ∈ init, x.expr.Plain)
    (hs : s.expr = .jump c.start) (hk : b.kind = .jump) (hc : g.block? j = some c)
    (hj : b.successors = [j])
  | branch {init : List Statement} {s : Statement} {condition : Expr} {j : Nat} {c : Block}
    (hlive : b.live = init ++ [s]) (hinit : ∀ x ∈ init, x.expr.Plain)
    (hs : s.expr = .jumpIf condition c.start) (hcond : condition.Plain) (hk : b.kind = .branch)
    (hc : g.block? j = some c) (hj : b.successors = (g.next b.id).foldl appendNew [j])

/-- The live statements of a block of a flat graph end as its edges say. -/
theorem Flat.closes (hg : g.Flat) {i : Nat} {b : Block} (hb : g.block? i = some b) :
    g.Closes b := by
  have htidy : ∀ s ∈ b.live, s.expr.Tidy := fun s hs => hg.tidy hb s (List.mem_of_mem_filter hs)
  have hplain : ∀ {init s}, b.live = init ++ [s] → (∀ x ∈ init, x.expr.control = .step) →
      ∀ x ∈ init, x.expr.Plain := by
    intro init s hlive hinit x hx
    exact (htidy x (hlive ▸ List.mem_append_left _ hx)).plain (hinit x hx)
  have hquiet : Ends b.statements .step → b.kind ≠ .jump → g.Closes b := by
    intro hends hk
    rcases hends.live with ⟨-, hall⟩ | ⟨hne, -⟩
    · exact .quiet (fun s hs => (htidy s hs).plain (hall s hs)) hk
    · exact absurd rfl hne
  have hexits := hg.exits hb
  unfold Exits at hexits
  cases hk : b.kind with
  | branch =>
    rw [hk] at hexits
    obtain ⟨j, c, hc, hsucc, hends | hends⟩ := hexits
    · rcases hends.live with ⟨hne, -⟩ | ⟨-, init, s, hlive, hinit, hs⟩
      · cases hne
      · obtain ⟨condition, he⟩ := Expr.eq_of_control_branch hs
        have hlast : s ∈ b.live := by
          rw [Block.live, hlive]
          exact List.mem_append_right _ List.mem_cons_self
        have hcond := htidy s hlast
        rw [he] at hcond
        rw [← hg.wired.id_eq hb] at hsucc
        exact .branch hlive (hplain hlive hinit) he hcond hk hc hsucc
    · exact hquiet hends (by simp [hk])
  | jump =>
    rw [hk] at hexits
    obtain ⟨j, c, hc, hsucc, hends⟩ := hexits
    rcases hends.live with ⟨hne, -⟩ | ⟨-, init, s, hlive, hinit, hs⟩
    · cases hne
    · exact .jump hlive (hplain hlive hinit) (Expr.eq_of_control_jump hs) hk hc hsucc
  | fallthrough =>
    rw [hk] at hexits
    exact hquiet hexits.2 (by simp [hk])
  | exit =>
    rw [hk] at hexits
    obtain ⟨-, hends | hends⟩ := hexits
    · rcases hends.live with ⟨hne, -⟩ | ⟨-, init, s, hlive, hinit, hs⟩
      · cases hne
      · exact .leave hlive (hplain hlive hinit) hs hk
    · exact hquiet hends (by simp [hk])

/-! ## Filled graphs are flat -/

/-- The instructions of a range that lies in the code. -/
theorem slice?_spec {r : CodeRange} {part : List Instruction}
    (h : Scope.slice? code r = some part) (hr : r.start < r.stop) :
    part.getLast? = code[r.stop - 1]? ∧ (∀ x ∈ part, x ∈ code) ∧
      ∀ x ∈ part.dropLast, ∃ p, r.start ≤ p ∧ p + 1 < r.stop ∧ code[p]? = some x := by
  unfold Scope.slice? at h
  split at h
  · rename_i hle
    cases h
    have hlen : ((code.drop r.start).take r.length).length = r.stop - r.start := by
      simp only [CodeRange.length, List.length_take, List.length_drop]
      omega
    have hget : ∀ k, k < r.stop - r.start →
        ((code.drop r.start).take r.length)[k]? = code[r.start + k]? := by
      intro k hk
      rw [CodeRange.length, List.getElem?_take_of_lt hk, List.getElem?_drop]
    refine ⟨?_, ?_, ?_⟩
    · rw [List.getLast?_eq_getElem?, hlen, hget _ (by omega)]
      congr 1
      omega
    · intro x hx
      exact List.mem_of_mem_drop (List.mem_of_mem_take hx)
    · intro x hx
      obtain ⟨k, hk⟩ := List.mem_iff_getElem?.mp hx
      rw [List.getElem?_dropLast] at hk
      split at hk
      · rename_i hlt
        rw [hlen] at hlt
        rw [hget k (by omega)] at hk
        exact ⟨r.start + k, by omega, by omega, hk⟩
      · cases hk
  · cases h

/-- The flow of the last instruction of a block of a given kind. -/
theorem flow_of_kindOf {last : Instruction} (hflow : last.flow = last.mnemonic.flow) :
    match ControlFlow.kindOf last with
    | .branch => last.mnemonic.flow = .branch
    | .jump => last.mnemonic.flow = .jump
    | .fallthrough => last.mnemonic.flow = .next ∨ last.mnemonic.flow = .call
    | .exit => last.mnemonic.flow ≠ .branch ∧ last.mnemonic.flow ≠ .jump := by
  by_cases hm : last.mnemonic = .callNoReturn
  · simp [ControlFlow.kindOf, hm, Mnemonic.flow]
  · simp only [ControlFlow.kindOf, if_neg hm, hflow]
    cases last.mnemonic.flow <;> simp

/-- Statements that end as the last instruction does agree with the edges of the block. -/
theorem exits_of_leaves {i : Nat} {b : Block} {last : Instruction} {c : Control}
    (hflow : last.flow = last.mnemonic.flow) (hkind : b.kind = ControlFlow.kindOf last)
    (hleaves : g.Leaves i last b.successors) (hends : Ends b.statements c)
    (has : Scope.EndsAs last c) : g.Exits i b := by
  have hf := flow_of_kindOf hflow
  unfold Leaves at hleaves
  unfold Exits
  rw [hkind]
  cases hk : ControlFlow.kindOf last with
  | branch =>
    rw [hk] at hleaves hf
    obtain ⟨j, d, hd, htarget, hsucc⟩ := hleaves
    refine ⟨j, d, hd, hsucc, ?_⟩
    rcases has with rfl | ⟨-, rfl⟩
    · exact .inl (by simpa [Instruction.control, hf, htarget] using hends)
    · exact .inr hends
  | jump =>
    rw [hk] at hleaves hf
    obtain ⟨j, d, hd, htarget, hsucc⟩ := hleaves
    refine ⟨j, d, hd, hsucc, ?_⟩
    rcases has with rfl | ⟨hb, -⟩
    · simpa [Instruction.control, hf, htarget] using hends
    · simp [Mnemonic.isBranch, hf] at hb
  | fallthrough =>
    rw [hk] at hleaves hf
    refine ⟨hleaves, ?_⟩
    rcases has with rfl | ⟨-, rfl⟩
    · rcases hf with hf | hf <;> simpa [Instruction.control, hf] using hends
    · exact hends
  | exit =>
    rw [hk] at hleaves hf
    refine ⟨hleaves, ?_⟩
    rcases has with rfl | ⟨-, rfl⟩
    · cases hm : last.mnemonic.flow <;> simp_all [Instruction.control]
    · exact .inr hends

/-- Exits depend on where blocks start, and not on what else they hold. -/
theorem Exits.of_start {i : Nat} {b b' : Block} (h : g.Exits i b) (hsize : g'.size = g.size)
    (hstart : ∀ {j c}, g.block? j = some c → ∃ c', g'.block? j = some c' ∧ c'.start = c.start)
    (hkind : b'.kind = b.kind) (hsucc : b'.successors = b.successors)
    (hends : ∀ {c}, Ends b.statements c → Ends b'.statements c) : g'.Exits i b' := by
  have hnext : g'.next i = g.next i := by simp [next, hsize]
  unfold Exits at h ⊢
  rw [hkind, hsucc, hnext]
  cases hk : b.kind with
  | branch =>
    rw [hk] at h
    obtain ⟨j, c, hc, hs, he⟩ := h
    obtain ⟨c', hc', hstart⟩ := hstart hc
    exact ⟨j, c', hc', hs, hstart ▸ he.imp hends hends⟩
  | jump =>
    rw [hk] at h
    obtain ⟨j, c, hc, hs, he⟩ := h
    obtain ⟨c', hc', hstart⟩ := hstart hc
    exact ⟨j, c', hc', hs, hstart ▸ hends he⟩
  | fallthrough =>
    rw [hk] at h
    exact ⟨h.1, hends h.2⟩
  | exit =>
    rw [hk] at h
    exact ⟨h.1, h.2.imp hends hends⟩

/-- Filling a graph leaves its edges as they are. -/
theorem Wired.fill {s : Scope} (h : g.Wired)
    (hfill : List.Forall₂ (s.Filled code) g.blocks g'.blocks) : g'.Wired := by
  refine h.of_edges (size_of_forall₂ hfill) fun hb' => ?_
  obtain ⟨b, hb, part, journal, -, rfl⟩ := block?_of_forall₂ hfill hb'
  exact ⟨b, hb, rfl, rfl, rfl⟩

/-- The graph of code, filled with the statements of the code, is flat. -/
theorem flat_of_fill {s : Scope} (h : ofCode code = .ok g)
    (hfill : List.Forall₂ (s.Filled code) g.blocks g'.blocks)
    (hindex : (code.map (·.index)).Nodup) (hflow : ∀ x ∈ code, x.flow = x.mnemonic.flow) :
    g'.Flat := by
  obtain ⟨hlaid, hinner⟩ := ofCode_laid h
  have hsize := size_of_forall₂ hfill
  have look : ∀ {i b'}, g'.block? i = some b' → ∃ b ss, g.block? i = some b ∧
      b' = { b with statements := ss } := by
    intro i b' hb'
    obtain ⟨b, hb, part, journal, -, hb'⟩ := block?_of_forall₂ hfill hb'
    exact ⟨b, _, hb, hb'⟩
  constructor
  · exact hlaid.wired.fill hfill
  · exact hsize ▸ hlaid.size_pos
  · intro i j a' b' ha' hb' heq
    obtain ⟨a, _, ha, rfl⟩ := look ha'
    obtain ⟨b, _, hb, rfl⟩ := look hb'
    exact hlaid.start_injective hindex ha hb heq
  · intro i b' hb'
    obtain ⟨b, _, hb, rfl⟩ := look hb'
    exact (hlaid.placed hb).ignored_eq
  · intro i b' hb' t ht
    obtain ⟨b, -, part, journal, -, rfl⟩ := block?_of_forall₂ hfill hb'
    exact (s.lifted_statements b.id part journal t ht).1.tidy
  · intro i b' hb'
    obtain ⟨b, hb, part, journal, hpart, rfl⟩ := block?_of_forall₂ hfill hb'
    have hplaced := hlaid.placed hb
    obtain ⟨hlast, hmem, hinit⟩ := slice?_spec hpart hplaced.range_lt
    obtain ⟨last, hx, hkind, hleaves⟩ := hplaced.last
    rw [hx] at hlast
    have hquiet : ∀ x ∈ part.dropLast, x.endsBlock = false := by
      intro x hx
      obtain ⟨p, hp, hlt, hcode⟩ := hinit x hx
      exact hinner hb hp hlt hcode
    obtain ⟨c, hends, has⟩ :=
      s.ends_statements b.id hlast (fun x hx => hflow x (hmem x hx)) hquiet journal
    have hexits : g.Exits i { b with statements := ((s.statements b.id part).run journal).1 } :=
      exits_of_leaves (hflow last (List.mem_of_getElem? hx)) hkind hleaves hends has
    refine hexits.of_start hsize (fun hc => ?_) rfl rfl id
    obtain ⟨c', hc', part', journal', -, rfl⟩ := block?_of_forall₂_left hfill hc
    exact ⟨_, hc', rfl⟩

/-! ## Refining statements -/

end Graph

/-- One statement rebuilt from another: it stays tidy and keeps its control. A statement that
passes control on may be eliminated. -/
def Stmt.Refines (s s' : Statement) : Prop :=
  s'.source = s.source ∧ (s.expr.Tidy →
    s'.expr.Tidy ∧ s'.expr.control = s.expr.control ∧
      (s'.eliminated = s.eliminated ∨ s.expr.control = .step ∧ s'.eliminated = true))

/-- One block rebuilt from another, statement by statement. What structuring notes about the block
may change. -/
def Block.Refines (b b' : Block) : Prop :=
  b'.toBlockHead = { b.toBlockHead with state := b'.state } ∧
    List.Forall₂ Stmt.Refines b.statements b'.statements

/-- One graph rebuilt from another, block by block. -/
def Graph.Refines (g g' : Graph) : Prop := List.Forall₂ Block.Refines g.blocks g'.blocks

namespace Stmt.Refines

theorem refl (s : Statement) : Stmt.Refines s s := ⟨rfl, fun h => ⟨h, rfl, .inl rfl⟩⟩

/-- Refining twice refines: a statement that was eliminated stays eliminated, and control is kept on
the way. -/
theorem trans {s s' s'' : Statement} (h : Stmt.Refines s s') (h' : Stmt.Refines s' s'') :
    Stmt.Refines s s'' := by
  refine ⟨h'.1.trans h.1, fun ht => ?_⟩
  obtain ⟨ht', hc', he'⟩ := h.2 ht
  obtain ⟨ht'', hc'', he''⟩ := h'.2 ht'
  refine ⟨ht'', hc''.trans hc', ?_⟩
  rcases he'' with he'' | ⟨hs, he''⟩
  · rw [he'']
    exact he'
  · exact .inr ⟨hc' ▸ hs, he''⟩

/-- A live statement that was rebuilt. -/
theorem of_expr {s : Statement} {e : Expr}
    (h : s.expr.Tidy → e.Tidy ∧ e.control = s.expr.control) :
    Stmt.Refines s { s with expr := e } :=
  ⟨rfl, fun ht => ⟨(h ht).1, (h ht).2, .inl rfl⟩⟩

end Stmt.Refines

namespace Block.Refines

variable {b b' : Block}

theorem refl (b : Block) : Block.Refines b b := ⟨rfl, List.forall₂_same.mpr fun s _ => .refl s⟩

theorem id_eq (h : b.Refines b') : b'.id = b.id := by rw [h.1]
theorem kind_eq (h : b.Refines b') : b'.kind = b.kind := by rw [h.1]
theorem start_eq (h : b.Refines b') : b'.start = b.start := by rw [h.1]
theorem successors_eq (h : b.Refines b') : b'.successors = b.successors := by rw [h.1]
theorem predecessors_eq (h : b.Refines b') : b'.predecessors = b.predecessors := by rw [h.1]
theorem ignored_eq (h : b.Refines b') : b'.ignored = b.ignored := by rw [h.1]

end Block.Refines

/-- Refined statements end with the same control. -/
theorem Ends.refine {ss ss' : List Statement} {c : Control} (h : Ends ss c)
    (ht : ∀ s ∈ ss, s.expr.Tidy) (hr : List.Forall₂ Stmt.Refines ss ss') : Ends ss' c := by
  induction h generalizing ss' with
  | nil =>
    cases hr
    exact .nil
  | pass hs hrest ih =>
    cases hr with
    | cons hr hrs =>
      obtain ⟨-, hc, -⟩ := hr.2 (ht _ List.mem_cons_self)
      exact .pass (hc.trans hs) (ih (fun s hs => ht s (List.mem_cons_of_mem _ hs)) hrs)
  | last hlive hs =>
    cases hr with
    | cons hr hrs =>
      cases hrs
      obtain ⟨-, hc, he⟩ := hr.2 (ht _ List.mem_cons_self)
      rw [← hc] at hs ⊢
      rcases he with he | ⟨hstep, -⟩
      · exact .last (he.trans hlive) hs
      · exact absurd (hc.trans hstep) hs

namespace Graph.Refines

variable {g g' g'' : Graph}

theorem refl (g : Graph) : g.Refines g :=
  List.forall₂_same.mpr fun b _ => .refl b

theorem trans (h : g.Refines g') (h' : g'.Refines g'') : g.Refines g'' := by
  refine forall₂_trans (fun _ _ _ hb hb' => ?_) h h'
  refine ⟨?_, forall₂_trans (fun _ _ _ hs hs' => hs.trans hs') hb.2 hb'.2⟩
  rw [hb'.1, hb.1]

theorem wired (h : g.Refines g') (hg : g.Wired) : g'.Wired := by
  refine hg.of_edges (size_of_forall₂ h) fun hb' => ?_
  obtain ⟨b, hb, hr⟩ := block?_of_forall₂ h hb'
  exact ⟨b, hb, hr.id_eq, hr.successors_eq, hr.predecessors_eq⟩

theorem numbered (h : g.Refines g') (hg : g.Numbered) : g'.Numbered := by
  intro i b' hb'
  obtain ⟨b, hb, hr⟩ := block?_of_forall₂ h hb'
  exact hr.id_eq.trans (hg hb)

/-- Refined statements are as tidy as before. -/
theorem tidy (h : g.Refines g')
    (hg : ∀ {i b}, g.block? i = some b → ∀ s ∈ b.statements, s.expr.Tidy) {i : Nat} {b' : Block}
    (hb' : g'.block? i = some b') : ∀ s' ∈ b'.statements, s'.expr.Tidy := by
  intro s' hs'
  obtain ⟨b, hb, -, hss⟩ := block?_of_forall₂ h hb'
  obtain ⟨s, hs, hr⟩ := exists_of_forall₂ hss hs'
  exact (hr.2 (hg hb s hs)).1

/-- A refined graph is as flat as before. -/
theorem flat (h : g.Refines g') (hg : g.Flat) : g'.Flat := by
  have hsize := size_of_forall₂ h
  constructor
  · exact h.wired hg.wired
  · exact hsize ▸ hg.size_pos
  · intro i j a' b' ha' hb' heq
    obtain ⟨a, ha, hra⟩ := block?_of_forall₂ h ha'
    obtain ⟨b, hb, hrb⟩ := block?_of_forall₂ h hb'
    rw [hra.start_eq, hrb.start_eq] at heq
    exact hg.start_injective ha hb heq
  · intro i b' hb'
    obtain ⟨b, hb, hr⟩ := block?_of_forall₂ h hb'
    rw [hr.ignored_eq]
    exact hg.visible hb
  · exact h.tidy hg.tidy
  · intro i b' hb'
    obtain ⟨b, hb, hr⟩ := block?_of_forall₂ h hb'
    refine (hg.exits hb).of_start hsize (fun hc => ?_) hr.kind_eq hr.successors_eq
      fun he => he.refine (hg.tidy hb) hr.2
    obtain ⟨c', hc', hr'⟩ := block?_of_forall₂_left h hc
    exact ⟨c', hc', hr'.start_eq⟩

end Graph.Refines

end MethodLift
