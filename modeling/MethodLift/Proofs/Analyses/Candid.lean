import MethodLift.Proofs.Analyses.Weight

/-!
# Work that reports its changes

A schedule stops when nothing is reported to have changed. `Candid x P` says that work either
reports a change, or does nothing but give a result with property `P`. An analysis whose steps are
candid is candid itself, so when it is silent we know what it left.

One step is silent and still changes something: the load of a slot that is replaced already becomes
the slot. What silent work leaves is therefore said by a plain function, and `Idle` says that
another run would leave it alone.
-/

namespace MethodLift

open Expr

/-- The work reports a change, or does nothing but give a result that has a property. -/
def Candid {α : Type} (x : Refine α) (P : α → Prop) : Prop :=
  (∃ a, x = pure a ∧ P a) ∨ ∀ p, (x.run p).2.changed = true

namespace Candid

variable {α β : Type} {P : α → Prop} {Q : β → Prop}

theorem pure {a : α} (h : P a) : Candid (Pure.pure a) P := .inl ⟨a, rfl, h⟩

theorem note (e : Event) (a : α) : Candid (do Refine.note e; Pure.pure a) P := .inr fun _ => rfl

theorem mark (a : α) : Candid (do Refine.mark; Pure.pure a) P := .inr fun _ => rfl

theorem mono {P' : α → Prop} {x : Refine α} (hx : Candid x P) (h : ∀ a, P a → P' a) :
    Candid x P' :=
  hx.imp_left fun ⟨a, ha, hp⟩ => ⟨a, ha, h a hp⟩

/-- The rest has to be candid whatever the first part gave, for it may not take back a change. -/
theorem bind {x : Refine α} {f : α → Refine β} (hx : Candid x P)
    (hf : ∀ a, Candid (f a) fun b => P a → Q b) : Candid (x >>= f) Q := by
  rcases hx with ⟨a, rfl, ha⟩ | hreport
  · rw [pure_bind]
    exact (hf a).mono fun b hb => hb ha
  · refine .inr fun p => ?_
    rw [StateT.run_bind]
    rcases hf (x.run p).1 with ⟨b, hb, -⟩ | hreport'
    · show ((f (x.run p).1).run (x.run p).2).2.changed = true
      rw [hb]
      exact hreport p
    · exact hreport' _

theorem of_eq_pure {x : Refine α} {a : α} (hx : Candid x P) (h : x = Pure.pure a) : P a := by
  rcases hx with ⟨b, hb, hP⟩ | hreport
  · have hab : a = b := congrArg (fun y : Refine α => (y.run {}).1) (h.symm.trans hb)
    exact hab ▸ hP
  · cases (congrArg (fun y : Refine α => (y.run {}).2.changed) h).symm.trans (hreport {})

/-- Silent work through a list did to every element what a plain function does. -/
theorem mapM {φ : α → β} {l : List α} {f : α → Refine β}
    (h : ∀ a ∈ l, Candid (f a) fun b => b = φ a ∧ Q b) :
    Candid (l.mapM f) fun l' => l' = l.map φ ∧ ∀ b ∈ l', Q b := by
  induction l with
  | nil => exact .pure ⟨rfl, by simp⟩
  | cons a rest ih =>
    obtain ⟨ha, hrest⟩ := List.forall_mem_cons.mp h
    rw [List.mapM_cons]
    refine ha.bind fun b => (ih hrest).bind fun bs => .pure ?_
    rintro ⟨rfl, hbs⟩ ⟨rfl, hb⟩
    exact ⟨rfl, List.forall_mem_cons.mpr ⟨hb, hbs⟩⟩

end Candid

/-! ## Rebuilding expressions -/

/-- The step leaves all parts of an expression alone. -/
def Calm (f : Expr → Refine Expr) (e : Expr) : Prop := ∀ part ∈ e.nodes, f part = pure part

namespace Calm

variable {f : Expr → Refine Expr} {e : Expr}

theorem self (h : Calm f e) : f e = pure e := h e e.self_mem_nodes

theorem of_mem_parts (h : Calm f e) {part : Expr} (hp : part ∈ e.parts) : Calm f part :=
  (forall_nodes_iff.mp h).2 part hp

/-- A part that the step leaves alone, with parts that are left alone, is left alone as a whole. -/
theorem of_parts (h : f e = pure e) (hparts : ∀ part ∈ e.parts, Calm f part) : Calm f e :=
  forall_nodes_iff.mpr ⟨h, hparts⟩

/-- Where the step leaves all parts alone, so does the walk through the expression. -/
theorem bottomUpM (h : Calm f e) : e.bottomUpM f = pure e := by
  induction e using byAllParts with
  | h e ih =>
    have hparts : e.parts.mapM (Expr.bottomUpM f) = pure (e.parts.map id) :=
      mapM_eq_pure fun part hp => ih part hp (h.of_mem_parts hp)
    rw [bottomUpM_eq, hparts, pure_bind, List.map_id, withParts_parts]
    exact h.self

theorem bottomUpLoadsM (h : Calm f e) : e.bottomUpLoadsM f = pure e := by
  unfold Expr.bottomUpLoadsM
  split
  · rename_i address value
    have hvalue : Calm f value := h.of_mem_parts (by simp [parts])
    have htarget : Calm f (.deref address) := h.of_mem_parts (by simp [parts])
    have haddress : Calm f address := htarget.of_mem_parts (by simp [parts])
    rw [hvalue.bottomUpM, pure_bind, haddress.bottomUpM, pure_bind]
    exact h.self
  · exact h.bottomUpM

end Calm

/-- When the step reports nothing, it did what `h` does, and it would leave alone what it left. -/
def Settling (f : Expr → Refine Expr) (h : Expr → Expr) : Prop :=
  ∀ e, Candid (f e) fun e' => e' = h e ∧ f e' = pure e' ∧ e'.parts ⊆ e.parts

namespace Settling

variable {f : Expr → Refine Expr} {h : Expr → Expr}

/-- A step that changes nothing without a report. -/
theorem of_candid (hf : ∀ e, Candid (f e) (· = e)) : Settling f id := by
  intro e
  rcases hf e with ⟨a, ha, rfl⟩ | hreport
  · exact .inl ⟨a, ha, rfl, ha, List.Subset.refl _⟩
  · exact .inr hreport

/-- A walk that reports nothing did in every part what `h` does, and would leave its own result
alone. -/
theorem bottomUpM (hf : Settling f h) (e : Expr) :
    Candid (e.bottomUpM f) fun e' => e' = e.bottomUp h ∧ Calm f e' := by
  induction e using byAllParts with
  | h e ih =>
    rw [bottomUpM_eq, bottomUp_eq]
    refine (Candid.mapM ih).bind fun ps => (hf (e.withParts ps)).mono ?_
    rintro e' ⟨rfl, hself, hsub⟩ ⟨rfl, hcalm⟩
    refine ⟨rfl, .of_parts hself fun part hpart => hcalm part ?_⟩
    rw [← parts_withParts (e := e) (List.length_map _)]
    exact hsub hpart

/-- The same for statements. The access of a store is not walked to, so only what `h` does to the
assignment itself has to be known. -/
theorem bottomUpLoadsM (hf : Settling f h) (hassign : ∀ t v, h (.assign t v) = .assign t v)
    (e : Expr) :
    Candid (e.bottomUpLoadsM f) fun e' =>
      e' = e.bottomUpLoads h ∧ e'.bottomUpLoadsM f = pure e' := by
  by_cases hstore : ∃ address value, e = .assign (.deref address) value
  · obtain ⟨address, value, rfl⟩ := hstore
    refine (hf.bottomUpM value).bind fun v => (hf.bottomUpM address).bind fun a =>
      (hf _).mono ?_
    rintro e' ⟨he', hself, -⟩ ⟨ha, hacalm⟩ ⟨hv, hvcalm⟩
    rw [hassign] at he'
    subst he'
    refine ⟨?_, ?_⟩
    · rw [ha, hv]
      exact (hassign _ _).symm
    · rw [Expr.bottomUpLoadsM, hvcalm.bottomUpM, pure_bind, hacalm.bottomUpM, pure_bind]
      exact hself
  · have hne : ∀ address value, e ≠ .assign (.deref address) value :=
      fun address value h => hstore ⟨address, value, h⟩
    rw [bottomUpLoads, bottomUpLoadsM_of_ne _ hne, bottomUpLoadsM_of_ne _ hne]
    exact (hf.bottomUpM e).mono fun e' he' => ⟨he'.1, he'.2.bottomUpLoadsM⟩

end Settling

/-! ## Live statements -/

/-- Rebuilds the live statements of a graph with a plain function. -/
def Graph.mapLive (h : Expr → Expr) (g : Graph) : Graph :=
  ⟨g.blocks.map (Block.mapLive fun s => h s.expr)⟩

theorem Block.live_mapLive (f : Statement → Expr) (b : Block) :
    (b.mapLive f).live = b.live.map fun s => { s with expr := f s } := by
  unfold live mapLive
  rw [List.filter_map]
  have hkeep : ∀ s ∈ b.statements, ((fun s : Statement => !s.eliminated) ∘
      fun s => if s.eliminated then s else { s with expr := f s }) s = !s.eliminated := by
    intro s _
    dsimp only [Function.comp]
    split <;> rfl
  rw [List.filter_congr hkeep]
  refine List.map_congr_left fun s hs => ?_
  rw [if_neg]
  simpa using (List.mem_filter.mp hs).2

@[simp] theorem Graph.mapLive_id (g : Graph) : g.mapLive id = g := by
  have hblock : ∀ b ∈ g.blocks, (Block.mapLive fun s => id s.expr) b = b := by
    intro b _
    simp [Block.mapLive]
  exact congrArg Graph.mk ((List.map_congr_left hblock).trans (List.map_id _))

/-- Steps that do to live statements what a plain function does rebuild the graph as it does. -/
theorem Graph.yields_mapLive {σ : Type} {f : Block → Statement → StateM σ Expr} {h : Expr → Expr}
    (hf : ∀ b s, Yields (f b s) (· = h s.expr)) (g : Graph) :
    Yields (g.mapLiveM f) (· = g.mapLive h) := by
  have hstep : ∀ (b : Block) (s : Statement), Yields
      (if s.eliminated then pure s else do let e ← f b s; pure { s with expr := e })
      (· = if s.eliminated then s else { s with expr := h s.expr }) := by
    intro b s
    split
    · exact .pure rfl
    · exact (hf b s).bind fun e he => .pure (by rw [he])
  have hblock : ∀ b ∈ g.blocks, Yields (b.mapLiveM (f b)) (· = b.mapLive fun s => h s.expr) :=
    fun b _ => (Yields.mapM_eq fun s _ => hstep b s).bind fun ss hss => .pure (by rw [hss]; rfl)
  exact (Yields.mapM_eq hblock).bind fun bs hbs => .pure (by rw [hbs]; rfl)

/-- Work on statements, given the block and the instruction that they belong to. -/
abbrev Sweep := BlockId → Option Nat → Expr → Refine Expr

/-- The sweep leaves all live statements of a graph alone. -/
def Graph.Idle (sweep : Sweep) (g : Graph) : Prop :=
  ∀ b ∈ g.blocks, ∀ s ∈ b.live, sweep b.id s.source s.expr = pure s.expr

section Sweep

variable {sweep : Sweep} {h : Expr → Expr}

/-- A sweep that leaves all live statements alone reports nothing and leaves the method as it
was. -/
theorem Context.refineLive_of_idle (ctx : Context) (hidle : ctx.graph.Idle sweep) :
    ctx.refineLive (fun b s => sweep b.id s.source s.expr) = (ctx, false) := by
  have hstep : ∀ b ∈ ctx.graph.blocks, ∀ s ∈ b.statements,
      (if s.eliminated then pure s else do
        let e ← sweep b.id s.source s.expr
        pure { s with expr := e }) = (pure (id s) : Refine Statement) := by
    intro b hb s hs
    split
    · rfl
    · rename_i hlive
      rw [hidle b hb s (List.mem_filter.mpr ⟨hs, by simpa using hlive⟩), pure_bind]
      rfl
  have hblock : ∀ b ∈ ctx.graph.blocks,
      b.mapLiveM (fun s => sweep b.id s.source s.expr) = (pure (id b) : Refine Block) := by
    intro b hb
    rw [Block.mapLiveM, mapM_eq_pure (hstep b hb), pure_bind, List.map_id]
    rfl
  unfold refineLive
  rw [Graph.mapLiveM, mapM_eq_pure hblock, pure_bind, List.map_id]
  show ({ ctx with journal := ctx.journal.recordAll [] }, false) = (ctx, false)
  rw [Journal.recordAll, List.append_nil]

/-- A sweep over a graph that reports nothing leaves a graph that the sweep would leave alone. -/
theorem Graph.candid_mapLiveM
    (hsweep : ∀ id source e, Candid (sweep id source e) fun e' =>
      e' = h e ∧ sweep id source e' = pure e') (g : Graph) :
    Candid (g.mapLiveM fun b s => sweep b.id s.source s.expr) fun g' =>
      g' = g.mapLive h ∧ g'.Idle sweep := by
  have hstep : ∀ (id : BlockId) (s : Statement), Candid
      (if s.eliminated then pure s else do
        let e ← sweep id s.source s.expr
        pure { s with expr := e })
      fun s' => s' = (if s.eliminated then s else { s with expr := h s.expr }) ∧
        (s'.eliminated = false → sweep id s'.source s'.expr = pure s'.expr) := by
    intro id s
    cases hlive : s.eliminated with
    | true => exact .pure ⟨rfl, fun hs => absurd (hs.symm.trans hlive) Bool.false_ne_true⟩
    | false =>
      refine (hsweep id s.source s.expr).bind fun e => .pure ?_
      rintro ⟨rfl, hidle⟩
      exact ⟨rfl, fun _ => hidle⟩
  have hblock : ∀ b ∈ g.blocks, Candid (b.mapLiveM fun s => sweep b.id s.source s.expr)
      fun b' => b' = (b.mapLive fun s => h s.expr) ∧
        ∀ s ∈ b'.live, sweep b'.id s.source s.expr = pure s.expr := by
    intro b _
    refine (Candid.mapM fun s _ => hstep b.id s).bind fun ss => .pure ?_
    rintro ⟨rfl, hidle⟩
    refine ⟨rfl, fun s hs => ?_⟩
    obtain ⟨hs, hlive⟩ := List.mem_filter.mp hs
    exact hidle s hs (by simpa using hlive)
  refine (Candid.mapM hblock).bind fun bs => .pure ?_
  rintro ⟨rfl, hidle⟩
  exact ⟨rfl, hidle⟩

/-- What refining leaves when it reports nothing. -/
theorem Context.refineLive_of_silent
    (hsweep : ∀ id source e, Candid (sweep id source e) fun e' =>
      e' = h e ∧ sweep id source e' = pure e') {ctx ctx' : Context}
    (hsilent : ctx.refineLive (fun b s => sweep b.id s.source s.expr) = (ctx', false)) :
    ctx' = { ctx with graph := ctx.graph.mapLive h } ∧ ctx'.graph.Idle sweep := by
  unfold refineLive at hsilent
  rcases Graph.candid_mapLiveM hsweep ctx.graph with ⟨g, hg, rfl, hidle⟩ | hreport
  · rw [hg] at hsilent
    obtain rfl := (Prod.mk.inj hsilent).1
    refine ⟨?_, hidle⟩
    show { ctx with graph := _, journal := ctx.journal.recordAll [] } = _
    rw [Journal.recordAll, List.append_nil]
  · cases (Prod.mk.inj hsilent).2.symm.trans (hreport {})

end Sweep

end MethodLift
