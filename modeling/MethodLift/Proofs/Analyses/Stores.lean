import MethodLift.Pipeline.Lift
import MethodLift.Proofs.Analyses.Legend
import MethodLift.Proofs.Pass.Schedule

/-!
# Stores at any depth

The passes that replace numbers keep the memory access of a store that is a statement of a block.
The statements in the body of a structured conditional are rebuilt as parts of an expression, and
there an access that the legend knows is replaced like a load, also where it is stored to. So all
stores are kept, at any depth, but for those to such accesses inside another statement.
-/

namespace MethodLift

open Expr

/-! ## Targets -/

namespace Expr

/-- What the assignments in an expression assign to, at any depth. -/
def targets (e : Expr) : List Expr := e.nodes.filterMap target?

/-- What the assignments inside an expression assign to, other than the whole. -/
def innerTargets (e : Expr) : List Expr := e.parts.flatMap targets

theorem targets_eq (e : Expr) : e.targets = e.target?.toList ++ e.innerTargets := by
  rw [targets, nodes_eq, List.filterMap_cons, List.filterMap_flatMap]
  cases e.target? <;> rfl

@[simp] theorem targets_deref (address : Expr) : (deref address).targets = address.targets := rfl

theorem innerTargets_deref (address : Expr) : (deref address).innerTargets = address.targets :=
  List.flatMap_singleton _ _

theorem innerTargets_assign (target value : Expr) :
    (assign target value).innerTargets = value.targets ++ target.targets := by
  simp [innerTargets, parts]

end Expr

/-! ## Known accesses -/

namespace Legend

variable {legend : Legend} {place : Place} {e e' : Expr}

/-- The memory access is one that the legend knows: a load from a leaf that it has an entry for, or
from such a load. -/
inductive Knows (legend : Legend) : Expr → Prop
  | load {l l' : Leaf} (stands : legend.loaded? l = some l') : legend.Knows (.deref (.leaf l))
  | again {e : Expr} (known : legend.Knows e) : legend.Knows (.deref e)

theorem Resolves.eq_of_leaf {l : Leaf} (h : legend.Resolves .part (.leaf l) e') : e' = .leaf l := by
  cases h with
  | leaf => rfl
  | parts hinner => cases hinner

/-- A known access is replaced. -/
theorem Knows.eq_leaf (h : legend.Knows e) (hresolves : legend.Resolves place e e') :
    ∃ l, e' = .leaf l ∧ legend.loaded? l = some l := by
  induction h generalizing place e' with
  | load hl =>
    cases hresolves with
    | load _ hl' => exact ⟨_, rfl, legend.loaded?_of_loaded? hl'⟩
    | access haddress hnone => cases (hnone _ haddress.eq_of_leaf).symm.trans hl
    | parts _ haccess => cases haccess
  | again _ ih =>
    cases hresolves with
    | load _ hl' => exact ⟨_, rfl, legend.loaded?_of_loaded? hl'⟩
    | access haddress hnone =>
      obtain ⟨l, hleaf, hl⟩ := ih haddress
      cases (hnone l hleaf).symm.trans hl
    | parts _ haccess => cases haccess

/-- Only leaves and memory accesses become leaves. -/
theorem Resolves.cases_of_leaf {l : Leaf} (h : legend.Resolves .part e (.leaf l)) :
    e = .leaf l ∨ ∃ address m, e = .deref address ∧ legend.Resolves .part address (.leaf m) ∧
      legend.loaded? m = some l := by
  generalize hx : Expr.leaf l = x at h
  cases h with
  | leaf => exact .inl rfl
  | load haddress hl =>
    cases hx
    exact .inr ⟨_, _, rfl, haddress, hl⟩
  | access => cases hx
  | parts hinner =>
    have hleaf := congrArg Expr.leaf? hx
    rw [leaf?_withParts, hinner] at hleaf
    cases hleaf

/-- An access that is replaced is known. -/
theorem knows_of_load {address : Expr} {l l' : Leaf}
    (h : legend.Resolves .part address (.leaf l)) (hl : legend.loaded? l = some l') :
    legend.Knows (.deref address) := by
  induction address using byAllParts generalizing l l' with
  | h address ih =>
    rcases h.cases_of_leaf with rfl | ⟨inner, m, rfl, hinner, hm⟩
    · exact .load hl
    · exact .again (ih inner List.mem_cons_self hinner hm)

/-- A target inside a statement before and after: it stays an access unless the legend knows it. -/
def Keeps (legend : Legend) (t t' : Expr) : Prop :=
  t'.isAccess = true ↔ t.isAccess = true ∧ ¬legend.Knows t

/-- A part that is resolved keeps its accesses, but for those that the legend knows. -/
theorem Resolves.keeps (h : legend.Resolves place e e') : legend.Keeps e e' := by
  constructor
  · intro haccess
    refine ⟨h.isAccess haccess, fun hknown => ?_⟩
    obtain ⟨l, rfl, -⟩ := hknown.eq_leaf h
    cases haccess
  · rintro ⟨haccess, hunknown⟩
    cases h with
    | value | leaf => cases haccess
    | load haddress hl => exact absurd (knows_of_load haddress hl) hunknown
    | access => rfl
    | parts _ hno => cases hno.symm.trans haccess

/-! ## Stores -/

theorem keeps_target? {ps : List Expr}
    (h : List.Forall₂ (fun q e' => legend.Resolves q.1 q.2 e') e.places ps) :
    List.Forall₂ legend.Keeps e.target?.toList (e.withParts ps).target?.toList := by
  rcases target?_cases h with ⟨hnone, hnone'⟩ | ⟨t, t', ht, ht', htarget⟩
  · rw [hnone, hnone']
    exact .nil
  · rw [ht, ht']
    exact .cons htarget.keeps .nil

/-- Targets inside an expression are kept if those of its parts are. -/
theorem keeps_innerTargets {ps : List Expr}
    (h : List.Forall₂ (fun q e' => legend.Resolves q.1 q.2 e') e.places ps)
    (hpart : ∀ part ∈ e.parts, ∀ place e', legend.Resolves place part e' →
      List.Forall₂ legend.Keeps part.targets e'.targets) :
    List.Forall₂ legend.Keeps e.innerTargets (e.withParts ps).innerTargets := by
  have hrelated := forall₂_parts h hpart
  rw [innerTargets, innerTargets, parts_withParts hrelated.length_eq.symm]
  exact List.rel_flatMap hrelated fun _ _ h => h

/-- Inside an expression the stores that are kept are those to accesses that the legend does not
know. -/
theorem Resolves.targets (h : legend.Resolves place e e') :
    List.Forall₂ legend.Keeps e.targets e'.targets := by
  induction e using byAllParts generalizing place e' with
  | h e ih =>
    cases h with
    | value | leaf => exact .nil
    | load haddress =>
      have haddress := ih _ List.mem_cons_self haddress
      rwa [targets_deref]
    | access haddress =>
      have haddress := ih _ List.mem_cons_self haddress
      rwa [targets_deref, targets_deref]
    | parts _ _ hparts =>
      rw [targets_eq, targets_eq]
      exact List.rel_append (keeps_target? hparts)
        (keeps_innerTargets hparts fun part hpart _ _ h => ih part hpart h)

/-- The targets inside a statement stay accesses unless the legend knows them: a store in a body is
not protected as one at the top is. -/
theorem Rewrites.innerTargets (h : legend.Rewrites e e') :
    List.Forall₂ legend.Keeps e.innerTargets e'.innerTargets := by
  cases h with
  | store haddress hvalue =>
    rw [innerTargets_assign, innerTargets_assign, targets_deref, targets_deref]
    exact List.rel_append hvalue.targets haddress.targets
  | other _ hresolves =>
    cases hresolves with
    | leaf => exact .nil
    | load haddress =>
      rw [innerTargets_deref]
      exact haddress.targets
    | access haddress =>
      rw [innerTargets_deref, innerTargets_deref]
      exact haddress.targets
    | parts _ _ hparts => exact keeps_innerTargets hparts fun _ _ _ _ h => h.targets

end Legend

/-- A statement before and after, as far as it stores to memory. A live statement stores as a whole
if it did so before. What the assignments inside it store to stays a memory access, unless the
legend knows that access. -/
inductive Stmt.KeepsStores (legend : Legend) (s : Statement) : Statement → Prop
  | dead (h : s.eliminated = true) : s.KeepsStores legend s
  | live {e : Expr} (h : s.eliminated = false) (store : e.isStore = s.expr.isStore)
    (inner : List.Forall₂ legend.Keeps s.expr.innerTargets e.innerTargets) :
    s.KeepsStores legend { s with expr := e }

/-- What is resolved in a statement keeps the stores of its bodies as far as the legend does not
know them. -/
theorem Stmt.Resolves.keepsStores {legend : Legend} {s s' : Statement}
    (h : s.Resolves legend s') : s.KeepsStores legend s' := by
  cases h with
  | dead hs => exact .dead hs
  | live hs hrewrites _ _ hstore => exact .live hs hstore hrewrites.innerTargets

theorem Graph.Related.mono {R S : Statement → Statement → Prop} {g g' : Graph}
    (h : g.Related R g') (hRS : ∀ s s', R s s' → S s s') : g.Related S g' :=
  List.Forall₂.imp (fun _ _ hb => ⟨hb.1, List.Forall₂.imp hRS hb.2⟩) h

/-- Which stores the two passes keep, in any method and after any passes. A statement of a block
that stores to memory still does. An assignment inside another statement, such as one in the body of
a structured conditional, still stores to memory if it did so, unless it stores to a slot, to a
string or to what is at such an address. -/
theorem Context.keepsStores_inlining (ctx : Context) :
    ctx.graph.Related (Stmt.KeepsStores (UsageInlining.legend ctx.image ctx.options))
        ctx.inlineUsages.1.graph ∧
      ctx.graph.Related (Stmt.KeepsStores (LiteralInlining.legend ctx.image ctx.options))
        ctx.inlineLiterals.1.graph := by
  rw [graph_inlineUsages, graph_inlineLiterals]
  exact ⟨(ctx.graph.resolves_mapLive _).mono fun _ _ => Stmt.Resolves.keepsStores,
    (ctx.graph.resolves_mapLive _).mono fun _ _ => Stmt.Resolves.keepsStores⟩

/-! ## A store in a body -/

/-- Code that stores to a global slot on one side of a comparison. -/
def deposit : List Instruction :=
  [⟨0, .compare, [.register "rcx", .immediate 0], .next⟩, ⟨1, .jumpIfEqual, [.target 3], .branch⟩,
    ⟨2, .ret, [], .ret⟩, ⟨3, .move, [.memory { addend := 36864 }, .register "rcx"], .next⟩,
    ⟨4, .ret, [], .ret⟩]

def depositScope : Scope where
  image := ({ isa := .x64 } : Image).addGlobal 36864 (.type "Game.Player" (some 2))
  method := { id := 0, name := "store", declaringName := "Sample" }

def depositGraph : Graph := (Graph.ofCode deposit).toOption.getD {}

def depositContext : Context where
  image := depositScope.image
  method := depositScope.method
  graph := ((depositScope.fill deposit depositGraph).run.run {}).1.toOption.getD {}

/-- What the assignments inside the live statements of a graph assign to. -/
def Graph.innerTargets (g : Graph) : List Expr :=
  g.blocks.flatMap fun b => b.live.flatMap fun s => s.expr.innerTargets

/-- Once the store of `deposit` is in the body of a conditional, it is no store to memory any more
after its address is replaced by what the slot there stands for. -/
theorem Context.not_keepsStores_deposit :
    Graph.ofCode deposit = .ok depositGraph ∧
      (depositScope.fill deposit depositGraph).run.run {} = (.ok depositContext.graph, {}) ∧
      ∃ promoted structured inlined,
        (Pass.promotion.run 0).run.run depositContext = (.ok true, promoted) ∧
        (Pass.structuring.run 0).run.run promoted = (.ok true, structured) ∧
        (Pass.usageInlining.run 0).run.run structured = (.ok true, inlined) ∧
        structured.graph.innerTargets.map isAccess = [true] ∧
        inlined.graph.innerTargets.map isAccess = [false] := by
  have hpromoted : depositContext.promote.2 = true := by decide +kernel
  have hstructured : depositContext.promote.1.structureBranches.2 = true := by decide +kernel
  have hinlined : depositContext.promote.1.structureBranches.1.inlineUsages.2 = true := by
    decide +kernel
  refine ⟨rfl, rfl, _, _, _, Pass.run_ofStep (Prod.ext rfl hpromoted) 0,
    Pass.run_ofStep (Prod.ext rfl hstructured) 0, Pass.run_ofStep (Prod.ext rfl hinlined) 0, ?_, ?_⟩
  · decide +kernel
  · decide +kernel

end MethodLift
