import MethodLift.Proofs.Analyses.Candid
import MethodLift.Proofs.Analyses.Narrowing

/-!
# What numbers stand for

Two passes replace numbers by what is known to be at their addresses: metadata usages and string
literals. A `Legend` says what both have in common: what a leaf becomes in the place of a value, and
what a load from it becomes. What a pass does to a part of a statement is then a plain function,
`Legend.node`, and what it does to a whole statement is said by rules, `Legend.Resolves`, which look
at the places that parts stand in.

A memory access is a load, unless it is what a statement as a whole stores to.
-/

namespace MethodLift

open Expr

/-! ## Legends -/

/-- What leaves stand for. What they are replaced by is never replaced again. -/
structure Legend where
  /-- What a leaf in the place of a value becomes. -/
  valued? : Leaf → Option Leaf
  /-- What a load from a leaf becomes. -/
  loaded? : Leaf → Option Leaf
  loaded?_of_valued? : ∀ {l l'}, valued? l = some l' → loaded? l = some l'
  valued?_of_loaded? : ∀ {l l'}, loaded? l = some l' → valued? l' = none
  loaded?_of_loaded? : ∀ {l l'}, loaded? l = some l' → loaded? l' = some l'
  loaded?_ne_immediate : ∀ l a, loaded? l ≠ some (.immediate a)

/-- An address leads to what a global slot stands for: the slot is at the address, or there is no
slot at the address but a pointer to one. -/
inductive Program.LeadsTo (image : Program) (address : UInt64) (usage : Usage) : Prop
  | slot (slot : image.globalAt? address = some usage) : image.LeadsTo address usage
  | pointer {p : UInt64} (none : image.globalAt? address = none)
    (pointer : image.pointerAt? address = some p) (slot : image.globalAt? p = some usage) :
    image.LeadsTo address usage

/-- The look-up of a slot follows at most one pointer. -/
theorem Program.usageAt?_eq_some {image : Program} {address : UInt64} {usage : Usage} :
    image.usageAt? address = some usage ↔ image.LeadsTo address usage := by
  unfold usageAt?
  constructor
  · intro h
    split at h
    · rename_i hslot
      cases h
      exact .slot hslot
    · rename_i hnone
      obtain ⟨p, hp, hslot⟩ := Option.bind_eq_some_iff.mp h
      exact .pointer hnone hp hslot
  · rintro (hslot | ⟨hnone, hp, hslot⟩)
    · rw [hslot]
    · rw [hnone, hp]
      exact hslot

/-- A number may be an address if it is not negative and above the least address. -/
theorem Options.address?_eq_some {o : Options} {a : Int64} {address : UInt64} :
    o.address? a = some address ↔ 0 ≤ a ∧ o.minAddress < a.toUInt64 ∧ a.toUInt64 = address := by
  simp only [address?, Option.ite_none_right_eq_some, Option.some.injEq, and_assoc]

namespace UsageInlining

variable {image : Program} {options : Options} {l l' : Leaf}

/-- The leaf is a number above the least address, and leads to what the other leaf names. -/
def Names (image : Program) (options : Options) (l l' : Leaf) : Prop :=
  ∃ a u, l = .immediate a ∧ l' = .usage u ∧ 0 ≤ a ∧ options.minAddress < a.toUInt64 ∧
    image.LeadsTo a.toUInt64 u

/-- A number stands for a slot if it is above the least address and leads there. -/
theorem usage?_eq_some {a : Int64} {u : Usage} : usage? image options a = some u ↔
    0 ≤ a ∧ options.minAddress < a.toUInt64 ∧ image.LeadsTo a.toUInt64 u := by
  simp only [usage?, Option.bind_eq_some_iff, Options.address?_eq_some, Program.usageAt?_eq_some]
  constructor
  · rintro ⟨_, ⟨hsign, habove, rfl⟩, hleads⟩
    exact ⟨hsign, habove, hleads⟩
  · rintro ⟨hsign, habove, hleads⟩
    exact ⟨_, ⟨hsign, habove, rfl⟩, hleads⟩

theorem names_immediate {a : Int64} : Names image options (.immediate a) l' ↔
    ∃ u, usage? image options a = some u ∧ .usage u = l' := by
  simp only [usage?_eq_some]
  constructor
  · rintro ⟨_, u, ⟨⟩, rfl, hnames⟩
    exact ⟨u, hnames, rfl⟩
  · rintro ⟨u, hnames, rfl⟩
    exact ⟨a, u, rfl, rfl, hnames⟩

/-- What a load from a leaf becomes. -/
def loaded? (image : Program) (options : Options) : Leaf → Option Leaf
  | .immediate a => (usage? image options a).map .usage
  | .usage u => some (.usage u)
  | _ => none

/-- A load becomes a usage if it changes at all. The laws of the legend rest on this: usages are no
numbers, so none is replaced again, and a load from one is that usage. -/
theorem exists_usage_of_loaded? (h : loaded? image options l = some l') : ∃ u, l' = .usage u := by
  cases l with
  | immediate a =>
    obtain ⟨u, -, hu⟩ := Option.map_eq_some_iff.mp h
    exact ⟨u, hu.symm⟩
  | usage u => exact ⟨u, (Option.some.inj h).symm⟩
  | _ => cases h

/-- Numbers that name slots are replaced in the places of values, and loads from them too. -/
def legend (image : Program) (options : Options) : Legend where
  valued?
    | .immediate a => (usage? image options a).map .usage
    | _ => none
  loaded? := loaded? image options
  loaded?_of_valued? {l _} h := by
    cases l with
    | immediate a => exact h
    | _ => cases h
  valued?_of_loaded? h := by
    obtain ⟨u, rfl⟩ := exists_usage_of_loaded? h
    rfl
  loaded?_of_loaded? h := by
    obtain ⟨u, rfl⟩ := exists_usage_of_loaded? h
    rfl
  loaded?_ne_immediate _ _ h := by
    obtain ⟨u, hu⟩ := exists_usage_of_loaded? h
    cases hu

/-- In the place of a value the legend knows exactly the numbers that name a slot. -/
theorem legend_valued? : (legend image options).valued? l = some l' ↔
    Names image options l l' := by
  cases l with
  | immediate a =>
    rw [names_immediate]
    exact Option.map_eq_some_iff
  | _ => simp [legend, Names]

/-- Loads from such numbers become the slot, and so do loads from the slot itself. -/
theorem legend_loaded? : (legend image options).loaded? l = some l' ↔
    Names image options l l' ∨ ∃ u, l = .usage u ∧ l' = .usage u := by
  cases l with
  | immediate a =>
    rw [names_immediate, or_iff_left fun ⟨_, h, _⟩ => nomatch h]
    exact Option.map_eq_some_iff
  | _ => simp [legend, loaded?, Names, eq_comm]

end UsageInlining

namespace LiteralInlining

variable {image : Program} {options : Options} {l l' : Leaf}

/-- The leaf is a number above the least address, where the string is stored that the other leaf
is. -/
def Names (image : Program) (options : Options) (l l' : Leaf) : Prop :=
  ∃ a text, l = .immediate a ∧ l' = .literal text ∧ 0 ≤ a ∧ options.minAddress < a.toUInt64 ∧
    image.literalAt? a.toUInt64 = some text

/-- A number stands for a string if it is above the least address and the string is stored there. -/
theorem literal?_eq_some {a : Int64} {text : String} : literal? image options a = some text ↔
    0 ≤ a ∧ options.minAddress < a.toUInt64 ∧ image.literalAt? a.toUInt64 = some text := by
  simp only [literal?, Option.bind_eq_some_iff, Options.address?_eq_some]
  constructor
  · rintro ⟨_, ⟨hsign, habove, rfl⟩, htext⟩
    exact ⟨hsign, habove, htext⟩
  · rintro ⟨hsign, habove, htext⟩
    exact ⟨_, ⟨hsign, habove, rfl⟩, htext⟩

theorem names_immediate {a : Int64} : Names image options (.immediate a) l' ↔
    ∃ text, literal? image options a = some text ∧ .literal text = l' := by
  simp only [literal?_eq_some]
  constructor
  · rintro ⟨_, text, ⟨⟩, rfl, hnames⟩
    exact ⟨text, hnames, rfl⟩
  · rintro ⟨text, hnames, rfl⟩
    exact ⟨a, text, rfl, rfl, hnames⟩

/-- What a load from a leaf becomes. -/
def loaded? (image : Program) (options : Options) : Leaf → Option Leaf
  | .immediate a => (literal? image options a).map .literal
  | .literal text => some (.literal text)
  | _ => none

/-- A load becomes a string if it changes at all, and a load from a string is that string. -/
theorem exists_literal_of_loaded? (h : loaded? image options l = some l') :
    ∃ text, l' = .literal text := by
  cases l with
  | immediate a =>
    obtain ⟨text, -, htext⟩ := Option.map_eq_some_iff.mp h
    exact ⟨text, htext.symm⟩
  | literal text => exact ⟨text, (Option.some.inj h).symm⟩
  | _ => cases h

/-- Only loads of strings are replaced. -/
def legend (image : Program) (options : Options) : Legend where
  valued? _ := none
  loaded? := loaded? image options
  loaded?_of_valued? h := by cases h
  valued?_of_loaded? _ := rfl
  loaded?_of_loaded? h := by
    obtain ⟨text, rfl⟩ := exists_literal_of_loaded? h
    rfl
  loaded?_ne_immediate _ _ h := by
    obtain ⟨text, htext⟩ := exists_literal_of_loaded? h
    cases htext

/-- Loads from the address of a string become the string, and so do loads from the string itself. -/
theorem legend_loaded? : (legend image options).loaded? l = some l' ↔
    Names image options l l' ∨ ∃ text, l = .literal text ∧ l' = .literal text := by
  cases l with
  | immediate a =>
    rw [names_immediate, or_iff_left fun ⟨_, h, _⟩ => nomatch h]
    exact Option.map_eq_some_iff
  | _ => simp [legend, loaded?, Names, eq_comm]

end LiteralInlining

/-! ## One part -/

namespace Legend

variable (legend : Legend)

/-- An expression in the place of a value. -/
def value : Expr → Expr
  | .leaf l => .leaf ((legend.valued? l).getD l)
  | e => e

/-- The target of an assignment: the address of a store is in the place of a value. -/
def target : Expr → Expr
  | .deref address => .deref (legend.value address)
  | e => e

/-- What becomes of a part when what stands inside it is done. -/
def node : Expr → Expr
  | .deref (.leaf l) => ((legend.loaded? l).map leaf).getD (.deref (.leaf l))
  | .assign t v => .assign (legend.target t) (legend.value v)
  | .call t args returns => .call t (args.map legend.value) returns
  | .compare kind left right => .compare kind (legend.value left) (legend.value right)
  | e => e

end Legend

namespace UsageInlining

variable (image : Program) (options : Options) (block : BlockId)

theorem yields_inline? (a : Int64) : Yields (inline? image options block a)
    (· = (usage? image options a).map fun u => .leaf (.usage u)) := by
  unfold inline?
  split
  · rename_i hnone
    exact .pure (by rw [hnone]; rfl)
  · rename_i u hu
    exact Yields.bind (P := fun _ => True) (fun _ => trivial) fun _ _ => .pure (by rw [hu]; rfl)

/-- The step on values is the plain function, with records beside it. -/
theorem yields_value (e : Expr) :
    Yields (value image options block e) (· = (legend image options).value e) := by
  unfold value
  split
  · rename_i a
    refine (yields_inline? image options block a).bind fun r hr => .pure ?_
    rw [hr]
    cases hu : usage? image options a <;> simp [Legend.value, legend, hu]
  · rename_i hne
    refine .pure ?_
    cases e with
    | leaf l =>
      cases l with
      | immediate a => exact absurd rfl (hne a)
      | _ => rfl
    | _ => rfl

/-- The step on targets is the plain function, with records beside it. -/
theorem yields_storeTarget (e : Expr) :
    Yields (storeTarget image options block e) (· = (legend image options).target e) := by
  unfold storeTarget
  split
  · exact (yields_value image options block _).bind fun a ha => .pure (by rw [ha]; rfl)
  · rename_i hne
    refine .pure ?_
    cases e with
    | deref address => exact absurd rfl (hne address)
    | _ => rfl

/-- The step on parts is the plain function of the legend, with records beside it. -/
theorem yields_node (e : Expr) :
    Yields (node image options block e) (· = (legend image options).node e) := by
  unfold node
  split
  · rename_i a
    refine (yields_inline? image options block a).bind fun r hr => .pure ?_
    rw [hr]
    cases hu : usage? image options a <;> simp [Legend.node, legend, loaded?, hu]
  · exact .pure rfl
  · exact (yields_storeTarget image options block _).bind fun t ht =>
      (yields_value image options block _).bind fun v hv => .pure (by rw [ht, hv]; rfl)
  · exact (Yields.mapM_eq fun a _ => yields_value image options block a).bind fun args hargs =>
      .pure (by rw [hargs]; rfl)
  · exact (yields_value image options block _).bind fun l hl =>
      (yields_value image options block _).bind fun r hr => .pure (by rw [hl, hr]; rfl)
  · rename_i himmediate husage hassign hcall hcompare
    refine .pure ?_
    cases e with
    | deref address =>
      cases address with
      | leaf l =>
        cases l with
        | immediate a => exact absurd rfl (himmediate a)
        | usage u => exact absurd rfl (husage u)
        | _ => rfl
      | _ => rfl
    | assign t v => exact absurd rfl (hassign t v)
    | call t args returns => exact absurd rfl (hcall t args returns)
    | compare kind left right => exact absurd rfl (hcompare kind left right)
    | _ => rfl

end UsageInlining

namespace LiteralInlining

variable (image : Program) (options : Options)

theorem legend_value : (legend image options).value = id := by
  funext e
  cases e <;> rfl

theorem legend_target (e : Expr) : (legend image options).target e = e := by
  cases e with
  | deref address =>
    rw [Legend.target, legend_value]
    rfl
  | _ => rfl

/-- The step is the plain function of a legend that knows no values, with records beside it. -/
theorem yields_node (block : BlockId) (e : Expr) :
    Yields (node image options block e) (· = (legend image options).node e) := by
  unfold node
  split
  · exact Yields.bind (P := fun _ => True) (fun _ => trivial) fun _ _ => .pure rfl
  · rename_i a
    split
    · rename_i text htext
      refine Yields.bind (P := fun _ => True) (fun _ => trivial) fun _ _ => .pure ?_
      simp [Legend.node, legend, loaded?, htext]
    · rename_i hnone
      exact .pure (by simp [Legend.node, legend, loaded?, hnone])
  · rename_i hliteral himmediate
    refine .pure ?_
    cases e with
    | deref address =>
      cases address with
      | leaf l =>
        cases l with
        | immediate a => exact absurd rfl (himmediate a)
        | literal text => exact absurd rfl (hliteral text)
        | _ => rfl
      | _ => rfl
    | assign t v =>
      rw [Legend.node, legend_target, legend_value]
      rfl
    | call t args returns => rw [Legend.node, legend_value, List.map_id]
    | compare kind left right =>
      rw [Legend.node, legend_value]
      rfl
    | _ => rfl

end LiteralInlining

/-! ## Rebuilding -/

/-- Steps that do what a plain function does rebuild statements as it does. -/
theorem Expr.yields_bottomUpLoads {σ : Type} {f : Expr → StateM σ Expr} {h : Expr → Expr}
    (hf : ∀ e, Yields (f e) (· = h e)) (e : Expr) :
    Yields (e.bottomUpLoadsM f) (· = e.bottomUpLoads h) := by
  by_cases hstore : ∃ address value, e = .assign (.deref address) value
  · obtain ⟨address, value, rfl⟩ := hstore
    refine (yields_bottomUp hf value).bind fun v hv => ?_
    refine (yields_bottomUp hf address).bind fun a ha => ?_
    rw [hv, ha]
    exact hf _
  · have hne : ∀ a v, e ≠ .assign (.deref a) v := fun a v h => hstore ⟨a, v, h⟩
    rw [bottomUpLoads, bottomUpLoadsM_of_ne _ hne, bottomUpLoadsM_of_ne _ hne]
    exact yields_bottomUp hf e

namespace Context

open UsageInlining in
theorem graph_inlineUsages (ctx : Context) : ctx.inlineUsages.1.graph =
    ctx.graph.mapLive (bottomUpLoads (legend ctx.image ctx.options).node) :=
  Graph.yields_mapLive (fun b s => yields_bottomUpLoads (yields_node _ _ b.id) s.expr) ctx.graph {}

open LiteralInlining in
theorem graph_inlineLiterals (ctx : Context) : ctx.inlineLiterals.1.graph =
    ctx.graph.mapLive (bottomUpLoads (legend ctx.image ctx.options).node) :=
  Graph.yields_mapLive (fun b s => yields_bottomUpLoads (yields_node _ _ b.id) s.expr) ctx.graph {}

end Context

/-! ## Whole statements -/

/-- Where a part of an expression stands. -/
inductive Place where
  /-- In the place of a value: assigned, passed, or compared, or the address of a store. -/
  | value
  /-- Anywhere else. -/
  | part
deriving DecidableEq, Repr

namespace Expr

/-- What stands directly inside an expression, each part with its place. -/
def places : Expr → List (Place × Expr)
  | .assign target value => [(.value, value), (.part, target)]
  | .compare _ left right => [(.value, left), (.value, right)]
  | .call target arguments _ => (.part, target) :: arguments.map (Place.value, ·)
  | e => e.parts.map (Place.part, ·)

def isAccess : Expr → Bool
  | .deref _ => true
  | _ => false

def target? : Expr → Option Expr
  | .assign target _ => some target
  | _ => none

/-- The expression as a whole stores to memory. -/
def isStore (e : Expr) : Bool := e.target?.any isAccess

/-- The numbers that are operands of an operation. -/
def operands : Expr → List Int64
  | .arith _ left right => left.immediate?.toList ++ right.immediate?.toList
  | _ => []

/-- The numbers that are operands of arithmetic somewhere in an expression. -/
def offsets (e : Expr) : List Int64 := e.nodes.flatMap operands

/-- Places say where the parts stand, and leave none out. -/
theorem map_places (e : Expr) : e.places.map (·.2) = e.parts := by
  cases e <;> simp [places, parts, Function.comp_def]

@[simp] theorem offsets_deref (address : Expr) : (deref address).offsets = address.offsets := rfl

/-- The operands in an expression are its own and those of its parts. -/
theorem offsets_eq (e : Expr) : e.offsets = e.operands ++ e.parts.flatMap offsets := by
  rw [offsets, nodes_eq, List.flatMap_cons, List.flatMap_assoc]
  rfl

theorem offsets_assign (target value : Expr) :
    (assign target value).offsets = value.offsets ++ target.offsets := by
  simp [offsets_eq (assign _ _), operands, parts]

end Expr

namespace Legend

variable (legend : Legend)

/-- An expression in some place and what becomes of it. A leaf in the place of a value and a load
from a leaf become what the legend says; all else stays, with its parts resolved. -/
inductive Resolves : Place → Expr → Expr → Prop
  | value {l l' : Leaf} (stands : legend.valued? l = some l') : Resolves .value (.leaf l) (.leaf l')
  | leaf {place : Place} {l : Leaf} (none : place = .value → legend.valued? l = none) :
    Resolves place (.leaf l) (.leaf l)
  | load {place : Place} {address : Expr} {l l' : Leaf}
    (address_resolves : Resolves .part address (.leaf l)) (stands : legend.loaded? l = some l') :
    Resolves place (.deref address) (.leaf l')
  | access {place : Place} {address address' : Expr}
    (address_resolves : Resolves .part address address')
    (none : ∀ l, address' = .leaf l → legend.loaded? l = none) :
    Resolves place (.deref address) (.deref address')
  | parts {place : Place} {e : Expr} {ps : List Expr} (inner : e.leaf? = none)
    (no_access : e.isAccess = false)
    (parts : List.Forall₂ (fun q e' => Resolves q.1 q.2 e') e.places ps) :
    Resolves place e (e.withParts ps)

/-- A statement and what becomes of it. A store stays one, and its address is in the place of a
value. -/
inductive Rewrites : Expr → Expr → Prop
  | store {address address' value value' : Expr}
    (address_resolves : legend.Resolves .value address address')
    (value_resolves : legend.Resolves .value value value') :
    Rewrites (.assign (.deref address) value) (.assign (.deref address') value')
  | other {e e' : Expr} (no_store : e.isStore = false) (resolves : legend.Resolves .part e e') :
    Rewrites e e'

variable {legend}

/-! ### The function follows the rules -/

theorem value_leaf (l : Leaf) : legend.value (.leaf l) = .leaf ((legend.valued? l).getD l) := rfl

theorem value_of_leaf? {e : Expr} (h : e.leaf? = none) : legend.value e = e := by
  cases e with
  | leaf l => cases h
  | _ => rfl

/-- What is resolved apart from its place is resolved in the place of a value by one more step. -/
theorem Resolves.in_value {e e' : Expr} (h : legend.Resolves .part e e') :
    legend.Resolves .value e (legend.value e') := by
  cases h with
  | @leaf _ l _ =>
    cases hl : legend.valued? l with
    | none =>
      rw [value_leaf, hl]
      exact .leaf fun _ => hl
    | some l' =>
      rw [value_leaf, hl]
      exact .value hl
  | load haddress hl =>
    rw [value_leaf, legend.valued?_of_loaded? hl]
    exact .load haddress hl
  | access haddress hnone => exact .access haddress hnone
  | parts hinner haccess hparts =>
    rw [value_of_leaf? (by rw [leaf?_withParts, hinner])]
    exact .parts hinner haccess hparts

/-- What becomes of a part in a place, when what stands inside it is done. -/
def put (legend : Legend) : Place → Expr → Expr
  | .value => legend.value
  | .part => id

theorem Resolves.put {e e' : Expr} (h : legend.Resolves .part e e') (place : Place) :
    legend.Resolves place e (legend.put place e') := by
  cases place with
  | value => exact h.in_value
  | part => exact h

/-- A load either becomes what the legend says, or is of nothing that the legend knows and stays. -/
theorem node_deref_cases (legend : Legend) (address : Expr) :
    (∃ l l', address = .leaf l ∧ legend.loaded? l = some l' ∧
      legend.node (.deref address) = .leaf l') ∨
    (∀ l, address = .leaf l → legend.loaded? l = none) ∧
      legend.node (.deref address) = .deref address := by
  cases address with
  | leaf l =>
    cases hl : legend.loaded? l with
    | none => exact .inr ⟨fun _ h => Expr.leaf.inj h ▸ hl, by rw [node, hl]; rfl⟩
    | some l' => exact .inl ⟨l, l', rfl, hl, by rw [node, hl]; rfl⟩
  | _ => exact .inr ⟨fun _ => nofun, rfl⟩

/-- A memory access that is left inside an expression is none that the legend knows, so the address
does not change either where it is a target. -/
theorem target_bottomUp (e : Expr) :
    legend.target (e.bottomUp legend.node) = e.bottomUp legend.node := by
  cases e with
  | deref address =>
    rw [bottomUp_deref]
    rcases legend.node_deref_cases (address.bottomUp legend.node) with
      ⟨_, l', -, -, hload⟩ | ⟨hnone, haccess⟩
    · rw [hload]
      rfl
    · rw [haccess, target]
      cases hl : address.bottomUp legend.node with
      | leaf l =>
        have hvalued : legend.valued? l = none := by
          refine Option.eq_none_iff_forall_ne_some.mpr fun l' hl' => ?_
          cases (hnone l hl).symm.trans (legend.loaded?_of_valued? hl')
        rw [value_leaf, hvalued]
        rfl
      | _ => rfl
  | _ => simp [node, target]

/-- Besides leaves and accesses, an expression is rebuilt from its parts, each as its place wants
it. -/
theorem bottomUp_node {e : Expr} (hinner : e.leaf? = none) (haccess : e.isAccess = false) :
    e.bottomUp legend.node =
      e.withParts (e.places.map fun q => legend.put q.1 (q.2.bottomUp legend.node)) := by
  cases e with
  | leaf l => cases hinner
  | deref address => cases haccess
  | assign target value =>
    rw [bottomUp_assign, node, target_bottomUp]
    rfl
  | call target args returns =>
    simp [node, places, withParts, put, Function.comp_def]
  | guarded condition head body =>
    simp [node, places, withParts, put, parts, List.zipWith_map_right, List.zipWith_self]
  | _ => rfl

/-- The walk through an expression follows the rules. The induction is on the parts, which are
resolved apart from their places first. -/
theorem resolves_bottomUp (e : Expr) : legend.Resolves .part e (e.bottomUp legend.node) := by
  induction e using byAllParts with
  | h e ih =>
    cases hleaf : e.leaf? with
    | some l =>
      cases e with
      | leaf l => exact .leaf nofun
      | _ => cases hleaf
    | none =>
      cases haccess : e.isAccess with
      | true =>
        cases e with
        | deref address =>
          have haddress := ih address List.mem_cons_self
          rw [bottomUp_deref]
          rcases legend.node_deref_cases (address.bottomUp legend.node) with
            ⟨l, l', hl, hl', hload⟩ | ⟨hnone, hkept⟩
          · rw [hload]
            exact .load (hl ▸ haddress) hl'
          · rw [hkept]
            exact .access haddress hnone
        | _ => cases haccess
      | false =>
        rw [bottomUp_node hleaf haccess]
        refine .parts hleaf haccess ?_
        refine List.forall₂_map_right_iff.mpr (List.forall₂_same.mpr fun q hq => ?_)
        exact (ih q.2 (map_places e ▸ List.mem_map_of_mem hq)).put q.1

/-- The walk through a statement follows the rules for statements: the access of a store is kept,
and its address is a value. -/
theorem rewrites_bottomUpLoads (e : Expr) : legend.Rewrites e (e.bottomUpLoads legend.node) := by
  by_cases hstore : ∃ address value, e = .assign (.deref address) value
  · obtain ⟨address, value, rfl⟩ := hstore
    exact .store (resolves_bottomUp address).in_value (resolves_bottomUp value).in_value
  · rw [bottomUpLoads, bottomUpLoadsM_of_ne _ fun a v h => hstore ⟨a, v, h⟩]
    refine .other ?_ (resolves_bottomUp e)
    cases e with
    | assign target value =>
      cases target with
      | deref address => exact absurd ⟨address, value, rfl⟩ hstore
      | _ => rfl
    | _ => rfl

/-! ### What the rules keep -/

/-- Parts that are resolved in their places are related as single expressions are. -/
theorem forall₂_parts {R : Expr → Expr → Prop} {e : Expr} {ps : List Expr}
    (h : List.Forall₂ (fun q e' => legend.Resolves q.1 q.2 e') e.places ps)
    (hpart : ∀ part ∈ e.parts, ∀ place e', legend.Resolves place part e' → R part e') :
    List.Forall₂ R e.parts ps := by
  rw [← map_places] at hpart ⊢
  refine List.forall₂_map_left_iff.mpr (forall₂_imp_of_mem (fun q hq e' hq' => ?_) h)
  exact hpart q.2 (List.mem_map_of_mem hq) q.1 e' hq'

theorem immediate?_withParts (e : Expr) (ps : List Expr) :
    (e.withParts ps).immediate? = e.immediate? := by
  unfold withParts
  split <;> rfl

/-- A part that is no value stays a number exactly if it was one, since no load becomes a number. -/
theorem Resolves.immediate?_eq {e e' : Expr} (h : legend.Resolves .part e e') :
    e'.immediate? = e.immediate? := by
  cases h with
  | leaf | access => rfl
  | @load _ _ l l' _ hl =>
    cases l' with
    | immediate a => exact absurd hl (legend.loaded?_ne_immediate l a)
    | _ => rfl
  | parts => exact immediate?_withParts _ _

/-- The operands of an operation are no values, so its numbers stay. -/
theorem operands_withParts {e : Expr} {ps : List Expr}
    (h : List.Forall₂ (fun q e' => legend.Resolves q.1 q.2 e') e.places ps) :
    (e.withParts ps).operands = e.operands := by
  by_cases harith : ∃ op left right, e = .arith op left right
  · obtain ⟨op, left, right, rfl⟩ := harith
    obtain ⟨left', _, hleft, hrest, rfl⟩ := List.forall₂_cons_left_iff.mp h
    obtain ⟨right', _, hright, hnone, rfl⟩ := List.forall₂_cons_left_iff.mp hrest
    obtain rfl := List.forall₂_nil_left_iff.mp hnone
    rw [withParts, operands, operands, Resolves.immediate?_eq hleft, Resolves.immediate?_eq hright]
  · unfold withParts
    split
    case h_3 => exact absurd ⟨_, _, _, rfl⟩ harith
    all_goals rfl

/-- Operands of arithmetic are no values: they stay as they are. -/
theorem Resolves.offsets_eq {place : Place} {e e' : Expr} (h : legend.Resolves place e e') :
    e'.offsets = e.offsets := by
  induction e using byAllParts generalizing place e' with
  | h e ih =>
    cases h with
    | value | leaf => rfl
    | load haddress =>
      have haddress := ih _ List.mem_cons_self haddress
      rwa [offsets_deref]
    | access haddress =>
      have haddress := ih _ List.mem_cons_self haddress
      rwa [offsets_deref, offsets_deref]
    | parts _ _ hparts =>
      have hrelated := forall₂_parts (R := fun part part' => part'.offsets = part.offsets) hparts
        fun part hpart _ _ h => ih part hpart h
      rw [Expr.offsets_eq, Expr.offsets_eq, operands_withParts hparts,
        parts_withParts hrelated.length_eq.symm, flatMap_eq_of_forall₂ hrelated fun _ _ h => h]

/-- All leaves stay, but for those that become what the legend says. -/
theorem Resolves.leaves {place : Place} {e e' : Expr} (h : legend.Resolves place e e') :
    List.Forall₂ (fun l l' => l' = l ∨ legend.loaded? l = some l') e.leaves e'.leaves := by
  induction e using byAllParts generalizing place e' with
  | h e ih =>
    cases h with
    | value hl => exact .cons (.inr (legend.loaded?_of_valued? hl)) .nil
    | leaf => exact .cons (.inl rfl) .nil
    | @load _ address l l' haddress hl =>
      have hleaves := ih _ List.mem_cons_self haddress
      obtain ⟨m, _, hm, hnone, hleaves⟩ := List.forall₂_cons_right_iff.mp hleaves
      obtain rfl := List.forall₂_nil_right_iff.mp hnone
      rw [leaves_deref, hleaves]
      refine .cons (.inr ?_) .nil
      rcases hm with rfl | hm
      · exact hl
      · rw [hm, ← hl, legend.loaded?_of_loaded? hm]
    | access haddress =>
      have haddress := ih _ List.mem_cons_self haddress
      rwa [leaves_deref, leaves_deref]
    | @parts _ _ ps hleaf _ hparts =>
      have hrelated := forall₂_parts hparts fun part hpart _ _ h => ih part hpart h
      rw [leaves_eq, leaves_eq, leaf?_withParts, hleaf,
        parts_withParts hrelated.length_eq.symm]
      exact List.rel_flatMap hrelated fun _ _ h => h

theorem isAccess_withParts (e : Expr) (ps : List Expr) :
    (e.withParts ps).isAccess = e.isAccess := by
  unfold withParts
  split <;> rfl

/-- Only a memory access is left as one. -/
theorem Resolves.isAccess {place : Place} {e e' : Expr} (h : legend.Resolves place e e')
    (haccess : e'.isAccess = true) : e.isAccess = true := by
  cases h with
  | value | leaf | load => cases haccess
  | access => rfl
  | parts => rwa [isAccess_withParts] at haccess

/-- An assignment stays one, and its target is resolved as any part is. -/
theorem target?_cases {e : Expr} {ps : List Expr}
    (h : List.Forall₂ (fun q e' => legend.Resolves q.1 q.2 e') e.places ps) :
    (e.target? = none ∧ (e.withParts ps).target? = none) ∨
      ∃ t t', e.target? = some t ∧ (e.withParts ps).target? = some t' ∧
        legend.Resolves .part t t' := by
  by_cases hassign : ∃ target value, e = .assign target value
  · obtain ⟨target, value, rfl⟩ := hassign
    obtain ⟨value', _, -, hrest, rfl⟩ := List.forall₂_cons_left_iff.mp h
    obtain ⟨target', _, htarget, hnone, rfl⟩ := List.forall₂_cons_left_iff.mp hrest
    obtain rfl := List.forall₂_nil_left_iff.mp hnone
    exact .inr ⟨target, target', rfl, rfl, htarget⟩
  · have hnone : e.target? = none := by
      cases e with
      | assign target value => exact absurd ⟨target, value, rfl⟩ hassign
      | _ => rfl
    refine .inl ⟨hnone, ?_⟩
    unfold withParts
    split
    case h_1 => exact absurd ⟨_, _, rfl⟩ hassign
    all_goals exact hnone

/-- A statement stores to memory afterwards exactly if it did before. -/
theorem Rewrites.isStore_eq {e e' : Expr} (h : legend.Rewrites e e') : e'.isStore = e.isStore := by
  cases h with
  | store => rfl
  | other hstore hresolves =>
    rw [hstore]
    cases hresolves with
    | leaf | load | access => rfl
    | parts _ _ hparts =>
      rcases target?_cases hparts with ⟨-, hnone⟩ | ⟨t, t', ht, ht', htarget⟩
      · rw [isStore, hnone, Option.any_none]
      · rw [isStore, ht, Option.any_some] at hstore
        rw [isStore, ht', Option.any_some, Bool.eq_false_iff]
        exact fun haccess => Bool.eq_false_iff.mp hstore (htarget.isAccess haccess)

theorem Rewrites.offsets_eq {e e' : Expr} (h : legend.Rewrites e e') : e'.offsets = e.offsets := by
  cases h with
  | store haddress hvalue =>
    simp only [offsets_assign, offsets_deref, haddress.offsets_eq, hvalue.offsets_eq]
  | other _ hresolves => exact hresolves.offsets_eq

/-- All leaves of a statement stay, but for those that become what the legend says. -/
theorem Rewrites.leaves {e e' : Expr} (h : legend.Rewrites e e') :
    List.Forall₂ (fun l l' => l' = l ∨ legend.loaded? l = some l') e.leaves e'.leaves := by
  cases h with
  | store haddress hvalue =>
    simp only [leaves_assign, leaves_deref]
    exact List.rel_append hvalue.leaves haddress.leaves
  | other _ hresolves => exact hresolves.leaves

end Legend

/-- A statement and what becomes of it: an eliminated one stays, and a live one is rewritten. All
its leaves stay in their order, but for those that become what the legend says; numbers that are
operands of arithmetic stay; and a store is one afterwards, and only then. -/
inductive Stmt.Resolves (legend : Legend) (s : Statement) : Statement → Prop
  | dead (h : s.eliminated = true) : s.Resolves legend s
  | live {e : Expr} (h : s.eliminated = false) (rewrites : legend.Rewrites s.expr e)
    (leaves : List.Forall₂ (fun l l' => l' = l ∨ legend.loaded? l = some l') s.expr.leaves e.leaves)
    (offsets : e.offsets = s.expr.offsets) (store : e.isStore = s.expr.isStore) :
    s.Resolves legend { s with expr := e }

/-- Rebuilding by a legend resolves every live statement of a graph. -/
theorem Graph.resolves_mapLive (legend : Legend) (g : Graph) :
    g.Related (Stmt.Resolves legend) (g.mapLive (bottomUpLoads legend.node)) := by
  refine List.forall₂_map_right_iff.mpr (List.forall₂_same.mpr fun b _ => ⟨rfl, ?_⟩)
  refine List.forall₂_map_right_iff.mpr (List.forall₂_same.mpr fun s _ => ?_)
  dsimp only
  split
  · rename_i hs
    exact .dead hs
  · rename_i hs
    have h := legend.rewrites_bottomUpLoads s.expr
    exact .live (Bool.eq_false_iff.mpr hs) h h.leaves h.offsets_eq h.isStore_eq

/-- The two passes replace only what the program knows, and only in the places of values. A number
becomes what the slot at it stands for, or the slot that a pointer at it leads to, where it is
assigned, passed, compared or stored to, or where it is loaded from; a load of a string becomes the
string; and a load from what was replaced is that itself. Numbers that are negative or not above the
least address name nothing, so they stay. -/
theorem Context.resolves_inlining (ctx : Context) :
    let usages := UsageInlining.legend ctx.image ctx.options
    let literals := LiteralInlining.legend ctx.image ctx.options
    ctx.graph.Related (Stmt.Resolves usages) ctx.inlineUsages.1.graph ∧
    (∀ l l', usages.valued? l = some l' ↔ UsageInlining.Names ctx.image ctx.options l l') ∧
    (∀ l l', usages.loaded? l = some l' ↔ UsageInlining.Names ctx.image ctx.options l l' ∨
      ∃ u, l = .usage u ∧ l' = .usage u) ∧
    ctx.graph.Related (Stmt.Resolves literals) ctx.inlineLiterals.1.graph ∧
    (∀ l, literals.valued? l = none) ∧
    (∀ l l', literals.loaded? l = some l' ↔ LiteralInlining.Names ctx.image ctx.options l l' ∨
      ∃ text, l = .literal text ∧ l' = .literal text) := by
  refine ⟨?_, fun _ _ => UsageInlining.legend_valued?, fun _ _ => UsageInlining.legend_loaded?,
    ?_, fun _ => rfl, fun _ _ => LiteralInlining.legend_loaded?⟩
  · rw [graph_inlineUsages]
    exact ctx.graph.resolves_mapLive _
  · rw [graph_inlineLiterals]
    exact ctx.graph.resolves_mapLive _

end MethodLift
