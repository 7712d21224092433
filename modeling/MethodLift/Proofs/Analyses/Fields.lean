import MethodLift.Proofs.Analyses.FixedPoint
import MethodLift.Proofs.Pass.Placeholders
import MethodLift.Proofs.Program.Inheritance

/-!
# Recovered fields

A field is another way to write a memory access: the field of an object and the memory at its offset
from the object are the same place. `Expr.erase` writes all fields as accesses again. Recovery
changes nothing that can be seen after erasing, the fields that it finds are those that the type of
the object declares or inherits, and it records each of them once.

What recovery does to an expression is said by a plain function, `FieldRecovery.recover`.
-/

namespace MethodLift

open Expr

/-! ## Fields of types -/

/-- The type declares a field at an offset, the first one there in declaration order, or it
declares none and its base has the field. -/
inductive Program.Declares (image : Program) (offset : Int64) : TypeId → Field → Prop
  | own {id : TypeId} {d : TypeDef} {before after : List Field} {field : Field}
    (type : image.typeDef? id = some d) (fields : d.fields = before ++ field :: after)
    (earlier : ∀ f ∈ before, ¬f.LiesAt offset) (lies : field.LiesAt offset) :
    image.Declares offset id field
  | inherited {id base : TypeId} {d : TypeDef} {field : Field}
    (type : image.typeDef? id = some d) (none : ∀ f ∈ d.fields, ¬f.LiesAt offset)
    (link : d.base = some base) (declares : image.Declares offset base field) :
    image.Declares offset id field

theorem Program.Declares.liesAt {image : Program} {offset : Int64} {id : TypeId} {field : Field}
    (h : image.Declares offset id field) : field.LiesAt offset := by
  induction h with
  | own _ _ _ lies => exact lies
  | inherited _ _ _ _ ih => exact ih

/-- The first type on the way along the bases that declares a field is one of those on the way. -/
theorem Program.FirstAt.declares {image : Program} {offset : Int64} {id : TypeId} {n : Nat}
    {field : Field} (h : image.FirstAt offset id n field) : image.Declares offset id field := by
  induction n generalizing id with
  | zero =>
    obtain ⟨d, hd, before, after, hfields, hlies, hbefore⟩ := firstAt_zero_iff.mp h
    exact .own hd hfields hbefore hlies
  | succ n ih =>
    obtain ⟨d, base, hd, hlacks, hbase, hfirst⟩ := firstAt_succ_iff.mp h
    exact .inherited hd hlacks hbase (ih hfirst)

namespace FieldRecovery

variable {image : Program} {vars : Variables}

/-- The field lies at an offset in values of the known type of an object. -/
def Locates (image : Program) (vars : Variables) (object : Expr) (offset : Int64) (field : Field) :
    Prop :=
  ∃ type id, object.type? vars = some type ∧ type.definition? = some id ∧
    image.Declares offset id field

/-- The look-up of recovery finds fields that lie where the access goes to. -/
theorem locates_of_field? {object : Expr} {offset : Int64} {field : Field}
    (h : field? image vars object offset = some field) :
    Locates image vars object offset field := by
  obtain ⟨type, htype, hfield⟩ := Option.bind_eq_some_iff.mp h
  obtain ⟨id, n, hid, hfirst⟩ := Program.fieldAt?_eq_some_iff.mp hfield
  exact ⟨type, id, htype, hid, hfirst.declares⟩

theorem Locates.offset_eq {object : Expr} {offset : Int64} {field : Field}
    (h : Locates image vars object offset field) : field.offset = offset := by
  obtain ⟨_, _, _, _, hdeclares⟩ := h
  exact hdeclares.liesAt.2

/-! ## Recovery as a plain function -/

/-- What recovery puts in the place of an expression whose parts are done. -/
def recover (image : Program) (vars : Variables) : Expr → Expr
  | .deref (.arith .add object (.leaf (.immediate offset))) =>
    match field? image vars object offset with
    | some field => .member object field
    | none => .deref (.arith .add object (.immediate offset))
  | e => e

/-- Recovery puts a field in the place of a load from a sum of an object and a number, and else
leaves an expression alone. -/
theorem recover_cases (image : Program) (vars : Variables) (e : Expr) :
    (∃ object offset field, e = .deref (.arith .add object (.immediate offset)) ∧
      field? image vars object offset = some field ∧
      recover image vars e = .member object field) ∨
    recover image vars e = e := by
  unfold recover
  split
  · rename_i object offset
    split
    · rename_i field hfield
      exact .inl ⟨object, offset, field, rfl, hfield, rfl⟩
    · exact .inr rfl
  · exact .inr rfl

/-- The step of recovery is the plain function, with records beside it. -/
theorem yields_node (image : Program) (vars : Variables) (block : BlockId) (source : Option Nat)
    (e : Expr) : Yields (node image vars block source e) (· = recover image vars e) := by
  unfold node
  split
  · split
    · rename_i hfield
      refine Yields.bind (P := fun _ => True) (fun _ => trivial) fun _ _ => .pure ?_
      simp only [recover, hfield]
    · rename_i hfield
      exact .pure (by simp only [recover, hfield])
  · rename_i hne
    refine .pure ?_
    unfold recover
    split
    · exact absurd rfl (hne _ _)
    · rfl

end FieldRecovery

open FieldRecovery

theorem Context.graph_recoverFields (ctx : Context) : ctx.recoverFields.1.graph =
    ctx.graph.mapLive (bottomUp (recover ctx.image ctx.vars)) :=
  Graph.yields_mapLive (fun _ s => yields_bottomUp (yields_node _ _ _ _) s.expr) ctx.graph {}

namespace Expr

variable {image : Program} {vars : Variables} {e left right : Expr}

/-- An access stays one or becomes a field. -/
theorem bottomUp_recover_deref (image : Program) (vars : Variables) (address : Expr) :
    (∃ a, (deref address).bottomUp (recover image vars) = .deref a) ∨
    ∃ object field, (deref address).bottomUp (recover image vars) = .member object field := by
  rw [bottomUp_deref]
  rcases recover_cases image vars (.deref (address.bottomUp (recover image vars))) with
    ⟨object, _, field, _, _, hmember⟩ | hsame
  · exact .inr ⟨object, field, hmember⟩
  · exact .inl ⟨_, hsame⟩

/-- Only a leaf becomes a leaf: recovery makes no numbers. -/
theorem eq_leaf_of_bottomUp_recover {l : Leaf}
    (h : e.bottomUp (recover image vars) = .leaf l) : e = .leaf l := by
  cases e with
  | leaf value => exact h
  | deref address =>
    rcases bottomUp_recover_deref image vars address with ⟨_, heq⟩ | ⟨_, _, heq⟩
    · cases heq.symm.trans h
    · cases heq.symm.trans h
  | _ => simp [recover] at h

/-- Only arithmetic becomes arithmetic, so the address of an access is a sum before its parts are
done if it is one afterwards. -/
theorem eq_arith_of_bottomUp_recover {op : ArithOp}
    (h : e.bottomUp (recover image vars) = .arith op left right) :
    ∃ l r, e = .arith op l r ∧ l.bottomUp (recover image vars) = left ∧
      r.bottomUp (recover image vars) = right := by
  cases e with
  | arith op' l r =>
    cases h
    exact ⟨l, r, rfl, rfl, rfl⟩
  | deref address =>
    rcases bottomUp_recover_deref image vars address with ⟨_, heq⟩ | ⟨_, _, heq⟩
    · cases heq.symm.trans h
    · cases heq.symm.trans h
  | _ => simp [recover] at h

/-- A field comes from an access at a constant offset from what became its object, or it was there
before. -/
theorem bottomUp_recover_cases (image : Program) (vars : Variables) (e : Expr) :
    (∃ object offset field, e = .deref (.arith .add object (.immediate offset)) ∧
      field? image vars (object.bottomUp (recover image vars)) offset = some field ∧
      e.bottomUp (recover image vars) = .member (object.bottomUp (recover image vars)) field) ∨
    e.bottomUp (recover image vars) =
      e.withParts (e.parts.map (bottomUp (recover image vars))) := by
  rw [bottomUp_eq]
  rcases recover_cases image vars (e.withParts (e.parts.map (bottomUp (recover image vars)))) with
    ⟨object', offset, field, heq, hfield, hmember⟩ | hsame
  · left
    cases e with
    | deref address =>
      obtain ⟨object, right, rfl, rfl, hright⟩ := eq_arith_of_bottomUp_recover (Expr.deref.inj heq)
      obtain rfl := eq_leaf_of_bottomUp_recover hright
      exact ⟨object, offset, field, rfl, hfield, hmember⟩
    | _ => cases heq
  · exact .inr hsame

end Expr

/-! ## Erasing fields -/

namespace Expr

/-- Writes a field as the memory at its offset. -/
def eraseField : Expr → Expr
  | .member object field => .deref (.arith .add object (.immediate field.offset))
  | e => e

/-- Writes all fields as memory accesses. -/
def erase (e : Expr) : Expr := e.bottomUp eraseField

/-- Erasing fields only looks at what is left of the parts. -/
theorem erase_withParts {e : Expr} {ps : List Expr} (h : ps.map erase = e.parts.map erase) :
    (e.withParts ps).erase = e.erase := by
  have hlength : ps.length = e.parts.length := by simpa using congrArg List.length h
  rw [erase, bottomUp_withParts eraseField hlength, erase, bottomUp_eq]
  exact congrArg (fun qs => eraseField (e.withParts qs)) h

/-- Recovery is undone by erasing: the field lies at the offset that the access had. -/
theorem erase_recover (image : Program) (vars : Variables) (e : Expr) :
    (recover image vars e).erase = e.erase := by
  rcases recover_cases image vars e with ⟨object, offset, field, rfl, hfield, hmember⟩ | hsame
  · rw [hmember, ← (locates_of_field? hfield).offset_eq]
    rfl
  · rw [hsame]

/-- Recovering fields changes nothing that is left after erasing them. -/
theorem erase_bottomUp_recover (image : Program) (vars : Variables) (e : Expr) :
    (e.bottomUp (recover image vars)).erase = e.erase := by
  induction e using byAllParts with
  | h e ih =>
    rw [bottomUp_eq, erase_recover]
    refine erase_withParts ?_
    rw [List.map_map]
    exact List.map_congr_left ih

end Expr

/-! ## What recovery introduces -/

namespace FieldRecovery

/-- An expression and what recovery makes of it: accesses may become fields of what their objects
became, located in the known type of that; everything else stays, with its parts recovered. -/
inductive Recovers (image : Program) (vars : Variables) : Expr → Expr → Prop
  | access {object object' : Expr} {offset : Int64} {field : Field}
    (object_recovers : Recovers image vars object object')
    (locates : Locates image vars object' offset field) :
    Recovers image vars (.deref (.arith .add object (.immediate offset))) (.member object' field)
  | parts {e : Expr} {ps : List Expr} (parts : List.Forall₂ (Recovers image vars) e.parts ps) :
    Recovers image vars e (e.withParts ps)

/-- All fields of a recovered statement lie where the accesses went to, and erasing them gives what
was erased before. -/
theorem recovers_bottomUp (image : Program) (vars : Variables) (e : Expr) :
    Recovers image vars e (e.bottomUp (recover image vars)) := by
  -- The object of an access stands two levels below it.
  induction e using byAllNodes with
  | h e ih =>
    rcases bottomUp_recover_cases image vars e with
      ⟨object, offset, field, rfl, hfield, hmember⟩ | hsame
    · rw [hmember]
      refine .access (ih _ List.mem_cons_self object ?_) (locates_of_field? hfield)
      exact mem_nodes_of_mem_parts List.mem_cons_self
    · rw [hsame]
      refine .parts (List.forall₂_map_right_iff.mpr (List.forall₂_same.mpr fun part hpart => ?_))
      exact ih part hpart part part.self_mem_nodes

end FieldRecovery

/-! ## Counting fields -/

namespace Expr

def isMember : Expr → Bool
  | .member _ _ => true
  | _ => false

/-- The number of fields in an expression. -/
def members (e : Expr) : Nat := e.nodes.countP isMember

theorem members_eq (e : Expr) : e.members = e.isMember.toNat + (e.parts.map members).sum :=
  countP_nodes isMember e

/-- Exchanging the parts of an expression changes its count of fields by theirs. -/
theorem members_withParts {e : Expr} {ps : List Expr} (h : ps.length = e.parts.length) :
    (e.withParts ps).members = e.isMember.toNat + (ps.map members).sum := by
  have hmember : (e.withParts ps).isMember = e.isMember := by
    unfold withParts
    split <;> rfl
  rw [members_eq, hmember, parts_withParts h]

end Expr

def Block.members (b : Block) : Nat := (b.statements.map fun s => s.expr.members).sum

def Graph.members (g : Graph) : Nat := (g.blocks.map Block.members).sum

theorem Events.count_append (es es' : Events) (kind : EventKind) :
    Events.count (es ++ es') kind = es.count kind + es'.count kind := by
  simp [Events.count, Events.ofKind]

/-- Work on something with `n` fields records every field that it adds. -/
def Tallies {α : Type} (n : Nat) (x : Refine α) (μ : α → Nat) : Prop :=
  ∀ p, μ (x.run p).1 + p.events.count .fieldResolved = n + (x.run p).2.events.count .fieldResolved

namespace Tallies

variable {α β : Type} {n : Nat} {μ : α → Nat} {ν : β → Nat}

theorem pure {a : α} (h : μ a = n) : Tallies n (Pure.pure a) μ := fun p =>
  congrArg (· + p.events.count .fieldResolved) h

theorem note {e : Event} {a : α} (he : e.kind = .fieldResolved) (h : μ a = n + 1) :
    Tallies n (do Refine.note e; Pure.pure a) μ := by
  intro p
  have hcount : (p.events ++ [e]).count .fieldResolved = p.events.count .fieldResolved + 1 := by
    rw [Events.count_append]
    simp [Events.count, Events.ofKind, he]
  show μ a + p.events.count .fieldResolved = n + (p.events ++ [e]).count .fieldResolved
  omega

/-- Work in sequence keeps the tally where the second part may rely on a property of the first
result. -/
theorem bind_of_yields {P : α → Prop} {x : Refine α} {f : α → Refine β} (hx : Tallies n x μ)
    (hP : Yields x P) (hf : ∀ a, P a → Tallies (μ a) (f a) ν) : Tallies n (x >>= f) ν := by
  intro p
  have hfirst := hx p
  have hrest := hf (x.run p).1 (hP p) (x.run p).2
  show ν ((f (x.run p).1).run (x.run p).2).1 + p.events.count .fieldResolved =
    n + ((f (x.run p).1).run (x.run p).2).2.events.count .fieldResolved
  omega

theorem bind {x : Refine α} {f : α → Refine β} (hx : Tallies n x μ)
    (hf : ∀ a, Tallies (μ a) (f a) ν) : Tallies n (x >>= f) ν :=
  hx.bind_of_yields (P := fun _ => True) (fun _ => trivial) fun a _ => hf a

/-- What stands beside the work does not matter. -/
theorem frame {m : Nat} {x : Refine α} (hx : Tallies n x μ) (k : Nat) (h : n + k = m) :
    Tallies m x fun a => μ a + k := by
  intro p
  have := hx p
  dsimp only
  omega

theorem mapM {l : List α} {f : α → Refine β} (h : ∀ a ∈ l, Tallies (μ a) (f a) ν) :
    Tallies (l.map μ).sum (l.mapM f) fun l' => (l'.map ν).sum := by
  induction l with
  | nil => exact .pure rfl
  | cons a rest ih =>
    obtain ⟨ha, hrest⟩ := List.forall_mem_cons.mp h
    rw [List.mapM_cons, List.map_cons, List.sum_cons]
    refine (ha.frame _ rfl).bind fun b => ?_
    refine ((ih hrest).frame (ν b) (Nat.add_comm _ _)).bind fun bs => .pure ?_
    rw [List.map_cons, List.sum_cons, Nat.add_comm]

theorem bottomUpM {f : Expr → Refine Expr} (hf : ∀ e, Tallies e.members (f e) members)
    (e : Expr) : Tallies e.members (e.bottomUpM f) members := by
  induction e using byAllParts with
  | h e ih =>
    rw [bottomUpM_eq, members_eq]
    have hlength : Yields (e.parts.mapM (Expr.bottomUpM f)) fun ps => ps.length = e.parts.length :=
      (Yields.mapM (R := fun _ _ => True) fun _ _ _ => trivial).mono fun _ h => h.length_eq.symm
    refine ((mapM ih).frame e.isMember.toNat (Nat.add_comm _ _)).bind_of_yields hlength ?_
    intro ps hps
    rw [Nat.add_comm, ← members_withParts hps]
    exact hf _

/-- A sweep over a graph records as many fields as it adds to the graph. -/
theorem mapLiveM {f : Block → Statement → Refine Expr}
    (hf : ∀ b s, Tallies s.expr.members (f b s) members) (g : Graph) :
    Tallies g.members (g.mapLiveM f) Graph.members := by
  have hstep : ∀ (b : Block) (s : Statement), Tallies s.expr.members
      (if s.eliminated then Pure.pure s else do let e ← f b s; Pure.pure { s with expr := e })
      fun s => s.expr.members := by
    intro b s
    split
    · exact .pure rfl
    · exact (hf b s).bind fun e => .pure rfl
  have hblock : ∀ b ∈ g.blocks, Tallies b.members (b.mapLiveM (f b)) Block.members :=
    fun b _ => (mapM fun s _ => hstep b s).bind fun ss => .pure rfl
  exact (mapM hblock).bind fun bs => .pure rfl

end Tallies

/-- A recovered field is recorded once, at the access that it replaces. -/
theorem FieldRecovery.tallies_node {image : Program} {vars : Variables} {block : BlockId}
    {source : Option Nat} (e : Expr) :
    Tallies e.members (node image vars block source e) members := by
  unfold node
  split
  · rename_i object offset
    split
    · refine .note rfl ?_
      simp [members_eq (member _ _), members_eq (deref _), members_eq (arith _ _ _),
        members_eq (leaf _), isMember, parts, Nat.add_comm]
    · exact .pure rfl
  · exact .pure rfl

/-! ## A run -/

/-- A statement and what recovery makes of it. An eliminated statement stays; a live one has some
accesses replaced by fields, and reads the same when the fields are erased. -/
inductive Stmt.Recovers (image : Program) (vars : Variables) (s : Statement) : Statement → Prop
  | dead (h : s.eliminated = true) : s.Recovers image vars s
  | live {e : Expr} (h : s.eliminated = false)
    (recovers : FieldRecovery.Recovers image vars s.expr e) (erase : e.erase = s.expr.erase) :
    s.Recovers image vars { s with expr := e }

namespace Context

/-- Field recovery puts fields in live statements only, and only such as lie there. -/
theorem recovers_recoverFields (ctx : Context) :
    ctx.graph.Related (Stmt.Recovers ctx.image ctx.vars) ctx.recoverFields.1.graph := by
  rw [graph_recoverFields]
  refine List.forall₂_map_right_iff.mpr (List.forall₂_same.mpr fun b _ => ⟨rfl, ?_⟩)
  refine List.forall₂_map_right_iff.mpr (List.forall₂_same.mpr fun s _ => ?_)
  dsimp only
  split
  · rename_i hs
    exact .dead hs
  · rename_i hs
    exact .live (Bool.eq_false_iff.mpr hs) (recovers_bottomUp _ _ _)
      (erase_bottomUp_recover _ _ _)

/-- Each field that is recovered is recorded. -/
theorem events_recoverFields (ctx : Context) : ∃ events,
    ctx.recoverFields.1.journal.events = ctx.journal.events ++ events ∧
    ctx.recoverFields.1.graph.members = ctx.graph.members + events.count .fieldResolved := by
  refine ⟨_, rfl, ?_⟩
  exact Tallies.mapLiveM (fun _ s => Tallies.bottomUpM FieldRecovery.tallies_node s.expr)
    ctx.graph {}

theorem events_propagateTypes (ctx : Context) : ∃ events,
    ctx.propagateTypes.1.journal.events = ctx.journal.events ++ events ∧
    events.count .fieldResolved = 0 := by
  refine ⟨_, rfl, List.length_eq_zero_iff.mpr (List.filter_eq_nil_iff.mpr fun e he => ?_)⟩
  rw [kind_applyTypes _ e he]
  decide

/-- Recovering fields never changes which memory is accessed. In one run every live statement
reads the same as before when its fields are erased, and every field that is introduced is an
instance field at the offset of its access, in the known type of the object or in the nearest of
its bases that declares one there. As many fields are recorded as are introduced. -/
theorem recovers_recoverData (ctx : Context) :
    ctx.graph.Related (Stmt.Recovers ctx.image ctx.vars) ctx.recoverData.1.graph ∧
    ∃ events, ctx.recoverData.1.journal.events = ctx.journal.events ++ events ∧
      ctx.recoverData.1.graph.members = ctx.graph.members + events.count .fieldResolved := by
  refine ⟨ctx.recovers_recoverFields, ?_⟩
  obtain ⟨resolved, hresolved, hmembers⟩ := ctx.events_recoverFields
  obtain ⟨typed, htyped, hnone⟩ := ctx.recoverFields.1.events_propagateTypes
  refine ⟨resolved ++ typed, ?_, ?_⟩
  · rw [← List.append_assoc, ← hresolved]
    exact htyped
  · rw [Events.count_append, hnone]
    exact hmembers

end Context

end MethodLift
