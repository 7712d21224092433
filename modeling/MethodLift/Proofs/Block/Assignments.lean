import MethodLift.Proofs.Block.Walks
import MethodLift.Proofs.Expr.Relabel

/-!
# Single assignment

Code in which every variable has one definition. Along a walk from the entry, a variable that is
assigned to at all is assigned to once, and before it is read. `Graph.Disciplined` says this about a
graph: definitions stand in one place each and only look at variables with smaller numbers, which is
`Graph.SingleAssignment`, and they come before their uses on every walk.
-/

namespace MethodLift

/-! ## Live code -/

def Block.code (b : Block) : List Expr := b.live.map (·.expr)

namespace Graph

/-- The live statements of the block with an identity. -/
def code (g : Graph) (id : BlockId) : List Expr :=
  match g.block? id with
  | some b => b.code
  | none => []

/-- The live statements of the blocks of a path. -/
def along (g : Graph) (path : List BlockId) : List Expr := path.flatMap g.code

/-- Some live statement assigns to a variable. -/
def Assigns (g : Graph) (v : VarId) : Prop := ∃ id, v ∈ Expr.assignedIn (g.code id)

/-- The live statements under an identity are those of the block that has it. -/
theorem code_eq {g : Graph} {id : BlockId} {b : Block} (h : g.block? id = some b) :
    g.code id = b.code := by
  rw [code, h]

/-- Where there is code, there is a block. -/
theorem exists_block?_of_mem_code {g : Graph} {id : BlockId} {e : Expr} (he : e ∈ g.code id) :
    ∃ b, g.block? id = some b ∧ e ∈ b.code := by
  unfold code at he
  split at he
  · exact ⟨_, ‹_›, he⟩
  · cases he

/-- What holds of the live statements of every block holds of those under every identity, also under
one that no block has. -/
theorem forall_code {g : Graph} {P : Expr → Prop} (h : ∀ b ∈ g.blocks, ∀ e ∈ b.code, P e)
    {id : BlockId} : ∀ e ∈ g.code id, P e := by
  intro e he
  obtain ⟨b, hb, he⟩ := exists_block?_of_mem_code he
  exact h b (mem_blocks_of_block? hb) e he

theorem along_append (g : Graph) (path path' : List BlockId) :
    g.along (path ++ path') = g.along path ++ g.along path' :=
  List.flatMap_append

theorem along_singleton (g : Graph) (id : BlockId) : g.along [id] = g.code id :=
  List.flatMap_singleton ..

end Graph

namespace Expr

theorem assignedIn_append (es es' : List Expr) :
    assignedIn (es ++ es') = assignedIn es ++ assignedIn es' :=
  List.filterMap_append

theorem assignedIn_cons (e : Expr) (es : List Expr) :
    assignedIn (e :: es) = e.assigned?.toList ++ assignedIn es := by
  rw [assignedIn, List.filterMap_cons]
  cases e.assigned? <;> rfl

/-- A variable is assigned to by some of the statements exactly if one of them is an assignment to
it. -/
theorem mem_assignedIn {es : List Expr} {v : VarId} :
    v ∈ assignedIn es ↔ ∃ value, .assign (.var v) value ∈ es := by
  constructor
  · intro h
    obtain ⟨e, he, hv⟩ := List.mem_filterMap.mp h
    obtain ⟨value, rfl⟩ := assigned?_eq_some.mp hv
    exact ⟨value, he⟩
  · rintro ⟨value, h⟩
    exact List.mem_filterMap.mpr ⟨_, h, rfl⟩

/-- A variable with one definition has one value. -/
theorem value_unique {es : List Expr} (h : (assignedIn es).Nodup) {v : VarId} {x y : Expr}
    (hx : .assign (.var v) x ∈ es) (hy : .assign (.var v) y ∈ es) : x = y := by
  induction es with
  | nil => cases hx
  | cons e rest ih =>
    have hrest : (assignedIn rest).Nodup := h.sublist ((List.sublist_cons_self e rest).filterMap _)
    have hhead {z : Expr} (he : e = .assign (.var v) z) : v ∉ assignedIn rest := by
      subst he
      exact (List.nodup_cons.mp h).1
    rcases List.mem_cons.mp hx with hxe | hxr
    · rcases List.mem_cons.mp hy with hye | hyr
      · exact (Expr.assign.inj (hxe.trans hye.symm)).2
      · exact absurd (mem_assignedIn.mpr ⟨y, hyr⟩) (hhead hxe.symm)
    · rcases List.mem_cons.mp hy with hye | hyr
      · exact absurd (mem_assignedIn.mpr ⟨x, hxr⟩) (hhead hye.symm)
      · exact ih hrest hxr hyr

def assignsLane : Expr → Bool
  | .assign (.lane _ _) _ => true
  | _ => false

/-- Relabelling leaves change no lane assignments, since a lane is no leaf. -/
theorem assignsLane_relabel (φ : Leaf → Leaf) (e : Expr) :
    (e.relabel φ).assignsLane = e.assignsLane := by
  cases e with
  | assign target value =>
    rw [relabel_assign]
    cases target with
    | call target args returns => rw [relabel_call]; rfl
    | guarded condition head body => rw [relabel_guarded]; rfl
    | _ => rfl
  | call target args returns => rw [relabel_call]; rfl
  | guarded condition head body => rw [relabel_guarded]; rfl
  | _ => rfl

/-! ## Scopes -/

/-- Statements that may be executed after others: each reads variables that were assigned to
before, or that are not among given ones, and assigns to a variable that was not. -/
def Scoped (A : VarId → Prop) : List Expr → List Expr → Prop
  | _, [] => True
  | done, e :: rest =>
    (∀ v, .var v ∈ e.used → A v → v ∈ assignedIn done) ∧
      (∀ v, e.assigned? = some v → v ∉ assignedIn done) ∧ Scoped A (done ++ [e]) rest

/-- Everything that was read was assigned to. -/
def Closed (A : VarId → Prop) (done : List Expr) : Prop :=
  ∀ e ∈ done, ∀ v, .var v ∈ e.used → A v → v ∈ assignedIn done

variable {A : VarId → Prop} {done es es' : List Expr} {e : Expr}

/-- Statements in sequence are scoped part by part, the second part behind what the first one
did. -/
theorem scoped_append :
    Scoped A done (es ++ es') ↔ Scoped A done es ∧ Scoped A (done ++ es) es' := by
  induction es generalizing done with
  | nil => simp [Scoped]
  | cons e rest ih => simp [Scoped, ih, and_assoc]

theorem closed_nil : Closed A [] := by
  intro e he
  cases he

/-- One more statement keeps a run closed if what it reads was assigned to. -/
theorem Closed.snoc (h : Closed A done) (he : ∀ v, .var v ∈ e.used → A v → v ∈ assignedIn done) :
    Closed A (done ++ [e]) := by
  intro x hx v hv ha
  rw [assignedIn_append, List.mem_append]
  rcases List.mem_append.mp hx with hx | hx
  · exact .inl (h x hx v hv ha)
  · rw [List.mem_singleton.mp hx] at hv
    exact .inl (he v hv ha)

/-- A closed run stays closed when scoped statements are executed behind it. -/
theorem Closed.append (h : Closed A done) (hs : Scoped A done es) : Closed A (done ++ es) := by
  induction es generalizing done with
  | nil => simpa using h
  | cons e rest ih =>
    have hnext := ih (h.snoc hs.1) hs.2.2
    rwa [List.append_assoc] at hnext

end Expr

/-! ## Graphs -/

open Expr in
/-- Every variable has one definition, which looks at variables with smaller numbers. -/
structure Graph.SingleAssignment (g : Graph) : Prop where
  id_eq : ∀ {i b}, g.block? i = some b → b.id = i
  once : ∀ i, (assignedIn (g.code i)).Nodup
  apart : ∀ {i j}, i ≠ j → List.Disjoint (assignedIn (g.code i)) (assignedIn (g.code j))
  smaller : ∀ {i v value}, .assign (.var v) value ∈ g.code i →
    ∀ {w}, .var w ∈ value.leaves → w < v

open Expr in
/-- Every variable has one definition, which comes before its uses. -/
structure Graph.Disciplined (g : Graph) : Prop extends SingleAssignment g where
  inScope : ∀ {path i}, g.Walk path i → Scoped g.Assigns [] (g.along (path ++ [i]))
  laneless : ∀ {i}, ∀ e ∈ g.code i, e.assignsLane = false

/-- Where every variable is assigned to once, it has one value in the whole graph. -/
theorem Graph.SingleAssignment.value_unique {g : Graph} (hg : g.SingleAssignment) {i j : BlockId}
    {v : VarId} {x y : Expr} (hx : .assign (.var v) x ∈ g.code i)
    (hy : .assign (.var v) y ∈ g.code j) : x = y := by
  have hij : i = j := by
    by_contra hne
    exact hg.apart hne (Expr.mem_assignedIn.mpr ⟨x, hx⟩) (Expr.mem_assignedIn.mpr ⟨y, hy⟩)
  subst hij
  exact Expr.value_unique (hg.once i) hx hy

end MethodLift
