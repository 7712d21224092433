import MethodLift.Block.Graph
import MethodLift.Proofs.Work
import Mathlib.Data.List.Nodup

/-!
# Edges are stored at both ends

The invariant that every graph keeps while it is built: a block knows its position, its edges lead
to blocks that exist, no edge is listed twice, and a block is a predecessor of another one exactly
where that one is its successor.

`addEdge` and `addEdges` are described by what a look-up sees afterwards, so that later proofs
never unfold them.
-/

namespace MethodLift

/-! ## Appending new elements -/

@[simp] theorem mem_appendNew {xs : List Nat} {x y : Nat} :
    y ∈ appendNew xs x ↔ y ∈ xs ∨ y = x := by
  unfold appendNew
  split
  · rename_i h
    rw [List.contains_iff_mem] at h
    constructor
    · exact .inl
    · rintro (hy | rfl)
      · exact hy
      · exact h
  · simp

/-- Appending what is new keeps a list free of repetitions. -/
theorem nodup_appendNew {xs : List Nat} (h : xs.Nodup) (x : Nat) : (appendNew xs x).Nodup := by
  unfold appendNew
  split
  · exact h
  · rename_i hx
    rw [List.contains_iff_mem] at hx
    rw [List.nodup_append]
    refine ⟨h, List.nodup_singleton x, ?_⟩
    intro a ha b hb hab
    rw [List.mem_singleton] at hb
    exact hx (hb ▸ hab ▸ ha)

theorem appendNew_of_mem {xs : List Nat} {x : Nat} (h : x ∈ xs) : appendNew xs x = xs := by
  simp [appendNew, h]

/-- All of several elements are there after they were appended one by one. -/
theorem mem_foldl_appendNew {xs ys : List Nat} {y : Nat} :
    y ∈ ys.foldl appendNew xs ↔ y ∈ xs ∨ y ∈ ys := by
  induction ys generalizing xs with
  | nil => simp
  | cons z rest ih => rw [List.foldl_cons, ih, mem_appendNew, List.mem_cons, or_assoc]

namespace Graph

variable {g g' : Graph} {i j source target : Nat}

/-! ## Looking up blocks -/

theorem block?_lt {b : Block} (h : g.block? i = some b) : i < g.size :=
  (List.getElem?_eq_some_iff.mp h).1

theorem exists_block? (h : i < g.size) : ∃ b, g.block? i = some b :=
  ⟨g.blocks[i], List.getElem?_eq_getElem h⟩

theorem mem_blocks_of_block? {b : Block} (h : g.block? i = some b) : b ∈ g.blocks :=
  List.mem_of_getElem? h

theorem exists_block?_of_mem {b : Block} (h : b ∈ g.blocks) : ∃ i, g.block? i = some b :=
  List.mem_iff_getElem?.mp h

theorem block?_modify (g : Graph) (id : BlockId) (f : Block → Block) (i : Nat) :
    (g.modify id f).block? i = (g.block? i).map fun b => if i = id then f b else b := by
  by_cases h : i = id
  · subst h
    simp
  · rw [block?_modify_of_ne g f (Ne.symm h)]
    simp [h]

/-- A pushed block stands behind all others and takes its position as its identity. -/
theorem block?_push (g : Graph) (b : Block) (i : Nat) :
    (g.push b).block? i = if i = g.size then some { b with id := g.size } else g.block? i := by
  by_cases h : i = g.size
  · subst h
    rw [if_pos rfl, block?_push_size]
  · rw [if_neg h]
    simp only [push, block?, size] at h ⊢
    rw [List.getElem?_append]
    split
    · rfl
    · rename_i hlt
      have hlen : [({ b with id := g.blocks.length } : Block)].length ≤ i - g.blocks.length := by
        simp only [List.length_singleton]
        omega
      rw [List.getElem?_eq_none (Nat.le_of_not_lt hlt), List.getElem?_eq_none hlen]

/-! ## What adding edges does -/

/-- The block at a position after edges from `source` to `targets` were added. -/
def wired (source : BlockId) (targets : List BlockId) (i : Nat) (b : Block) : Block :=
  { b with
    successors := if i = source then targets.foldl appendNew b.successors else b.successors
    predecessors := if i ∈ targets then appendNew b.predecessors source else b.predecessors }

/-- An edge changes the successors of its source and the predecessors of its target. -/
theorem block?_addEdge (h : g.addEdge source target = .ok g') (i : Nat) :
    g'.block? i = (g.block? i).map (wired source [target] i) := by
  unfold addEdge at h
  split at h
  · cases h
    rw [block?_modify, block?_modify, Option.map_map]
    congr 1
    funext b
    simp only [Function.comp_apply, wired, List.mem_singleton]
    split <;> split <;> rfl
  · cases h

theorem addEdge_lt (h : g.addEdge source target = .ok g') :
    source < g.size ∧ target < g.size := by
  unfold addEdge at h
  split at h
  · assumption
  · cases h

@[simp] theorem size_addEdge (h : g.addEdge source target = .ok g') : g'.size = g.size := by
  unfold addEdge at h
  split at h
  · cases h
    simp
  · cases h

/-- Edges out of one block change its successors, and the predecessors of their targets. -/
theorem block?_addEdges {targets : List BlockId} (h : g.addEdges source targets = .ok g')
    (i : Nat) : g'.block? i = (g.block? i).map (wired source targets i) := by
  induction targets generalizing g with
  | nil =>
    cases h
    have hid : wired source [] i = id := by
      funext b
      simp [wired]
    rw [hid, Option.map_id, id]
  | cons t rest ih =>
    obtain ⟨g₁, h₁, h⟩ := exists_of_bind_ok h
    rw [ih h, block?_addEdge h₁, Option.map_map]
    congr 1
    funext b
    -- A target that is listed twice gets its predecessor only once.
    by_cases hr : i ∈ rest <;> by_cases ht : i = t <;> by_cases hs : i = source <;>
      simp [wired, hr, ht, hs, appendNew_of_mem] <;> simp_all

@[simp] theorem size_addEdges {targets : List BlockId} (h : g.addEdges source targets = .ok g') :
    g'.size = g.size := by
  induction targets generalizing g with
  | nil =>
    cases h
    rfl
  | cons t rest ih =>
    obtain ⟨g₁, h₁, h⟩ := exists_of_bind_ok h
    rw [ih h, size_addEdge h₁]

/-! ## The invariant -/

/-- Blocks know their positions. -/
def Numbered (g : Graph) : Prop := ∀ ⦃i b⦄, g.block? i = some b → b.id = i

/-- Blocks know their positions, and edges are listed once, at both ends. -/
structure Wired (g : Graph) : Prop where
  id_eq : ∀ {i b}, g.block? i = some b → b.id = i
  succ_lt : ∀ {i b j}, g.block? i = some b → j ∈ b.successors → j < g.size
  pred_lt : ∀ {i b j}, g.block? i = some b → j ∈ b.predecessors → j < g.size
  succ_nodup : ∀ {i b}, g.block? i = some b → b.successors.Nodup
  pred_nodup : ∀ {i b}, g.block? i = some b → b.predecessors.Nodup
  mem_pred_iff : ∀ {i j a b}, g.block? i = some a → g.block? j = some b →
    (i ∈ b.predecessors ↔ j ∈ a.successors)

theorem Wired.numbered (h : g.Wired) : g.Numbered := fun _ _ => h.id_eq

/-- The blocks of a numbered graph have the numbers up to its size. -/
theorem Numbered.ids_eq (h : g.Numbered) : g.blocks.map (fun b => b.id) = List.range g.size := by
  refine List.ext_getElem (by simp [size]) fun i hi _ => ?_
  rw [List.length_map] at hi
  rw [List.getElem_map, List.getElem_range]
  exact h (List.getElem?_eq_getElem hi)

/-- The graph without blocks is wired: there is nothing to say. -/
theorem wired_empty : Wired {} where
  id_eq h := by simp [block?] at h
  succ_lt h := by simp [block?] at h
  pred_lt h := by simp [block?] at h
  succ_nodup h := by simp [block?] at h
  pred_nodup h := by simp [block?] at h
  mem_pred_iff h := by simp [block?] at h

/-- A block without edges can be appended. -/
theorem Wired.push (h : g.Wired) {b : Block} (hs : b.successors = []) (hp : b.predecessors = []) :
    (g.push b).Wired := by
  have look : ∀ {i c}, (g.push b).block? i = some c →
      (i = g.size ∧ c = { b with id := g.size }) ∨ g.block? i = some c := by
    intro i c hc
    rw [block?_push] at hc
    split at hc
    · exact .inl ⟨‹_›, (Option.some.inj hc).symm⟩
    · exact .inr hc
  constructor
  · intro i c hc
    obtain ⟨rfl, rfl⟩ | hc := look hc
    · rfl
    · exact h.id_eq hc
  · intro i c j hc hj
    rw [size_push]
    obtain ⟨rfl, rfl⟩ | hc := look hc
    · simp [hs] at hj
    · exact Nat.lt_succ_of_lt (h.succ_lt hc hj)
  · intro i c j hc hj
    rw [size_push]
    obtain ⟨rfl, rfl⟩ | hc := look hc
    · simp [hp] at hj
    · exact Nat.lt_succ_of_lt (h.pred_lt hc hj)
  · intro i c hc
    obtain ⟨rfl, rfl⟩ | hc := look hc
    · simp [hs]
    · exact h.succ_nodup hc
  · intro i c hc
    obtain ⟨rfl, rfl⟩ | hc := look hc
    · simp [hp]
    · exact h.pred_nodup hc
  · intro i j a c ha hc
    obtain ⟨rfl, rfl⟩ | ha := look ha <;> obtain ⟨rfl, rfl⟩ | hc := look hc
    · simp [hs, hp]
    · have hno : g.size ∉ c.predecessors := fun hm => Nat.lt_irrefl _ (h.pred_lt hc hm)
      simp [hs, hno]
    · have hno : g.size ∉ a.successors := fun hm => Nat.lt_irrefl _ (h.succ_lt ha hm)
      simp [hp, hno]
    · exact h.mem_pred_iff ha hc

/-- Adding an edge keeps the invariant. -/
theorem Wired.addEdge (h : g.Wired) (he : g.addEdge source target = .ok g') : g'.Wired := by
  obtain ⟨hsource, htarget⟩ := addEdge_lt he
  have look : ∀ {i c}, g'.block? i = some c →
      ∃ b, g.block? i = some b ∧ c = wired source [target] i b := by
    intro i c hc
    rw [block?_addEdge he, Option.map_eq_some_iff] at hc
    obtain ⟨b, hb, rfl⟩ := hc
    exact ⟨b, hb, rfl⟩
  constructor
  · intro i c hc
    obtain ⟨b, hb, rfl⟩ := look hc
    exact show b.id = i from h.id_eq hb
  · intro i c j hc hj
    obtain ⟨b, hb, rfl⟩ := look hc
    rw [size_addEdge he]
    simp only [wired] at hj
    split at hj
    · rw [mem_foldl_appendNew, List.mem_singleton] at hj
      rcases hj with hj | rfl
      · exact h.succ_lt hb hj
      · exact htarget
    · exact h.succ_lt hb hj
  · intro i c j hc hj
    obtain ⟨b, hb, rfl⟩ := look hc
    rw [size_addEdge he]
    simp only [wired] at hj
    split at hj
    · rw [mem_appendNew] at hj
      rcases hj with hj | rfl
      · exact h.pred_lt hb hj
      · exact hsource
    · exact h.pred_lt hb hj
  · intro i c hc
    obtain ⟨b, hb, rfl⟩ := look hc
    simp only [wired]
    split
    · exact nodup_appendNew (h.succ_nodup hb) _
    · exact h.succ_nodup hb
  · intro i c hc
    obtain ⟨b, hb, rfl⟩ := look hc
    simp only [wired]
    split
    · exact nodup_appendNew (h.pred_nodup hb) _
    · exact h.pred_nodup hb
  · intro i j a c ha hc
    obtain ⟨a, hga, rfl⟩ := look ha
    obtain ⟨c, hgc, rfl⟩ := look hc
    have hiff := h.mem_pred_iff hga hgc
    by_cases hi : i = source <;> by_cases hj : j = target <;> simp [wired, hi, hj] <;> simp_all

/-- Graphs with the same edges are wired alike. -/
theorem Wired.of_edges (h : g.Wired) (hsize : g'.size = g.size)
    (look : ∀ {i b'}, g'.block? i = some b' → ∃ b, g.block? i = some b ∧ b'.id = b.id ∧
      b'.successors = b.successors ∧ b'.predecessors = b.predecessors) : g'.Wired := by
  constructor
  · intro i b' hb'
    obtain ⟨b, hb, hid, -, -⟩ := look hb'
    rw [hid]
    exact h.id_eq hb
  · intro i b' j hb' hj
    obtain ⟨b, hb, -, hs, -⟩ := look hb'
    rw [hsize]
    exact h.succ_lt hb (hs ▸ hj)
  · intro i b' j hb' hj
    obtain ⟨b, hb, -, -, hp⟩ := look hb'
    rw [hsize]
    exact h.pred_lt hb (hp ▸ hj)
  · intro i b' hb'
    obtain ⟨b, hb, -, hs, -⟩ := look hb'
    rw [hs]
    exact h.succ_nodup hb
  · intro i b' hb'
    obtain ⟨b, hb, -, -, hp⟩ := look hb'
    rw [hp]
    exact h.pred_nodup hb
  · intro i j a' b' ha' hb'
    obtain ⟨a, ha, -, hs, -⟩ := look ha'
    obtain ⟨b, hb, -, -, hp⟩ := look hb'
    rw [hs, hp]
    exact h.mem_pred_iff ha hb

/-- Adding edges keeps the invariant. -/
theorem Wired.addEdges (h : g.Wired) {targets : List BlockId}
    (he : g.addEdges source targets = .ok g') : g'.Wired := by
  induction targets generalizing g with
  | nil =>
    cases he
    exact h
  | cons t rest ih =>
    obtain ⟨g₁, h₁, he⟩ := exists_of_bind_ok he
    exact ih (h.addEdge h₁) he

end Graph

end MethodLift
