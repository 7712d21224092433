import MethodLift.Pass.LabelCount
import MethodLift.Proofs.Structuring.Jumps

/-!
# Labels and jumps

After structuring and counting, every jump of a block that is written, at any depth, names the start
of exactly one block that is written, and the references of a written block are the jumps that name
it: `Labelled` collects this about a list of blocks.
-/

namespace MethodLift

open Expr

/-- Only one element of a list has a property. -/
theorem filter_eq_singleton {α : Type} {l : List α} {q : α → Bool} {k : Nat} {a : α}
    (ha : l[k]? = some a) (hq : q a = true)
    (honly : ∀ {j b}, l[j]? = some b → q b = true → j = k) : l.filter q = [a] := by
  induction l generalizing k with
  | nil => cases ha
  | cons x rest ih =>
    cases k with
    | zero =>
      cases ha
      have hrest : rest.filter q = [] := by
        rw [List.filter_eq_nil_iff]
        intro b hb hqb
        obtain ⟨j, hj⟩ := List.mem_iff_getElem?.mp hb
        cases honly (j := j + 1) hj hqb
      rw [List.filter_cons_of_pos hq, hrest]
    | succ k =>
      have hx : q x ≠ true := fun hqx => by cases honly (j := 0) rfl hqx
      rw [List.filter_cons_of_neg hx]
      refine ih ha fun {j b} hj hqb => ?_
      exact Nat.succ.inj (honly (j := j + 1) hj hqb)

/-! ## Written blocks and their jumps -/

def written (bs : List Block) : List Block := bs.filter fun b => !b.ignored

/-- The targets of all jumps in the live statements of the blocks that are written, at any depth of
conditionals. -/
def jumpsOf (bs : List Block) : List Nat := (written bs).flatMap fun b => bodyJumps b.statements

/-- Jumps and labels fit together. -/
structure Labelled (bs : List Block) : Prop where
  target : ∀ t ∈ jumpsOf bs, ∃ b, (written bs).filter (fun b => b.start == t) = [b]
  count : ∀ b ∈ written bs, b.references = (jumpsOf bs).count b.start
  unmoved : ∀ t ∈ jumpsOf bs, ∀ b ∈ bs, b.ignored = true → b.start ≠ t

namespace LabelCount

variable {g g' : Graph} {p : Structuring.Plan}

/-- Where no two blocks start alike, a block is found by its start. -/
theorem startingAt?_eq_some_iff
    (hinj : ∀ {i j a b}, g.block? i = some a → g.block? j = some b → a.start = b.start → i = j)
    {k t : Nat} : g.startingAt? t = some k ↔ ∃ b, g.block? k = some b ∧ b.start = t := by
  unfold Graph.startingAt?
  rw [List.findIdx?_eq_some_iff_getElem]
  constructor
  · rintro ⟨hk, hstart, -⟩
    exact ⟨_, List.getElem?_eq_getElem hk, by simpa using hstart⟩
  · rintro ⟨b, hb, rfl⟩
    obtain ⟨hk, hget⟩ := List.getElem?_eq_some_iff.mp hb
    refine ⟨hk, by simp [hget], fun j hj => ?_⟩
    simp only [beq_iff_eq]
    intro hstart
    exact Nat.ne_of_lt hj (hinj (List.getElem?_eq_getElem (Nat.lt_trans hj hk)) hb hstart)

/-- The references of a block are the targets that name its start. -/
theorem references_eq
    (hinj : ∀ {i j a b}, g.block? i = some a → g.block? j = some b → a.start = b.start → i = j)
    {k : Nat} {b : Block} (hb : g.block? k = some b) (ts : List Nat) :
    references g ts k = ts.count b.start := by
  unfold references List.count
  refine List.countP_congr fun t _ => ?_
  rw [beq_iff_eq, startingAt?_eq_some_iff hinj, beq_iff_eq]
  constructor
  · rintro ⟨c, hc, rfl⟩
    cases hb.symm.trans hc
    rfl
  · rintro rfl
    exact ⟨b, hb, rfl⟩

/-- What counting sees are the jumps of the live statements. -/
theorem targets_eq (h : ∀ b ∈ g.blocks, b.ignored = false → Structuring.Neat b.statements) :
    targets g = jumpsOf g.blocks := by
  unfold targets jumpsOf written
  refine List.flatMap_congr fun b hb => ?_
  obtain ⟨hmem, hwritten⟩ := List.mem_filter.mp hb
  have hneat := h b hmem (by simpa using hwritten)
  rw [bodyJumps_eq]
  refine List.flatMap_congr fun s hs => ?_
  exact (hneat.orderly s (List.mem_of_mem_filter hs)).targets_eq

/-- The graph with the references of its blocks counted. -/
def counted (g : Graph) : Graph :=
  ⟨g.blocks.map fun b => { b with references := references g (targets g) b.id }⟩

/-- Counting labels changes the counts of the graph and nothing else of it. -/
theorem graph_countLabels (ctx : Context) : ctx.countLabels.1.graph = counted ctx.graph := rfl

theorem events_sayMissing (g : Graph) (ts : List Nat) (j : Journal) :
    (sayMissing g ts j).events = j.events := by
  refine List.foldlRecOn (motive := fun j' : Journal => j'.events = j.events) ts _ rfl ?_
  intro j' hj' t _
  split
  · exact hj'
  · exact hj'

/-- Counting records nothing. -/
theorem events_countLabels (ctx : Context) :
    ctx.countLabels.1.journal.events = ctx.journal.events :=
  events_sayMissing ctx.graph _ ctx.journal

theorem block?_counted {k : Nat} {b : Block} (hb : g.block? k = some b) :
    (counted g).block? k = some { b with references := references g (targets g) b.id } := by
  unfold Graph.block? at hb ⊢
  rw [counted, List.getElem?_map, hb]
  rfl

theorem exists_of_block?_counted {k : Nat} {c : Block} (hc : (counted g).block? k = some c) :
    ∃ b, g.block? k = some b ∧ c = { b with references := references g (targets g) b.id } := by
  unfold Graph.block? at hc
  rw [counted, List.getElem?_map] at hc
  obtain ⟨b, hb, rfl⟩ := Option.map_eq_some_iff.mp hc
  exact ⟨b, hb, rfl⟩

/-- What does not look at references is the same after counting. -/
theorem flatMap_counted {β : Type} {k : Block → List β}
    (hk : ∀ (b : Block) n, k { b with references := n } = k b) :
    (counted g).blocks.flatMap k = g.blocks.flatMap k := by
  rw [counted, List.flatMap_map]
  exact List.flatMap_congr fun b _ => hk b _

theorem written_counted (g : Graph) :
    written (counted g).blocks = (written g.blocks).map fun b =>
      { b with references := references g (targets g) b.id } := by
  unfold written counted
  rw [List.filter_map]
  rfl

/-- Counting does not change what jumps where. -/
theorem jumpsOf_counted (g : Graph) : jumpsOf (counted g).blocks = jumpsOf g.blocks := by
  unfold jumpsOf
  rw [written_counted, List.flatMap_map]

end LabelCount

namespace Structuring

open LabelCount

variable {g g' : Graph} {p : Plan}

/-- The blocks of a structured graph: either moved away, or written with what was moved into
them. -/
theorem Structured.block_cases (h : Structured g p g') (hg : g.Flat) {k : Nat} {b' : Block}
    (hb' : g'.block? k = some b') : ∃ b, g.block? k = some b ∧ b'.id = k ∧ b'.start = b.start ∧
      ((∃ a ∈ p, a.child = k) ∧ b'.ignored = true ∨
        (∀ a ∈ p, a.child ≠ k) ∧ b'.ignored = false ∧ Nested g p k b') := by
  obtain ⟨b, hb, ⟨hmoved, rfl⟩ | ⟨hfree, hnested⟩⟩ := h.cases hb'
  · have hid := hg.wired.id_eq hb
    exact ⟨b, hb, hid, rfl, .inl ⟨hmoved, rfl⟩⟩
  · obtain ⟨b₀, hb₀, hhead⟩ := hnested.head
    cases hb₀.symm.trans hb
    refine ⟨b, hb, ?_⟩
    rw [hhead]
    exact ⟨hg.wired.id_eq hb, rfl, .inr ⟨hfree, hg.visible hb, hnested⟩⟩

theorem Structured.start_injective (h : Structured g p g') (hg : g.Flat) {i j : Nat} {a b : Block}
    (ha : g'.block? i = some a) (hb : g'.block? j = some b) (heq : a.start = b.start) : i = j := by
  obtain ⟨a₀, ha₀, -, hsa, -⟩ := h.block_cases hg ha
  obtain ⟨b₀, hb₀, -, hsb, -⟩ := h.block_cases hg hb
  exact hg.start_injective ha₀ hb₀ (by rw [← hsa, ← hsb, heq])

/-- A block that is written in a structured graph has its bodies nested in it. -/
theorem Structured.nested_of_written (h : Structured g p g') (hg : g.Flat) {b : Block}
    (hb : b ∈ g'.blocks) (hwritten : b.ignored = false) : ∃ k, Nested g p k b := by
  obtain ⟨k, hk⟩ := Graph.exists_block?_of_mem hb
  obtain ⟨-, -, -, -, ⟨-, hgone⟩ | ⟨-, -, hnested⟩⟩ := h.block_cases hg hk
  · cases hgone.symm.trans hwritten
  · exact ⟨k, hnested⟩

/-- Every jump of a structured graph lands on a block that is written. -/
theorem Structured.lands (h : Structured g p g') (hg : g.Flat) {t : Nat}
    (ht : t ∈ jumpsOf g'.blocks) :
    ∃ k b, g'.block? k = some b ∧ b.start = t ∧ b.ignored = false := by
  obtain ⟨b, hb, htb⟩ := List.mem_flatMap.mp ht
  obtain ⟨hmem, hwritten⟩ := List.mem_filter.mp hb
  obtain ⟨_, hnested⟩ := h.nested_of_written hg hmem (by simpa using hwritten)
  obtain ⟨k, c, hc, rfl, hfree⟩ := hnested.allLand hg h.grows t htb
  obtain ⟨c', hc', hnested'⟩ := h.nested hc hfree
  obtain ⟨c₀, hc₀, hhead⟩ := hnested'.head
  cases hc₀.symm.trans hc
  refine ⟨k, c', hc', congrArg BlockHead.start hhead, ?_⟩
  rw [hhead]
  exact hg.visible hc

/-- Structuring and counting make jumps and labels fit together. -/
theorem Structured.labelled (h : Structured g p g') (hg : g.Flat) :
    Labelled (counted g').blocks := by
  have hjumps := jumpsOf_counted g'
  have htargets : targets g' = jumpsOf g'.blocks := by
    refine targets_eq fun b hb hwritten => ?_
    obtain ⟨k, hnested⟩ := h.nested_of_written hg hb hwritten
    exact hnested.neat hg h.grows
  constructor
  · intro t ht
    rw [hjumps] at ht
    obtain ⟨k, b, hb, rfl, hwritten⟩ := h.lands hg ht
    refine ⟨{ b with references := references g' (targets g') b.id }, ?_⟩
    unfold written
    rw [List.filter_filter]
    refine filter_eq_singleton (block?_counted hb) (by simp [hwritten]) fun {j c} hc hq => ?_
    obtain ⟨c₀, hc₀, rfl⟩ := exists_of_block?_counted hc
    simp only [Bool.and_eq_true, beq_iff_eq] at hq
    exact h.start_injective hg hc₀ hb hq.1
  · intro b hb
    rw [written_counted] at hb
    obtain ⟨c, hc, rfl⟩ := List.mem_map.mp hb
    obtain ⟨k, hk⟩ := Graph.exists_block?_of_mem (List.mem_of_mem_filter hc)
    obtain ⟨-, -, hid, -⟩ := h.block_cases hg hk
    rw [hjumps, ← htargets]
    change references g' (targets g') c.id = _
    rw [hid]
    exact references_eq (h.start_injective hg) hk _
  · intro t ht b hb hgone hstart
    rw [hjumps] at ht
    obtain ⟨k, c, hc, rfl, hwritten⟩ := h.lands hg ht
    obtain ⟨b₀, hb₀, rfl⟩ := List.mem_map.mp hb
    obtain ⟨j, hj⟩ := Graph.exists_block?_of_mem hb₀
    cases h.start_injective hg hj hc hstart
    cases hj.symm.trans hc
    cases hgone.symm.trans hwritten

/-- The written blocks of a structured graph are orderly. -/
theorem Structured.orderly (h : Structured g p g') (hg : g.Flat) :
    ∀ b ∈ written (counted g').blocks, ∀ s ∈ b.statements, Orderly s.expr := by
  intro b hb
  rw [written_counted] at hb
  obtain ⟨c, hc, rfl⟩ := List.mem_map.mp hb
  obtain ⟨hmem, hwritten⟩ := List.mem_filter.mp hc
  obtain ⟨_, hnested⟩ := h.nested_of_written hg hmem (by simpa using hwritten)
  exact (hnested.neat hg h.grows).orderly

end Structuring

end MethodLift
