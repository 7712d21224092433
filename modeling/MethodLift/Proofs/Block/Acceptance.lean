import MethodLift.Proofs.Block.Steps

/-!
# Partitions that are accepted

A partition may come from elsewhere and cut code anywhere. It has a graph exactly where there is
code, the ranges tile the code, and every range that ends in a jump ends in one that lands on the
start of a range; `Graph.ofPartition_accepts` says so, and that everything else is refused as
malformed, or as empty.

Only the last instruction of a range is looked at. A jump before the end of its range may go
anywhere, also to an instruction that does not exist, and `Graph.ofPartition_inward` is such a case:
its graph has no block for the jump to go to.
-/

namespace MethodLift

namespace ControlFlow

variable {code : List Instruction} {parts : List CodeRange} {r : CodeRange} {x : Instruction}
  {ss : List BlockId} {e stop : Nat} {err : Error}

/-! ## Ranges that tile code -/

/-- No range is empty, the first one starts at a position, each other one where the one before it
stops, and the last one stops at the end. -/
structure Tiles (e : Nat) (parts : List CodeRange) (stop : Nat) : Prop where
  nonempty : ∀ r ∈ parts, r.start < r.stop
  joined : parts.map (·.start) ++ [stop] = e :: parts.map (·.stop)

theorem tiles_cons : Tiles e (r :: parts) stop ↔
    r.start = e ∧ r.start < r.stop ∧ Tiles r.stop parts stop := by
  constructor
  · rintro ⟨hne, hjoined⟩
    obtain ⟨hr, hrest⟩ := List.forall_mem_cons.mp hne
    obtain ⟨hstart, hjoined⟩ := List.cons.inj hjoined
    exact ⟨hstart, hr, hrest, hjoined⟩
  · rintro ⟨hstart, hr, hrest, hjoined⟩
    exact ⟨List.forall_mem_cons.mpr ⟨hr, hrest⟩, congrArg₂ List.cons hstart hjoined⟩

/-- The check of the ranges succeeds exactly on tilings, and says where they end. -/
theorem checkRanges_eq_ok_iff : checkRanges e parts = .ok stop ↔ Tiles e parts stop := by
  induction parts generalizing e with
  | nil =>
    constructor
    · rintro ⟨⟩
      exact ⟨List.forall_mem_nil _, rfl⟩
    · rintro ⟨-, hjoined⟩
      exact congrArg Except.ok (List.cons.inj hjoined).1.symm
  | cons r rest ih =>
    rw [tiles_cons, ← ih]
    constructor
    · exact checkRanges_cons
    · rintro ⟨hstart, hlt, hrest⟩
      rw [checkRanges, if_neg (by omega)]
      exact hrest

theorem kind_of_checkRanges (h : checkRanges e parts = .error err) : err.kind = .malformed := by
  induction parts generalizing e with
  | nil => cases h
  | cons r rest ih =>
    rw [checkRanges] at h
    split at h
    · cases h
      rfl
    · exact ih h

/-! ## The jump at the end of a range -/

/-- The target of a jump is the first instruction of a range. -/
def Lands (code : List Instruction) (parts : List CodeRange) (x : Instruction) : Prop :=
  ∃ r ∈ parts, x.Names code r.start

/-- The block of a jump is found exactly if the jump lands on the start of a range. -/
theorem exists_targetBlock_iff : (∃ j, targetBlock code parts x = .ok j) ↔ Lands code parts x := by
  simp only [targetBlock_eq_ok_iff]
  constructor
  · rintro ⟨j, p, hnames, hat⟩
    obtain ⟨r, hr, rfl⟩ := blockAt?_eq_some hat
    exact ⟨r, List.mem_of_getElem? hr, hnames⟩
  · rintro ⟨r, hr, hnames⟩
    obtain ⟨j, hj, -⟩ := exists_blockAt? ⟨r, hr, rfl⟩
    exact ⟨j, r.start, hnames, hj⟩

/-- Whatever is wrong with a jump, the code is malformed. -/
theorem kind_of_targetBlock (h : targetBlock code parts x = .error err) :
    err.kind = .malformed := by
  unfold targetBlock targetPosition at h
  split at h
  · cases h
    rfl
  · split at h
    · cases h
      rfl
    · dsimp only [bind, Except.bind] at h
      split at h
      · cases h
      · cases h
        rfl

/-- The edges of a range can be told unless it ends in a jump that does not land. -/
theorem exists_successorsOf_iff : (∃ ss, successorsOf code parts r = .ok ss) ↔
    ∀ x, last? code r = some x → x.Departs → Lands code parts x := by
  simp only [← exists_targetBlock_iff, departs_iff_kindOf]
  unfold successorsOf
  cases hlast : last? code r with
  | none => simp
  | some x =>
    cases hkind : kindOf x <;> cases ht : targetBlock code parts x <;>
      simp [bind, Except.bind, hkind, ht]

/-- Finding the successors of a block fails on malformed code only. -/
theorem kind_of_successorsOf (h : successorsOf code parts r = .error err) :
    err.kind = .malformed := by
  unfold successorsOf at h
  cases hlast : last? code r with
  | none =>
    rw [hlast] at h
    cases h
  | some x =>
    simp only [hlast] at h
    cases ht : targetBlock code parts x with
    | error err' =>
      have hkind := kind_of_targetBlock ht
      rw [ht] at h
      split at h <;> cases h <;> exact hkind
    | ok j =>
      rw [ht] at h
      split at h <;> cases h

/-- Edges lead to blocks that exist. -/
theorem lt_of_mem_successorsOf (h : successorsOf code parts r = .ok ss) :
    ∀ j ∈ ss, j < parts.length := by
  have hat {p : Nat} {j : BlockId} (hj : blockAt? parts p = some j) : j < parts.length := by
    obtain ⟨r, hr, -⟩ := blockAt?_eq_some hj
    exact (List.getElem?_eq_some_iff.mp hr).1
  intro j hj
  cases hlast : last? code r with
  | none =>
    simp only [successorsOf, hlast] at h
    cases h
    cases hj
  | some x =>
    rcases (mem_successorsOf hlast h).mp hj with ⟨-, hnext⟩ | ⟨-, htarget⟩
    · exact hat hnext
    · obtain ⟨p, -, hp⟩ := targetBlock_eq_ok_iff.mp htarget
      exact hat hp

end ControlFlow

namespace Graph

open ControlFlow

variable {code : List Instruction} {parts : List CodeRange} {g : Graph} {err : Error}

/-! ## Linking -/

/-- Linking fails only where the edges of a range cannot be told; the edges themselves can always be
added. -/
theorem kind_of_link {rest : List CodeRange} {id : Nat} (hsize : g.size = parts.length)
    (hid : id + rest.length ≤ g.size) (h : link code parts g id rest = .error err) :
    err.kind = .malformed := by
  induction rest generalizing g id with
  | nil => cases h
  | cons r rest ih =>
    rw [List.length_cons] at hid
    rw [link] at h
    cases hss : successorsOf code parts r with
    | error err' =>
      rw [hss] at h
      cases h
      exact kind_of_successorsOf hss
    | ok ss =>
      rw [hss] at h
      have hsource : id < g.size := by omega
      obtain ⟨g₁, hadd⟩ := exists_addEdges hsource (hsize ▸ lt_of_mem_successorsOf hss)
      have hsize₁ : g₁.size = g.size := size_addEdges hadd
      dsimp only [bind, Except.bind] at h
      rw [hadd] at h
      exact ih (hsize₁.trans hsize) (by omega) h

/-! ## Acceptance -/

/-- A partition is accepted exactly if it tiles the code and the last instruction of each range
lands where it departs to. Jumps elsewhere in a range are not looked at. -/
theorem exists_ofPartition_iff : (∃ g, ofPartition code parts = .ok g) ↔
    code ≠ [] ∧ Tiles 0 parts code.length ∧
      ∀ r ∈ parts, ∀ x, last? code r = some x → x.Departs → Lands code parts x := by
  simp only [← exists_successorsOf_iff]
  constructor
  · rintro ⟨g, h⟩
    obtain ⟨hne, hcovers, -⟩ := exists_of_ofPartition h
    refine ⟨hne, checkRanges_eq_ok_iff.mp hcovers, fun r hr => ?_⟩
    obtain ⟨i, hi⟩ := List.mem_iff_getElem?.mp hr
    obtain ⟨-, ss, hss, -⟩ := block?_of_range h hi
    exact ⟨ss, hss⟩
  · rintro ⟨hne, htiles, hedges⟩
    refine exists_graph hne (checkRanges_eq_ok_iff.mpr htiles) fun r hr => ?_
    obtain ⟨ss, hss⟩ := hedges r hr
    exact ⟨ss, hss, lt_of_mem_successorsOf hss⟩

/-- A partition of some code can only be refused as malformed. -/
theorem kind_of_ofPartition (h : ofPartition code parts = .error err) (hne : code ≠ []) :
    err.kind = .malformed := by
  rw [ofPartition, if_neg (by simpa using hne)] at h
  cases hranges : checkRanges 0 parts with
  | error err' =>
    rw [hranges] at h
    cases h
    exact kind_of_checkRanges hranges
  | ok covered =>
    rw [hranges] at h
    dsimp only [bind, Except.bind] at h
    split at h
    · have hsize := size_cut code parts
      exact kind_of_link (g := cut code parts) hsize (by omega) h
    · cases h
      rfl

/-- A partition is accepted exactly where there is code, the ranges tile it, and the jumps at the
ends of ranges go to the starts of ranges. Of the last instructions those are jumps whose flow says
so, but not calls that do not return. Everything else is an error: empty code is refused as such,
and all the rest is malformed. -/
theorem ofPartition_accepts (code : List Instruction) (parts : List CodeRange) :
    ((∃ g, ofPartition code parts = .ok g) ↔
      code ≠ [] ∧ Tiles 0 parts code.length ∧
        ∀ r ∈ parts, ∀ x, code[r.stop - 1]? = some x →
          (x.flow = .branch ∨ x.flow = .jump) ∧ x.mnemonic ≠ .callNoReturn →
          ∃ c ∈ parts, x.Names code c.start) ∧
    ∀ err, ofPartition code parts = .error err →
      err.kind = if code = [] then .empty else .malformed := by
  refine ⟨exists_ofPartition_iff, fun err h => ?_⟩
  split
  · rename_i hempty
    subst hempty
    cases h
    rfl
  · rename_i hne
    exact kind_of_ofPartition h hne

/-- Code that jumps from the front of its only block into the middle of it. -/
def inward : List Instruction :=
  [⟨0, .goto, [.target 2], .jump⟩, ⟨1, .move, [.register "rax", .immediate 1], .next⟩,
    ⟨2, .ret, [], .ret⟩]

/-- A jump before the end of its range is accepted although it goes to no start. -/
theorem ofPartition_inward :
    (∃ g, ofPartition inward [⟨0, 3⟩] = .ok g) ∧
      ∃ x ∈ inward, x.flow = .jump ∧ ¬ ∃ r ∈ [(⟨0, 3⟩ : CodeRange)], x.Names inward r.start := by
  refine ⟨⟨_, rfl⟩, ⟨0, .goto, [.target 2], .jump⟩, List.mem_cons_self, rfl, ?_⟩
  simp only [List.mem_singleton, exists_eq_left, ← targetPosition_eq_ok_iff]
  rintro ⟨⟩

end Graph

end MethodLift
