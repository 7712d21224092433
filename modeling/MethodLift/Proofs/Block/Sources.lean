import MethodLift.Proofs.Block.Flat
import MethodLift.Proofs.Block.Sections
import Mathlib.Data.List.Perm.Basic

/-!
# Where statements come from

A comparison becomes one statement together with the conditional jump right after it, and that
statement comes from the jump; the comparison is *fused*. Every other instruction keeps a statement
of its own. So the sources of the statements of a block are, in order, the indexes of its
instructions without the fused ones.

This holds of a graph once its blocks are filled, and rebuilding statements keeps it.
-/

namespace MethodLift

def CodeRange.slice (code : List Instruction) (r : CodeRange) : List Instruction :=
  (code.drop r.start).take r.length

namespace Instruction

/-- A comparison with a conditional jump right after it. -/
def isFused (i : Instruction) (rest : List Instruction) : Bool :=
  i.mnemonic == .compare && rest.head?.any fun next => next.mnemonic.isBranch

/-- The indexes of the comparisons that become one with the jump right after them. -/
def fused : List Instruction → List Nat
  | [] => []
  | i :: rest => if i.isFused rest then i.index :: fused rest else fused rest

/-- The indexes of the instructions that have a statement of their own. -/
def kept : List Instruction → List Nat
  | [] => []
  | i :: rest => if i.isFused rest then kept rest else i.index :: kept rest

/-- An instruction is kept or fused. -/
theorem perm_kept_fused (part : List Instruction) :
    (kept part ++ fused part).Perm (part.map fun i => i.index) := by
  induction part with
  | nil => exact .nil
  | cons i rest ih =>
    rw [kept, fused]
    split
    · exact List.perm_middle.trans (ih.cons i.index)
    · exact ih.cons i.index

/-- The instructions that are kept stay in order. -/
theorem kept_sublist (part : List Instruction) :
    (kept part).Sublist (part.map fun i => i.index) := by
  induction part with
  | nil => exact .slnil
  | cons i rest ih =>
    rw [kept]
    split
    · exact ih.cons i.index
    · exact ih.cons_cons i.index

end Instruction

open Instruction

/-! ## Filled blocks -/

/-- Every statement comes from an instruction, and those are the given ones in order. -/
def CameFrom (indexes : List Nat) (ss : List Statement) : Prop :=
  ss.map (fun s => s.source) = indexes.map some

namespace CameFrom

variable {indexes : List Nat} {b : Block}

/-- The sources of a block are those that its statements came from, in order. -/
theorem sources_eq (h : CameFrom indexes b.statements) : b.sources = indexes := by
  have hsources : b.sources = (b.statements.map fun s => s.source).filterMap id := by
    simp [Block.sources, List.filterMap_map]
  rw [hsources, h]
  simp

theorem source_ne_none (h : CameFrom indexes b.statements) :
    ∀ s ∈ b.statements, s.source ≠ none := by
  intro s hs hnone
  have hmem : none ∈ indexes.map some := h ▸ List.mem_map.mpr ⟨s, hs, hnone⟩
  simp at hmem

end CameFrom

namespace Scope

variable (s : Scope)

theorem source_statement (block : BlockId) (i : Instruction) :
    Yields (s.statement block i) fun t => t.source = some i.index :=
  Yields.bind (P := fun _ => True) (fun _ => trivial) fun _ _ => .pure rfl

/-- The statements of a block come from the instructions that are not fused. -/
theorem cameFrom_statements (block : BlockId) (part : List Instruction) :
    Yields (s.statements block part) (CameFrom (kept part)) := by
  fun_induction statements s block part with
  | case1 => exact .pure rfl
  | case2 i =>
    have hkept : kept [i] = [i.index] := by simp [kept, isFused]
    refine (s.source_statement block i).bind fun t ht => .pure ?_
    rw [hkept]
    exact congrArg (fun x => [x]) ht
  | case3 i next rest hfuse ih =>
    -- the jump is no comparison, so it is not fused with what comes after it
    have hnext : next.isFused rest = false := by
      have hbranch := hfuse.2
      unfold isFused
      cases hm : next.mnemonic <;> first | rfl | (rw [hm] at hbranch; cases hbranch)
    have hkept : kept (i :: next :: rest) = next.index :: kept rest := by
      have hi : i.isFused (next :: rest) = true := by simp [isFused, hfuse]
      rw [kept, if_pos hi, kept, hnext, if_neg Bool.false_ne_true]
    refine Yields.bind (P := fun _ => True) (fun _ => trivial) fun e _ => ?_
    refine ih.bind fun ss hss => .pure ?_
    rw [hkept]
    exact congrArg (some next.index :: ·) hss
  | case4 i next rest hfuse ih =>
    have hkept : kept (i :: next :: rest) = i.index :: kept (next :: rest) := by
      have hno : i.isFused (next :: rest) = false := by simpa [isFused] using hfuse
      rw [kept, hno, if_neg Bool.false_ne_true]
    refine (s.source_statement block i).bind fun t ht => ih.bind fun ss hss => .pure ?_
    rw [hkept]
    exact congrArg₂ List.cons ht hss

end Scope

/-! ## Graphs of code -/

namespace ControlFlow

variable {code : List Instruction} {parts : List CodeRange} {start stop : Nat}

/-- Ranges that follow each other without gaps cover the code between their ends. -/
theorem flatMap_slice (h : checkRanges start parts = .ok stop) :
    parts.flatMap (CodeRange.slice code) = (code.drop start).take (stop - start) := by
  induction parts generalizing start with
  | nil =>
    cases h
    simp
  | cons r rest ih =>
    obtain ⟨rfl, hlt, hrest⟩ := checkRanges_cons h
    have hle := checkRanges_le hrest
    rw [List.flatMap_cons, ih hrest, CodeRange.slice, CodeRange.length,
      show stop - r.start = (r.stop - r.start) + (stop - r.stop) by omega, List.take_add,
      List.drop_drop, show r.start + (r.stop - r.start) = r.stop by omega]

theorem flatMap_slice_all (h : checkRanges 0 parts = .ok code.length) :
    parts.flatMap (CodeRange.slice code) = code := by
  rw [flatMap_slice h, List.drop_zero, Nat.sub_zero, List.take_length]

/-- The instructions of all ranges are kept or fused, each in its range. -/
theorem perm_parts (h : checkRanges 0 parts = .ok code.length) :
    (parts.flatMap (fun r => kept (r.slice code)) ++
      parts.flatMap fun r => fused (r.slice code)).Perm (code.map fun i => i.index) := by
  refine (List.flatMap_append_perm _ _ _).trans ?_
  have hpart : ∀ r ∈ parts, (kept (r.slice code) ++ fused (r.slice code)).Perm
      ((r.slice code).map fun i => i.index) := fun r _ => perm_kept_fused _
  refine (List.Perm.flatMap_left parts hpart).trans (.of_eq ?_)
  rw [← List.map_flatMap, flatMap_slice_all h]

end ControlFlow

namespace Graph

variable {g g' : Graph} {code : List Instruction} {parts : List CodeRange}

/-- A graph of code before structuring: its edges are stored at both ends, its statements are tidy,
its blocks lie where they should, and their statements come from the code there. -/
structure Drawn (code : List Instruction) (parts : List CodeRange) (g : Graph) : Prop where
  wired : g.Wired
  tidy : g.Tidy
  ranges : g.blocks.map (fun b => b.range) = parts
  sources : ∀ b ∈ g.blocks, CameFrom (kept (b.range.slice code)) b.statements

/-- The blocks of a graph have the ranges that it was cut along. -/
theorem ranges_ofPartition (h : ofPartition code parts = .ok g) :
    g.blocks.map (fun b => b.range) = parts := by
  refine List.ext_getElem? fun i => ?_
  rw [List.getElem?_map]
  cases hb : g.blocks[i]? with
  | some b => exact (range_of_block? h hb).symm
  | none =>
    have hsize : g.blocks.length = parts.length := size_ofPartition h
    rw [List.getElem?_eq_none_iff] at hb
    exact (List.getElem?_eq_none (hsize ▸ hb)).symm

/-- A graph that is filled draws each block from the slice of its range. -/
theorem drawn_of_fill {s : Scope} (h : ofPartition code parts = .ok g)
    (hfill : List.Forall₂ (s.Filled code) g.blocks g'.blocks) : Drawn code parts g' where
  wired := (ofPartition_laid h).wired.fill hfill
  tidy b' hb' := by
    obtain ⟨b, -, part, journal, -, rfl⟩ := exists_of_forall₂ hfill hb'
    exact fun t ht => (s.lifted_statements b.id part journal t ht).1.tidy
  ranges := by
    rw [← ranges_ofPartition h]
    refine map_eq_of_forall₂ hfill fun b b' hb => ?_
    obtain ⟨part, journal, -, rfl⟩ := hb
    rfl
  sources b' hb' := by
    obtain ⟨b, -, part, journal, hpart, rfl⟩ := exists_of_forall₂ hfill hb'
    have hslice : part = b.range.slice code := by
      unfold Scope.slice? at hpart
      split at hpart
      · exact (Option.some.inj hpart).symm
      · cases hpart
    rw [← hslice]
    exact s.cameFrom_statements b.id part journal

/-- Rebuilding statements keeps where they come from. -/
theorem Drawn.refine (h : Drawn code parts g) (hr : g.Refines g') : Drawn code parts g' where
  wired := hr.wired h.wired
  tidy b' hb' s' hs' := by
    obtain ⟨b, hb, -, hss⟩ := exists_of_forall₂ hr hb'
    obtain ⟨s, hs, hstmt⟩ := exists_of_forall₂ hss hs'
    exact (hstmt.2 (h.tidy b hb s hs)).1
  ranges := by
    rw [← h.ranges]
    exact map_eq_of_forall₂ hr fun b b' hb => by rw [hb.1]
  sources b' hb' := by
    obtain ⟨b, hb, hhead, hss⟩ := exists_of_forall₂ hr hb'
    have hrange : b'.range = b.range := by rw [hhead]
    rw [hrange]
    exact (map_eq_of_forall₂ hss fun _ _ hs => hs.1).trans (h.sources b hb)

end Graph

end MethodLift
