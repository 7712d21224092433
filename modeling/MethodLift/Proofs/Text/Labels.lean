import Mathlib
import MethodLift.Proofs.Expr.Jumps
import MethodLift.Proofs.Text.Pieces

/-!
# Labels and jumps in the output

In written text, a label stands in front of a colon where it is defined, and behind the word
`goto` where it is used. No value can be mistaken for either: only labels are followed by a
colon, and the blank of its own that `goto` is followed by is otherwise found behind `return`
only.

Mathlib is imported whole for `Nat.repr_inj`, which no smaller part of it brings: by it, different
blocks have different labels.
-/

namespace MethodLift

open Expr

namespace Source

/-- The piece behind a label. -/
abbrev colon : Piece := .punct ":"

/-- The piece between a word and what it is about. -/
abbrev space : Piece := .text " " .plain

/-- The label that a piece defines, given the piece behind it. -/
def definition? : Piece → Option Piece → Option String
  | .text name .label, some (.text ":" .punctuation) => some name
  | _, _ => none

/-- The labels that pieces define, in order. -/
def labels : List Piece → List String
  | [] => []
  | q :: rest => (definition? q rest.head?).toList ++ labels rest

/-- The label that a jump names, given the pieces behind its first word. -/
def destination? : List Piece → Option String
  | .text "goto" .keyword :: .text " " .plain :: .text name .label :: _ => some name
  | _ => none

/-- The labels that the jumps among pieces name, in order. -/
def gotos : List Piece → List String
  | [] => []
  | q :: rest => (destination? (q :: rest)).toList ++ gotos rest

/-! ## Pieces that play no part -/

/-- What neither part starts with, the whole does not start with. -/
theorem head?_append_ne {xs ys : List Piece} {q : Piece} (hx : xs.head? ≠ some q)
    (hy : ys.head? ≠ some q) : (xs ++ ys).head? ≠ some q := by
  rw [List.head?_append]
  cases hh : xs.head? with
  | none => exact hy
  | some a =>
    rw [hh] at hx
    exact hx

theorem head?_ne_of_forall {xs : List Piece} {q : Piece} (h : ∀ a ∈ xs, a ≠ q) :
    xs.head? ≠ some q := by
  intro hx
  exact h q (List.mem_of_head? hx) rfl

theorem head?_flatMap_ne {α : Type} {l : List α} {f : α → List Piece} {q : Piece}
    (h : ∀ a ∈ l, (f a).head? ≠ some q) : (l.flatMap f).head? ≠ some q := by
  induction l with
  | nil => simp
  | cons a rest ih =>
    obtain ⟨ha, hrest⟩ := List.forall_mem_cons.mp h
    rw [List.flatMap_cons]
    exact head?_append_ne ha (ih hrest)

/-- Pieces without a colon define no labels, whatever follows them. -/
theorem labels_append {xs ys : List Piece} (hx : ∀ q ∈ xs, q ≠ colon)
    (hy : ys.head? ≠ some colon) : labels (xs ++ ys) = labels ys := by
  induction xs with
  | nil => rfl
  | cons a rest ih =>
    obtain ⟨-, hrest⟩ := List.forall_mem_cons.mp hx
    have hhead : (rest ++ ys).head? ≠ some colon :=
      head?_append_ne (head?_ne_of_forall hrest) hy
    rw [List.cons_append, labels, ih hrest]
    have hnone : definition? a (rest ++ ys).head? = none := by
      unfold definition?
      split
      · rename_i heq
        exact absurd heq hhead
      · rfl
    rw [hnone]
    rfl

/-- Pieces without a blank of their own make no jumps, whatever follows them. -/
theorem gotos_append {xs ys : List Piece} (hx : ∀ q ∈ xs, q ≠ space)
    (hy : ys.head? ≠ some space) : gotos (xs ++ ys) = gotos ys := by
  induction xs with
  | nil => rfl
  | cons a rest ih =>
    obtain ⟨-, hrest⟩ := List.forall_mem_cons.mp hx
    have hhead : (rest ++ ys).head? ≠ some space :=
      head?_append_ne (head?_ne_of_forall hrest) hy
    rw [List.cons_append, gotos, ih hrest]
    have hnone : destination? (a :: (rest ++ ys)) = none := by
      unfold destination?
      split
      · rename_i heq
        rw [(List.cons.inj heq).2] at hhead
        exact absurd rfl hhead
      · rfl
    rw [hnone]
    rfl

@[simp] theorem gotos_jump (target : Nat) (ys : List Piece) :
    gotos (jump target ++ ys) = label target :: gotos ys := by
  simp [jump, gotos, destination?]

/-! ## Values -/

/-- None of the pieces makes a label or a jump. -/
def Inert (ps : List Piece) : Prop := ∀ q ∈ ps, q ≠ colon ∧ q ≠ space

@[simp] theorem inert_nil : Inert [] := by simp [Inert]

@[simp] theorem inert_cons {q : Piece} {ps : List Piece} :
    Inert (q :: ps) ↔ (q ≠ colon ∧ q ≠ space) ∧ Inert ps := by
  simp [Inert]

@[simp] theorem inert_append {ps qs : List Piece} : Inert (ps ++ qs) ↔ Inert ps ∧ Inert qs :=
  List.forall_mem_append

/-- Usual text makes no label and no jump. -/
theorem usual_inert : Usual fun q => q ≠ colon ∧ q ≠ space where
  word _ _ hplain hmark := by
    constructor
    · rintro ⟨⟩
      exact hmark rfl
    · rintro ⟨⟩
      exact hplain rfl
  mark text h := by simpa using h

end Source

open Source

variable {vars : Variables}

/-- A value makes no labels and no jumps. -/
theorem Expr.Plain.inert {e : Expr} (h : e.Plain) : Inert (e.pieces vars) :=
  all_pieces usual_inert (.inr h)

/-! ## Statements -/

/-- Pieces that write some jumps and no labels, whatever follows them. -/
structure Writes (ps : List Piece) (targets : List Nat) : Prop where
  gotos : ∀ {rest : List Piece}, rest.head? ≠ some space →
    Source.gotos (ps ++ rest) = targets.map label ++ Source.gotos rest
  no_colon : ∀ q ∈ ps, q ≠ colon
  head : ps.head? ≠ some space

theorem Source.Inert.writes {ps : List Piece} (h : Inert ps) : Writes ps [] where
  gotos hrest := gotos_append (fun q hq => (h q hq).2) hrest
  no_colon q hq := (h q hq).1
  head := head?_ne_of_forall fun q hq => (h q hq).2

theorem writes_jump (target : Nat) : Writes (Source.jump target) [target] where
  gotos _ := gotos_jump target _
  no_colon := by simp [Source.jump]
  head := by simp [Source.jump]

theorem Writes.append {ps qs : List Piece} {ts us : List Nat} (hp : Writes ps ts)
    (hq : Writes qs us) : Writes (ps ++ qs) (ts ++ us) where
  gotos hrest := by
    rw [List.append_assoc, hp.gotos (head?_append_ne hq.head hrest), hq.gotos hrest,
      List.map_append, List.append_assoc]
  no_colon := List.forall_mem_append.mpr ⟨hp.no_colon, hq.no_colon⟩
  head := head?_append_ne hp.head hq.head

/-- A return writes no jump, although a blank follows its word. -/
theorem writes_ret {value : Expr} (h : value.Plain) : Writes ((ret value).lines vars) [] := by
  have hlines : (ret value).lines vars =
      .text "return" .keyword :: space :: (value.pieces vars ++ [.punct ";", .newline]) := by
    simp [lines, pieces, isCompound]
  have hv : Inert (value.pieces vars ++ [.punct ";", .newline]) := by simp [h.inert]
  rw [hlines]
  constructor
  · intro rest hrest
    rw [List.cons_append, List.cons_append, Source.gotos, Source.gotos, hv.writes.gotos hrest]
    rfl
  · refine List.forall_mem_cons.mpr ⟨by simp, List.forall_mem_cons.mpr ⟨by simp, ?_⟩⟩
    exact hv.writes.no_colon
  · simp

/-- A body writes the jumps of its live statements. -/
theorem writes_bodyLines {body : List Statement}
    (h : ∀ s ∈ body, Writes (s.expr.lines vars) s.expr.jumps) :
    Writes (bodyLines vars body) (bodyJumps body) := by
  induction body with
  | nil => exact inert_nil.writes
  | cons s rest ih =>
    obtain ⟨hs, hrest⟩ := List.forall_mem_cons.mp h
    obtain ⟨e, eliminated, source⟩ := s
    rw [bodyLines, bodyJumps]
    cases eliminated with
    | true => exact ih hrest
    | false => exact hs.append (ih hrest)

/-- The lines of a plain statement. -/
theorem Expr.Plain.inert_lines {e : Expr} (h : e.Plain) : Inert (e.lines vars) := by
  have hc := h.isControl_eq
  have hp : Inert (e.pieces vars) := h.inert
  cases e with
  | nop => simp [lines]
  | jumpIf condition target => cases hc
  | guarded condition head body => cases hc
  | _ =>
    unfold lines
    split <;> simp_all

/-- An orderly statement writes its jumps. -/
theorem Expr.Orderly.writes {e : Expr} (h : Orderly e) : Writes (e.lines vars) e.jumps := by
  induction h with
  | plain h =>
    rw [h.jumps_eq]
    exact h.inert_lines.writes
  | jump target => exact (writes_jump target).append (by simp : Inert [.punct ";", .newline]).writes
  | @jumpIf condition h target =>
    have hif : Inert [.text "if" .keyword, .punct " ("] := by simp
    have hthen : Inert [.punct ")", .newline, .indent] := by simp
    have hclose : Inert [.punct ";", .newline, .dedent] := by simp
    have hcondition : Inert (condition.pieces vars) := h.inert
    have hopen := (hif.writes.append hcondition.writes).append hthen.writes
    exact (hopen.append (writes_jump target)).append hclose.writes
  | ret h => exact writes_ret h
  | retVoid => exact (by simp [lines, pieces, isCompound] : Inert (lines vars .retVoid)).writes
  | @guarded condition head body h _ _ ih =>
    have hif : Inert [.text "if" .keyword, .punct " ("] := by simp
    have hthen : Inert [.punct ")", .newline, .punct "\x7b", .newline, .indent] := by simp
    have hclose : Inert [.dedent, .punct "\x7d", .newline] := by simp
    have hcondition : Inert (condition.pieces vars) := h.inert
    have hopen := (hif.writes.append hcondition.writes).append hthen.writes
    have hall := (hopen.append (writes_bodyLines ih)).append hclose.writes
    rw [List.append_nil] at hall
    exact hall

/-! ## Blocks -/

section Blocks

variable {b : Block} {bs : List Block} {rest : List Piece}

/-- The label of a block, when some jump names it. -/
def Block.labels (b : Block) : List String := if b.references = 0 then [] else [label b.start]

/-- The lines that a block starts with when some jump names it. -/
def Block.labelLines (b : Block) : List Piece :=
  if b.references = 0 then []
  else [.dedent, .text (label b.start) .label, .punct ":", .newline, .indent]

theorem Block.lines_eq (b : Block) :
    b.lines vars = b.labelLines ++ bodyLines vars b.statements := rfl

theorem Block.head?_labelLines (b : Block) :
    b.labelLines.head? ≠ some space ∧ b.labelLines.head? ≠ some colon := by
  unfold labelLines
  split <;> simp

theorem Block.writes (h : ∀ s ∈ b.statements, Orderly s.expr) :
    Writes (bodyLines vars b.statements) (bodyJumps b.statements) :=
  writes_bodyLines fun s hs => (h s hs).writes

/-- The jumps among the lines of a block are those of its statements; its label makes none. -/
theorem Block.gotos_lines (h : ∀ s ∈ b.statements, Orderly s.expr)
    (hrest : rest.head? ≠ some space) : Source.gotos (b.lines vars ++ rest) =
      (bodyJumps b.statements).map label ++ Source.gotos rest := by
  have hline : ∀ q ∈ b.labelLines, q ≠ space := by
    unfold labelLines
    split <;> simp
  have hbody : Writes (bodyLines vars b.statements) (bodyJumps b.statements) := b.writes h
  rw [b.lines_eq, List.append_assoc, gotos_append hline (head?_append_ne hbody.head hrest),
    hbody.gotos hrest]

/-- The only label among the lines of a block is its own. -/
theorem Block.labels_lines (h : ∀ s ∈ b.statements, Orderly s.expr)
    (hrest : rest.head? ≠ some colon) :
    Source.labels (b.lines vars ++ rest) = b.labels ++ Source.labels rest := by
  have hbody : Writes (bodyLines vars b.statements) (bodyJumps b.statements) := b.writes h
  rw [b.lines_eq, List.append_assoc]
  have hline : ∀ ys, Source.labels (b.labelLines ++ ys) = b.labels ++ Source.labels ys := by
    intro ys
    unfold labelLines Block.labels
    split
    · rfl
    · simp [Source.labels, definition?]
  rw [hline, Source.labels_append hbody.no_colon hrest]

theorem Block.head?_lines (h : ∀ s ∈ b.statements, Orderly s.expr) :
    (b.lines vars).head? ≠ some space ∧ (b.lines vars).head? ≠ some colon := by
  have hbody : Writes (bodyLines vars b.statements) (bodyJumps b.statements) := b.writes h
  rw [b.lines_eq]
  exact ⟨head?_append_ne b.head?_labelLines.1 hbody.head,
    head?_append_ne b.head?_labelLines.2 (head?_ne_of_forall hbody.no_colon)⟩

/-- The jumps that blocks are written with. -/
theorem gotos_blocks (h : ∀ b ∈ bs, ∀ s ∈ b.statements, Orderly s.expr)
    (hrest : rest.head? ≠ some space) : Source.gotos (bs.flatMap (Block.lines vars) ++ rest) =
      (bs.flatMap fun b => bodyJumps b.statements).map label ++ Source.gotos rest := by
  induction bs with
  | nil => rfl
  | cons b bs ih =>
    obtain ⟨hb, hbs⟩ := List.forall_mem_cons.mp h
    have hhead : (bs.flatMap (Block.lines vars) ++ rest).head? ≠ some space :=
      head?_append_ne (head?_flatMap_ne fun c hc => (Block.head?_lines (hbs c hc)).1) hrest
    rw [List.flatMap_cons, List.append_assoc, Block.gotos_lines hb hhead, ih hbs,
      List.flatMap_cons, List.map_append, List.append_assoc]

/-- The labels that blocks are written with. -/
theorem labels_blocks (h : ∀ b ∈ bs, ∀ s ∈ b.statements, Orderly s.expr)
    (hrest : rest.head? ≠ some colon) : Source.labels (bs.flatMap (Block.lines vars) ++ rest) =
      bs.flatMap Block.labels ++ Source.labels rest := by
  induction bs with
  | nil => rfl
  | cons b bs ih =>
    obtain ⟨hb, hbs⟩ := List.forall_mem_cons.mp h
    have hhead : (bs.flatMap (Block.lines vars) ++ rest).head? ≠ some colon :=
      head?_append_ne (head?_flatMap_ne fun c hc => (Block.head?_lines (hbs c hc)).2) hrest
    rw [List.flatMap_cons, List.append_assoc, Block.labels_lines hb hhead, ih hbs,
      List.flatMap_cons, List.append_assoc]

end Blocks

theorem label_injective {m n : Nat} (h : label m = label n) : m = n :=
  Nat.repr_inj.mp ((String.append_right_inj "ISIL_").mp h)

end MethodLift
