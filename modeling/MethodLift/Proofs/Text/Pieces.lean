import MethodLift.Proofs.Expr.Control
import MethodLift.Text.Source

/-!
# Pieces of expressions

An expression is written in a line: all its pieces are text. A colon is not among them, and blanks
of their own stand in jumps and returns only. So what holds of all other text holds of every piece
of a plain expression, and of every piece of any expression if it holds of blanks too.
-/

namespace MethodLift

open Expr

namespace Source

/-- The property holds of all pieces. -/
def All (P : Piece → Prop) (ps : List Piece) : Prop := ∀ q ∈ ps, P q

/-- The property holds of all text that is neither a colon nor plain. -/
structure Usual (P : Piece → Prop) : Prop where
  word : ∀ text kind, kind ≠ .plain → kind ≠ .punctuation → P (.text text kind)
  mark : ∀ text, text ≠ ":" → P (.punct text)

section All

variable {P : Piece → Prop}

@[simp] theorem all_nil : All P [] := List.forall_mem_nil P

@[simp] theorem all_cons {q : Piece} {ps : List Piece} : All P (q :: ps) ↔ P q ∧ All P ps :=
  List.forall_mem_cons

@[simp] theorem all_append {ps qs : List Piece} : All P (ps ++ qs) ↔ All P ps ∧ All P qs :=
  List.forall_mem_append

theorem all_flatten {parts : List (List Piece)} (h : ∀ ps ∈ parts, All P ps) :
    All P parts.flatten := by
  intro q hq
  obtain ⟨ps, hps, hq⟩ := List.mem_flatten.mp hq
  exact h ps hps q hq

end All

namespace Usual

variable {P : Piece → Prop} (hP : Usual P)

include hP

theorem variableName (vars : Variables) (id : VarId) : All P (Source.variableName vars id) := by
  unfold Source.variableName
  split
  · split
    · simp [hP.word]
    · split <;> simp [hP.word]
  · simp [hP.word]

theorem leaf (vars : Variables) (v : Leaf) : All P (Source.leaf vars v) := by
  cases v with
  | var id => exact hP.variableName vars id
  | usage u => cases u <;> simp [Source.leaf, Source.usage, Source.usage.wrap, hP.word, hP.mark]
  | method m => simp [Source.leaf, Source.methodName, hP.word, hP.mark]
  | _ => simp [Source.leaf, hP.word]

theorem operand {e : Expr} {ps : List Piece} (h : All P ps) : All P (Source.operand e ps) := by
  unfold Source.operand
  split
  · simp [hP.mark, h]
  · exact h

theorem intercalate {parts : List (List Piece)} (h : ∀ ps ∈ parts, All P ps) :
    All P ([Piece.punct ", "].intercalate parts) := by
  induction parts with
  | nil => simp
  | cons ps rest ih =>
    obtain ⟨hps, hrest⟩ := List.forall_mem_cons.mp h
    cases rest with
    | nil => simpa using hps
    | cons qs rest =>
      rw [List.intercalate_cons_cons]
      simp [hP.mark, hps, ih hrest]

theorem arguments {parts : List (List Piece)} (h : ∀ ps ∈ parts, All P ps) :
    All P (Source.arguments parts) := by
  simp [Source.arguments, hP.mark, hP.intercalate h]

theorem delegate (arity : Nat) (returns : Bool) : All P (Source.delegate arity returns) := by
  have hparams : All P (List.replicate arity [Piece.text "nint" .typeName, .punct ", "]).flatten :=
    all_flatten fun ps hps => by
      rw [List.eq_of_mem_replicate hps]
      simp [hP.word, hP.mark]
  simp [Source.delegate, hP.word, hP.mark, hparams]

/-- The pieces of a call are those of its target, its receiver and its arguments, and a few words
around them. -/
theorem call {target : Expr} {ps : List Piece} {args : List Expr} {parts : List (List Piece)}
    {returns : Bool} (hps : All P ps) (hparts : ∀ part ∈ parts, All P part) :
    All P (Source.call target ps args parts returns) := by
  unfold Source.call
  split
  · split
    · obtain ⟨hfirst, hrest⟩ := List.forall_mem_cons.mp hparts
      simp [hP.word, hP.mark, hP.operand hfirst, hP.arguments hrest]
    · simp [methodName, hP.word, hP.mark, hP.arguments hparts]
  · simp [hP.word, hP.arguments hparts]
  · simp [hP.word, hP.mark, hP.delegate, hP.arguments hparts]
  · simp [hP.mark, hP.delegate, hps, hP.arguments hparts]

end Usual

end Source

open Source

namespace Expr

variable {vars : Variables}

theorem argumentPieces_eq (args : List Expr) :
    argumentPieces vars args = args.map (pieces vars) := by
  induction args with
  | nil => rfl
  | cons a rest ih => rw [argumentPieces, ih, List.map_cons]

/-- What holds of usual text, and of blanks unless the expression is plain, holds of all pieces of
an expression. -/
theorem all_pieces {P : Piece → Prop} (hP : Usual P) {e : Expr}
    (h : P (.text " " .plain) ∨ e.Plain) : All P (e.pieces vars) := by
  have hblank {e : Expr} (h : P (.text " " .plain) ∨ e.Plain) (hcontrol : e.isControl = true) :
      P (.text " " .plain) :=
    h.resolve_right fun hplain => Bool.false_ne_true (hplain.isControl_eq.symm.trans hcontrol)
  induction e with
  | leaf v => exact hP.leaf vars v
  | assign target value ht hv =>
    rw [plain_assign] at h
    simp [pieces, hP.mark, ht (h.imp_right And.left), hv (h.imp_right And.right)]
  | compare kind left right hl hr =>
    rw [plain_compare] at h
    have hl := hl (h.imp_right And.left)
    have hr := hr (h.imp_right And.right)
    cases kind <;>
      simp [pieces, Comparison.symbol?, hP.word, hP.mark, hP.operand hl, hP.operand hr, hl, hr]
  | arith op left right hl hr =>
    rw [plain_arith] at h
    have hl := hP.operand (e := left) (hl (h.imp_right And.left))
    have hr := hP.operand (e := right) (hr (h.imp_right And.right))
    cases op <;> simp [pieces, ArithOp.symbol, hP.mark, hl, hr]
  | complement operand ho =>
    have ho := ho (h.imp_right plain_complement.mp)
    unfold pieces
    split <;> simp [hP.mark, ho]
  | deref address ha => simp [pieces, hP.mark, ha (h.imp_right plain_deref.mp)]
  | member object field ho =>
    simp [pieces, hP.word, hP.mark, hP.operand (ho (h.imp_right plain_member.mp))]
  | lane vector index hv => simp [pieces, hP.word, hP.mark, hv (h.imp_right plain_lane.mp)]
  | call target args returns ht ha =>
    rw [plain_call] at h
    unfold pieces
    refine hP.call (ht (h.imp_right And.left)) fun part hpart => ?_
    rw [argumentPieces_eq] at hpart
    obtain ⟨a, hmem, rfl⟩ := List.mem_map.mp hpart
    exact ha a hmem (h.imp_right fun hplain => hplain.2 a hmem)
  | nop => simp [pieces]
  | unsupported text => simp [pieces, hP.word]
  | comment text => simp [pieces, hP.word]
  | retVoid => simp [pieces, hP.word]
  | jump target => simp [pieces, Source.jump, hP.word, hblank h rfl]
  | ret value hv =>
    have hblank := hblank h rfl
    simp [pieces, hP.word, hblank, hv (.inl hblank)]
  | jumpIf condition target hc =>
    have hblank := hblank h rfl
    simp [pieces, Source.jump, hP.word, hP.mark, hblank, hc (.inl hblank)]
  | guarded condition head body hc =>
    have hblank := hblank h rfl
    simp [pieces, hP.word, hP.mark, hc (.inl hblank)]

end Expr

end MethodLift
