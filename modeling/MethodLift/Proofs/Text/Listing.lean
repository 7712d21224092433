import MethodLift.Code.Listing
import MethodLift.Proofs.Text.Layout
import Mathlib.Data.List.Chain

/-!
# Listings

A buffer collects text twice: plain, with line breaks, and as spans, without them. Whatever is
written, the spans are maximal runs, and one after the other they are the text that was written. A
listing writes piece by piece the text that an instruction renders to as a whole. So its lines are
the rendered instructions, and its spans are these without the line breaks. Text of an operand may
be empty, and then the separators around it are one span.
-/

namespace MethodLift

open Source

/-! ## MaximalRuns -/

/-- The spans are maximal runs: none is empty, and neighbours differ in kind. -/
structure MaximalRuns (spans : List Span) : Prop where
  nonempty : ∀ s ∈ spans, s.text ≠ ""
  alternate : spans.IsChain fun s t => s.kind ≠ t.kind

namespace MaximalRuns

theorem nil : MaximalRuns [] := ⟨List.forall_mem_nil _, .nil⟩

theorem reverse {spans : List Span} (h : MaximalRuns spans) : MaximalRuns spans.reverse where
  nonempty s hs := h.nonempty s (List.mem_reverse.mp hs)
  alternate := List.isChain_reverse.mpr (h.alternate.imp fun _ _ => Ne.symm)

/-- Text that is not empty extends the newest run or starts one. -/
theorem addSpan {spans : List Span} (h : MaximalRuns spans) {text : String} (ht : text ≠ "")
    (kind : TextKind) : MaximalRuns (Buffer.addSpan text kind spans) := by
  cases spans with
  | nil => exact ⟨by simpa [Buffer.addSpan] using ht, .singleton _⟩
  | cons last rest =>
    rw [Buffer.addSpan]
    split
    · rename_i hkind
      subst hkind
      obtain ⟨-, hrest⟩ := List.forall_mem_cons.mp h.nonempty
      refine ⟨List.forall_mem_cons.mpr ⟨by simp [ht], hrest⟩, ?_⟩
      exact List.isChain_cons.mpr (List.isChain_cons.mp h.alternate)
    · rename_i hkind
      refine ⟨List.forall_mem_cons.mpr ⟨ht, h.nonempty⟩, ?_⟩
      exact List.isChain_cons_cons.mpr ⟨fun heq => hkind heq.symm, h.alternate⟩

end MaximalRuns

namespace Buffer

def spanText (b : Buffer) : String := String.join (b.spans.map (·.text))

/-- Adding text to spans adds it to what they say, whether it starts a new span or not. -/
theorem join_addSpan (text : String) (kind : TextKind) (spans : List Span) :
    String.join ((addSpan text kind spans).reverse.map (·.text)) =
      String.join (spans.reverse.map (·.text)) ++ text := by
  cases spans with
  | nil => simp [addSpan]
  | cons last rest =>
    rw [addSpan]
    split <;> simp [String.append_assoc]

/-- A piece keeps runs maximal: it joins the newest span where the kinds agree. -/
theorem runs_put {b : Buffer} (h : MaximalRuns b.recent) (q : Piece) :
    MaximalRuns (b.put q).recent := by
  cases q with
  | text t kind =>
    rw [put]
    split
    · exact h
    · rename_i ht
      exact h.addSpan (by simpa using ht) kind
  | _ => exact h

/-- Pieces that are no text leave the text as it is. -/
theorem spanText_put (b : Buffer) (q : Piece) : (b.put q).spanText = b.spanText ++ q.content := by
  cases q with
  | text t kind =>
    rw [put]
    split
    · rename_i ht
      simp_all
    · exact join_addSpan t kind b.recent
  | _ => simp [put, Piece.content, spanText, spans]

theorem runs_putAll {b : Buffer} (h : MaximalRuns b.recent) (ps : List Piece) :
    MaximalRuns (b.putAll ps).recent := by
  induction ps generalizing b with
  | nil => exact h
  | cons q rest ih => exact ih (runs_put h q)

theorem spanText_putAll (b : Buffer) (ps : List Piece) :
    (b.putAll ps).spanText = b.spanText ++ contents ps := by
  induction ps generalizing b with
  | nil => simp
  | cons q rest ih => rw [putAll_cons, ih, spanText_put, contents_cons, String.append_assoc]

end Buffer

/-! ## Lines of a listing -/

namespace Instruction

theorem inline_operandPieces (first : Bool) (ops : List Operand) :
    Inline (operandPieces first ops) := by
  induction ops generalizing first with
  | nil => exact all_nil
  | cons op rest ih => simp [operandPieces, ih]

theorem contents_operandPieces (first : Bool) (ops : List Operand) :
    contents (operandPieces first ops) = operandTail first ops := by
  induction ops generalizing first with
  | nil => rfl
  | cons op rest ih => simp [operandPieces, operandTail, ih, String.append_assoc]

/-- The pieces of a line before its end. -/
def linePieces (i : Instruction) : List Piece :=
  .text (padded 3 i.index) .address :: .text " " .plain :: .text i.mnemonic.name .mnemonic ::
    operandPieces true i.operands

theorem pieces_eq (i : Instruction) : i.pieces = i.linePieces ++ [.newline] := rfl

theorem contents_linePieces (i : Instruction) : contents i.linePieces = i.render := by
  simp [linePieces, render, contents_operandPieces, String.append_assoc]

theorem contents_pieces (i : Instruction) : contents i.pieces = i.render := by
  rw [pieces_eq, contents_append, contents_linePieces]
  simp [Piece.content]

/-- An instruction makes a line. -/
theorem lays_pieces (i : Instruction) : Lays 0 i.pieces (i.render ++ "\n") := by
  have hinline : Inline i.linePieces := by simp [linePieces, inline_operandPieces]
  have hne : contents i.linePieces ≠ "" := by simp [linePieces]
  have hline := Lays.line (n := 0) hinline hne
  rw [contents_linePieces] at hline
  rw [pieces_eq]
  simpa [Buffer.margin] using hline

end Instruction

theorem lays_listing (code : List Instruction) :
    Lays 0 (listing code) (String.join (code.map fun i => i.render ++ "\n")) := by
  induction code with
  | nil => exact Lays.nil
  | cons i rest ih =>
    rw [listing, List.flatMap_cons, List.map_cons, String.join_cons]
    exact i.lays_pieces.append ih

theorem contents_listing (code : List Instruction) :
    contents (listing code) = String.join (code.map Instruction.render) := by
  induction code with
  | nil => rfl
  | cons i rest ih =>
    rw [listing, List.flatMap_cons, contents_append, i.contents_pieces, List.map_cons,
      String.join_cons, ← ih, listing]

/-- A listing is the rendered instructions, each in a line. Its spans are maximal runs and make the
rendered instructions without the line breaks. -/
theorem Buffer.renders_listing (code : List Instruction) :
    let b := ({} : Buffer).putAll (listing code)
    b.text = String.join (code.map fun i => i.render ++ "\n") ∧
      String.join (b.spans.map (·.text)) = String.join (code.map Instruction.render) ∧
      (∀ s ∈ b.spans, s.text ≠ "") ∧ b.spans.IsChain fun s t => s.kind ≠ t.kind := by
  intro b
  obtain ⟨-, htext⟩ := lays_listing code {} ⟨rfl, rfl⟩
  have hspans : b.spanText = "" ++ contents (listing code) := spanText_putAll {} (listing code)
  have hruns : MaximalRuns b.spans := (runs_putAll .nil (listing code)).reverse
  rw [String.empty_append, contents_listing] at hspans
  exact ⟨htext.trans String.empty_append, hspans, hruns.nonempty, hruns.alternate⟩

example :
    (({} : Buffer).putAll (listing [⟨7, .move, [.register "", .register "rax"], .next⟩])).spans =
      [⟨"007", .address⟩, ⟨" ", .plain⟩, ⟨"Move", .mnemonic⟩, ⟨" , ", .punctuation⟩,
        ⟨"rax", .register⟩] := by
  decide +kernel

end MethodLift
