import MethodLift.Pipeline.Lift
import MethodLift.Proofs.Text.Pieces

/-!
# Layout of the output

The output is written by pieces that move the indentation up and down relative to where it stands.
What comes out is said by an outline, where every line knows its depth: how many bodies of
conditionals it stands in. At level `k`, the label of a block is indented by `k` levels and the
lines of a statement at depth `d` by `k + 1 + d`, with one more for the jump under a condition.

A line is what the buffer takes for one, from the first text after a line break to the next break. A
name with a line break in it stays within its line.
-/

namespace MethodLift

open Expr Source

/-! ## Lines -/

/-- A line of the output, with the depth of the statement that it belongs to. -/
inductive Line where
  | label (start : Nat)
  /-- A statement that is no conditional. -/
  | statement (depth : Nat) (e : Expr)
  /-- The first line of a conditional. -/
  | condition (depth : Nat) (e : Expr)
  /-- The jump under a condition. -/
  | jump (depth target : Nat)
  /-- The brace in front of a body. -/
  | opening (depth : Nat)
  /-- The brace behind a body. -/
  | closing (depth : Nat)

namespace Line

/-- How many levels a line is indented when its method is written at a level. -/
def level (k : Nat) : Line → Nat
  | .label _ => k
  | .statement depth _ | .condition depth _ | .opening depth | .closing depth => k + 1 + depth
  | .jump depth _ => k + 1 + depth + 1

def text (vars : Variables) : Line → String
  | .label start => MethodLift.label start ++ ":"
  | .statement _ e => e.render vars ++ (if e.isCompound then "" else ";")
  | .condition _ e => "if (" ++ e.render vars ++ ")"
  | .jump _ target => "goto " ++ MethodLift.label target ++ ";"
  | .opening _ => "\x7b"
  | .closing _ => "\x7d"

/-- A line with its margin and its end. -/
def written (vars : Variables) (k : Nat) (line : Line) : String :=
  Buffer.margin (line.level k) ++ line.text vars ++ "\n"

/-- Lines one after the other. -/
def page (vars : Variables) (k : Nat) (lines : List Line) : String :=
  String.join (lines.map (written vars k))

end Line

/-! ## Outlines -/

namespace Expr

mutual

/-- The lines of a statement at a depth. -/
def outline (depth : Nat) : Expr → List Line
  | .nop => []
  | .jumpIf condition target => [.condition depth condition, .jump depth target]
  | .guarded condition _ body =>
    .condition depth condition :: .opening depth ::
      (bodyOutline (depth + 1) body ++ [.closing depth])
  | e => [.statement depth e]

/-- The lines of the live statements of a body. -/
def bodyOutline (depth : Nat) : List Statement → List Line
  | [] => []
  | ⟨e, eliminated, _⟩ :: rest =>
    (if eliminated then [] else e.outline depth) ++ bodyOutline depth rest

end

end Expr

/-- The lines of a block: its label, when some jump names it, and its live statements. -/
def Block.outline (b : Block) : List Line :=
  (if b.references = 0 then [] else [.label b.start]) ++ bodyOutline 0 b.statements

def LiftedMethod.outline (l : LiftedMethod) : List Line := l.visibleBlocks.flatMap Block.outline

/-! ## Writing in a line -/

def Piece.isText : Piece → Bool
  | .text _ _ => true
  | _ => false

def Piece.content : Piece → String
  | .text t _ => t
  | _ => ""

@[simp] theorem Piece.isText_text (t : String) (kind : TextKind) :
    (text t kind).isText = true := rfl

@[simp] theorem Piece.content_text (t : String) (kind : TextKind) :
    (text t kind).content = t := rfl

/-- Pieces that stay in their line. -/
abbrev Inline (ps : List Piece) : Prop := All (fun q => q.isText = true) ps

def contents (ps : List Piece) : String := String.join (ps.map Piece.content)

@[simp] theorem contents_nil : contents [] = "" := rfl

@[simp] theorem contents_cons (q : Piece) (ps : List Piece) :
    contents (q :: ps) = q.content ++ contents ps := by
  simp [contents]

@[simp] theorem contents_append (ps qs : List Piece) :
    contents (ps ++ qs) = contents ps ++ contents qs := by
  simp [contents]

theorem usual_isText : Usual fun q => q.isText = true where
  word _ _ _ _ := rfl
  mark _ _ := rfl

/-- Expressions stay in their line. -/
theorem Expr.inline_pieces (e : Expr) (vars : Variables) : Inline (e.pieces vars) :=
  all_pieces usual_isText (.inl rfl)

namespace Buffer

/-- Text is put behind the margin of its line, unless it is empty. -/
theorem putAll_inline {ps : List Piece} (h : Inline ps) (b : Buffer) :
    (b.putAll ps).text = b.text ++
        (if b.atLineStart && !(contents ps).isEmpty then margin b.indent else "") ++ contents ps ∧
      (b.putAll ps).indent = b.indent ∧
      (b.putAll ps).atLineStart = (b.atLineStart && (contents ps).isEmpty) := by
  induction ps generalizing b with
  | nil => simp
  | cons q rest ih =>
    obtain ⟨hq, hrest⟩ := all_cons.mp h
    cases q with
    | text t kind =>
      rw [putAll_cons, contents_cons]
      by_cases ht : t = ""
      · simpa [put, ht] using ih hrest b
      · obtain ⟨htext, hindent, hstart⟩ := ih hrest (b.put (.text t kind))
        rw [htext, hindent, hstart]
        simp [put, ht, String.append_assoc]
    | _ => cases hq

/-- The buffer stands at the start of a line, at a level. -/
structure Ready (b : Buffer) (n : Nat) : Prop where
  start : b.atLineStart = true
  indent : b.indent = n

theorem Ready.put_indent {b : Buffer} {n : Nat} (h : b.Ready n) : (b.put .indent).Ready (n + 1) :=
  ⟨h.start, congrArg (· + 1) h.indent⟩

theorem Ready.put_dedent {b : Buffer} {n : Nat} (h : b.Ready (n + 1)) : (b.put .dedent).Ready n :=
  ⟨h.start, congrArg (· - 1) h.indent⟩

end Buffer

/-- An expression is rendered as the text of its pieces. -/
theorem Expr.render_eq (e : Expr) (vars : Variables) :
    e.render vars = contents (e.pieces vars) := by
  obtain ⟨htext, -, -⟩ := Buffer.putAll_inline (e.inline_pieces vars) {}
  rw [render, htext]
  simp [Buffer.margin]

/-! ## Writing lines -/

/-- Written from the start of a line at a level, the pieces add a text and end at the start of a
line at the same level. -/
def Lays (n : Nat) (ps : List Piece) (text : String) : Prop :=
  ∀ b : Buffer, b.Ready n → (b.putAll ps).Ready n ∧ (b.putAll ps).text = b.text ++ text

namespace Lays

variable {n : Nat} {ps qs : List Piece} {t u : String}

theorem nil : Lays n [] "" := by
  intro b hb
  exact ⟨hb, by simp⟩

theorem append (hp : Lays n ps t) (hq : Lays n qs u) : Lays n (ps ++ qs) (t ++ u) := by
  intro b hb
  obtain ⟨hready, htext⟩ := hp b hb
  obtain ⟨hready', htext'⟩ := hq _ hready
  rw [Buffer.putAll_append]
  refine ⟨hready', ?_⟩
  rw [htext', htext, String.append_assoc]

/-- Pieces between an indent and a dedent are laid out one level deeper. -/
theorem indented (h : Lays (n + 1) ps t) : Lays n (.indent :: (ps ++ [.dedent])) t := by
  intro b hb
  obtain ⟨hready, htext⟩ := h _ hb.put_indent
  simp only [Buffer.putAll_cons, Buffer.putAll_append, Buffer.putAll_nil]
  exact ⟨hready.put_dedent, htext⟩

/-- The level outside is there, so it is the one that is left and entered again. -/
theorem dedented (h : Lays n ps t) : Lays (n + 1) (.dedent :: (ps ++ [.indent])) t := by
  intro b hb
  obtain ⟨hready, htext⟩ := h _ hb.put_dedent
  simp only [Buffer.putAll_cons, Buffer.putAll_append, Buffer.putAll_nil]
  exact ⟨hready.put_indent, htext⟩

/-- Text that is not empty makes a line. -/
theorem line (h : Inline ps) (hne : contents ps ≠ "") :
    Lays n (ps ++ [.newline]) (Buffer.margin n ++ contents ps ++ "\n") := by
  intro b hb
  obtain ⟨htext, hindent, -⟩ := Buffer.putAll_inline h b
  simp only [Buffer.putAll_append, Buffer.putAll_cons, Buffer.putAll_nil]
  refine ⟨⟨rfl, hindent.trans hb.indent⟩, ?_⟩
  simp [Buffer.put, htext, hb.start, hb.indent, hne, String.append_assoc]

end Lays

namespace Line

variable {vars : Variables} {k : Nat}

@[simp] theorem page_nil : page vars k [] = "" := rfl

@[simp] theorem page_cons (line : Line) (rest : List Line) :
    page vars k (line :: rest) = line.written vars k ++ page vars k rest := by
  simp [page]

@[simp] theorem page_append (xs ys : List Line) :
    page vars k (xs ++ ys) = page vars k xs ++ page vars k ys := by
  simp [page]

/-- The pieces of a line. -/
def pieces (vars : Variables) : Line → List Piece
  | .label start => [.text (MethodLift.label start) .label, .punct ":"]
  | .statement _ e => e.pieces vars ++ (if e.isCompound then [] else [.punct ";"])
  | .condition _ e => [.text "if" .keyword, .punct " ("] ++ e.pieces vars ++ [.punct ")"]
  | .jump _ target => Source.jump target ++ [.punct ";"]
  | .opening _ => [.punct "\x7b"]
  | .closing _ => [.punct "\x7d"]

theorem inline_pieces (line : Line) : Inline (line.pieces vars) := by
  cases line with
  | statement depth e =>
    rw [pieces]
    split <;> simp [e.inline_pieces]
  | condition depth e => simp [pieces, e.inline_pieces]
  | jump depth target => simp [pieces, Source.jump]
  | _ => simp [pieces]

/-- The pieces of a line have the text of the line. -/
theorem contents_pieces (line : Line) : contents (line.pieces vars) = line.text vars := by
  cases line with
  | statement depth e =>
    rw [pieces, text, e.render_eq]
    split <;> simp
  | condition depth e => simp [pieces, text, e.render_eq, ← String.append_assoc]
  | jump depth target => simp [pieces, text, Source.jump, ← String.append_assoc]
  | _ => simp [pieces, text]

/-- Comments and placeholders have no semicolon, but they are not empty. -/
theorem text_ne_empty {line : Line} (h : ∀ d, line ≠ .statement d .nop) : line.text vars ≠ "" := by
  cases line with
  | statement depth e =>
    cases e with
    | nop => exact absurd rfl (h depth)
    | jumpIf | guarded | unsupported | comment =>
      simp [text, isCompound, render_eq, Expr.pieces]
    | _ => simp [text, isCompound]
  | _ => simp [text]

/-- A line is written at its level. -/
theorem lays (vars : Variables) (k : Nat) (line : Line) (h : ∀ d, line ≠ .statement d .nop) :
    Lays (line.level k) (line.pieces vars ++ [.newline]) (line.written vars k) := by
  rw [written, ← contents_pieces]
  refine Lays.line line.inline_pieces ?_
  rw [contents_pieces]
  exact text_ne_empty h

end Line

/-! ## Statements -/

section Statements

variable {vars : Variables} {k d : Nat}

/-- A statement is laid out as one line at its depth. -/
theorem Expr.lays_statement {e : Expr} (h : e ≠ .nop) :
    Lays (k + 1 + d) (e.pieces vars ++ (if e.isCompound then [] else [.punct ";"]) ++ [.newline])
      (Line.page vars k [.statement d e]) := by
  have hline := Line.lays vars k (.statement d e) (by simp [h])
  simpa [Line.level, Line.pieces] using hline

/-- A body whose statements are laid out is laid out. -/
theorem lays_bodyLines {body : List Statement}
    (h : ∀ s ∈ body, Lays (k + 1 + d) (s.expr.lines vars) (Line.page vars k (s.expr.outline d))) :
    Lays (k + 1 + d) (bodyLines vars body) (Line.page vars k (bodyOutline d body)) := by
  induction body with
  | nil => exact Lays.nil
  | cons s rest ih =>
    obtain ⟨hs, hrest⟩ := List.forall_mem_cons.mp h
    obtain ⟨e, eliminated, source⟩ := s
    rw [bodyLines, bodyOutline]
    cases eliminated with
    | true => exact ih hrest
    | false =>
      rw [Line.page_append]
      exact hs.append (ih hrest)

/-- A statement is written as its outline says, at every depth. -/
theorem Expr.lays_lines (e : Expr) (d : Nat) :
    Lays (k + 1 + d) (e.lines vars) (Line.page vars k (e.outline d)) := by
  induction e generalizing d with
  | nop => exact Lays.nil
  | jumpIf condition target =>
    have hcondition := Line.lays vars k (.condition d condition) (by simp)
    have hjump := Line.lays vars k (.jump d target) (by simp)
    have hall := hcondition.append hjump.indented
    simpa [lines, outline, Line.level, Line.pieces] using hall
  | guarded condition head body _ ih =>
    have hcondition := Line.lays vars k (.condition d condition) (by simp)
    have hopening := Line.lays vars k (.opening d) (by simp)
    -- One level more is one depth more, so the body is a case of the same statement.
    have hbody : Lays (k + 1 + d + 1) (bodyLines vars body)
        (Line.page vars k (bodyOutline (d + 1) body)) :=
      lays_bodyLines fun s hs => ih s hs (d + 1)
    have hclosing := Line.lays vars k (.closing d) (by simp)
    have hall := ((hcondition.append hopening).append hbody.indented).append hclosing
    simpa [lines, outline, Line.level, Line.pieces, String.append_assoc] using hall
  | _ => exact lays_statement (by simp)

/-- The label of a block stands one level outside its statements. -/
theorem Block.lays_lines (b : Block) :
    Lays (k + 1) (b.lines vars) (Line.page vars k b.outline) := by
  have hbody : Lays (k + 1) (bodyLines vars b.statements)
      (Line.page vars k (bodyOutline 0 b.statements)) :=
    lays_bodyLines fun s _ => s.expr.lays_lines 0
  have hlabel := (Line.lays vars k (.label b.start) (by simp)).dedented
  rw [lines, outline, Line.page_append]
  split
  · exact Lays.nil.append hbody
  · refine Lays.append ?_ hbody
    simpa [Line.level, Line.pieces] using hlabel

theorem lays_blocks (bs : List Block) :
    Lays (k + 1) (bs.flatMap (Block.lines vars)) (Line.page vars k (bs.flatMap Block.outline)) := by
  induction bs with
  | nil => exact Lays.nil
  | cons b rest ih =>
    rw [List.flatMap_cons, List.flatMap_cons, Line.page_append]
    exact b.lays_lines.append ih

end Statements

/-! ## Braces -/

/-- Lines of statements at a depth. The braces of a body stand at the depth of their conditional and
its lines one deeper, and no body has a label. -/
inductive Balanced : Nat → List Line → Prop
  | nil {d : Nat} : Balanced d []
  | label {rest : List Line} (start : Nat) (hrest : Balanced 0 rest) :
    Balanced 0 (.label start :: rest)
  | statement {d : Nat} {rest : List Line} (e : Expr) (hrest : Balanced d rest) :
    Balanced d (.statement d e :: rest)
  | jump {d : Nat} {rest : List Line} (condition : Expr) (target : Nat)
    (hrest : Balanced d rest) : Balanced d (.condition d condition :: .jump d target :: rest)
  | body {d : Nat} {inner rest : List Line} (condition : Expr) (hinner : Balanced (d + 1) inner)
    (hrest : Balanced d rest) :
    Balanced d (.condition d condition :: .opening d :: (inner ++ .closing d :: rest))

section Balanced

variable {d : Nat} {xs ys : List Line}

/-- Balanced lines in a row are balanced. -/
theorem Balanced.append (hx : Balanced d xs) (hy : Balanced d ys) : Balanced d (xs ++ ys) := by
  induction hx with
  | nil => exact hy
  | label start _ ih => exact .label start (ih hy)
  | statement e _ ih => exact .statement e (ih hy)
  | jump condition target _ ih => exact .jump condition target (ih hy)
  | body condition hinner _ _ ih =>
    have h := Balanced.body condition hinner (ih hy)
    simpa using h

theorem balanced_bodyOutline {body : List Statement}
    (h : ∀ s ∈ body, Balanced d (s.expr.outline d)) : Balanced d (bodyOutline d body) := by
  induction body with
  | nil => exact .nil
  | cons s rest ih =>
    obtain ⟨hs, hrest⟩ := List.forall_mem_cons.mp h
    obtain ⟨e, eliminated, source⟩ := s
    rw [bodyOutline]
    cases eliminated with
    | true => exact ih hrest
    | false => exact hs.append (ih hrest)

/-- The lines of a statement come back to its depth, whatever bodies it holds. -/
theorem Expr.balanced_outline (e : Expr) (d : Nat) : Balanced d (e.outline d) := by
  induction e generalizing d with
  | nop => exact .nil
  | jumpIf condition target => exact .jump condition target .nil
  | guarded condition head body _ ih =>
    exact .body condition (balanced_bodyOutline fun s hs => ih s hs (d + 1)) .nil
  | _ => exact .statement _ .nil

theorem Block.balanced_outline (b : Block) : Balanced 0 b.outline := by
  have hbody : Balanced 0 (bodyOutline 0 b.statements) :=
    balanced_bodyOutline fun s _ => s.expr.balanced_outline 0
  rw [outline]
  split
  · exact hbody
  · exact .label b.start hbody

/-- The lines of a method come back to the outermost depth. -/
theorem LiftedMethod.balanced_outline (l : LiftedMethod) : Balanced 0 l.outline := by
  rw [outline]
  induction l.visibleBlocks with
  | nil => exact .nil
  | cons b rest ih => exact b.balanced_outline.append ih

end Balanced

/-! ## Statements that are not written -/

namespace Expr

mutual

/-- The statement without the eliminated statements and the no-ops in its bodies. -/
def pruned : Expr → Expr
  | .guarded condition head body => .guarded condition head (prunedBody body)
  | e => e

/-- The body without its eliminated statements and no-ops, at every depth. -/
def prunedBody : List Statement → List Statement
  | [] => []
  | ⟨_, true, _⟩ :: rest | ⟨.nop, false, _⟩ :: rest => prunedBody rest
  | ⟨e, false, source⟩ :: rest => ⟨e.pruned, false, source⟩ :: prunedBody rest

end

end Expr

/-- The method without its eliminated statements and no-ops. -/
def LiftedMethod.pruned (l : LiftedMethod) : LiftedMethod :=
  { l with blocks := l.blocks.map fun b => { b with statements := prunedBody b.statements } }

section Pruned

variable {vars : Variables}

/-- Pruning takes nothing out of a body that is written. -/
theorem bodyLines_prunedBody {body : List Statement}
    (h : ∀ s ∈ body, s.expr.pruned.lines vars = s.expr.lines vars) :
    bodyLines vars (prunedBody body) = bodyLines vars body := by
  induction body with
  | nil => rfl
  | cons s rest ih =>
    obtain ⟨hs, hrest⟩ := List.forall_mem_cons.mp h
    obtain ⟨e, eliminated, source⟩ := s
    have ih := ih hrest
    cases eliminated with
    | true => simpa [prunedBody, bodyLines] using ih
    | false =>
      by_cases hnop : e = .nop
      · subst hnop
        simpa [prunedBody, bodyLines, lines] using ih
      · have hcons : prunedBody (⟨e, false, source⟩ :: rest) =
            ⟨e.pruned, false, source⟩ :: prunedBody rest := by
          simp [prunedBody]
        rw [hcons, bodyLines, bodyLines, ih, hs]

theorem Expr.lines_pruned (e : Expr) : e.pruned.lines vars = e.lines vars := by
  induction e with
  | guarded condition head body _ ih => simp only [pruned, lines, bodyLines_prunedBody ih]
  | _ => rfl

/-- A method is written as without the statements that pruning removes. -/
theorem LiftedMethod.lines_pruned (l : LiftedMethod) : l.pruned.lines = l.lines := by
  have hblock (b : Block) :
      Block.lines l.vars { b with statements := prunedBody b.statements } = b.lines l.vars := by
    rw [Block.lines, Block.lines, bodyLines_prunedBody fun s _ => s.expr.lines_pruned]
  simp [lines, visibleBlocks, pruned, List.filter_map, List.flatMap_map, Function.comp_def, hblock]

end Pruned

/-! ## Methods -/

/-- A method is written as its outline says, at the level of the buffer, and the buffer comes out as
it went in: at the start of a line at the same level. The braces of the outline are balanced, and
without the eliminated statements and the no-ops the output is the same. -/
theorem LiftedMethod.layout_lines (l : LiftedMethod) (b : Buffer) (h : b.atLineStart = true) :
    (b.putAll l.lines).text = b.text ++ Line.page l.vars b.indent l.outline ∧
      (b.putAll l.lines).atLineStart = true ∧ (b.putAll l.lines).indent = b.indent ∧
      Balanced 0 l.outline ∧ l.pruned.lines = l.lines := by
  obtain ⟨hready, htext⟩ := (lays_blocks l.visibleBlocks).indented b ⟨h, rfl⟩
  exact ⟨htext, hready.start, hready.indent, l.balanced_outline, l.lines_pruned⟩

/-- A labelled block with a conditional in a conditional, a statement that was eliminated and a
no-op. -/
def guardedTwice : LiftedMethod where
  method := 0
  name := "M"
  blocks :=
    [{ start := 2
       references := 1
       statements :=
        [⟨.guarded (.compare .less (.var 1) (.immediate 3)) { start := 4, references := 1 }
            [⟨.guarded (.var 0) { start := 5 } [⟨.jumpIf (.var 1) 2, false, some 5⟩], false, none⟩,
              ⟨.nop, false, none⟩,
              ⟨.assign (.var 1) (.immediate 0), false, some 6⟩], false, some 3⟩,
          ⟨.assign (.var 0) (.immediate 1), true, none⟩,
          ⟨.unsupported "push rbp", false, none⟩,
          ⟨.jump 2, false, some 7⟩] }]

/-- Text that was there before is kept, and the method starts on a line of its own. -/
theorem LiftedMethod.layout_lines_guardedTwice :
    let before : Buffer := { text := "M()\n", indent := 1 }
    let after := before.putAll guardedTwice.lines
    before.atLineStart = true ∧ after.atLineStart = true ∧ after.indent = 1 ∧
      after.text = "M()\n" ++
        "    ISIL_2:\n" ++
        "        if (v1 < 3)\n" ++
        "        \x7b\n" ++
        "            if (v0)\n" ++
        "            \x7b\n" ++
        "                if (v1)\n" ++
        "                    goto ISIL_2;\n" ++
        "            \x7d\n" ++
        "            v1 = 0;\n" ++
        "        \x7d\n" ++
        "        /* push rbp */\n" ++
        "        goto ISIL_2;\n" := by
  intro before after
  obtain ⟨htext, hstart, hindent, -, -⟩ := guardedTwice.layout_lines before rfl
  refine ⟨rfl, hstart, hindent, htext.trans ?_⟩
  decide +kernel

end MethodLift
