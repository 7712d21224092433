/-!
# Tagged text

Output is a list of pieces: tagged text, line breaks and changes of the indentation. A buffer
collects pieces into plain text and into spans, the maximal runs of text of one kind. Indentation
and line breaks belong to the plain text only.
-/

namespace MethodLift

/-- What a piece of text stands for, so that a reader can colour it. -/
inductive TextKind where
  | plain
  | keyword
  | typeName
  | localName
  | register
  | method
  | field
  | number
  | string
  | label
  | punctuation
  | comment
  | address
  | mnemonic
deriving DecidableEq, Repr

def TextKind.name : TextKind → String
  | .plain => "plain"
  | .keyword => "keyword"
  | .typeName => "type"
  | .localName => "local"
  | .register => "register"
  | .method => "method"
  | .field => "field"
  | .number => "number"
  | .string => "string"
  | .label => "label"
  | .punctuation => "punctuation"
  | .comment => "comment"
  | .address => "address"
  | .mnemonic => "mnemonic"

/-- One step of output. -/
inductive Piece where
  | text (text : String) (kind : TextKind)
  | newline
  | indent
  | dedent
deriving DecidableEq, Repr

/-- Operators, brackets and separators. -/
abbrev Piece.punct (text : String) : Piece := .text text .punctuation

/-- A run of text of one kind. -/
structure Span where
  text : String
  kind : TextKind
deriving DecidableEq, Repr

/-- Collected output. A new buffer stands at the start of a line. -/
structure Buffer where
  text : String := ""
  /-- The spans, newest first. -/
  recent : List Span := []
  indent : Nat := 0
  atLineStart : Bool := true
deriving DecidableEq, Repr

namespace Buffer

/-- The spans in the order they were written. -/
def spans (b : Buffer) : List Span := b.recent.reverse

/-- The blanks in front of a line: four per level. -/
def margin (levels : Nat) : String := String.ofList (List.replicate (4 * levels) ' ')

/-- Extends the newest span, or starts one when the kind changes. -/
def addSpan (text : String) (kind : TextKind) : List Span → List Span
  | [] => [⟨text, kind⟩]
  | last :: rest =>
    if last.kind = kind then ⟨last.text ++ text, kind⟩ :: rest else ⟨text, kind⟩ :: last :: rest

/-- Writes one piece. Empty text leaves the buffer as it is; the outermost level has no level
outside it. -/
def put (b : Buffer) : Piece → Buffer
  | .text text kind =>
    if text.isEmpty then b
    else
      { b with
        text := b.text ++ (if b.atLineStart then margin b.indent else "") ++ text
        recent := addSpan text kind b.recent
        atLineStart := false }
  | .newline => { b with text := b.text ++ "\n", atLineStart := true }
  | .indent => { b with indent := b.indent + 1 }
  | .dedent => { b with indent := b.indent - 1 }

def putAll (b : Buffer) (pieces : List Piece) : Buffer := pieces.foldl put b

@[simp] theorem putAll_nil (b : Buffer) : b.putAll [] = b := rfl

@[simp] theorem putAll_cons (b : Buffer) (p : Piece) (ps : List Piece) :
    b.putAll (p :: ps) = (b.put p).putAll ps := rfl

@[simp] theorem putAll_append (b : Buffer) (ps qs : List Piece) :
    b.putAll (ps ++ qs) = (b.putAll ps).putAll qs := by
  simp [putAll]

end Buffer

end MethodLift
