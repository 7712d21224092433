import MethodLift.Block.Basic
import MethodLift.Text.Buffer
import MethodLift.Variable

/-!
# Pseudo-source

Statements are written one per line and end in a semicolon, except conditionals, comments and
placeholders. A conditional is followed by an indented jump or by a nested block in braces. A
block that some jump names starts with its label, one level further out.
-/

namespace MethodLift

def label (index : Nat) : String := "ISIL_" ++ toString index

namespace Source

/-- A jump to a label. -/
def jump (target : Nat) : List Piece :=
  [.text "goto" .keyword, .text " " .plain, .text (label target) .label]

/-- A global slot: what kind of thing it stands for, and its name. -/
def usage : Usage → List Piece
  | .type name _ => wrap "typeof" name .typeName
  | .methodDef m => wrap "__methoddef__" m.fullName .method
  | .methodRef name => wrap "__methodref__" name .method
  | .fieldRef f => wrap "__fieldref__" f.fullName .field
  | .literal text => [.text (quote text) .string]
where
  wrap (word name : String) (kind : TextKind) : List Piece :=
    [.text word .keyword, .punct "(", .text name kind, .punct ")"]

def methodName (m : Method) : List Piece :=
  [.text m.declaringName .typeName, .punct ".", .text m.name .method]

/-- A variable by its name, or by its number as long as it has no name. -/
def variableName (vars : Variables) (id : VarId) : List Piece :=
  match vars.get? id with
  | some v =>
    if v.name.isEmpty then [.text ("v" ++ toString id) .localName]
    else [.text v.name (if v.isKeyword then .keyword else .localName)]
  | none => [.text ("v" ++ toString id) .localName]

def leaf (vars : Variables) : Leaf → List Piece
  | .register name => [.text name .register]
  | .var id => variableName vars id
  | .immediate value => [.text (number value) .number]
  | .label index => [.text (label index) .label]
  | .literal text => [.text (quote text) .string]
  | .method m => methodName m
  | .address address => [.text (hexAddress address) .number]
  | .runtime f => [.text f.symbol .method]
  | .usage u => usage u

/-- Parentheses around an expression that has an operator. -/
def operand (e : Expr) (pieces : List Piece) : List Piece :=
  if e.isOperation then .punct "(" :: pieces ++ [.punct ")"] else pieces

/-- Arguments in parentheses, separated by commas. -/
def arguments (parts : List (List Piece)) : List Piece :=
  .punct "(" :: ([Piece.punct ", "].intercalate parts ++ [.punct ")"])

/-- The opening of a call through a pointer: the type of the function, up to its address. -/
def delegate (arity : Nat) (returns : Bool) : List Piece :=
  [.punct "((", .text "delegate* unmanaged" .keyword, .punct "<"] ++
    (List.replicate arity [Piece.text "nint" .typeName, .punct ", "]).flatten ++
    [.text (if returns then "nint" else "void") .typeName, .punct ">)"]

/-- A call of a target whose parts are written already. An instance method is written behind its
receiver, and what is no known function is called through a pointer. -/
def call (target : Expr) (targetPieces : List Piece) (args : List Expr)
    (parts : List (List Piece)) (returns : Bool) : List Piece :=
  match target with
  | .leaf (.method m) =>
    match m.isStatic, args, parts with
    | false, receiver :: _, first :: rest =>
      operand receiver first ++ [.punct ".", .text m.name .method] ++ arguments rest
    | _, _, _ => methodName m ++ arguments parts
  | .leaf (.runtime f) => .text f.symbol .method :: arguments parts
  | .leaf (.address address) =>
    delegate parts.length returns ++ [.text (hexAddress address) .number, .punct ")"] ++
      arguments parts
  | _ => delegate parts.length returns ++ targetPieces ++ .punct ")" :: arguments parts

end Source

namespace Expr

open Source

variable (vars : Variables)

/-! ## Expressions -/

mutual

/-- An expression in a line. -/
def pieces : Expr → List Piece
  | .leaf value => Source.leaf vars value
  | .assign target value => target.pieces ++ .punct " = " :: value.pieces
  | .compare kind left right =>
    match kind.symbol? with
    | some symbol => operand left left.pieces ++ .punct symbol :: operand right right.pieces
    | none =>
      [.text "__compare__" .method, .punct "("] ++ left.pieces ++ .punct ", " :: right.pieces ++
        [.punct ")"]
  | .arith op left right =>
    operand left left.pieces ++ .punct op.symbol :: operand right right.pieces
  | .complement operand =>
    let mark := match operand with
      | .compare _ _ _ | .unsupported _ => "!("
      | _ => "~("
    .punct mark :: operand.pieces ++ [.punct ")"]
  | .deref address => .punct "*(" :: address.pieces ++ [.punct ")"]
  | .member object field =>
    operand object object.pieces ++ [.punct ".", .text field.name .field]
  | .jumpIf condition target =>
    [.text "if" .keyword, .punct " ("] ++ condition.pieces ++ .punct ") " :: Source.jump target
  | .guarded condition head _ =>
    [.text "if" .keyword, .punct " ("] ++ condition.pieces ++
      [.punct ") ", .punct "\x7b ", .text (label head.start) .label, .punct " \x7d"]
  | .jump target => Source.jump target
  | .call target args returns =>
    Source.call target target.pieces args (argumentPieces args) returns
  | .ret value => [.text "return" .keyword, .text " " .plain] ++ value.pieces
  | .retVoid => [.text "return" .keyword]
  | .lane vector index =>
    vector.pieces ++ [.punct "[", .text (toString index) .number, .punct "]"]
  | .nop => []
  | .unsupported text => [.text ("/* " ++ text ++ " */") .comment]
  | .comment text => [.text ("/* " ++ text ++ " */") .comment]

def argumentPieces : List Expr → List (List Piece)
  | [] => []
  | e :: rest => e.pieces :: argumentPieces rest

end

/-! ## Statements -/

mutual

/-- The lines of a statement. -/
def lines : Expr → List Piece
  | .nop => []
  | .jumpIf condition target =>
    [.text "if" .keyword, .punct " ("] ++ condition.pieces vars ++
      [.punct ")", .newline, .indent] ++ Source.jump target ++ [.punct ";", .newline, .dedent]
  | .guarded condition _ body =>
    [.text "if" .keyword, .punct " ("] ++ condition.pieces vars ++
      [.punct ")", .newline, .punct "\x7b", .newline, .indent] ++ bodyLines body ++
      [.dedent, .punct "\x7d", .newline]
  | e => e.pieces vars ++ (if e.isCompound then [] else [.punct ";"]) ++ [.newline]

/-- The lines of the live statements of a body. -/
def bodyLines : List Statement → List Piece
  | [] => []
  | ⟨e, eliminated, _⟩ :: rest => (if eliminated then [] else e.lines) ++ bodyLines rest

end

def render (e : Expr) : String := (Buffer.putAll {} (e.pieces vars)).text

end Expr

/-- The lines of a block: its label, when some jump names it, and its live statements. -/
def Block.lines (vars : Variables) (b : Block) : List Piece :=
  (if b.references = 0 then []
    else [.dedent, .text (label b.start) .label, .punct ":", .newline, .indent]) ++
    Expr.bodyLines vars b.statements

end MethodLift
