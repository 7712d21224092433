import MethodLift.Program.Method
import MethodLift.Program.TypeDef

/-!
# Metadata usages

Compiled code reaches types, methods, fields and string literals through global slots. A usage is
what such a slot stands for.
-/

namespace MethodLift

/-- What a global slot stands for. -/
inductive Usage where
  | type (name : String) (definition : Option TypeId)
  | methodDef (method : Method)
  | methodRef (name : String)
  | fieldRef (field : Field)
  | literal (text : String)
deriving DecidableEq, Repr

def Usage.describe : Usage → String
  | .type name definition =>
    "Type \x7b name: " ++ debugQuote name ++ ", definition: " ++
      describeOption (definition.map describeTypeId) ++ " \x7d"
  | .methodDef method => "MethodDef(" ++ method.describe ++ ")"
  | .methodRef name => "MethodRef(" ++ debugQuote name ++ ")"
  | .fieldRef field => "FieldRef(" ++ field.describe ++ ")"
  | .literal text => "StringLiteral(" ++ debugQuote text ++ ")"

end MethodLift
