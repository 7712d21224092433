import MethodLift.Program.TypeRef

/-!
# Methods

The part of a method's signature that lifting consults.
-/

namespace MethodLift

abbrev MethodId := Nat

/-- A declared parameter. -/
structure Parameter where
  name : String
  type : TypeRef
deriving DecidableEq, Repr

/-- A method and its signature. By default it is static, takes nothing and returns nothing. -/
structure Method where
  id : MethodId
  name : String
  /-- The declaring type, where it is known. -/
  declaring : Option TypeId := none
  /-- Simple name of the declaring type. -/
  declaringName : String
  isStatic : Bool := true
  /-- Declared parameters; the receiver is not one of them. -/
  parameters : List Parameter := []
  returns : TypeRef := .void
  /-- Entry point of the compiled body. -/
  address : Option UInt64 := none
deriving DecidableEq, Repr

namespace Method

/-- The name behind the name of the declaring type. -/
def fullName (m : Method) : String := m.declaringName ++ "." ++ m.name

/-- A call leaves a value in the return register. -/
def returnsValue (m : Method) : Bool := !m.returns.isVoid

/-- The type of the receiver of an instance method. -/
def thisType? (m : Method) : Option TypeRef :=
  if m.isStatic then none else m.declaring.map .classType

/-- The types that are passed: the receiver of an instance method, then the parameters. -/
def passedTypes (m : Method) : List TypeRef :=
  (if m.isStatic then [] else [.object]) ++ m.parameters.map (·.type)

def describeParameter (p : Parameter) : String :=
  "Parameter \x7b name: " ++ debugQuote p.name ++ ", param_type: " ++ p.type.describe ++ " \x7d"

def describe (m : Method) : String :=
  "MethodDef \x7b id: MethodId(" ++ toString m.id ++ "), name: " ++ debugQuote m.name ++
    ", declaring_type: " ++ describeOption (m.declaring.map describeTypeId) ++
    ", declaring_type_name: " ++ debugQuote m.declaringName ++
    ", is_static: " ++ (if m.isStatic then "true" else "false") ++
    ", parameters: [" ++ ", ".intercalate (m.parameters.map describeParameter) ++
    "], return_type: " ++ m.returns.describe ++
    ", address: " ++ describeOption (m.address.map fun a => toString a.toNat) ++ " \x7d"

end Method

end MethodLift
