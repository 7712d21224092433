import MethodLift.Text.Quoted

/-!
# Type references

A type as a signature or a field declaration names it: a primitive, a type defined in the program,
or a type built from another one.
-/

namespace MethodLift

abbrev TypeId := Nat

/-- Types that the language spells with a keyword. -/
inductive Primitive where
  | void
  | boolean
  | char
  | i1
  | u1
  | i2
  | u2
  | i4
  | u4
  | i8
  | u8
  | r4
  | r8
  | string
  | object
  | intPtr
  | uintPtr
deriving DecidableEq, Repr

namespace Primitive

def all : List Primitive :=
  [.void, .boolean, .char, .i1, .u1, .i2, .u2, .i4, .u4, .i8, .u8, .r4, .r8, .string, .object,
    .intPtr, .uintPtr]

/-- The name of the element type. -/
def tag : Primitive → String
  | .void => "Void"
  | .boolean => "Boolean"
  | .char => "Char"
  | .i1 => "I1"
  | .u1 => "U1"
  | .i2 => "I2"
  | .u2 => "U2"
  | .i4 => "I4"
  | .u4 => "U4"
  | .i8 => "I8"
  | .u8 => "U8"
  | .r4 => "R4"
  | .r8 => "R8"
  | .string => "String"
  | .object => "Object"
  | .intPtr => "IntPtr"
  | .uintPtr => "UIntPtr"

/-- The keyword of the pseudo-source. -/
def keyword : Primitive → String
  | .void => "void"
  | .boolean => "bool"
  | .char => "char"
  | .i1 => "sbyte"
  | .u1 => "byte"
  | .i2 => "short"
  | .u2 => "ushort"
  | .i4 => "int"
  | .u4 => "uint"
  | .i8 => "long"
  | .u8 => "ulong"
  | .r4 => "float"
  | .r8 => "double"
  | .string => "string"
  | .object => "object"
  | .intPtr => "nint"
  | .uintPtr => "nuint"

end Primitive

/-- A reference to a type. -/
inductive TypeRef where
  | primitive (kind : Primitive)
  | classType (id : TypeId)
  | valueType (id : TypeId)
  | genericInst (id : TypeId)
  | array (element : TypeRef)
  | pointer (target : TypeRef)
  | genericParam (name : String)
deriving DecidableEq, Repr

namespace TypeRef

abbrev void : TypeRef := .primitive .void
abbrev object : TypeRef := .primitive .object
abbrev string : TypeRef := .primitive .string

def isVoid : TypeRef → Bool
  | .primitive .void => true
  | _ => false

/-- Floating-point values travel in registers of their own. -/
def isFloat : TypeRef → Bool
  | .primitive .r4 => true
  | .primitive .r8 => true
  | _ => false

/-- The definition whose field layout describes values of the type. A pointer has the layout of
what it points to. -/
def definition? : TypeRef → Option TypeId
  | .classType id => some id
  | .valueType id => some id
  | .genericInst id => some id
  | .pointer target => target.definition?
  | _ => none

def keyword? : TypeRef → Option String
  | .primitive kind => some kind.keyword
  | _ => none

def describe : TypeRef → String
  | .primitive kind => kind.tag
  | .classType id => "Class(TypeId(" ++ toString id ++ "))"
  | .valueType id => "ValueType(TypeId(" ++ toString id ++ "))"
  | .genericInst id => "GenericInst(TypeId(" ++ toString id ++ "))"
  | .array element => "SzArray(" ++ element.describe ++ ")"
  | .pointer target => "Pointer(" ++ target.describe ++ ")"
  | .genericParam name => "GenericParam(" ++ debugQuote name ++ ")"

end TypeRef

def describeOption (text : Option String) : String :=
  match text with
  | none => "None"
  | some text => "Some(" ++ text ++ ")"

def describeTypeId (id : TypeId) : String := "TypeId(" ++ toString id ++ ")"

end MethodLift
