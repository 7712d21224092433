import MethodLift.Program.TypeRef

/-!
# Type definitions and their fields

A type definition lists its fields in declaration order, static and instance ones together.
-/

namespace MethodLift

abbrev FieldId := Nat

/-- A declared field. -/
structure Field where
  id : FieldId
  name : String
  /-- Byte offset within an instance. -/
  offset : Int64
  type : TypeRef
  declaring : TypeId
  /-- Simple name of the declaring type. -/
  declaringName : String
  isStatic : Bool
deriving DecidableEq, Repr

def showTypeId (id : TypeId) : String := "type#" ++ toString id

def showFieldId (id : FieldId) : String := "field#" ++ toString id

namespace Field

/-- The field's name behind the name of its type. -/
def fullName (f : Field) : String := f.declaringName ++ "." ++ f.name

def describe (f : Field) : String :=
  "FieldDef \x7b id: FieldId(" ++ toString f.id ++ "), name: " ++ debugQuote f.name ++
    ", offset: " ++ toString f.offset.toInt ++ ", field_type: " ++ f.type.describe ++
    ", declaring_type: " ++ describeTypeId f.declaring ++
    ", declaring_type_name: " ++ debugQuote f.declaringName ++
    ", is_static: " ++ (if f.isStatic then "true" else "false") ++ " \x7d"

end Field

/-- A type with its declared fields. -/
structure TypeDef where
  id : TypeId
  /-- Empty for the global namespace. -/
  space : String
  name : String
  base : Option TypeId := none
  fields : List Field := []
deriving DecidableEq, Repr

namespace TypeDef

/-- The identity of the next field: 16 bits of the type's identity above the field's position,
in 32 bits. -/
def nextFieldId (d : TypeDef) : FieldId := (d.id <<< 16) % UInt32.size ||| d.fields.length

def addField (d : TypeDef) (name : String) (offset : Int64) (type : TypeRef)
    (isStatic : Bool := false) : TypeDef :=
  let field : Field :=
    { id := d.nextFieldId, name, offset, type, declaring := d.id, declaringName := d.name,
      isStatic }
  { d with fields := d.fields ++ [field] }

/-- The name behind the namespace, where there is one. -/
def fullName (d : TypeDef) : String :=
  if d.space.isEmpty then d.name else d.space ++ "." ++ d.name

/-- The first instance field that the type itself declares at an offset. -/
def fieldAt? (d : TypeDef) (offset : Int64) : Option Field :=
  d.fields.find? fun f => !f.isStatic && f.offset == offset

end TypeDef

end MethodLift
