import MethodLift.Machine.InstructionSet
import MethodLift.Program.Literal
import MethodLift.Program.RuntimeFunction
import MethodLift.Program.Usage

/-!
# Programs

The program as lifting sees it: what can be looked up by address, and the definitions of types.
Pointers, string literals and inherited fields are read off these look-ups, so they mean the same
however a program is stored.
-/

namespace MethodLift

/-- Where no type is defined, none needs to be listed. -/
theorem Program.mem_of_undefined (id : TypeId) (d : TypeDef) (h : none = some d) :
    id ∈ ([] : List TypeId) :=
  nomatch h

/-- A program that can be looked up. Its types are finitely many: all that are defined have their
identities in a list, which bounds the way from a type along its bases. -/
structure Program where
  isa : InstructionSet
  /-- The mapped bytes from an address to the end of its segment. -/
  bytesAt? : UInt64 → Option (List UInt8) := fun _ => none
  /-- What the global slot at an address stands for. -/
  globalAt? : UInt64 → Option Usage := fun _ => none
  /-- The method whose body starts at an address. -/
  methodAt? : UInt64 → Option Method := fun _ => none
  runtimeFunctionAt? : UInt64 → Option RuntimeFunction := fun _ => none
  typeDef? : TypeId → Option TypeDef := fun _ => none
  typeIds : List TypeId := []
  mem_typeIds : ∀ id d, typeDef? id = some d → id ∈ typeIds := by
    exact Program.mem_of_undefined

namespace Program

def littleEndian (bytes : List UInt8) : UInt64 :=
  bytes.foldr (fun byte high => high * 256 + byte.toUInt64) 0

def pointerAt? (program : Program) (address : UInt64) : Option UInt64 :=
  match program.bytesAt? address with
  | none => none
  | some bytes => if bytes.length < 8 then none else some (littleEndian (bytes.take 8))

def literalAt? (program : Program) (address : UInt64) : Option String :=
  (program.bytesAt? address).bind Literal.decode?

/-- The field at an offset in the nearest of the types met on the way from a type to its bases,
visiting at most `steps` types. -/
def fieldFrom? (program : Program) (offset : Int64) : Nat → TypeId → Option Field
  | 0, _ => none
  | steps + 1, id =>
    match program.typeDef? id with
    | none => none
    | some d =>
      match d.fieldAt? offset with
      | some field => some field
      | none => d.base.bind (program.fieldFrom? offset steps)

/-- The instance field at a byte offset in values of a type, declared by the type itself or by
the nearest base that declares one. A way along the bases that meets more types than are defined
goes round in a circle, and there is nothing on it. -/
def fieldAt? (program : Program) (type : TypeRef) (offset : Int64) : Option Field :=
  type.definition?.bind (program.fieldFrom? offset program.typeIds.length)

end Program

end MethodLift
