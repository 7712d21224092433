import MethodLift.Program.Basic
import MethodLift.Table

/-!
# Program images

A program that is held in tables: mapped bytes, and types, methods, runtime helpers and global slots
by identity or address.
-/

namespace MethodLift

/-- A loaded program. -/
structure Image where
  isa : InstructionSet
  segments : Table UInt64 (List UInt8) := {}
  types : Table TypeId TypeDef := {}
  methods : Table UInt64 Method := {}
  runtimeFunctions : Table UInt64 RuntimeFunction := {}
  globals : Table UInt64 Usage := {}

namespace Image

/-! ## Building an image -/

def addSegment (image : Image) (base : UInt64) (bytes : List UInt8) : Image :=
  { image with segments := image.segments.insert base bytes }

def addType (image : Image) (d : TypeDef) : Image :=
  { image with types := image.types.insert d.id d }

/-- Registers a method at its entry point; a method without a body has none. -/
def addMethod (image : Image) (m : Method) : Image :=
  match m.address with
  | none => image
  | some address => { image with methods := image.methods.insert address m }

def addRuntimeFunction (image : Image) (address : UInt64) (f : RuntimeFunction) : Image :=
  { image with runtimeFunctions := image.runtimeFunctions.insert address f }

def addGlobal (image : Image) (address : UInt64) (usage : Usage) : Image :=
  { image with globals := image.globals.insert address usage }

/-! ## Look-ups -/

/-- The methods with a body, by entry point. -/
def methodsByAddress (image : Image) : List Method :=
  (image.methods.entries.mergeSort fun a b => a.1 ≤ b.1).map (·.2)

/-- The segment that starts last among those that start at or before an address. -/
def segmentBelow? (image : Image) (address : UInt64) : Option (UInt64 × List UInt8) :=
  image.segments.entries.foldl
    (fun best s => if s.1 ≤ address && best.all (·.1 < s.1) then some s else best) none

/-- The bytes from an address to the end of its segment. -/
def bytesAt? (image : Image) (address : UInt64) : Option (List UInt8) :=
  match image.segmentBelow? address with
  | none => none
  | some (base, bytes) =>
    let rest := bytes.drop (address - base).toNat
    if rest.isEmpty then none else some rest

/-- The program that an image holds. -/
def program (image : Image) : Program where
  isa := image.isa
  bytesAt? := image.bytesAt?
  globalAt? := image.globals.get?
  methodAt? := image.methods.get?
  runtimeFunctionAt? := image.runtimeFunctions.get?
  typeDef? := image.types.get?
  typeIds := image.types.entries.map (·.1)
  mem_typeIds _ _ h := List.mem_map_of_mem (Table.mem_of_get? h)

instance : Coe Image Program := ⟨program⟩

def pointerAt? (image : Image) : UInt64 → Option UInt64 := image.program.pointerAt?

def literalAt? (image : Image) : UInt64 → Option String := image.program.literalAt?

def fieldAt? (image : Image) : TypeRef → Int64 → Option Field := image.program.fieldAt?

end Image

end MethodLift
