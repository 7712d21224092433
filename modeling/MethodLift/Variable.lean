import MethodLift.Expr.Leaf

/-!
# Variables

Every variable stands for one definition of a machine register. A table holds the variables of a
method in the order of their creation.
-/

namespace MethodLift

/-- A variable. -/
structure Variable where
  /-- Empty until names are given. -/
  name : String := ""
  /-- Known types never change. -/
  type : Option TypeRef := none
  /-- The receiver is written as a keyword. -/
  isKeyword : Bool := false
  /-- The register the variable stands for. -/
  register : String := ""
  /-- The position of the declared parameter it holds. -/
  parameter : Option Nat := none
deriving DecidableEq, Repr

/-- The variables of a method. -/
structure Variables where
  entries : List Variable := []
deriving DecidableEq, Repr

namespace Variables

def size (t : Variables) : Nat := t.entries.length

def get? (t : Variables) (id : VarId) : Option Variable := t.entries[id]?

/-- Adds a variable, whose identity is the size of the table before. -/
def insert (t : Variables) (v : Variable) : Variables := ⟨t.entries ++ [v]⟩

/-- Adds a variable without name and type for a register. -/
def create (t : Variables) (register : String) : Variables := t.insert { register }

def modify (t : Variables) (id : VarId) (f : Variable → Variable) : Variables :=
  ⟨t.entries.modify id f⟩

def type? (t : Variables) (id : VarId) : Option TypeRef := (t.get? id).bind (·.type)

def name (t : Variables) (id : VarId) : String :=
  match t.get? id with
  | some v => v.name
  | none => "?"

def isUntyped (t : Variables) (id : VarId) : Bool :=
  match t.get? id with
  | some v => v.type.isNone
  | none => false

/-- Gives a type to a variable that has none. -/
def refine (t : Variables) (id : VarId) (type : TypeRef) : Variables :=
  if t.isUntyped id then t.modify id fun v => { v with type := some type } else t

def find? (t : Variables) (name : String) : Option VarId :=
  t.entries.findIdx? fun v => v.name == name

/-! ## Sizes and look-ups -/

@[simp] theorem size_insert (t : Variables) (v : Variable) : (t.insert v).size = t.size + 1 := by
  simp [insert, size]

@[simp] theorem size_create (t : Variables) (register : String) :
    (t.create register).size = t.size + 1 := by
  simp [create]

@[simp] theorem size_modify (t : Variables) (id : VarId) (f : Variable → Variable) :
    (t.modify id f).size = t.size := by
  simp [modify, size]

@[simp] theorem size_refine (t : Variables) (id : VarId) (type : TypeRef) :
    (t.refine id type).size = t.size := by
  unfold refine
  split <;> simp

@[simp] theorem get?_insert_size (t : Variables) (v : Variable) :
    (t.insert v).get? t.size = some v := by
  simp [insert, get?, size]

end Variables

end MethodLift
