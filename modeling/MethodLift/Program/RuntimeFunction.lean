/-!
# Runtime helpers

Compiled code calls a fixed set of helpers of the runtime for allocation, class initialisation,
boxing and exceptions. Each is known by its exported symbol.
-/

namespace MethodLift

/-- A helper of the runtime. -/
inductive RuntimeFunction where
  | initializeMethod
  | classInit
  | objectNew
  | arrayNew
  | typeObject
  | resolveInternalCall
  | stringNew
  | valueBox
  | objectUnbox
  | raiseException
  | isInstance
  | nativeLookup
deriving DecidableEq, Repr

namespace RuntimeFunction

def all : List RuntimeFunction :=
  [.initializeMethod, .classInit, .objectNew, .arrayNew, .typeObject, .resolveInternalCall,
    .stringNew, .valueBox, .objectUnbox, .raiseException, .isInstance, .nativeLookup]

def symbol : RuntimeFunction → String
  | .initializeMethod => "il2cpp_codegen_initialize_method"
  | .classInit => "il2cpp_runtime_class_init"
  | .objectNew => "il2cpp_object_new"
  | .arrayNew => "il2cpp_array_new_specific"
  | .typeObject => "il2cpp_type_get_object"
  | .resolveInternalCall => "il2cpp_resolve_icall"
  | .stringNew => "il2cpp_string_new"
  | .valueBox => "il2cpp_value_box"
  | .objectUnbox => "il2cpp_object_unbox"
  | .raiseException => "il2cpp_raise_exception"
  | .isInstance => "il2cpp_vm_object_is_inst"
  | .nativeLookup => "il2cpp_pinvoke_lookup"

def ofSymbol? (text : String) : Option RuntimeFunction := all.find? fun f => f.symbol == text

/-- A call leaves a value in the return register. -/
def returnsValue : RuntimeFunction → Bool
  | .initializeMethod => false
  | .classInit => false
  | _ => true

/-- A call does not come back to its caller. -/
def isJumpLike : RuntimeFunction → Bool
  | .raiseException => true
  | _ => false

/-- How many arguments are passed in registers. -/
def argumentCount : RuntimeFunction → Nat
  | .valueBox => 2
  | _ => 1

end RuntimeFunction

end MethodLift
