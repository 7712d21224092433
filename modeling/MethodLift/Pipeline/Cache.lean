import MethodLift.Pipeline.Lift

/-!
# Reusing lifted methods

A cache keeps lifted methods by identity, so that a method is lifted once until its entry is
dropped.
-/

namespace MethodLift

abbrev LiftCache := Table MethodId LiftedMethod

namespace LiftCache

/-- The lifted method that is stored, or else a fresh one, which is stored. -/
def getOrLift (cache : LiftCache) (l : Lifter) (body : MethodBody) : LiftedMethod × LiftCache :=
  match cache.get? body.method.id with
  | some lifted => (lifted, cache)
  | none =>
    let lifted := l.lift body.method body.code
    (lifted, cache.insert body.method.id lifted)

def store (cache : LiftCache) (lifted : LiftedMethod) : LiftCache :=
  cache.insert lifted.method lifted

/-- Drops the entry of a method; says whether there was one. -/
def invalidate (cache : LiftCache) (id : MethodId) : Bool × LiftCache :=
  ((cache.get? id).isSome, cache.erase id)

end LiftCache

end MethodLift
