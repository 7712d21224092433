/-!
# Sets of code points

A set of characters as closed ranges of code points.
-/

namespace MethodLift

/-- A set of code points, as closed ranges in ascending order. -/
abbrev CodePoints := List (Nat × Nat)

namespace CodePoints

def contains (s : CodePoints) (c : Char) : Bool := s.any fun r => r.1 ≤ c.toNat && c.toNat ≤ r.2

end CodePoints

end MethodLift
