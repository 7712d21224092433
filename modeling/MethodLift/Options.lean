/-!
# Options

Which of the optional steps of a lift are wanted, and how long they may go on.
-/

namespace MethodLift

/-- The optional steps. -/
inductive Feature where
  /-- Bind entry registers to the receiver and the parameters. -/
  | seedParameters
  /-- Recover field accesses and propagate types. -/
  | dataflow
  /-- Replace addresses of global slots by what they stand for. -/
  | metadata
  /-- Replace loads from string addresses by literals. -/
  | strings
  /-- Fold arithmetic on constants. -/
  | foldConstants
  /-- Inline variables that are used once. -/
  | inlining
  /-- Nest branch targets into conditionals. -/
  | structuring
deriving DecidableEq, Repr

namespace Feature

def all : List Feature :=
  [.seedParameters, .dataflow, .metadata, .strings, .foldConstants, .inlining, .structuring]

/-- The weight of a feature in a bit set. -/
def bit : Feature → Nat
  | .seedParameters => 1
  | .dataflow => 2
  | .metadata => 4
  | .strings => 8
  | .foldConstants => 16
  | .inlining => 32
  | .structuring => 64

end Feature

abbrev Features := List Feature

namespace Features

def set (features : Features) (feature : Feature) (enabled : Bool) : Features :=
  let others := features.filter fun f => f != feature
  if enabled then feature :: others else others

/-- The weights of the features in the set, added up. -/
def bits (features : Features) : Nat :=
  (Feature.all.filter fun f => features.contains f).foldl (fun n f => n + f.bit) 0

end Features

/-- How to lift. -/
structure Options where
  features : Features := Feature.all
  /-- Most rounds of the analyses. -/
  maxAnalysisRounds : Nat := 32
  /-- Inline until nothing changes, and not just once. -/
  inlineToFixpoint : Bool := false
  /-- Most rounds of inlining. -/
  maxInlineRounds : Nat := 16
  /-- Numbers up to this one are never taken for addresses of strings and slots. -/
  minAddress : UInt64 := 1000
deriving DecidableEq, Repr

namespace Options

/-- None of the optional steps. -/
def minimal : Options := { features := [] }

/-- All optional steps, with inlining until nothing changes. -/
def full : Options := { inlineToFixpoint := true }

def enabled (o : Options) (feature : Feature) : Bool := o.features.contains feature

def set (o : Options) (feature : Feature) (enabled : Bool) : Options :=
  { o with features := Features.set o.features feature enabled }

end Options

end MethodLift
