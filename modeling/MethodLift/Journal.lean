import MethodLift.Block.Head

/-!
# Journals

A lift records what it did and what it could not do. Events are part of the result; log lines are
meant for whoever watches the lift.
-/

namespace MethodLift

/-- Categories of events. -/
inductive EventKind where
  | fieldResolved
  | typePropagated
  | metadataInlined
  | stringInlined
  | constantFolded
  | variableInlined
  | blockAbsorbed
  | unresolvedCompare
  | unsupportedInstruction
  | unresolvedCall
  | iterationLimit
  | fault
  | passCompleted
deriving DecidableEq, Repr

namespace EventKind

def all : List EventKind :=
  [.fieldResolved, .typePropagated, .metadataInlined, .stringInlined, .constantFolded,
    .variableInlined, .blockAbsorbed, .unresolvedCompare, .unsupportedInstruction,
    .unresolvedCall, .iterationLimit, .fault, .passCompleted]

def description : EventKind → String
  | .fieldResolved => "field resolved"
  | .typePropagated => "type propagated"
  | .metadataInlined => "metadata inlined"
  | .stringInlined => "string inlined"
  | .constantFolded => "constant folded"
  | .variableInlined => "variable inlined"
  | .blockAbsorbed => "block absorbed"
  | .unresolvedCompare => "unresolved compare"
  | .unsupportedInstruction => "unsupported instruction"
  | .unresolvedCall => "unresolved call"
  | .iterationLimit => "iteration limit reached"
  | .fault => "fault"
  | .passCompleted => "pass completed"

/-- The lifted code was changed for the better. -/
def isTransformation : EventKind → Bool
  | .fieldResolved | .typePropagated | .metadataInlined | .stringInlined | .constantFolded
  | .variableInlined | .blockAbsorbed => true
  | _ => false

/-- Something was left unlifted. -/
def isDegradation : EventKind → Bool
  | .unresolvedCompare | .unsupportedInstruction | .unresolvedCall | .iterationLimit
  | .fault => true
  | _ => false

end EventKind

/-- Something that happened during a lift. -/
structure Event where
  kind : EventKind
  block : Option BlockId := none
  /-- Index of the instruction concerned. -/
  instruction : Option Nat := none
  /-- Name of the pass that did it. -/
  pass : Option String := none
  message : String := kind.description
deriving DecidableEq, Repr

/-- The category, the place and the message. -/
def Event.render (e : Event) : String :=
  "[" ++ e.kind.description ++ "]" ++
    (match e.block with
      | some block => " B" ++ toString block
      | none => "") ++
    (match e.instruction with
      | some index => " @" ++ toString index
      | none => "") ++
    " " ++ e.message

abbrev Events := List Event

namespace Events

def ofKind (events : Events) (kind : EventKind) : Events := events.filter fun e => e.kind == kind

def count (events : Events) (kind : EventKind) : Nat := (events.ofKind kind).length

def has (events : Events) (kind : EventKind) : Bool := events.any fun e => e.kind == kind

def degradations (events : Events) : Events := events.filter fun e => e.kind.isDegradation

/-- The transformations that happened, each behind its count, as sorted texts. -/
def transformations (events : Events) : List String :=
  let present := EventKind.all.filter fun kind => kind.isTransformation && events.has kind
  (present.map fun kind => toString (events.count kind) ++ " " ++ kind.description).mergeSort
    fun a b => decide (a ≤ b)

/-- What happened, in one line. -/
def summary (events : Events) : String :=
  if events.isEmpty then "no events"
  else if events.transformations.isEmpty then toString events.length ++ " events"
  else ", ".intercalate events.transformations

end Events

/-- How urgent a log line is. -/
inductive LogLevel where
  | warn
  | debug
  | trace
deriving DecidableEq, Repr

/-- A line of the log. -/
structure LogLine where
  level : LogLevel
  message : String
deriving DecidableEq, Repr

/-- Events and log lines, each in order. -/
structure Journal where
  events : Events := []
  log : List LogLine := []
deriving DecidableEq, Repr

namespace Journal

def record (j : Journal) (e : Event) : Journal := { j with events := j.events ++ [e] }

def recordAll (j : Journal) (events : Events) : Journal := { j with events := j.events ++ events }

def say (j : Journal) (level : LogLevel) (message : String) : Journal :=
  { j with log := j.log ++ [⟨level, message⟩] }

@[simp] theorem events_record (j : Journal) (e : Event) :
    (j.record e).events = j.events ++ [e] := rfl

@[simp] theorem events_recordAll (j : Journal) (events : Events) :
    (j.recordAll events).events = j.events ++ events := rfl

@[simp] theorem events_say (j : Journal) (level : LogLevel) (message : String) :
    (j.say level message).events = j.events := rfl

end Journal

/-- Work that writes a journal. -/
abbrev Recorder := StateM Journal

def record (e : Event) : Recorder Unit := modify fun j => j.record e

def say (level : LogLevel) (message : String) : Recorder Unit := modify fun j => j.say level message

end MethodLift
