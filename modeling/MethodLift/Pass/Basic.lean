import MethodLift.Block.Graph
import MethodLift.Journal
import MethodLift.Options
import MethodLift.Program.Basic
import MethodLift.Variable

/-!
# Passes

A pass changes a method on its way through the pipeline and says whether it changed anything. Most
passes rebuild the live statements one after the other; `Context.refineLive` does that for a
function on single statements.
-/

namespace MethodLift

/-- A method on its way through the pipeline. -/
structure Context where
  image : Program
  method : Method
  options : Options := {}
  graph : Graph := {}
  vars : Variables := {}
  journal : Journal := {}

namespace Context

def record (ctx : Context) (e : Event) : Context := { ctx with journal := ctx.journal.record e }

/-- Adds a line about the method to the log. -/
def say (ctx : Context) (level : LogLevel) (message : String) : Context :=
  { ctx with journal := ctx.journal.say level (ctx.method.fullName ++ ": " ++ message) }

end Context

/-- Steps on a context that may fail; a failure keeps what was done before it. -/
abbrev LiftM := ExceptT Error (StateM Context)

def noDescription : String := "No description available"

/-- A pass. -/
structure Pass where
  name : String
  description : String := noDescription
  /-- The options ask for the pass. -/
  wanted : Options → Bool := fun _ => true
  /-- Runs the pass, given how often it ran before in the same schedule, and says whether it
  changed the method. -/
  run : Nat → LiftM Bool

/-- A pass that cannot fail and does the same every time. -/
def Pass.ofStep (name description : String) (wanted : Options → Bool)
    (step : Context → Context × Bool) : Pass where
  name
  description
  wanted
  run _ := fun ctx =>
    let (ctx, changed) := step ctx
    (.ok changed, ctx)

/-! ## Refining statements -/

/-- What refining statements has led to so far. -/
structure Progress where
  changed : Bool := false
  events : Events := []

/-- Work that refines an expression. -/
abbrev Refine := StateM Progress

namespace Refine

/-- Something was changed. -/
def mark : Refine Unit := modify fun p => { p with changed := true }

/-- Something was changed and is recorded. -/
def note (e : Event) : Refine Unit := modify fun p => ⟨true, p.events ++ [e]⟩

end Refine

/-- Refines all live statements and records the events. -/
def Context.refineLive (ctx : Context) (f : Block → Statement → Refine Expr) : Context × Bool :=
  let (graph, progress) := (ctx.graph.mapLiveM f).run {}
  ({ ctx with graph, journal := ctx.journal.recordAll progress.events }, progress.changed)

end MethodLift
