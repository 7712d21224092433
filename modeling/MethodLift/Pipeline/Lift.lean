import MethodLift.Block.Partition
import MethodLift.Expr.OfInstruction
import MethodLift.Pass.FieldRecovery
import MethodLift.Pass.Folding
import MethodLift.Pass.LabelCount
import MethodLift.Pass.LiteralInlining
import MethodLift.Pass.Promotion
import MethodLift.Pass.Schedule
import MethodLift.Pass.Structuring
import MethodLift.Pass.UsageInlining
import MethodLift.Pass.VariableInlining
import MethodLift.Program.Image
import MethodLift.Text.Source

/-!
# Lifting methods

A method's code is cut into blocks and lifted to statements, registers become variables, the
analyses run until they settle, variables are inlined, and branches are structured. A method that
cannot be lifted becomes a comment with the reason, so one bad method does no harm to others.
-/

namespace MethodLift

/-- A method and its code. -/
structure MethodBody where
  method : Method
  code : List Instruction

/-- A lifted method. -/
structure LiftedMethod where
  method : MethodId
  name : String
  /-- All blocks, also those that moved into conditionals. -/
  blocks : List Block
  vars : Variables := {}
  events : Events := []

namespace LiftedMethod

/-- The blocks that are written. -/
def visibleBlocks (l : LiftedMethod) : List Block := l.blocks.filter fun b => !b.ignored

def isFault (l : LiftedMethod) : Bool := l.events.has .fault

/-- Why the lift failed. -/
def fault? (l : LiftedMethod) : Option Error :=
  (l.events.ofKind .fault).head?.map fun e => .contained l.name e.message

/-- The method as pseudo-source, one level deep so that labels can stand further out. -/
def lines (l : LiftedMethod) : List Piece :=
  .indent :: (l.visibleBlocks.flatMap (Block.lines l.vars) ++ [.dedent])

def buffer (l : LiftedMethod) : Buffer := Buffer.putAll {} l.lines

def text (l : LiftedMethod) : String := l.buffer.text

end LiftedMethod

/-- The program that methods are lifted from, and how. -/
structure Lifter where
  ofProgram ::
  image : Program
  options : Options := {}

namespace Lifter

def mk (image : Image) (options : Options) : Lifter := .ofProgram image options

/-! ## The pipeline -/

/-- The analyses, which run until they settle. -/
def analyses : List Pass :=
  [.fieldRecovery, .usageInlining, .literalInlining, .folding]

/-- Inlining, with folding of what it brings together. -/
def inlining : List Pass := [.variableInlining, .folding]

/-- The last steps. -/
def finishing : List Pass := [.structuring, .labelCount]

/-- Everything that happens to a method after its blocks are filled. -/
def passes (options : Options) : LiftM Unit := do
  let _ ← Pass.promotion.run 0
  let rounds ← Schedule.settle analyses options.maxAnalysisRounds
  modify fun ctx =>
    ctx.say .debug ("analysis settled after " ++ toString rounds ++ " changing rounds")
  if options.inlineToFixpoint then
    let _ ← Schedule.settle inlining options.maxInlineRounds
  else
    let _ ← Schedule.runOnce inlining
  let _ ← Schedule.runOnce finishing
  modify fun ctx => ctx.say .debug ctx.journal.events.summary

/-- A context as the result of a lift. -/
def finish (ctx : Context) : LiftedMethod where
  method := ctx.method.id
  name := ctx.method.fullName
  blocks := ctx.graph.blocks
  vars := ctx.vars
  events := ctx.journal.events

/-- Lifts a method whose blocks are known; also gives the log. -/
def runGraph (l : Lifter) (method : Method) (code : List Instruction) (g : Graph) :
    Except Error LiftedMethod × List LogLine :=
  match (Scope.fill ⟨l.image, method⟩ code g).run.run {} with
  | (.error e, journal) => (.error e, journal.log)
  | (.ok graph, journal) =>
    let start : Context :=
      { image := l.image, method, options := l.options, graph, journal }
    match (passes l.options).run.run start with
    | (.error e, ctx) => (.error e, ctx.journal.log)
    | (.ok (), ctx) => (.ok (finish ctx), ctx.journal.log)

/-- Lifts a method whose blocks may have failed to be found; also gives the log. -/
def run (l : Lifter) (method : Method) (code : List Instruction) :
    Except Error Graph → Except Error LiftedMethod × List LogLine
  | .error e => (.error e, [])
  | .ok g => l.runGraph method code g

/-! ## Containing failures -/

/-- What stands for a method that could not be lifted. -/
def faulty (method : Method) (text : String) : LiftedMethod where
  method := method.id
  name := method.fullName
  blocks :=
    [{ kind := .exit, statements := [{ expr := .comment ("lifting failed: " ++ text) }] }]
  events := [{ kind := .fault, message := text }]

/-- Puts a comment in the place of a lift that failed, and says so in the log. -/
def contain (method : Method) :
    Except Error LiftedMethod × List LogLine → LiftedMethod × List LogLine
  | (.ok lifted, log) => (lifted, log)
  | (.error e, log) =>
    (faulty method e.text,
      log ++ [⟨.warn, method.fullName ++ ": lifting failed: " ++ e.text⟩])

/-! ## Entry points -/

variable (l : Lifter)

/-- Lifts a method or says why it cannot be lifted; also gives the log. -/
def tryLiftLogged (method : Method) (code : List Instruction) :
    Except Error LiftedMethod × List LogLine :=
  l.run method code (Graph.ofCode code)

/-- Lifts a method or says why it cannot be lifted. -/
def tryLift (method : Method) (code : List Instruction) : Except Error LiftedMethod :=
  (l.tryLiftLogged method code).1

/-- Lifts a method; also gives the log. -/
def liftLogged (method : Method) (code : List Instruction) : LiftedMethod × List LogLine :=
  contain method (l.tryLiftLogged method code)

def lift (method : Method) (code : List Instruction) : LiftedMethod :=
  (l.liftLogged method code).1

/-- Lifts a method whose code is cut into given ranges; also gives the log. -/
def liftPartitionedLogged (method : Method) (code : List Instruction) (parts : List CodeRange) :
    LiftedMethod × List LogLine :=
  contain method (l.run method code (Graph.ofPartition code parts))

/-- Lifts a method whose code is cut into given ranges. -/
def liftPartitioned (method : Method) (code : List Instruction) (parts : List CodeRange) :
    LiftedMethod :=
  (l.liftPartitionedLogged method code parts).1

/-- Lifts methods, each by itself. -/
def liftAll (bodies : List MethodBody) : List LiftedMethod :=
  bodies.map fun b => l.lift b.method b.code

end Lifter

end MethodLift
