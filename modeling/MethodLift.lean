import MethodLift.Block.Basic
import MethodLift.Block.Graph
import MethodLift.Block.Head
import MethodLift.Block.Partition
import MethodLift.Code.Instruction
import MethodLift.Code.Listing
import MethodLift.Code.Operand
import MethodLift.Error
import MethodLift.Expr.Basic
import MethodLift.Expr.Leaf
import MethodLift.Expr.OfInstruction
import MethodLift.Expr.Operator
import MethodLift.Expr.Traversal
import MethodLift.Journal
import MethodLift.Machine.Convention
import MethodLift.Machine.InstructionSet
import MethodLift.Machine.Register
import MethodLift.Options
import MethodLift.Pass.Basic
import MethodLift.Pass.FieldRecovery
import MethodLift.Pass.Folding
import MethodLift.Pass.LabelCount
import MethodLift.Pass.LiteralInlining
import MethodLift.Pass.Promotion
import MethodLift.Pass.Schedule
import MethodLift.Pass.Structuring
import MethodLift.Pass.UsageInlining
import MethodLift.Pass.VariableInlining
import MethodLift.Pipeline.Cache
import MethodLift.Pipeline.Lift
import MethodLift.Program.Basic
import MethodLift.Program.Image
import MethodLift.Program.Literal
import MethodLift.Program.Method
import MethodLift.Program.RuntimeFunction
import MethodLift.Program.TypeDef
import MethodLift.Program.TypeRef
import MethodLift.Program.Usage
import MethodLift.Proofs.Analyses.Derivations
import MethodLift.Proofs.Analyses.Fields
import MethodLift.Proofs.Analyses.FixedPoint
import MethodLift.Proofs.Analyses.Folding
import MethodLift.Proofs.Analyses.Legend
import MethodLift.Proofs.Analyses.Narrowing
import MethodLift.Proofs.Analyses.Stores
import MethodLift.Proofs.Block.Acceptance
import MethodLift.Proofs.Block.DepthFirst
import MethodLift.Proofs.Block.Edits
import MethodLift.Proofs.Block.Execution
import MethodLift.Proofs.Block.Flat
import MethodLift.Proofs.Block.Layout
import MethodLift.Proofs.Block.Linking
import MethodLift.Proofs.Block.Preorder
import MethodLift.Proofs.Block.Running
import MethodLift.Proofs.Block.Steps
import MethodLift.Proofs.Expr.Addresses
import MethodLift.Proofs.Expr.Control
import MethodLift.Proofs.Expr.Evaluation
import MethodLift.Proofs.Expr.Jumps
import MethodLift.Proofs.Expr.Mimicry
import MethodLift.Proofs.Expr.OfInstruction
import MethodLift.Proofs.Expr.Placeholders
import MethodLift.Proofs.Inlining.Accounting
import MethodLift.Proofs.Inlining.Convergence
import MethodLift.Proofs.Inlining.Counting
import MethodLift.Proofs.Inlining.Definitions
import MethodLift.Proofs.Inlining.Discipline
import MethodLift.Proofs.Inlining.Elimination
import MethodLift.Proofs.Inlining.Following
import MethodLift.Proofs.Inlining.Roles
import MethodLift.Proofs.Inlining.Soundness
import MethodLift.Proofs.Inlining.Targets
import MethodLift.Proofs.Machine.Arguments
import MethodLift.Proofs.Machine.Banks
import MethodLift.Proofs.Machine.Canonical
import MethodLift.Proofs.Pass.LabelCount
import MethodLift.Proofs.Pass.Placeholders
import MethodLift.Proofs.Pass.Rewriting
import MethodLift.Proofs.Pass.Schedule
import MethodLift.Proofs.Pipeline.Accounting
import MethodLift.Proofs.Pipeline.Conservation
import MethodLift.Proofs.Pipeline.Elimination
import MethodLift.Proofs.Pipeline.Faults
import MethodLift.Proofs.Pipeline.Labels
import MethodLift.Proofs.Program.Stored
import MethodLift.Proofs.Promotion.Entry
import MethodLift.Proofs.Promotion.Fresh
import MethodLift.Proofs.Promotion.Isolation
import MethodLift.Proofs.Promotion.Names
import MethodLift.Proofs.Promotion.Origins
import MethodLift.Proofs.Promotion.Renaming
import MethodLift.Proofs.Promotion.Scoping
import MethodLift.Proofs.Structuring.Accounting
import MethodLift.Proofs.Structuring.Bodies
import MethodLift.Proofs.Structuring.Gathering
import MethodLift.Proofs.Structuring.Jumps
import MethodLift.Proofs.Structuring.Nesting
import MethodLift.Proofs.Structuring.Ownership
import MethodLift.Proofs.Structuring.Plan
import MethodLift.Proofs.Structuring.Repetition
import MethodLift.Proofs.Structuring.Simulation
import MethodLift.Proofs.Text.Layout
import MethodLift.Proofs.Text.Listing
import MethodLift.Proofs.Text.Readback
import MethodLift.Table
import MethodLift.Text.Buffer
import MethodLift.Text.CodePoints
import MethodLift.Text.Combining
import MethodLift.Text.Digits
import MethodLift.Text.Invisible
import MethodLift.Text.Quoted
import MethodLift.Text.Source
import MethodLift.Variable
