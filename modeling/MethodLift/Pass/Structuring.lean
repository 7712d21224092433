import MethodLift.Pass.Basic

/-!
# Structuring branches

A conditional jump whose taken target is reached from nowhere else becomes a structured
conditional: the target moves into its body. Where only the other successor is reached from
nowhere else, the condition is negated, that successor moves, and a jump to the taken target
follows the conditional. A moved block that ran into the next one gets a jump to it.

The absorptions are planned first, over all blocks in order: a block is absorbed at most once and
never into one that it absorbs itself. They are then carried out from the inside out.
-/

namespace MethodLift

namespace Structuring

def passName : String := "branches"

/-! ## Planning -/

/-- A block that moves into the conditional at the end of another one. -/
structure Absorption where
  owner : BlockId
  child : BlockId
  /-- The condition is negated, since the block is not the taken target. -/
  negated : Bool
deriving DecidableEq, Repr

/-- Absorptions in the order in which they were planned. -/
abbrev Plan := List Absorption

/-- The block that a block moves into. -/
def owner? (plan : Plan) (child : BlockId) : Option BlockId :=
  (plan.find? fun a => a.child == child).map (·.owner)

/-- A block moves into another one, directly or with blocks around it. Each step goes along
another absorption. -/
def isInside (plan : Plan) (outer : BlockId) : Nat → BlockId → Bool
  | 0, _ => false
  | steps + 1, inner =>
    match owner? plan inner with
    | none => false
    | some parent => parent == outer || isInside plan outer steps parent

/-- A block may move into the conditional of another one: it is not the entry, it does not move
elsewhere, it is reached from there only, and it does not contain the other one. -/
def canAbsorb (g : Graph) (plan : Plan) (owner child : BlockId) : Bool :=
  match g.block? child with
  | none => false
  | some b =>
    child != 0 && child != owner && (owner? plan child).isNone && b.predecessors == [owner] &&
      !isInside plan child plan.length owner

/-- The block ends in a conditional jump between two blocks. -/
def isCandidate (b : Block) : Bool :=
  b.taken?.isSome && b.fallthrough?.isSome && b.branch?.isSome

/-- Plans the conditional jump at the end of one block. -/
def planBlock (g : Graph) (plan : Plan) (b : Block) : Plan :=
  match b.taken?, b.fallthrough?, b.branch? with
  | some taken, some next, some _ =>
    if canAbsorb g plan b.id taken then plan ++ [⟨b.id, taken, false⟩]
    else if canAbsorb g plan b.id next then plan ++ [⟨b.id, next, true⟩]
    else plan
  | _, _, _ => plan

def plan (g : Graph) : Plan := g.blocks.foldl (planBlock g) []

/-- What planning leaves as the state of a block. A block that moves is absorbed, but one that is
planned itself after its owner was counts as retained. -/
def plannedState (plan : Plan) (b : Block) : BlockState :=
  match owner? plan b.id with
  | some owner => if isCandidate b && owner < b.id then .retained else .absorbed
  | none => .retained

def markBlocks (plan : Plan) (g : Graph) : Graph :=
  ⟨g.blocks.map fun b => { b with state := plannedState plan b }⟩

/-! ## Carrying out -/

/-- Appends the absorption of an owner behind the absorptions inside it, unless it is there. -/
def insideOut (plan : Plan) : Nat → Plan → BlockId → Plan
  | 0, done, _ => done
  | steps + 1, done, owner =>
    if done.any fun a => a.owner == owner then done
    else
      match plan.find? fun a => a.owner == owner with
      | none => done
      | some a => insideOut plan steps done a.child ++ [a]

/-- The absorptions of a plan, inner ones before the outer ones. -/
def order (plan : Plan) (g : Graph) : Plan :=
  (g.blocks.map fun b => b.id).foldl (insideOut plan plan.length) []

/-- The start of the block that a block runs into. -/
def resume? (g : Graph) (b : Block) : Option Nat :=
  let next := match b.kind with
    | .fallthrough => b.successors[0]?
    | .branch => b.successors[1]?
    | .jump | .exit => none
  (next.bind g.block?).map fun b => b.start

def negate : Expr → Expr
  | .compare kind left right =>
    match kind.negate? with
    | some kind => .compare kind left right
    | none => .complement (.compare kind left right)
  | .complement operand => operand
  | e => .complement e

/-- What stays behind of a block that moves. -/
def vacate (b : Block) : Block := { b with statements := [], ignored := true, state := .absorbed }

/-- A block as the body of a conditional: it leaves the conditional where it used to go on. -/
def asBody (g : Graph) (b : Block) : Block :=
  if b.endsInJump then b
  else
    match resume? g b with
    | some start => b.append (.jump start)
    | none => b

/-- Puts a body into the conditional jump at the end of its owner. -/
def nest (b : Block) (condition : Expr) (body : Block) (negated : Bool) (taken : Option Nat) :
    Block :=
  let test := if negated then negate condition else condition
  let b := b.setLast (.guarded test body.toBlockHead body.statements)
  match negated, taken with
  | true, some start => b.append (.jump start)
  | _, _ => b

def absorbed (a : Absorption) : Event where
  kind := .blockAbsorbed
  block := some a.child
  pass := some passName
  message :=
    "B" ++ toString a.child ++ " into B" ++ toString a.owner ++
      (if a.negated then " (negated)" else "")

def absorb (ctx : Context) (a : Absorption) : Context :=
  match ctx.graph.block? a.child with
  | none => ctx
  | some child =>
    let g := ctx.graph.modify a.child vacate
    let owner := g.block? a.owner
    match owner.bind fun b => b.branch? with
    | some (.jumpIf condition _) =>
      let taken := ((owner.bind fun b => b.taken?).bind g.block?).map fun b => b.start
      let body := asBody ctx.graph child
      let g := g.modify a.owner fun b => nest b condition body a.negated taken
      ({ ctx with graph := g }.say .trace
        ("absorbed B" ++ toString a.child ++ " into B" ++ toString a.owner)).record (absorbed a)
    | _ => { ctx with graph := g }

end Structuring

open Structuring in
/-- Turns conditional jumps into structured conditionals. -/
def Context.structureBranches (ctx : Context) : Context × Bool :=
  let planned := plan ctx.graph
  let marked := { ctx with graph := markBlocks planned ctx.graph }
  if planned.isEmpty then (marked, false)
  else ((order planned ctx.graph).foldl absorb marked, true)

def Pass.structuring : Pass :=
  .ofStep Structuring.passName "Structure single-predecessor branches" (·.enabled .structuring)
    Context.structureBranches

end MethodLift
