import MethodLift.Expr.Basic

/-!
# Basic blocks
-/

namespace MethodLift

/-- A block: its head and its statements. -/
structure Block extends BlockHead where
  statements : List Statement := []

namespace Block

def live (b : Block) : List Statement := b.statements.filter fun s => !s.eliminated

def taken? (b : Block) : Option BlockId :=
  if b.kind = .branch then b.successors[0]? else none

/-- The block after a conditional jump that is not taken. -/
def fallthrough? (b : Block) : Option BlockId :=
  if b.kind = .branch then b.successors[1]? else none

def last? (b : Block) : Option Expr := b.live.getLast?.map (·.expr)

/-- The conditional jump at the end of the block. -/
def branch? (b : Block) : Option Expr :=
  match b.last? with
  | some (.jumpIf condition target) => some (.jumpIf condition target)
  | _ => none

/-- The last live statement leaves the block for good. -/
def endsInJump (b : Block) : Bool :=
  match b.last? with
  | some (.jump _) | some (.ret _) | some .retVoid => true
  | _ => false

/-- Puts an expression in the place of the last live one. -/
def replaceLast (e : Expr) : List Statement → List Statement
  | [] => []
  | s :: rest =>
    if rest.any (fun r => !r.eliminated) then s :: replaceLast e rest
    else if s.eliminated then s :: rest
    else { s with expr := e } :: rest

/-- Puts an expression in the place of the last live statement. -/
def setLast (b : Block) (e : Expr) : Block := { b with statements := replaceLast e b.statements }

/-- Appends a statement that comes from no instruction. -/
def append (b : Block) (e : Expr) : Block :=
  { b with statements := b.statements ++ [{ expr := e }] }

section Live

variable {m : Type → Type} [Monad m]

/-- Replaces the expression of every live statement, in order. -/
def mapLiveM (f : Statement → m Expr) (b : Block) : m Block := do
  let statements ← b.statements.mapM fun s =>
    if s.eliminated then pure s else do
      let e ← f s
      pure { s with expr := e }
  pure { b with statements }

end Live

end Block

end MethodLift
