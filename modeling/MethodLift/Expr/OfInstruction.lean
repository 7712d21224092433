import MethodLift.Block.Graph
import MethodLift.Expr.Basic
import MethodLift.Journal
import MethodLift.Machine.Convention
import MethodLift.Machine.Register
import MethodLift.Program.Basic

/-!
# Lifting instructions

Every instruction becomes one statement, except that a comparison and the conditional jump right
after it become one together. Registers are named canonically, memory operands become accesses at
an address, and calls are resolved against the program. What has no lifting rule becomes a
placeholder.
-/

namespace MethodLift

/-- What lifting an instruction depends on. -/
structure Scope where
  image : Program
  method : Method

namespace Scope

variable (s : Scope)

def isa : InstructionSet := s.image.isa

def convention : Convention := Convention.of s.isa

/-! ## Operands -/

/-- A register under its canonical name. -/
def register (name : String) : Expr := .register (Register.canonical s.isa name)

def stackPointer : Expr := .register (Register.stackPointer s.isa)

/-- The address of a memory operand: the base, the addend and the scaled index, added from left
to right without the parts that are missing. -/
def memoryAddress (m : MemoryRef) : Expr :=
  let base := (m.base.map s.register).toList
  let addend := if m.addend = 0 then [] else [.immediate m.addend]
  let index := (m.index.map fun name =>
    if m.scale = 1 then s.register name
    else .arith .mul (s.register name) (.immediate m.scale)).toList
  match base ++ addend ++ index with
  | [] => .immediate m.addend
  | first :: rest => rest.foldl (.arith .add) first

def stackAddress (offset : Int64) : Expr := .arith .add s.stackPointer (.immediate offset)

def operand : Operand → Expr
  | .immediate value => .immediate value
  | .register name => s.register name
  | .memory m => .deref (s.memoryAddress m)
  | .stack offset => .deref (s.stackAddress offset)
  | .target index => .leaf (.label index)
  | .method m => .leaf (.method m)
  | .runtime f => .leaf (.runtime f)
  | .lane name index => .lane (s.register name) index

/-- The address of an operand in memory; other operands stand for themselves. -/
def addressOf : Operand → Expr
  | .memory m => s.memoryAddress m
  | .stack offset => s.stackAddress offset
  | other => s.operand other

/-! ## Calls -/

/-- A call target, with what is known about it. -/
structure Callee where
  target : Expr
  /-- The call leaves a value. -/
  returns : Bool := true
  /-- The register that receives the value. -/
  result : String
  /-- The arguments, when the instruction names none. -/
  arguments : List Expr := []

/-- The registers up to the first argument that has none. -/
def passedRegisters (m : Method) : List String :=
  ((s.convention.assign m.passedTypes).takeWhile Option.isSome).filterMap id

def managedCallee (m : Method) : Callee where
  target := .leaf (.method m)
  returns := m.returnsValue
  result := s.convention.returnRegister m.returns
  arguments := (s.passedRegisters m).map .register

def runtimeCallee (f : RuntimeFunction) : Callee where
  target := .leaf (.runtime f)
  returns := f.returnsValue && !f.isJumpLike
  result := s.convention.integerReturn
  arguments := (s.convention.integer.take f.argumentCount).map .register

/-- Anything else is called through a pointer. -/
def pointerCallee (target : Expr) : Callee where
  target
  result := s.convention.integerReturn

/-- Resolves a call target. An address that belongs to no known function is recorded. -/
def callee (block : BlockId) (i : Instruction) : Operand → Recorder Callee
  | .method m => pure (s.managedCallee m)
  | .runtime f => pure (s.runtimeCallee f)
  | .immediate value =>
    let address := value.toUInt64
    match s.image.methodAt? address, s.image.runtimeFunctionAt? address with
    | some m, _ => pure (s.managedCallee m)
    | none, some f => pure (s.runtimeCallee f)
    | none, none => do
      record
        { kind := .unresolvedCall
          block := some block
          instruction := some i.index
          message := "call to unknown address " ++ hexAddress address }
      pure (s.pointerCallee (.leaf (.address address)))
  | other => pure (s.pointerCallee (s.operand other))

/-! ## Instructions -/

/-- The placeholder of an instruction without lifting rule. -/
def placeholder (block : BlockId) (i : Instruction) : Recorder Expr := do
  say .debug (s.method.fullName ++ ": no lifting rule for " ++ i.render)
  record
    { kind := .unsupportedInstruction
      block := some block
      instruction := some i.index
      message := i.render }
  pure (.unsupported (i.mnemonic.name ++ " " ++ i.renderOperands))

/-- A call. Named arguments take the place of the implied ones, and a value that comes back goes
to its register. -/
def call (block : BlockId) (i : Instruction) : Recorder Expr :=
  match i.operands with
  | [] => s.placeholder block i
  | first :: explicit => do
    let callee ← s.callee block i first
    let arguments := if explicit.isEmpty then callee.arguments else explicit.map s.operand
    let returns := callee.returns && i.mnemonic != .callNoReturn
    let expr := .call callee.target arguments returns
    pure (if returns then .assign (.register callee.result) expr else expr)

/-- A return: of the named operand, or of the register that holds the method's result. -/
def returnStatement (i : Instruction) : Expr :=
  match i.operands with
  | value :: _ => .ret (s.operand value)
  | [] =>
    if s.method.returnsValue then
      .ret (.register (s.convention.returnRegister s.method.returns))
    else .retVoid

/-- A comparison without a conditional jump right after it. -/
def loneCompare (block : BlockId) (i : Instruction) (left right : Operand) : Recorder Expr := do
  say .warn
    (s.method.fullName ++ ": compare at " ++ toString i.index ++
      " has no consuming conditional jump")
  record { kind := .unresolvedCompare, block := some block, instruction := some i.index }
  pure (.compare .unresolved (s.operand left) (s.operand right))

/-- A conditional jump without a comparison right before it. -/
def loneBranch (block : BlockId) (i : Instruction) (target : Nat) : Recorder Expr := do
  say .warn
    (s.method.fullName ++ ": conditional jump at " ++ toString i.index ++
      " has no preceding compare")
  record
    { kind := .unsupportedInstruction
      block := some block
      instruction := some i.index
      message := i.render ++ " without compare" }
  pure (.jumpIf (.unsupported ("condition flags of " ++ i.mnemonic.name)) target)

/-- An operation on two operands and a destination, or on a destination and one operand. -/
def arithmetic (block : BlockId) (i : Instruction) (op : ArithOp) : Recorder Expr :=
  match i.operands with
  | [target, left, right] =>
    pure (.assign (s.operand target) (.arith op (s.operand left) (s.operand right)))
  | [target, value] =>
    pure (.assign (s.operand target) (.arith op (s.operand target) (s.operand value)))
  | _ => s.placeholder block i

def instruction (block : BlockId) (i : Instruction) : Recorder Expr :=
  match i.mnemonic with
  | .move | .signExtend =>
    match i.operands with
    | [target, value] => pure (.assign (s.operand target) (s.operand value))
    | _ => s.placeholder block i
  | .loadAddress =>
    match i.operands with
    | [target, value] => pure (.assign (s.operand target) (s.addressOf value))
    | _ => s.placeholder block i
  | .add => s.arithmetic block i .add
  | .subtract => s.arithmetic block i .sub
  | .multiply => s.arithmetic block i .mul
  | .divide => s.arithmetic block i .div
  | .shiftLeft => s.arithmetic block i .shl
  | .shiftRight => s.arithmetic block i .shr
  | .and => s.arithmetic block i .and
  | .or => s.arithmetic block i .or
  | .xor => s.arithmetic block i .xor
  | .not =>
    match i.operands with
    | [target] => pure (.assign (s.operand target) (.complement (s.operand target)))
    | [target, value] => pure (.assign (s.operand target) (.complement (s.operand value)))
    | _ => s.placeholder block i
  | .compare =>
    match i.operands with
    | [left, right] => s.loneCompare block i left right
    | _ => s.placeholder block i
  | .jumpIfEqual | .jumpIfNotEqual | .jumpIfGreater | .jumpIfGreaterOrEqual | .jumpIfLess
  | .jumpIfLessOrEqual =>
    match i.target? with
    | some target => s.loneBranch block i target
    | none => s.placeholder block i
  | .goto =>
    match i.target? with
    | some target => if i.flow = .indexed then s.placeholder block i else pure (.jump target)
    | none => s.placeholder block i
  | .ret => pure (s.returnStatement i)
  | .call | .callNoReturn => s.call block i
  | .shiftStack =>
    match i.operands with
    | [amount] => pure (.assign s.stackPointer (.arith .add s.stackPointer (s.operand amount)))
    | _ => s.placeholder block i
  | .exchange | .push | .pop | .interrupt | .notImplemented => s.placeholder block i

/-- Lifts a comparison together with the conditional jump after it. -/
def compareAndJump (block : BlockId) (compare jump : Instruction) : Recorder Expr :=
  match Comparison.ofJump? jump.mnemonic, jump.target?, compare.operands with
  | some kind, some target, [left, right] =>
    pure (.jumpIf (.compare kind (s.operand left) (s.operand right)) target)
  | _, _, _ => do
    let text := compare.render ++ "; " ++ jump.render
    record
      { kind := .unsupportedInstruction
        block := some block
        instruction := some jump.index
        message := text }
    pure (.unsupported text)

def statement (block : BlockId) (i : Instruction) : Recorder Statement := do
  let expr ← s.instruction block i
  pure { expr, source := some i.index }

/-- Lifts the instructions of a block in order. -/
def statements (block : BlockId) : List Instruction → Recorder (List Statement)
  | [] => pure []
  | [i] => do
    let statement ← s.statement block i
    pure [statement]
  | i :: next :: rest =>
    if i.mnemonic = .compare ∧ next.mnemonic.isBranch then do
      let expr ← s.compareAndJump block i next
      let others ← statements block rest
      pure ({ expr, source := some next.index } :: others)
    else do
      let statement ← s.statement block i
      let others ← statements block (next :: rest)
      pure (statement :: others)

/-! ## Blocks -/

/-- The instructions of a range, unless the range reaches outside the code. -/
def slice? (code : List Instruction) (r : CodeRange) : Option (List Instruction) :=
  if r.start ≤ r.stop ∧ r.stop ≤ code.length then some ((code.drop r.start).take r.length)
  else none

/-- Fills blocks with the statements of their code, up to the first block that claims code which
does not exist. -/
def fillBlocks (code : List Instruction) : List Block → ExceptT Error Recorder (List Block)
  | [] => pure []
  | b :: rest =>
    match slice? code b.range with
    | none => throw (.rangeOutside b.toBlockHead code.length)
    | some part => do
      let statements ← s.statements b.id part
      let others ← fillBlocks code rest
      pure ({ b with statements } :: others)

/-- Fills every block of a graph with the statements of its code. -/
def fill (code : List Instruction) (g : Graph) : ExceptT Error Recorder Graph := do
  let blocks ← s.fillBlocks code g.blocks
  pure { blocks }

end Scope

end MethodLift
