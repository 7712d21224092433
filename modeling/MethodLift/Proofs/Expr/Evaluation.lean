import MethodLift.Proofs.Expr.Relabel

/-!
# Evaluating statements

What statements do, over any type of values. A `Machine` says how values are compared and combined;
memory, calls and everything that could not be lifted are answered by oracles, which may look at all
that happened before. An environment holds the registers and the variables, and a log takes down
what happens outside of it, together with the value of every part of an expression in the order of
evaluation.

The value of an assignment is evaluated before its place. A place that is no register, variable,
lane, memory access or member cannot be written to; it is evaluated and nothing is stored.
-/

namespace MethodLift

/-- Something that can be seen from outside of a method. -/
inductive Effect (V : Type) where
  | load (address : V)
  | loadField (object : V) (field : Field)
  | store (address value : V)
  | storeField (object : V) (field : Field) (value : V)
  | call (target : V) (arguments : List V)
  | branch (taken : Bool)
  | leave (value : Option V)
  /-- Something that could not be lifted. -/
  | unknown (text : String)
deriving DecidableEq, Repr

/-- What happened, oldest first. -/
abbrev History (V : Type) := List (Effect V)

/-- The meaning of values, and the answers of the world outside. -/
structure Machine (V : Type) where
  /-- Stands for the value of what has none. -/
  void : V
  constant : Leaf → V
  compare : Comparison → V → V → V
  arith : ArithOp → V → V → V
  complement : V → V
  lane : V → Nat → V
  /-- Replaces one lane of a vector. -/
  setLane : V → Nat → V → V
  truth : V → Bool
  load : History V → V → V
  loadField : History V → V → Field → V
  call : History V → V → List V → V
  unknown : History V → String → V

/-- Registers and variables. -/
structure Env (V : Type) where
  regs : String → V
  vars : VarId → V

/-- What was noted during an execution. -/
structure Log (V : Type) where
  history : History V := []
  /-- The values of all parts that were evaluated, oldest first. -/
  values : List V := []
deriving DecidableEq, Repr

/-- How a statement passes control on. -/
inductive Outcome where
  | next
  | jump
  | leave
deriving DecidableEq, Repr

/-- Registers and variables stand for something in the environment. -/
def Leaf.isLocal : Leaf → Bool
  | .register _ | .var _ => true
  | _ => false

/-- The place is a part of the environment. -/
def Expr.isLocal : Expr → Bool
  | .leaf v => v.isLocal
  | .lane (.leaf v) _ => v.isLocal
  | _ => false

variable {V : Type}

namespace Env

def setReg (env : Env V) (r : String) (x : V) : Env V :=
  { env with regs := fun s => if s = r then x else env.regs s }

def setVar (env : Env V) (v : VarId) (x : V) : Env V :=
  { env with vars := fun w => if w = v then x else env.vars w }

@[simp] theorem setReg_vars (env : Env V) (r : String) (x : V) :
    (env.setReg r x).vars = env.vars := rfl
@[simp] theorem setVar_regs (env : Env V) (v : VarId) (x : V) :
    (env.setVar v x).regs = env.regs := rfl
@[simp] theorem setReg_self (env : Env V) (r : String) (x : V) : (env.setReg r x).regs r = x :=
  if_pos rfl
@[simp] theorem setVar_self (env : Env V) (v : VarId) (x : V) : (env.setVar v x).vars v = x :=
  if_pos rfl

theorem setReg_of_ne (env : Env V) {r r' : String} (x : V) (h : r' ≠ r) :
    (env.setReg r x).regs r' = env.regs r' :=
  if_neg h

theorem setVar_of_ne (env : Env V) {v v' : VarId} (x : V) (h : v' ≠ v) :
    (env.setVar v x).vars v' = env.vars v' :=
  if_neg h

end Env

namespace Log

/-- Takes down a value and gives it. -/
def note (x : V) : StateM (Log V) V := fun l => (x, { l with values := l.values ++ [x] })

/-- Takes down an effect. -/
def tell (e : Effect V) : StateM (Log V) Unit := fun l =>
  ((), { l with history := l.history ++ [e] })

/-- An effect whose value depends on what happened before. -/
def answer (e : Effect V) (oracle : History V → V) : StateM (Log V) V := fun l =>
  (oracle l.history,
    { history := l.history ++ [e], values := l.values ++ [oracle l.history] })

end Log

/-! ## Expressions -/

namespace Machine

variable (m : Machine V) (env : Env V)

def leaf : Leaf → V
  | .register r => env.regs r
  | .var v => env.vars v
  | other => m.constant other

mutual

/-- Evaluates an expression. Assignments, jumps and conditionals have no value. -/
def eval : Expr → StateM (Log V) V
  | .leaf v => Log.note (m.leaf env v)
  | .compare kind left right => do
    let left ← eval left
    let right ← eval right
    Log.note (m.compare kind left right)
  | .arith op left right => do
    let left ← eval left
    let right ← eval right
    Log.note (m.arith op left right)
  | .complement operand => do
    let operand ← eval operand
    Log.note (m.complement operand)
  | .lane vector index => do
    let vector ← eval vector
    Log.note (m.lane vector index)
  | .deref address => do
    let address ← eval address
    Log.answer (.load address) fun h => m.load h address
  | .member object field => do
    let object ← eval object
    Log.answer (.loadField object field) fun h => m.loadField h object field
  | .call target arguments _ => do
    let target ← eval target
    let arguments ← evalArguments arguments
    Log.answer (.call target arguments) fun h => m.call h target arguments
  | .unsupported text => Log.answer (.unknown text) fun h => m.unknown h text
  | _ => pure m.void

/-- Evaluates the arguments of a call from left to right. -/
def evalArguments : List Expr → StateM (Log V) (List V)
  | [] => pure []
  | e :: rest => do
    let e ← eval e
    let rest ← evalArguments rest
    pure (e :: rest)

end

/-! ## Statements -/

/-- Evaluates the condition of a jump and takes down whether the jump is taken. -/
def takes (condition : Expr) : StateM (Log V) Bool := do
  let x ← m.eval env condition
  Log.tell (.branch (m.truth x))
  pure (m.truth x)

/-- Executes a statement that is no assignment. -/
def perform : Expr → StateM (Log V) Outcome
  | .jump _ => pure .jump
  | .jumpIf condition _ => do
    let taken ← m.takes env condition
    pure (if taken then .jump else .next)
  | .ret value => do
    let x ← m.eval env value
    Log.tell (.leave (some x))
    pure .leave
  | .retVoid => do
    Log.tell (.leave none)
    pure .leave
  | e => do
    let _ ← m.eval env e
    pure .next

/-- Stores a value outside of the environment. -/
def store (x : V) : Expr → StateM (Log V) Unit
  | .deref address => do
    let address ← m.eval env address
    Log.tell (.store address x)
  | .member object field => do
    let object ← m.eval env object
    Log.tell (.storeField object field x)
  | e => do
    let _ ← m.eval env e
    pure ()

/-- Writes a value to a place. -/
def write (x : V) : Expr → StateM (Log V) (Env V)
  | .leaf (.register r) => pure (env.setReg r x)
  | .leaf (.var v) => pure (env.setVar v x)
  | .lane (.leaf (.register r)) index => pure (env.setReg r (m.setLane (env.regs r) index x))
  | .lane (.leaf (.var v)) index => pure (env.setVar v (m.setLane (env.vars v) index x))
  | place => do
    m.store env x place
    pure env

/-- Writing to a place outside the environment stores the value there. -/
theorem write_of_not_local {x : V} {place : Expr} (h : place.isLocal = false) :
    m.write env x place = (m.store env x place >>= fun _ => pure env) := by
  cases place with
  | leaf v =>
    cases v with
    | register r => cases h
    | var v => cases h
    | _ => rfl
  | lane vector index =>
    cases vector with
    | leaf v =>
      cases v with
      | register r => cases h
      | var v => cases h
      | _ => rfl
    | _ => rfl
  | _ => rfl

def exec : Expr → StateM (Log V) (Outcome × Env V)
  | .assign place value => do
    let x ← m.eval env value
    let env ← m.write env x place
    pure (.next, env)
  | e => do
    let flow ← m.perform env e
    pure (flow, env)

/-- What is no assignment leaves the environment as it is. -/
theorem exec_of_ne_assign {e : Expr} (h : ∀ place value, e ≠ .assign place value) :
    m.exec env e = (m.perform env e >>= fun o => pure (o, env)) := by
  cases e with
  | assign place value => exact absurd rfl (h place value)
  | _ => rfl

/-- Executes statements one after the other, wherever they pass control to. -/
def runThrough : List Expr → Env V → StateM (Log V) (Env V)
  | [], env => pure env
  | e :: rest, env => do
    let env ← Prod.snd <$> m.exec env e
    runThrough rest env

theorem runThrough_append (es es' : List Expr) (env : Env V) :
    m.runThrough (es ++ es') env = m.runThrough es env >>= m.runThrough es' := by
  induction es generalizing env with
  | nil => rfl
  | cons e rest ih =>
    rw [List.cons_append, runThrough, runThrough, bind_assoc]
    exact bind_congr fun env => ih env

/-! ## Relabelled statements -/

section Relabel

variable {m env} {env' : Env V} {φ : Leaf → Leaf} {e : Expr}

/-- Arguments that have the same values one by one have them in a row. -/
theorem evalArguments_relabel {args : List Expr}
    (h : ∀ a ∈ args, m.eval env' (a.relabel φ) = m.eval env a) :
    m.evalArguments env' (args.map (Expr.relabel φ)) = m.evalArguments env args := by
  induction args with
  | nil => rfl
  | cons a rest ih =>
    rw [List.map_cons, evalArguments, evalArguments, h a List.mem_cons_self,
      ih fun b hb => h b (List.mem_cons_of_mem a hb)]

/-- Leaves with the same values make expressions with the same values. -/
theorem eval_relabel (h : ∀ v ∈ e.leaves, m.leaf env' (φ v) = m.leaf env v) :
    m.eval env' (e.relabel φ) = m.eval env e := by
  induction e with
  | leaf v => rw [Expr.relabel_leaf, eval, eval, h v (by simp)]
  | call target args returns ht ha =>
    simp only [Expr.leaves_call, List.mem_append, List.mem_flatMap] at h
    have hargs := evalArguments_relabel fun a hmem =>
      ha a hmem fun v hv => h v (.inr ⟨a, hmem, hv⟩)
    rw [Expr.relabel_call, eval, eval, hargs, ht fun v hv => h v (.inl hv)]
  | guarded condition head body => rw [Expr.relabel_guarded]; rfl
  | compare kind left right hl hr | arith op left right hl hr =>
    simp only [Expr.leaves_compare, Expr.leaves_arith, List.mem_append] at h
    simp only [Expr.relabel_compare, Expr.relabel_arith, eval]
    rw [hl fun v hv => h v (.inl hv), hr fun v hv => h v (.inr hv)]
  | complement operand ih | deref operand ih | member operand field ih | lane operand index ih =>
    simp only [Expr.relabel_complement, Expr.relabel_deref, Expr.relabel_member,
      Expr.relabel_lane, eval]
    rw [ih h]
  | _ => rfl

/-- A condition is decided the same way under a relabelling that keeps the values of its leaves. -/
theorem takes_relabel (h : ∀ v ∈ e.leaves, m.leaf env' (φ v) = m.leaf env v) :
    m.takes env' (e.relabel φ) = m.takes env e := by
  rw [takes, takes, eval_relabel h]

/-- A statement does the same under a relabelling that keeps the values of its leaves. -/
theorem perform_relabel (h : ∀ v ∈ e.leaves, m.leaf env' (φ v) = m.leaf env v) :
    m.perform env' (e.relabel φ) = m.perform env e := by
  have heval := eval_relabel h
  cases e with
  | jumpIf condition target =>
    simp only [Expr.relabel_jumpIf, perform]
    rw [takes_relabel (e := condition) h]
  | ret value =>
    simp only [Expr.relabel_ret, perform]
    rw [eval_relabel (e := value) h]
  | jump target => rfl
  | retVoid => rfl
  | call target args returns =>
    simp only [Expr.relabel_call] at heval ⊢
    simp only [perform, heval]
  | guarded condition head body =>
    simp only [Expr.relabel_guarded] at heval ⊢
    simp only [perform, heval]
  | _ => exact congrArg (fun x => do let _ ← x; pure Outcome.next) heval

/-- A relabelling that keeps leaves local keeps places local. -/
theorem isLocal_relabel (hφ : ∀ v, (φ v).isLocal = v.isLocal) (e : Expr) :
    (e.relabel φ).isLocal = e.isLocal := by
  cases e with
  | leaf v => exact hφ v
  | lane vector index =>
    cases vector with
    | leaf v => exact hφ v
    | call target args returns => rw [Expr.relabel_lane, Expr.relabel_call]; rfl
    | guarded condition head body => rw [Expr.relabel_lane, Expr.relabel_guarded]; rfl
    | _ => rfl
  | call target args returns => rw [Expr.relabel_call]; rfl
  | guarded condition head body => rw [Expr.relabel_guarded]; rfl
  | _ => rfl

/-- A store goes to the same place under a relabelling that keeps the values of its leaves. -/
theorem store_relabel {x : V} (h : ∀ v ∈ e.leaves, m.leaf env' (φ v) = m.leaf env v) :
    m.store env' x (e.relabel φ) = m.store env x e := by
  have heval := eval_relabel h
  cases e with
  | deref address =>
    simp only [Expr.relabel_deref, store]
    rw [eval_relabel (e := address) h]
  | member object field =>
    simp only [Expr.relabel_member, store]
    rw [eval_relabel (e := object) h]
  | call target args returns =>
    simp only [Expr.relabel_call] at heval ⊢
    simp only [store, heval]
  | guarded condition head body =>
    simp only [Expr.relabel_guarded] at heval ⊢
    simp only [store, heval]
  | _ => exact congrArg (fun x => do let _ ← x; pure ()) heval

end Relabel

end Machine

/-- A machine on numbers whose memory and calls give zero. -/
def numbers : Machine Int where
  void := 0
  constant
    | .immediate x => x.toInt
    | _ => 0
  compare _ x y := if x = y then 1 else 0
  arith _ x y := x + y
  complement x := -x
  lane x _ := x
  setLane _ _ y := y
  truth x := x ≠ 0
  load _ _ := 0
  loadField _ _ _ := 0
  call _ _ _ := 0
  unknown _ _ := 0

end MethodLift
