import MethodLift.Proofs.Expr.Parts

/-!
# Placeholders

What could not be lifted stands in an expression as a placeholder: an instruction without a rule, a
comparison that no jump tests, a function that is known by its address only. An event is recorded
for each of them. The *account* of a list of events are the kinds of those that stand for something
in the lifted method. Lifting instructions adds the placeholders that it leaves to the account, in
order, and nothing else.
-/

namespace MethodLift

/-- Something that was left unlifted, as it stands in an expression. -/
inductive Placeholder where
  | instruction (text : String)
  /-- The comparison itself goes on to change. -/
  | comparison
  | function (address : UInt64)
deriving DecidableEq, Repr

/-- The category of the event that is recorded for a placeholder. -/
def Placeholder.kind : Placeholder → EventKind
  | .instruction _ => .unsupportedInstruction
  | .comparison => .unresolvedCompare
  | .function _ => .unresolvedCall

/-! ## Placeholders of expressions -/

namespace Expr

def placeholder? : Expr → Option Placeholder
  | .unsupported text => some (.instruction text)
  | .compare .unresolved _ _ => some .comparison
  | .leaf (.address address) => some (.function address)
  | _ => none

/-- The placeholders in an expression, bodies included. -/
def placeholders (e : Expr) : List Placeholder := e.nodes.filterMap placeholder?

/-- The placeholders in an expression are its own and those of its parts. -/
theorem placeholders_eq (e : Expr) :
    e.placeholders = e.placeholder?.toList ++ e.parts.flatMap placeholders := by
  rw [placeholders, nodes_eq, List.filterMap_cons, List.filterMap_flatMap]
  cases e.placeholder? <;> rfl

/-- A placeholder has no parts, so exchanging parts makes and removes none. -/
theorem placeholder?_withParts (e : Expr) (ps : List Expr) :
    (e.withParts ps).placeholder? = e.placeholder? := by
  unfold withParts
  split
  case h_2 kind _ _ _ _ => cases kind <;> rfl
  all_goals rfl

/-- The placeholders of other parts come in the places of those of the parts. -/
theorem placeholders_withParts {e : Expr} {ps : List Expr}
    (h : List.Forall₂ (fun part part' => part'.placeholders = part.placeholders) e.parts ps) :
    (e.withParts ps).placeholders = e.placeholders := by
  rw [placeholders_eq, placeholders_eq e, placeholder?_withParts,
    parts_withParts h.length_eq.symm, flatMap_eq_of_forall₂ h fun _ _ heq => heq]

section Forms

variable {target value left right operand : Expr}

@[simp] theorem placeholders_register (name : String) : (register name).placeholders = [] := rfl
@[simp] theorem placeholders_assign :
    (assign target value).placeholders = value.placeholders ++ target.placeholders :=
  List.filterMap_append
@[simp] theorem placeholders_arith {op : ArithOp} :
    (arith op left right).placeholders = left.placeholders ++ right.placeholders :=
  List.filterMap_append
@[simp] theorem placeholders_complement :
    (complement operand).placeholders = operand.placeholders := rfl
@[simp] theorem placeholders_deref : (deref operand).placeholders = operand.placeholders := rfl
@[simp] theorem placeholders_member {field : Field} :
    (member operand field).placeholders = operand.placeholders := rfl
@[simp] theorem placeholders_jumpIf {t : Nat} :
    (jumpIf operand t).placeholders = operand.placeholders := rfl
@[simp] theorem placeholders_call {args : List Expr} {returns : Bool} :
    (call target args returns).placeholders =
      target.placeholders ++ args.flatMap placeholders := by
  rw [placeholders_eq]
  rfl
@[simp] theorem placeholders_guarded {head : BlockHead} {body : List Statement} :
    (guarded operand head body).placeholders =
      operand.placeholders ++ body.flatMap fun s => s.expr.placeholders := by
  rw [placeholders_eq, parts, List.flatMap_cons, List.flatMap_map]
  rfl

end Forms

end Expr

def Block.placeholders (b : Block) : List Placeholder :=
  b.statements.flatMap fun s => s.expr.placeholders

/-! ## Accounts -/

/-- Events of this category stand for something in the lifted method: a placeholder, an eliminated
statement or a block that moved. -/
def EventKind.isAccounted : EventKind → Bool
  | .unsupportedInstruction | .unresolvedCompare | .unresolvedCall | .variableInlined
  | .blockAbsorbed => true
  | _ => false

theorem Placeholder.isAccounted_kind (p : Placeholder) : p.kind.isAccounted = true := by
  cases p <;> rfl

/-- No placeholder is recorded in a category that stands for something else. -/
theorem Placeholder.count_kind_eq_zero {kind : EventKind} (h : ∀ p : Placeholder, p.kind ≠ kind)
    (ps : List Placeholder) : (ps.map Placeholder.kind).count kind = 0 := by
  refine List.count_eq_zero.mpr fun hmem => ?_
  obtain ⟨p, -, hp⟩ := List.mem_map.mp hmem
  exact h p hp

namespace Events

/-- The categories of the events that stand for something in the lifted method, in order. -/
def account (events : Events) : List EventKind :=
  (events.map fun e => e.kind).filter EventKind.isAccounted

@[simp] theorem account_append (es es' : Events) :
    (es ++ es').account = es.account ++ es'.account := by
  rw [account, List.map_append, List.filter_append]
  rfl

theorem account_eq_nil {es : Events} (h : ∀ e ∈ es, e.kind.isAccounted = false) :
    es.account = [] := by
  refine List.filter_eq_nil_iff.mpr fun kind hkind => ?_
  obtain ⟨e, he, rfl⟩ := List.mem_map.mp hkind
  rw [h e he]
  exact Bool.false_ne_true

/-- Events of one category stand in the account as often as they were recorded. -/
theorem account_eq_replicate {es : Events} {kind : EventKind} (h : ∀ e ∈ es, e.kind = kind)
    (hkind : kind.isAccounted = true) : es.account = List.replicate es.length kind := by
  have hkinds : es.map (fun e => e.kind) = List.replicate es.length kind :=
    List.map_eq_replicate_iff.mpr h
  rw [account, hkinds]
  simp [hkind]

/-- The account has as many entries of a category as there are events. -/
theorem count_account (es : Events) {kind : EventKind} (h : kind.isAccounted = true) :
    es.account.count kind = es.count kind := by
  rw [account, List.count_filter h, List.count_eq_countP, List.countP_map,
    List.countP_eq_length_filter]
  rfl

end Events

/-- The work adds placeholders to the account that are related to its result, and nothing else. -/
def Accounts {α : Type} (x : Recorder α) (R : α → List Placeholder → Prop) : Prop :=
  ∀ j, ∃ ps, R (x.run j).1 ps ∧
    (x.run j).2.events.account = j.events.account ++ ps.map Placeholder.kind

namespace Accounts

variable {α β : Type} {R : α → List Placeholder → Prop} {S : β → List Placeholder → Prop}

theorem pure {a : α} (h : R a []) : Accounts (Pure.pure a) R :=
  fun _ => ⟨[], h, (List.append_nil _).symm⟩

theorem bind {x : Recorder α} {f : α → Recorder β} (hx : Accounts x R)
    (hf : ∀ a ps, R a ps → Accounts (f a) fun b qs => S b (ps ++ qs)) : Accounts (x >>= f) S := by
  intro j
  obtain ⟨ps, hps, hj⟩ := hx j
  obtain ⟨qs, hqs, hj'⟩ := hf _ ps hps (x.run j).2
  refine ⟨ps ++ qs, hqs, hj'.trans ?_⟩
  rw [hj, List.map_append, List.append_assoc]

/-- An event for a placeholder. -/
theorem record {e : Event} {a : α} {p : Placeholder} (he : e.kind = p.kind) (h : R a [p]) :
    Accounts (do MethodLift.record e; Pure.pure a) R := by
  intro j
  refine ⟨[p], h, ?_⟩
  show (j.events ++ [e]).account = _
  rw [Events.account_append]
  simp [Events.account, he, p.isAccounted_kind]

/-- The log does not count. -/
theorem say {x : Recorder α} (hx : Accounts x R) (level : LogLevel) (message : String) :
    Accounts (do MethodLift.say level message; x) R :=
  fun j => hx (j.say level message)

end Accounts

/-! ## Lifting instructions -/

namespace Scope

open Expr

variable (s : Scope) (block : BlockId) (i : Instruction)

@[simp] theorem placeholders_stackPointer : s.stackPointer.placeholders = [] := rfl

@[simp] theorem placeholders_memoryAddress (m : MemoryRef) :
    (s.memoryAddress m).placeholders = [] :=
  s.memoryAddress_of (P := fun e => e.placeholders = []) (fun _ => rfl) (fun _ => rfl)
    (fun _ _ _ hl hr => by simp [hl, hr]) m

/-- Operands can always be lifted. -/
@[simp] theorem placeholders_operand (o : Operand) : (s.operand o).placeholders = [] := by
  cases o with
  | memory m => exact s.placeholders_memoryAddress m
  | _ => rfl

@[simp] theorem placeholders_addressOf (o : Operand) : (s.addressOf o).placeholders = [] := by
  cases o with
  | memory m => exact s.placeholders_memoryAddress m
  | _ => rfl

/-- The work records an event for each placeholder of the statement that it leads to. -/
abbrev Records (x : Recorder Expr) : Prop := Accounts x fun e ps => e.placeholders = ps

theorem records_placeholder : Records (s.placeholder block i) :=
  (Accounts.record rfl rfl).say _ _

theorem records_loneCompare (left right : Operand) :
    Records (s.loneCompare block i left right) := by
  refine (Accounts.record (p := .comparison) rfl ?_).say _ _
  rw [placeholders_eq]
  simp [parts, placeholder?]

theorem records_loneBranch (target : Nat) : Records (s.loneBranch block i target) :=
  (Accounts.record rfl rfl).say _ _

/-- An operation is lifted without a placeholder, or is one. -/
theorem records_arithmetic (op : ArithOp) : Records (s.arithmetic block i op) := by
  unfold arithmetic
  split
  · exact .pure (by simp)
  · exact .pure (by simp)
  · exact s.records_placeholder block i

/-- The placeholders of a call target are recorded, and arguments that it implies have none. -/
theorem accounts_callee (o : Operand) :
    Accounts (s.callee block i o) fun c ps =>
      c.target.placeholders = ps ∧ c.arguments.flatMap placeholders = [] := by
  have registers (names : List String) : (names.map Expr.register).flatMap placeholders = [] := by
    simp
  unfold callee
  split
  · exact .pure ⟨rfl, registers _⟩
  · exact .pure ⟨rfl, registers _⟩
  · dsimp only
    split
    · exact .pure ⟨rfl, registers _⟩
    · exact .pure ⟨rfl, registers _⟩
    · exact .record rfl ⟨rfl, rfl⟩
  · exact .pure ⟨s.placeholders_operand _, rfl⟩

/-- A call is lifted without a placeholder, or is one; a target that is not known is recorded apart
from it. -/
theorem records_call : Records (s.call block i) := by
  unfold call
  split
  · exact s.records_placeholder block i
  · rename_i first explicit _
    refine (s.accounts_callee block i first).bind fun c ps hc => .pure ?_
    obtain ⟨rfl, harguments⟩ := hc
    have hargs : (if explicit.isEmpty then c.arguments else explicit.map s.operand).flatMap
        placeholders = [] := by
      split
      · exact harguments
      · simp [List.flatMap_map]
    split
    · rw [placeholders_assign, placeholders_call, hargs, placeholders_register, List.append_nil]
    · rw [placeholders_call, hargs]

theorem placeholders_returnStatement : (s.returnStatement i).placeholders = [] := by
  unfold returnStatement
  split
  · exact s.placeholders_operand _
  · split <;> rfl

/-- Lifting an instruction records what it leaves unlifted. -/
theorem records_instruction : Records (s.instruction block i) := by
  have placeholder := s.records_placeholder block i
  unfold instruction
  cases i.mnemonic
  case move | signExtend | loadAddress | shiftStack =>
    dsimp only
    split
    · exact .pure (by simp)
    · exact placeholder
  case add | subtract | multiply | divide | shiftLeft | shiftRight | and | or | xor =>
    exact s.records_arithmetic block i _
  case not =>
    dsimp only
    split
    · exact .pure (by simp)
    · exact .pure (by simp)
    · exact placeholder
  case compare =>
    dsimp only
    split
    · exact s.records_loneCompare block i _ _
    · exact placeholder
  case jumpIfEqual | jumpIfNotEqual | jumpIfGreater | jumpIfGreaterOrEqual | jumpIfLess
      | jumpIfLessOrEqual =>
    dsimp only
    split
    · exact s.records_loneBranch block i _
    · exact placeholder
  case goto =>
    dsimp only
    split
    · split
      · exact placeholder
      · exact .pure rfl
    · exact placeholder
  case ret => exact .pure (s.placeholders_returnStatement i)
  case call | callNoReturn => exact s.records_call block i
  case exchange | push | pop | interrupt | notImplemented => exact placeholder

/-- A comparison with its jump is lifted as a whole, or is one placeholder for both. -/
theorem records_compareAndJump (compare jump : Instruction) :
    Records (s.compareAndJump block compare jump) := by
  unfold compareAndJump
  split
  · rename_i kind target left right hkind _ _
    refine .pure ?_
    have hresolved :
        (Expr.compare kind (s.operand left) (s.operand right)).placeholder? = none := by
      cases kind with
      | unresolved =>
        unfold Comparison.ofJump? at hkind
        split at hkind <;> cases hkind
      | _ => rfl
    rw [placeholders_jumpIf, placeholders_eq, hresolved]
    simp [parts]
  · exact .record rfl rfl

/-- The placeholders of a block are recorded in the order of its statements. The induction follows
the lifting: one or two instructions at a time. -/
theorem accounts_statements (part : List Instruction) :
    Accounts (s.statements block part) fun ss ps =>
      ss.flatMap (fun t => t.expr.placeholders) = ps := by
  have single : ∀ i, Accounts (s.statement block i) fun t ps => t.expr.placeholders = ps := by
    intro i
    refine (s.records_instruction block i).bind fun e ps he => .pure ?_
    rw [List.append_nil]
    exact he
  have next {t : Statement} {ps : List Placeholder} {rest : Recorder (List Statement)}
      (ht : t.expr.placeholders = ps)
      (hrest : Accounts rest fun ss ps => ss.flatMap (fun t => t.expr.placeholders) = ps) :
      Accounts (rest >>= fun ss => pure (t :: ss)) fun ss qs =>
        ss.flatMap (fun t => t.expr.placeholders) = ps ++ qs := by
    refine hrest.bind fun ss qs hss => .pure ?_
    rw [List.flatMap_cons, ht, hss, List.append_nil]
  fun_induction statements s block part with
  | case1 => exact .pure rfl
  | case2 i => exact (single i).bind fun t ps ht => .pure (by simp [ht])
  | case3 i following rest _ ih =>
    exact (s.records_compareAndJump block i following).bind fun e ps he => next he ih
  | case4 i following rest _ ih => exact (single i).bind fun t ps ht => next ht ih

/-- Filling blocks adds their placeholders to the account. -/
theorem account_fillBlocks {code : List Instruction} {blocks blocks' : List Block}
    {journal journal' : Journal}
    (h : (s.fillBlocks code blocks).run.run journal = (.ok blocks', journal')) :
    journal'.events.account =
      journal.events.account ++ (blocks'.flatMap Block.placeholders).map Placeholder.kind := by
  induction blocks generalizing blocks' journal with
  | nil =>
    cases h
    simp
  | cons b rest ih =>
    unfold fillBlocks at h
    split at h
    · cases h
    · rename_i part hpart
      obtain ⟨statements, j, hs, hrest⟩ := exists_of_run_bind_ok h
      obtain ⟨others, j', ho, hdone⟩ := exists_of_run_bind_ok hrest
      have haccounts := s.accounts_statements b.id part journal
      cases hs
      cases hdone
      obtain ⟨ps, rfl, hj⟩ := haccounts
      refine (ih ho).trans ((congrArg (· ++ _) hj).trans ?_)
      rw [List.append_assoc, ← List.map_append]
      rfl

/-- Filling a graph records what it leaves unlifted. -/
theorem account_fill {code : List Instruction} {g g' : Graph} {journal : Journal}
    (h : (s.fill code g).run.run {} = (.ok g', journal)) :
    journal.events.account = (g'.blocks.flatMap Block.placeholders).map Placeholder.kind := by
  obtain ⟨blocks, j, hb, h⟩ := exists_of_run_bind_ok h
  cases h
  exact s.account_fillBlocks hb

end Scope

end MethodLift
