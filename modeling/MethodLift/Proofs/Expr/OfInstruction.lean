import MethodLift.Expr.OfInstruction
import MethodLift.Proofs.Expr.Control

/-!
# What lifting instructions gives

Lifted statements are *raw*: they mention registers and no variables, assign at the top only, and
keep control at the top. An instruction whose flow is the one its mnemonic implies becomes a
statement with the control of the instruction. Filling a graph changes nothing but the statements
of its blocks.
-/

namespace MethodLift

namespace Expr

/-- The part may stand inside a lifted statement: it is no control, no assignment and no
variable. -/
@[simp] def isRaw : Expr → Bool
  | .leaf (.var _) | .assign _ _ => false
  | e => !e.isControl

/-- All parts may stand inside a lifted statement. -/
def Raw (e : Expr) : Prop := ∀ part ∈ e.nodes, part.isRaw = true

/-- The shape of lifted statements: raw below an assignment, a conditional jump or a return. -/
def Lifted : Expr → Prop
  | .assign target value => target.Raw ∧ value.Raw
  | .jumpIf condition _ => condition.Raw
  | .ret value => value.Raw
  | .jump _ | .retVoid => True
  | e => e.Raw

section Raw

variable {e target value left right operand : Expr}

@[simp] theorem raw_leaf {v : Leaf} : (leaf v).Raw ↔ (leaf v).isRaw = true := by
  simp [Raw, nodes]
@[simp] theorem raw_unsupported (text : String) : (unsupported text).Raw := by
  simp [Raw, nodes]
@[simp] theorem raw_compare {kind : Comparison} :
    (compare kind left right).Raw ↔ left.Raw ∧ right.Raw := by
  simp [Raw, nodes, or_imp, forall_and]
@[simp] theorem raw_arith {op : ArithOp} :
    (arith op left right).Raw ↔ left.Raw ∧ right.Raw := by
  simp [Raw, nodes, or_imp, forall_and]
@[simp] theorem raw_complement : (complement operand).Raw ↔ operand.Raw := by
  simp [Raw, nodes]
@[simp] theorem raw_deref : (deref operand).Raw ↔ operand.Raw := by
  simp [Raw, nodes]
@[simp] theorem raw_lane {index : Nat} : (lane operand index).Raw ↔ operand.Raw := by
  simp [Raw, nodes]
@[simp] theorem raw_call {args : List Expr} {returns : Bool} :
    (call target args returns).Raw ↔ target.Raw ∧ ∀ a ∈ args, a.Raw := by
  simp only [Raw, nodes, argumentNodes_eq, List.mem_cons, List.mem_append, List.mem_flatMap,
    or_imp, forall_and, forall_eq, isRaw, isControl, Bool.not_false, true_and]
  refine and_congr_right fun _ => ⟨?_, ?_⟩
  · intro h a ha part hp
    exact h part ⟨a, ha, hp⟩
  · rintro h part ⟨a, ha, hp⟩
    exact h a ha part hp

/-- What may stand inside a lifted statement decides nothing about control. -/
theorem Raw.plain (h : e.Raw) : e.Plain := by
  intro part hp
  have := h part hp
  cases part <;> simp_all

/-- Lifted statements are tidy: below the top they are raw. -/
theorem Lifted.tidy (h : e.Lifted) : e.Tidy := by
  cases e with
  | assign target value => exact (plain_assign.mpr ⟨h.1.plain, h.2.plain⟩).tidy
  | jumpIf condition target => exact Raw.plain h
  | ret value => exact Raw.plain h
  | jump target => trivial
  | retVoid => trivial
  | guarded condition head body =>
    have := h _ (self_mem_nodes _)
    simp at this
  | _ => exact (Raw.plain h).tidy

theorem Raw.lifted (h : e.Raw) : e.Lifted := by
  have := h _ (self_mem_nodes _)
  cases e <;> simp_all [Lifted]

end Raw

end Expr

/-- What an instruction does with control when its flow is the one its mnemonic implies. -/
def Instruction.control (i : Instruction) : Control :=
  match i.mnemonic.flow with
  | .branch => (i.target?.map .branch).getD .step
  | .jump => (i.target?.map .jump).getD .step
  | .ret => .leave
  | _ => .step

namespace Scope

open Expr

variable (s : Scope)

/-! ## Operands -/

@[simp] theorem raw_register (name : String) : (s.register name).Raw := by
  simp [register]

@[simp] theorem raw_stackPointer : s.stackPointer.Raw := by
  simp [stackPointer]

/-- What holds of registers and numbers, and of operations on what it holds of, holds of
addresses. -/
theorem memoryAddress_of {P : Expr → Prop} (hregister : ∀ name, P (s.register name))
    (himmediate : ∀ v, P (.immediate v))
    (harith : ∀ op left right, P left → P right → P (.arith op left right)) (m : MemoryRef) :
    P (s.memoryAddress m) := by
  have parts : ∀ e ∈ (m.base.map s.register).toList ++
      (if m.addend = 0 then [] else [Expr.immediate m.addend]) ++
      (m.index.map fun name =>
        if m.scale = 1 then s.register name
        else .arith .mul (s.register name) (.immediate m.scale)).toList, P e := by
    intro e he
    simp only [List.mem_append, Option.mem_toList, Option.map_eq_some_iff] at he
    rcases he with (⟨name, -, rfl⟩ | he) | ⟨name, -, rfl⟩
    · exact hregister name
    · split at he
      · simp at he
      · simp only [List.mem_singleton] at he
        subst he
        exact himmediate _
    · split
      · exact hregister name
      · exact harith _ _ _ (hregister name) (himmediate _)
  unfold memoryAddress
  dsimp only
  split
  · exact himmediate _
  · rename_i first rest heq
    rw [heq] at parts
    obtain ⟨hfirst, hrest⟩ := List.forall_mem_cons.mp parts
    exact List.foldlRecOn rest (.arith .add) hfirst fun sum hsum e he =>
      harith _ _ _ hsum (hrest e he)

@[simp] theorem raw_memoryAddress (m : MemoryRef) : (s.memoryAddress m).Raw :=
  s.memoryAddress_of (by simp) (by simp) (fun _ _ _ hl hr => raw_arith.mpr ⟨hl, hr⟩) m

@[simp] theorem raw_operand (o : Operand) : (s.operand o).Raw := by
  cases o <;> simp [operand, stackAddress]

@[simp] theorem raw_addressOf (o : Operand) : (s.addressOf o).Raw := by
  cases o <;> simp [addressOf, stackAddress]

/-! ## Instructions -/

/-- A statement has the shape of lifted code and a given control. -/
def Shaped (c : Control) (e : Expr) : Prop := e.Lifted ∧ e.control = c

/-- A placeholder passes control on. -/
theorem shaped_placeholder (block : BlockId) (i : Instruction) :
    Yields (s.placeholder block i) (Shaped .step) :=
  fun _ => ⟨raw_unsupported _, rfl⟩

/-- Whatever a call goes to, its target and its implied arguments are raw. -/
theorem raw_callee (block : BlockId) (i : Instruction) (o : Operand) :
    Yields (s.callee block i o) fun c => c.target.Raw ∧ ∀ a ∈ c.arguments, a.Raw := by
  have managed (m : Method) : (s.managedCallee m).target.Raw ∧
      ∀ a ∈ (s.managedCallee m).arguments, a.Raw := by
    simp [managedCallee]
  have runtime (f : RuntimeFunction) : (s.runtimeCallee f).target.Raw ∧
      ∀ a ∈ (s.runtimeCallee f).arguments, a.Raw := by
    refine ⟨by simp [runtimeCallee], fun a ha => ?_⟩
    obtain ⟨r, -, rfl⟩ := List.mem_map.mp ha
    simp
  have pointer {e : Expr} (h : e.Raw) : (s.pointerCallee e).target.Raw ∧
      ∀ a ∈ (s.pointerCallee e).arguments, a.Raw := by
    simp [pointerCallee, h]
  unfold callee
  split
  · exact .pure (managed _)
  · exact .pure (runtime _)
  · dsimp only
    split
    · exact .pure (managed _)
    · exact .pure (runtime _)
    · exact fun _ => pointer (by simp)
  · exact .pure (pointer (s.raw_operand _))

/-- A call passes control on. -/
theorem shaped_call (block : BlockId) (i : Instruction) :
    Yields (s.call block i) (Shaped .step) := by
  unfold call
  split
  · exact s.shaped_placeholder block i
  · rename_i first explicit _
    refine (s.raw_callee block i first).bind fun c hc => .pure ?_
    have hargs : ∀ a ∈ (if explicit.isEmpty then c.arguments else explicit.map s.operand),
        a.Raw := by
      split
      · exact hc.2
      · simp
    have hcall : ∀ returns, (Expr.call c.target
        (if explicit.isEmpty then c.arguments else explicit.map s.operand) returns).Raw :=
      fun _ => raw_call.mpr ⟨hc.1, hargs⟩
    split
    · exact ⟨⟨by simp, hcall _⟩, rfl⟩
    · exact ⟨(hcall _).lifted, rfl⟩

theorem shaped_arithmetic (block : BlockId) (i : Instruction) (op : ArithOp) :
    Yields (s.arithmetic block i op) (Shaped .step) := by
  unfold arithmetic
  split
  · exact .pure ⟨by simp [Lifted], rfl⟩
  · exact .pure ⟨by simp [Lifted], rfl⟩
  · exact s.shaped_placeholder block i

theorem shaped_returnStatement (i : Instruction) : Shaped .leave (s.returnStatement i) := by
  unfold returnStatement
  split
  · exact ⟨s.raw_operand _, rfl⟩
  · split
    · exact ⟨by simp [Lifted], rfl⟩
    · exact ⟨trivial, rfl⟩

/-- The shape of the statement of an instruction: its control is that of the instruction, as long
as its flow is implied. -/
def Follows (i : Instruction) (e : Expr) : Prop :=
  e.Lifted ∧ (i.flow = i.mnemonic.flow → e.control = i.control)

variable {s}

/-- Where the instruction goes on with the next one, it is enough that its statement does. -/
theorem Follows.of_step {i : Instruction} {x : Recorder Expr} (h : i.control = .step)
    (hx : Yields x (Shaped .step)) : Yields x (Follows i) :=
  hx.mono fun _ he => ⟨he.1, fun _ => he.2.trans h.symm⟩

/-- The statement of a conditional jump without comparison. -/
theorem follows_loneBranch {i : Instruction} {target : Nat} (block : BlockId)
    (h : i.control = .branch target) : Yields (s.loneBranch block i target) (Follows i) :=
  fun _ => ⟨raw_unsupported _, fun _ => h.symm⟩

variable (s)

/-- Lifting an instruction by itself keeps its control. -/
theorem follows_instruction (block : BlockId) (i : Instruction) :
    Yields (s.instruction block i) (Follows i) := by
  have placeholder := s.shaped_placeholder block i
  unfold instruction
  cases hm : i.mnemonic
  case ret =>
    refine .pure ⟨(s.shaped_returnStatement i).1, fun _ => ?_⟩
    rw [(s.shaped_returnStatement i).2]
    simp [Instruction.control, hm, Mnemonic.flow]
  case goto =>
    dsimp only
    split
    · rename_i t ht
      split
      · rename_i hindexed
        refine placeholder.mono fun e he => ⟨he.1, fun hflow => ?_⟩
        rw [hindexed, hm] at hflow
        cases hflow
      · exact .pure
          ⟨trivial, fun _ => by simp [Instruction.control, hm, Mnemonic.flow, ht, Expr.control]⟩
    · rename_i ht
      exact .of_step (by simp [Instruction.control, hm, Mnemonic.flow, ht]) placeholder
  case jumpIfEqual | jumpIfNotEqual | jumpIfGreater | jumpIfGreaterOrEqual | jumpIfLess
      | jumpIfLessOrEqual =>
    dsimp only
    split
    · rename_i t ht
      exact follows_loneBranch block (by simp [Instruction.control, hm, Mnemonic.flow, ht])
    · rename_i ht
      exact .of_step (by simp [Instruction.control, hm, Mnemonic.flow, ht]) placeholder
  -- All other instructions pass control on.
  all_goals refine .of_step (by simp [Instruction.control, hm, Mnemonic.flow]) ?_
  case move | signExtend | loadAddress | shiftStack =>
    dsimp only
    split
    · exact .pure ⟨⟨by simp, by simp⟩, rfl⟩
    · exact placeholder
  case add | subtract | multiply | divide | shiftLeft | shiftRight | and | or | xor =>
    exact s.shaped_arithmetic block i _
  case not =>
    dsimp only
    split
    · exact .pure ⟨⟨by simp, by simp⟩, rfl⟩
    · exact .pure ⟨⟨by simp, by simp⟩, rfl⟩
    · exact placeholder
  case compare =>
    dsimp only
    split
    · exact fun _ => ⟨raw_compare.mpr ⟨s.raw_operand _, s.raw_operand _⟩, rfl⟩
    · exact placeholder
  case call | callNoReturn => exact s.shaped_call block i
  case exchange | push | pop | interrupt | notImplemented => exact placeholder

/-- A comparison and a jump become a conditional jump, or a placeholder. -/
theorem follows_compareAndJump (block : BlockId) (compare jump : Instruction) :
    Yields (s.compareAndJump block compare jump) fun e =>
      e.Lifted ∧ (e.control = .step ∨
        ∃ target, jump.target? = some target ∧ e.control = .branch target) := by
  unfold compareAndJump
  split
  · rename_i kind target left right _ ht _
    exact .pure ⟨by simp [Lifted], .inr ⟨target, ht, rfl⟩⟩
  · exact fun _ => ⟨raw_unsupported _, .inl rfl⟩

/-! ## Lists of instructions -/

theorem step_of_not_endsBlock {i : Instruction} (h : i.endsBlock = false)
    (hflow : i.flow = i.mnemonic.flow) : i.control = .step ∧ i.mnemonic.isBranch = false := by
  simp only [Instruction.endsBlock, hflow, Bool.or_eq_false_iff, Bool.not_eq_false',
    Bool.or_eq_true, beq_iff_eq] at h
  rcases h.2 with h | h <;> simp [Instruction.control, Mnemonic.isBranch, h]

theorem follows_statement (block : BlockId) (i : Instruction) :
    Yields (s.statement block i) fun t => Follows i t.expr ∧ t.eliminated = false :=
  (s.follows_instruction block i).bind fun _ he => .pure ⟨he, rfl⟩

/-- Every statement of a lifted block is live and has the shape of lifted code. -/
theorem lifted_statements (block : BlockId) (part : List Instruction) :
    Yields (s.statements block part) fun ss =>
      ∀ t ∈ ss, t.expr.Lifted ∧ t.eliminated = false := by
  fun_induction statements s block part with
  | case1 => exact .pure (by simp)
  | case2 i =>
    refine (s.follows_statement block i).bind fun t ht => .pure ?_
    exact List.forall_mem_singleton.mpr ⟨ht.1.1, ht.2⟩
  | case3 i next rest _ ih =>
    refine (s.follows_compareAndJump block i next).bind fun e he => ih.bind fun ss hss => .pure ?_
    exact List.forall_mem_cons.mpr ⟨⟨he.1, rfl⟩, hss⟩
  | case4 i next rest _ ih =>
    refine (s.follows_statement block i).bind fun t ht => ih.bind fun ss hss => .pure ?_
    exact List.forall_mem_cons.mpr ⟨⟨ht.1.1, ht.2⟩, hss⟩

/-- The control that the statements of a block may end with, by the last instruction. A
conditional jump whose comparison makes no sense becomes a placeholder. -/
def EndsAs (last : Instruction) (c : Control) : Prop :=
  c = last.control ∨ last.mnemonic.isBranch = true ∧ c = .step

/-- The statements of a block end as its last instruction does. -/
theorem ends_statements (block : BlockId) {part : List Instruction} {last : Instruction}
    (hlast : part.getLast? = some last) (hflow : ∀ i ∈ part, i.flow = i.mnemonic.flow)
    (hinner : ∀ i ∈ part.dropLast, i.endsBlock = false) :
    Yields (s.statements block part) fun ss => ∃ c, Ends ss c ∧ EndsAs last c := by
  fun_induction statements s block part with
  | case1 => cases hlast
  | case2 i =>
    cases hlast
    refine (s.follows_statement block i).bind fun t ht => .pure ?_
    refine ⟨_, .single ht.2, .inl (ht.1.2 (hflow i List.mem_cons_self))⟩
  | case3 i next rest hfuse ih =>
    refine (s.follows_compareAndJump block i next).bind fun e he => ?_
    cases rest with
    | nil =>
      cases hlast
      refine .pure ⟨_, .single rfl, ?_⟩
      obtain hc | ⟨target, ht, hc⟩ := he.2
      · exact .inr ⟨hfuse.2, hc⟩
      · have hbranch : next.mnemonic.flow = .branch := by simpa [Mnemonic.isBranch] using hfuse.2
        exact .inl (hc.trans (by simp [Instruction.control, hbranch, ht]))
    | cons x rest =>
      -- The jump would end its block in the middle.
      have hno := hinner next (by simp)
      have := (step_of_not_endsBlock hno (hflow next (by simp))).2
      simp [this] at hfuse
  | case4 i next rest _ ih =>
    have hstep := step_of_not_endsBlock (hinner i (by simp)) (hflow i (by simp))
    refine (s.follows_statement block i).bind fun t ht => ?_
    refine (ih hlast (fun j hj => hflow j (List.mem_cons_of_mem i hj))
      (fun j hj => hinner j (List.mem_cons_of_mem i hj))).bind fun ss hss => .pure ?_
    obtain ⟨c, hends, has⟩ := hss
    exact ⟨c, .pass ((ht.1.2 (hflow i (by simp))).trans hstep.1) hends, has⟩

/-! ## Filling graphs -/

/-- A block with the statements of its part of the code. -/
def Filled (code : List Instruction) (b b' : Block) : Prop :=
  ∃ part journal, slice? code b.range = some part ∧
    b' = { b with statements := ((s.statements b.id part).run journal).1 }

/-- Blocks are filled one after the other, each from its part of the code. -/
theorem filled_fillBlocks {code : List Instruction} {blocks blocks' : List Block}
    {journal journal' : Journal}
    (h : (s.fillBlocks code blocks).run.run journal = (.ok blocks', journal')) :
    List.Forall₂ (s.Filled code) blocks blocks' := by
  induction blocks generalizing blocks' journal with
  | nil =>
    cases h
    exact .nil
  | cons b rest ih =>
    unfold fillBlocks at h
    split at h
    · cases h
    · rename_i part hpart
      obtain ⟨statements, j, hs, hrest⟩ := exists_of_run_bind_ok h
      obtain ⟨others, j', ho, hdone⟩ := exists_of_run_bind_ok hrest
      cases hs
      cases hdone
      exact .cons ⟨part, journal, hpart, rfl⟩ (ih ho)

/-- Filling a graph changes the statements of its blocks and nothing else. -/
theorem filled_fill {code : List Instruction} {g g' : Graph} {journal journal' : Journal}
    (h : (s.fill code g).run.run journal = (.ok g', journal')) :
    List.Forall₂ (s.Filled code) g.blocks g'.blocks := by
  obtain ⟨blocks, j, hb, h⟩ := exists_of_run_bind_ok h
  cases h
  exact s.filled_fillBlocks hb

end Scope

end MethodLift
