import Mathlib
import MethodLift.Proofs.Expr.Relabel
import MethodLift.Proofs.Machine.Arguments

/-!
# Canonical names everywhere

A canonical name is its own canonical spelling. What naming a register can give is a name of a
table, a letter with a small number, or a name that denotes no known register and stays as it is;
all of them are kept when they are named again.

Lifting names registers in three ways only: operands are named canonically, and the registers of the
calling convention and the stack pointer are canonical names from the start. So all registers in
lifted statements have canonical names.

Mathlib is imported whole for `Char.toLower_toLower_eq_toLower`: it is Batteries' own, and no
smaller part of Mathlib brings it.
-/

namespace MethodLift

namespace Register

/-- The name is its own canonical spelling. -/
def IsCanonical (isa : InstructionSet) (name : String) : Prop := canonical isa name = name

instance (isa : InstructionSet) (name : String) : Decidable (IsCanonical isa name) :=
  inferInstanceAs (Decidable (_ = _))

/-! ## Names on x86-64 -/

theorem toLower_toLower (name : String) : name.toLower.toLower = name.toLower := by
  rw [String.toLower, String.toLower, String.map_map]
  exact congrArg (String.map · name) (funext Char.toLower_toLower_eq_toLower)

theorem isCanonical_alias : ∀ entry ∈ x64Aliases, IsCanonical .x64 entry.1 := by
  decide +kernel

theorem isCanonical_numbered : ∀ n < 16, 8 ≤ n → IsCanonical .x64 ("r" ++ toString n) := by
  decide +kernel

/-- A numbered register is named by its number alone. -/
theorem x64Numbered?_eq_some {lower name : String} (h : x64Numbered? lower = some name) :
    ∃ n, 8 ≤ n ∧ n < 16 ∧ name = "r" ++ toString n := by
  unfold x64Numbered? at h
  split at h
  · split at h
    · rename_i n _
      split at h
      · rename_i hrange
        simp only [Bool.and_eq_true, decide_eq_true_eq] at hrange
        exact ⟨n, hrange.1, by omega, (Option.some.inj h).symm⟩
      · cases h
    · cases h
  · cases h

/-- On x86-64 a name comes from the table, is numbered, or stays in lower case; it is kept in all
three cases. -/
theorem isCanonical_canonicalX64 (name : String) : IsCanonical .x64 (canonicalX64 name) := by
  cases halias : x64Aliases.find? fun entry => entry.2.contains name.toLower with
  | some entry =>
    have hname : canonicalX64 name = entry.1 := by simp only [canonicalX64, halias]
    rw [hname]
    exact isCanonical_alias entry (List.mem_of_find?_eq_some halias)
  | none =>
    have hname : canonicalX64 name = (x64Numbered? name.toLower).getD name.toLower := by
      simp only [canonicalX64, halias]
    cases hnumber : x64Numbered? name.toLower with
    | some numbered =>
      obtain ⟨n, hlow, hhigh, rfl⟩ := x64Numbered?_eq_some hnumber
      rw [hname, hnumber]
      exact isCanonical_numbered n hhigh hlow
    | none =>
      -- The name stays in lower case, where it is looked up again with the same result.
      rw [hname, hnumber]
      show canonicalX64 name.toLower = name.toLower
      simp only [canonicalX64, toLower_toLower, halias, hnumber, Option.getD_none]

/-! ## Names on ARM64 -/

theorem isCanonical_banked :
    ∀ n < 32, IsCanonical .arm64 ("X" ++ toString n) ∧ IsCanonical .arm64 ("V" ++ toString n) := by
  decide +kernel

/-- On ARM64 a name stays, is that of the stack pointer, or is a letter with a number up to 31. -/
theorem isCanonical_canonicalArm64 (name : String) : IsCanonical .arm64 (canonicalArm64 name) := by
  suffices h : canonicalArm64 name = name ∨ canonicalArm64 name = "SP" ∨
      ∃ n < 32, canonicalArm64 name = "X" ++ toString n ∨ canonicalArm64 name = "V" ++ toString n by
    rcases h with h | h | ⟨n, hn, h | h⟩
    · exact congrArg canonicalArm64 h
    · rw [h]
      decide +kernel
    · rw [h]
      exact (isCanonical_banked n hn).1
    · rw [h]
      exact (isCanonical_banked n hn).2
  unfold canonicalArm64
  dsimp only
  split_ifs
  · exact .inr (.inl rfl)
  · split
    · exact .inl rfl
    · split
      · exact .inl rfl
      · rename_i n _
        split_ifs with hlarge hgeneral hvector
        · exact .inl rfl
        · exact .inr (.inr ⟨n, by omega, .inl rfl⟩)
        · exact .inr (.inr ⟨n, by omega, .inr rfl⟩)
        · exact .inl rfl

/-- Naming a register gives a canonical name. -/
theorem isCanonical_canonical (isa : InstructionSet) (name : String) :
    IsCanonical isa (canonical isa name) := by
  cases isa with
  | x64 => exact isCanonical_canonicalX64 name
  | arm64 => exact isCanonical_canonicalArm64 name

theorem isCanonical_stackPointer (isa : InstructionSet) : IsCanonical isa (stackPointer isa) := by
  cases isa <;> decide +kernel

end Register

open Register

/-! ## Registers of the calling convention -/

namespace Convention

def registers (c : Convention) : List String :=
  c.integer ++ c.float ++ [c.integerReturn, c.floatReturn]

theorem isCanonical_of_mem_registers {isa : InstructionSet} {r : String}
    (h : r ∈ (of isa).registers) : IsCanonical isa r := by
  have hall : ∀ isa, ∀ r ∈ (of isa).registers, IsCanonical isa r := by
    intro isa
    cases isa <;> decide +kernel
  exact hall isa r h

variable (c : Convention)

theorem returnRegister_mem (type : TypeRef) : c.returnRegister type ∈ c.registers := by
  unfold returnRegister
  split <;> simp [registers]

/-- Arguments are only passed in registers of the convention. -/
theorem mem_registers_of_assign {c : Convention} {types : List TypeRef} {r : String}
    (h : some r ∈ c.assign types) : r ∈ c.registers := by
  obtain ⟨k, hk⟩ := List.mem_iff_getElem?.mp h
  rw [getElem?_assign, Option.map_eq_some_iff] at hk
  obtain ⟨type, -, hr⟩ := hk
  have hbank : r ∈ c.bank type := List.mem_of_getElem? hr
  unfold bank at hbank
  split at hbank <;> simp [registers, hbank]

end Convention

/-! ## Expressions -/

namespace Expr

/-- All registers of the expression have canonical names. -/
def Canonical (isa : InstructionSet) (e : Expr) : Prop :=
  ∀ name, Leaf.register name ∈ e.leaves → IsCanonical isa name

section Canonical

variable {isa : InstructionSet} {target value left right operand : Expr}

@[simp] theorem canonical_register {name : String} :
    (Expr.register name).Canonical isa ↔ IsCanonical isa name := by
  simp [Canonical]
@[simp] theorem canonical_immediate (v : Int64) : (Expr.immediate v).Canonical isa := by
  simp [Canonical]
@[simp] theorem canonical_assign :
    (assign target value).Canonical isa ↔ target.Canonical isa ∧ value.Canonical isa := by
  simp [Canonical, or_imp, forall_and, and_comm]
@[simp] theorem canonical_compare {kind : Comparison} :
    (compare kind left right).Canonical isa ↔ left.Canonical isa ∧ right.Canonical isa := by
  simp [Canonical, or_imp, forall_and]
@[simp] theorem canonical_arith {op : ArithOp} :
    (arith op left right).Canonical isa ↔ left.Canonical isa ∧ right.Canonical isa := by
  simp [Canonical, or_imp, forall_and]
@[simp] theorem canonical_complement :
    (complement operand).Canonical isa ↔ operand.Canonical isa := by
  simp [Canonical]
@[simp] theorem canonical_deref : (deref operand).Canonical isa ↔ operand.Canonical isa := by
  simp [Canonical]
@[simp] theorem canonical_lane {index : Nat} :
    (lane operand index).Canonical isa ↔ operand.Canonical isa := by
  simp [Canonical]
@[simp] theorem canonical_jumpIf {t : Nat} :
    (jumpIf operand t).Canonical isa ↔ operand.Canonical isa := by
  simp [Canonical]
@[simp] theorem canonical_ret : (ret operand).Canonical isa ↔ operand.Canonical isa := by
  simp [Canonical]
@[simp] theorem canonical_jump (t : Nat) : (jump t).Canonical isa := by
  simp [Canonical]
@[simp] theorem canonical_retVoid : retVoid.Canonical isa := by
  simp [Canonical]
@[simp] theorem canonical_unsupported (text : String) : (unsupported text).Canonical isa := by
  simp [Canonical]

/-- A call that is lifted names registers canonically, be its arguments named or implied. -/
@[simp] theorem canonical_call {args : List Expr} {returns : Bool} :
    (call target args returns).Canonical isa ↔
      target.Canonical isa ∧ ∀ a ∈ args, a.Canonical isa := by
  simp only [Canonical, leaves_call, List.mem_append, List.mem_flatMap, or_imp, forall_and]
  refine and_congr_right fun _ => ⟨fun h a ha name hname => h name ⟨a, ha, hname⟩, ?_⟩
  rintro h name ⟨a, ha, hname⟩
  exact h a ha name hname

end Canonical

end Expr

/-! ## Lifted statements -/

namespace Scope

open MethodLift.Expr

variable (s : Scope)

@[simp] theorem canonical_scopeRegister (name : String) : (s.register name).Canonical s.isa :=
  canonical_register.mpr (isCanonical_canonical s.isa name)

@[simp] theorem canonical_stackPointer : s.stackPointer.Canonical s.isa :=
  canonical_register.mpr (isCanonical_stackPointer s.isa)

theorem canonical_of_mem_registers {r : String} (h : r ∈ s.convention.registers) :
    (Expr.register r).Canonical s.isa :=
  canonical_register.mpr (Convention.isCanonical_of_mem_registers h)

@[simp] theorem canonical_memoryAddress (m : MemoryRef) : (s.memoryAddress m).Canonical s.isa :=
  s.memoryAddress_of s.canonical_scopeRegister canonical_immediate
    (fun _ _ _ hl hr => canonical_arith.mpr ⟨hl, hr⟩) m

@[simp] theorem canonical_operand (o : Operand) : (s.operand o).Canonical s.isa := by
  cases o with
  | target index => simp [operand, Canonical]
  | method m => simp [operand, Canonical]
  | runtime f => simp [operand, Canonical]
  | _ => simp [operand, stackAddress]

@[simp] theorem canonical_addressOf (o : Operand) : (s.addressOf o).Canonical s.isa := by
  cases o <;> simp [addressOf, stackAddress]

/-- A call target whose registers, arguments and result have canonical names. -/
structure CanonicalCallee (c : Callee) : Prop where
  target : c.target.Canonical s.isa
  result : c.result ∈ s.convention.registers
  arguments : ∀ a ∈ c.arguments, a.Canonical s.isa

theorem canonicalCallee_managed (m : Method) : s.CanonicalCallee (s.managedCallee m) where
  target := by simp [managedCallee, Canonical]
  result := s.convention.returnRegister_mem m.returns
  arguments a ha := by
    obtain ⟨r, hr, rfl⟩ := List.mem_map.mp ha
    obtain ⟨_, hassigned, rfl⟩ := List.mem_filterMap.mp hr
    have hassigned := (List.takeWhile_prefix _).subset hassigned
    exact s.canonical_of_mem_registers (Convention.mem_registers_of_assign hassigned)

theorem canonicalCallee_runtime (f : RuntimeFunction) : s.CanonicalCallee (s.runtimeCallee f) where
  target := by simp [runtimeCallee, Canonical]
  result := by simp [runtimeCallee, Convention.registers]
  arguments a ha := by
    obtain ⟨r, hr, rfl⟩ := List.mem_map.mp ha
    have hr := List.mem_of_mem_take hr
    exact s.canonical_of_mem_registers (by simp [Convention.registers, hr])

theorem canonicalCallee_pointer {target : Expr} (h : target.Canonical s.isa) :
    s.CanonicalCallee (s.pointerCallee target) where
  target := h
  result := by simp [pointerCallee, Convention.registers]
  arguments := by simp [pointerCallee]

/-- Whatever a call goes to, it names registers canonically. -/
theorem canonicalCallee_callee (block : BlockId) (i : Instruction) (o : Operand) :
    Yields (s.callee block i o) s.CanonicalCallee := by
  unfold callee
  split
  · exact .pure (s.canonicalCallee_managed _)
  · exact .pure (s.canonicalCallee_runtime _)
  · dsimp only
    split
    · exact .pure (s.canonicalCallee_managed _)
    · exact .pure (s.canonicalCallee_runtime _)
    · exact fun _ => s.canonicalCallee_pointer (by simp [Canonical])
  · exact .pure (s.canonicalCallee_pointer (s.canonical_operand _))

theorem canonical_placeholder (block : BlockId) (i : Instruction) :
    Yields (s.placeholder block i) (Canonical s.isa) :=
  fun _ => canonical_unsupported _

theorem canonical_call (block : BlockId) (i : Instruction) :
    Yields (s.call block i) (Canonical s.isa) := by
  unfold call
  split
  · exact s.canonical_placeholder block i
  · rename_i first explicit _
    refine (s.canonicalCallee_callee block i first).bind fun c hc => .pure ?_
    have hargs : ∀ a ∈ (if explicit.isEmpty then c.arguments else explicit.map s.operand),
        a.Canonical s.isa := by
      split
      · exact hc.arguments
      · simp
    have hcall : ∀ returns, (Expr.call c.target
        (if explicit.isEmpty then c.arguments else explicit.map s.operand) returns).Canonical
          s.isa :=
      fun _ => Expr.canonical_call.mpr ⟨hc.target, hargs⟩
    split
    · exact canonical_assign.mpr ⟨s.canonical_of_mem_registers hc.result, hcall _⟩
    · exact hcall _

/-- A return names the operand or the register of the result. -/
theorem canonical_returnStatement (i : Instruction) : (s.returnStatement i).Canonical s.isa := by
  unfold returnStatement
  split
  · exact canonical_ret.mpr (s.canonical_operand _)
  · split
    · exact canonical_ret.mpr (s.canonical_of_mem_registers (s.convention.returnRegister_mem _))
    · exact canonical_retVoid

theorem canonical_arithmetic (block : BlockId) (i : Instruction) (op : ArithOp) :
    Yields (s.arithmetic block i op) (Canonical s.isa) := by
  unfold arithmetic
  split
  · exact .pure (by simp)
  · exact .pure (by simp)
  · exact s.canonical_placeholder block i

/-- The statement of an instruction has canonical names only. -/
theorem canonical_instruction (block : BlockId) (i : Instruction) :
    Yields (s.instruction block i) (Canonical s.isa) := by
  have placeholder := s.canonical_placeholder block i
  unfold instruction
  cases i.mnemonic
  case ret => exact .pure (s.canonical_returnStatement i)
  case call | callNoReturn => exact s.canonical_call block i
  case add | subtract | multiply | divide | shiftLeft | shiftRight | and | or | xor =>
    exact s.canonical_arithmetic block i _
  case move | signExtend | loadAddress | shiftStack =>
    dsimp only
    split
    · exact .pure (by simp)
    · exact placeholder
  case not =>
    dsimp only
    split
    · exact .pure (by simp)
    · exact .pure (by simp)
    · exact placeholder
  case compare =>
    dsimp only
    split
    · exact fun _ => canonical_compare.mpr ⟨s.canonical_operand _, s.canonical_operand _⟩
    · exact placeholder
  case goto =>
    dsimp only
    split
    · split
      · exact placeholder
      · exact .pure (canonical_jump _)
    · exact placeholder
  case jumpIfEqual | jumpIfNotEqual | jumpIfGreater | jumpIfGreaterOrEqual | jumpIfLess
      | jumpIfLessOrEqual =>
    dsimp only
    split
    · exact fun _ => canonical_jumpIf.mpr (canonical_unsupported _)
    · exact placeholder
  case exchange | push | pop | interrupt | notImplemented => exact placeholder

theorem canonical_compareAndJump (block : BlockId) (compare jump : Instruction) :
    Yields (s.compareAndJump block compare jump) (Canonical s.isa) := by
  unfold compareAndJump
  split
  · exact .pure (by simp)
  · exact fun _ => canonical_unsupported _

theorem canonical_statement (block : BlockId) (i : Instruction) :
    Yields (s.statement block i) fun t => t.expr.Canonical s.isa :=
  (s.canonical_instruction block i).bind fun _ he => .pure he

/-- All statements of a block name registers canonically. The induction follows the lifting: one or
two instructions at a time. -/
theorem canonical_statements (block : BlockId) (part : List Instruction) :
    Yields (s.statements block part) fun ss => ∀ t ∈ ss, t.expr.Canonical s.isa := by
  fun_induction statements s block part with
  | case1 => exact .pure (List.forall_mem_nil _)
  | case2 i =>
    refine (s.canonical_statement block i).bind fun t ht => .pure ?_
    exact List.forall_mem_singleton.mpr ht
  | case3 i next rest _ ih =>
    refine (s.canonical_compareAndJump block i next).bind fun e he => ih.bind fun ss hss => .pure ?_
    exact List.forall_mem_cons.mpr ⟨he, hss⟩
  | case4 i next rest _ ih =>
    refine (s.canonical_statement block i).bind fun t ht => ih.bind fun ss hss => .pure ?_
    exact List.forall_mem_cons.mpr ⟨ht, hss⟩

end Scope

/-- Register names are canonical everywhere. Naming a register again changes nothing, and every
register in the statements of a block is its own canonical spelling, whatever the instructions, the
program and the method are. -/
theorem Register.canonical_everywhere :
    (∀ isa name, canonical isa (canonical isa name) = canonical isa name) ∧
    ∀ (s : Scope) (block : BlockId) (part : List Instruction) (journal : Journal),
      ∀ t ∈ ((s.statements block part).run journal).1, ∀ name,
        Leaf.register name ∈ t.expr.leaves → canonical s.isa name = name :=
  ⟨isCanonical_canonical, fun s block part => s.canonical_statements block part⟩

/-- A load through registers under other names than their canonical ones, and a call. -/
def aliased : List Instruction :=
  [⟨0, .move, [.register "W3", .memory ⟨some "sp", 24, some "w+07", 8⟩], .next⟩,
    ⟨1, .call, [.method wide], .call⟩]

def aliasedLeaves : List (List Leaf) :=
  (((wideScope .arm64).statements 0 aliased).run {}).1.map fun t => t.expr.leaves

/-- The index of the load is written with a sign, a leading zero and half the width, and is named
in full all the same. -/
theorem Register.canonical_everywhere_aliased :
    (∃ leaves ∈ aliasedLeaves, Leaf.register "X7" ∈ leaves) ∧ canonical .arm64 "X7" = "X7" := by
  have hleaves : ∃ leaves ∈ aliasedLeaves, Leaf.register "X7" ∈ leaves := by decide +kernel
  refine ⟨hleaves, ?_⟩
  obtain ⟨_, hmem, hregister⟩ := hleaves
  obtain ⟨t, ht, rfl⟩ := List.mem_map.mp hmem
  exact canonical_everywhere.2 (wideScope .arm64) 0 aliased {} t ht "X7" hregister

end MethodLift
