import MethodLift.Expr.OfInstruction
import MethodLift.Proofs.Promotion.Entry
import Mathlib.Data.List.Infix

/-!
# Arguments at both ends of a call

A convention gives each argument a place in the bank of its kind: its own position where both banks
advance together, else the number of arguments of the same kind before it. A call that names no
arguments passes the registers up to the first argument without one, and the entry of a method binds
the registers of all arguments that have one. So what a call passes is the beginning of what the
entry binds. It is all of it unless an argument that finds its bank used up is followed by one that
does not, which takes two banks that are used up independently.
-/

namespace MethodLift

/-! ## Registers by place -/

namespace Convention

def bank (c : Convention) (type : TypeRef) : List String :=
  if type.isFloat then c.float else c.integer

/-- How many arguments of the same kind come before one. -/
def rank (types : List TypeRef) (k : Nat) (type : TypeRef) : Nat :=
  (types.take k).countP fun t => t.isFloat == type.isFloat

/-- The place of an argument in the bank of its kind, when others have been passed before. -/
def placeFrom (c : Convention) (ints floats : Nat) (types : List TypeRef) (k : Nat)
    (type : TypeRef) : Nat :=
  if c.positional then ints + floats + k
  else (if type.isFloat then floats else ints) + rank types k type

variable {c : Convention} {types : List TypeRef}

theorem rank_succ (first : TypeRef) (types : List TypeRef) (k : Nat) (type : TypeRef) :
    rank (first :: types) (k + 1) type =
      rank types k type + (first.isFloat == type.isFloat).toNat := by
  rw [rank, List.take_succ_cons, List.countP_cons, rank]
  cases first.isFloat == type.isFloat <;> rfl

/-- An argument takes one place of its own bank, and one of both where they advance together. -/
theorem placeFrom_succ (c : Convention) (ints floats : Nat) (first : TypeRef)
    (types : List TypeRef) (k : Nat) (type : TypeRef) :
    c.placeFrom ints floats (first :: types) (k + 1) type =
      if first.isFloat then c.placeFrom ints (floats + 1) types k type
      else c.placeFrom (ints + 1) floats types k type := by
  unfold placeFrom
  rw [rank_succ]
  cases c.positional <;> cases first.isFloat <;> cases type.isFloat <;> simp <;> omega

/-- The register of an argument is looked up in the bank of its kind, at a place that the arguments
before it decide. -/
theorem getElem?_assignFrom (c : Convention) (ints floats : Nat) (types : List TypeRef) (k : Nat) :
    (c.assignFrom ints floats types)[k]? =
      types[k]?.map fun type => (c.bank type)[c.placeFrom ints floats types k type]? := by
  induction types generalizing ints floats k with
  | nil => rfl
  | cons first rest ih =>
    rw [assignFrom]
    cases k with
    | zero =>
      cases hfloat : first.isFloat <;> cases hc : c.positional <;>
        simp [bank, placeFrom, rank, hfloat, hc]
    | succ k =>
      simp only [placeFrom_succ, List.getElem?_cons_succ]
      split
      · exact ih ints (floats + 1) k
      · exact ih (ints + 1) floats k

/-- The register of an argument stands at its place in the bank of its kind. -/
theorem getElem?_assign (c : Convention) (types : List TypeRef) (k : Nat) :
    (c.assign types)[k]? =
      types[k]?.map fun type => (c.bank type)[c.placeFrom 0 0 types k type]? :=
  c.getElem?_assignFrom 0 0 types k

end Convention

/-! ## Lists with missing elements -/

section Gaps

variable {α : Type} {l : List (Option α)}

/-- Nothing comes after something that is missing. -/
def Gapless (l : List (Option α)) : Prop := l.Pairwise fun a b => a = none → b = none

/-- What comes before the first that is missing is a beginning of all. -/
theorem filterMap_takeWhile_prefix (l : List (Option α)) :
    (l.takeWhile Option.isSome).filterMap id <+: l.filterMap id :=
  (List.takeWhile_prefix _).filterMap id

/-- Stopping at the first that is missing loses nothing exactly if nothing comes after it. -/
theorem filterMap_takeWhile_eq_iff :
    (l.takeWhile Option.isSome).filterMap id = l.filterMap id ↔ Gapless l := by
  induction l with
  | nil => exact iff_of_true rfl .nil
  | cons first rest ih =>
    rw [Gapless, List.pairwise_cons]
    cases first with
    | none =>
      show [] = rest.filterMap id ↔ _
      constructor
      · intro h
        have hrest := filterMap_takeWhile_prefix rest
        rw [← h, List.prefix_nil] at hrest
        exact ⟨fun b hb _ => List.filterMap_eq_nil_iff.mp h.symm b hb, ih.mp (hrest.trans h)⟩
      · rintro ⟨h, -⟩
        exact (List.filterMap_eq_nil_iff.mpr fun b hb => h b hb rfl).symm
    | some a =>
      refine (List.cons_inj_right a).trans (ih.trans ⟨fun h => ⟨?_, h⟩, And.right⟩)
      rintro b - ⟨⟩

end Gaps

/-! ## What the entry binds -/

namespace Promotion

/-- Seeding appends the variables to the table, in order. -/
theorem entries_seed (vars : Variables) (vs : List Variable) :
    (seed vars vs).1.entries = vars.entries ++ vs := by
  unfold seed
  generalize ({} : Bindings) = bindings
  induction vs generalizing vars bindings with
  | nil => exact (List.append_nil _).symm
  | cons v rest ih =>
    rw [List.foldl_cons, ih]
    exact List.append_assoc _ [v] rest

/-- Seeding binds the registers of the variables, and no others. -/
theorem isSome_get?_seed (vars : Variables) (vs : List Variable) (r : String) :
    ((seed vars vs).2.get? r).isSome = true ↔ r ∈ vs.map (·.register) := by
  have hstart : (({} : Bindings).get? r).isSome = true ↔ r ∈ ([] : List String) :=
    iff_of_false Bool.false_ne_true List.not_mem_nil
  suffices h : ∀ (bindings : Bindings) (bound : List String),
      ((bindings.get? r).isSome = true ↔ r ∈ bound) →
      (((vs.foldl (fun s v => (s.1.insert v, s.2.insert v.register s.1.size))
        (vars, bindings)).2.get? r).isSome = true ↔ r ∈ bound ++ vs.map (·.register)) from
    h {} [] hstart
  clear hstart
  induction vs generalizing vars with
  | nil =>
    intro bindings bound h
    rwa [List.map_nil, List.append_nil]
  | cons v rest ih =>
    intro bindings bound h
    rw [List.foldl_cons, List.map_cons, List.append_cons]
    refine ih _ _ _ ?_
    rw [List.mem_append, List.mem_singleton, ← h]
    by_cases hr : r = v.register
    · subst hr
      exact iff_of_true (by rw [Table.get?_insert_self]; rfl) (.inr rfl)
    · rw [Table.get?_insert_of_ne _ _ hr]
      exact (or_iff_left hr).symm

end Promotion

/-! ## What a call passes -/

/-- The arguments of a call, whether its value is kept or not. -/
def Expr.callArguments? : Expr → Option (List Expr)
  | .call _ arguments _ | .assign _ (.call _ arguments _) => some arguments
  | _ => none

namespace Method

/-- An argument that comes after eight others of its kind is followed by one that comes after less
than eight of its own. -/
def Overtakes (m : Method) : Prop :=
  ∃ j k a b, j < k ∧ m.passedTypes[j]? = some a ∧ m.passedTypes[k]? = some b ∧
    8 ≤ Convention.rank m.passedTypes j a ∧ Convention.rank m.passedTypes k b < 8

end Method

namespace Convention

/-- An argument has no register exactly if its bank is used up. -/
theorem getElem?_assign_eq_none_iff (c : Convention) {types : List TypeRef} {k : Nat}
    {type : TypeRef} (htype : types[k]? = some type) :
    (c.assign types)[k]? = some none ↔
      (c.bank type).length ≤ c.placeFrom 0 0 types k type := by
  rw [getElem?_assign, htype, Option.map_some, Option.some_inj]
  exact List.getElem?_eq_none_iff

/-- Arguments without a register come last exactly if no bank is used up for an argument before
another one whose bank is not. -/
theorem gapless_assign_iff (c : Convention) (types : List TypeRef) :
    Gapless (c.assign types) ↔ ∀ j k a b, j < k → types[j]? = some a → types[k]? = some b →
      (c.bank a).length ≤ c.placeFrom 0 0 types j a →
      (c.bank b).length ≤ c.placeFrom 0 0 types k b := by
  have hlength : (c.assign types).length = types.length := c.length_assignFrom 0 0 types
  have hregister {k : Nat} {type : TypeRef} (htype : types[k]? = some type)
      (hk : k < (c.assign types).length) :
      (c.assign types)[k] = none ↔ (c.bank type).length ≤ c.placeFrom 0 0 types k type := by
    rw [← c.getElem?_assign_eq_none_iff htype, List.getElem?_eq_getElem hk, Option.some_inj]
  rw [Gapless, List.pairwise_iff_getElem]
  constructor
  · intro h j k a b hjk ha hb hfull
    have hj : j < (c.assign types).length := hlength ▸ (List.getElem?_eq_some_iff.mp ha).1
    have hk : k < (c.assign types).length := hlength ▸ (List.getElem?_eq_some_iff.mp hb).1
    exact (hregister hb hk).mp (h j k hj hk hjk ((hregister ha hj).mpr hfull))
  · intro h j k hj hk hjk hnone
    have ha := List.getElem?_eq_getElem (hlength ▸ hj)
    have hb := List.getElem?_eq_getElem (hlength ▸ hk)
    exact (hregister hb hk).mpr (h j k _ _ hjk ha hb ((hregister ha hj).mp hnone))

theorem length_bank_x64 (type : TypeRef) : (x64.bank type).length = 4 := by
  rw [bank]
  split <;> rfl

theorem length_bank_arm64 (type : TypeRef) : (arm64.bank type).length = 8 := by
  rw [bank]
  split <;> rfl

/-- On x86-64 both kinds of arguments use up places. -/
theorem placeFrom_x64 (types : List TypeRef) (k : Nat) (type : TypeRef) :
    x64.placeFrom 0 0 types k type = k :=
  Nat.zero_add k

/-- On ARM64 only arguments of the same kind use up places. -/
theorem placeFrom_arm64 (types : List TypeRef) (k : Nat) (type : TypeRef) :
    arm64.placeFrom 0 0 types k type = rank types k type := by
  show (if type.isFloat then 0 else 0) + rank types k type = _
  rw [ite_self, Nat.zero_add]

/-- Where both banks advance together, arguments without a register come last. -/
theorem gapless_x64 (types : List TypeRef) : Gapless (x64.assign types) := by
  refine (x64.gapless_assign_iff types).mpr fun j k a b hjk _ _ hfull => ?_
  rw [length_bank_x64, placeFrom_x64] at hfull ⊢
  omega

/-- Where each bank counts its own arguments, one that has a register may come after one that has
none. -/
theorem gapless_arm64_iff (m : Method) : Gapless (arm64.assign m.passedTypes) ↔ ¬ m.Overtakes := by
  rw [gapless_assign_iff]
  simp only [length_bank_arm64, placeFrom_arm64]
  constructor
  · rintro h ⟨j, k, a, b, hjk, ha, hb, hfull, hfree⟩
    exact absurd (h j k a b hjk ha hb hfull) (not_le.mpr hfree)
  · intro h j k a b hjk ha hb hfull
    exact not_lt.mp fun hfree => h ⟨j, k, a, b, hjk, ha, hb, hfull, hfree⟩

end Convention

namespace Scope

variable (s : Scope)

/-- The operand of a call names a method, or holds the address where its body starts. -/
def CallsMethod (m : Method) : Operand → Prop
  | .method m' => m' = m
  | .immediate address => s.image.methodAt? address.toUInt64 = some m
  | _ => False

variable {s} {m : Method} {block : BlockId} {i : Instruction} {op : Operand}

/-- A call of a known method goes to that method, with its implied arguments. -/
theorem callee_of_callsMethod (h : s.CallsMethod m op) :
    s.callee block i op = pure (s.managedCallee m) := by
  unfold CallsMethod at h
  split at h
  · subst h
    rfl
  · simp only [callee, h]
  · cases h

/-- A call that names no arguments passes the registers up to the first argument without one. -/
theorem callArguments?_instruction (hop : i.operands = [op])
    (hi : i.mnemonic = .call ∨ i.mnemonic = .callNoReturn) (h : s.CallsMethod m op)
    (journal : Journal) : ((s.instruction block i).run journal).1.callArguments? =
      some ((s.passedRegisters m).map .register) := by
  have hcall : s.instruction block i = s.call block i := by
    unfold instruction
    rcases hi with hi | hi <;> rw [hi]
  rw [hcall, call, hop]
  dsimp only
  rw [callee_of_callsMethod h, pure_bind]
  show Expr.callArguments? (if _ then _ else _) = _
  split <;> rfl

/-- A call to a method that names no arguments passes a beginning of the registers that the entry of
the method binds. It passes all of them exactly if it is not the case that the banks are used up
independently and an argument without a register is followed by one that has one. -/
theorem passed_prefix_bound (m : Method) (block : BlockId) (hop : i.operands = [op])
    (hi : i.mnemonic = .call ∨ i.mnemonic = .callNoReturn) (h : s.CallsMethod m op)
    (journal : Journal) :
    let bound := Promotion.seed {} (Promotion.entryVariables s.convention m)
    let registers := bound.1.entries.map (·.register)
    (∀ r, (bound.2.get? r).isSome = true ↔ r ∈ registers) ∧
    ∃ passed, ((s.instruction block i).run journal).1.callArguments? =
        some (passed.map .register) ∧
      passed <+: registers ∧
      (passed = registers ↔ ¬ (s.isa = .arm64 ∧ m.Overtakes)) := by
  intro bound registers
  have hregisters : registers = (s.convention.assign m.passedTypes).filterMap id := by
    show bound.1.entries.map _ = _
    rw [Promotion.entries_seed]
    exact Promotion.registers_entryVariables _ m
  refine ⟨fun r => ?_, s.passedRegisters m, callArguments?_instruction hop hi h journal, ?_, ?_⟩
  · show _ ↔ r ∈ bound.1.entries.map _
    rw [Promotion.entries_seed]
    exact Promotion.isSome_get?_seed _ _ r
  · rw [hregisters]
    exact filterMap_takeWhile_prefix _
  · rw [hregisters, passedRegisters, filterMap_takeWhile_eq_iff, convention]
    cases s.isa with
    | x64 => exact iff_of_true (Convention.gapless_x64 _) fun hnot => by cases hnot.1
    | arm64 =>
      refine (Convention.gapless_arm64_iff m).trans (not_congr ?_)
      exact (and_iff_right rfl).symm

end Scope

/-! ## Nine numbers and a floating-point value -/

/-- A method whose ninth argument finds the integer registers of ARM64 used up. -/
def wide : Method where
  id := 0
  name := "wide"
  declaringName := "Sample"
  parameters := List.replicate 9 ⟨"n", .primitive .i8⟩ ++ [⟨"x", .primitive .r4⟩]

/-- The method's own code calls it. -/
def wideScope (isa : InstructionSet) : Scope := ⟨{ isa }, wide⟩

/-- A call of the method that names no arguments. -/
def wideCall : Instruction := ⟨0, .call, [.method wide], .call⟩

/-- The floating-point value is bound at the entry and not passed by the call. -/
theorem Scope.not_passed_eq_bound_wide :
    (((wideScope .arm64).instruction 0 wideCall).run {}).1.callArguments?.map
        (List.flatMap Expr.leaves) =
      some (["X0", "X1", "X2", "X3", "X4", "X5", "X6", "X7"].map .register) ∧
    (Promotion.seed {} (Promotion.entryVariables (wideScope .arm64).convention wide)).1.entries.map
        (·.register) =
      ["X0", "X1", "X2", "X3", "X4", "X5", "X6", "X7", "V0"] := by
  decide +kernel

/-- On x86-64 the implied arguments are the registers at the entry; on ARM64 the last one is bound
at the entry and not passed. -/
theorem Scope.passed_prefix_bound_wide :
    (∃ passed, (((wideScope .x64).instruction 0 wideCall).run {}).1.callArguments? =
        some (passed.map .register) ∧
      passed = ["rcx", "rdx", "r8", "r9"]) ∧
    ∃ passed, (((wideScope .arm64).instruction 0 wideCall).run {}).1.callArguments? =
        some (passed.map .register) ∧
      passed <+: ["X0", "X1", "X2", "X3", "X4", "X5", "X6", "X7", "V0"] ∧
      passed ≠ ["X0", "X1", "X2", "X3", "X4", "X5", "X6", "X7", "V0"] := by
  have hx64 : (Promotion.seed {}
      (Promotion.entryVariables (wideScope .x64).convention wide)).1.entries.map (·.register) =
      ["rcx", "rdx", "r8", "r9"] := by decide +kernel
  have harm64 : (Promotion.seed {}
      (Promotion.entryVariables (wideScope .arm64).convention wide)).1.entries.map (·.register) =
      ["X0", "X1", "X2", "X3", "X4", "X5", "X6", "X7", "V0"] := by decide +kernel
  have hovertakes : wide.Overtakes :=
    ⟨8, 9, .primitive .i8, .primitive .r4, by decide, rfl, rfl, by decide, by decide⟩
  obtain ⟨-, passed, hpassed, -, hall⟩ :=
    passed_prefix_bound (s := wideScope .x64) wide 0 (i := wideCall) rfl (.inl rfl) rfl {}
  obtain ⟨-, passed', hpassed', hprefix, hall'⟩ :=
    passed_prefix_bound (s := wideScope .arm64) wide 0 (i := wideCall) rfl (.inl rfl) rfl {}
  rw [hx64] at hall
  rw [harm64] at hprefix hall'
  refine ⟨⟨passed, hpassed, hall.mpr fun h => by cases h.1⟩, passed', hpassed', hprefix, ?_⟩
  exact fun heq => hall'.mp heq ⟨rfl, hovertakes⟩

end MethodLift
