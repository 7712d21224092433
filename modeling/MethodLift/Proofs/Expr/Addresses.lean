import MethodLift.Proofs.Analyses.Folding

/-!
# Addresses of operands

The address of a memory operand is its base, its addend and its scaled index, added from left to
right without the parts that are missing. Whatever is missing, the expression has the value
`base + addend + index * scale` in wrapping arithmetic on words, where a missing base or index
counts as zero. An operand in memory stands for the access at the address that loading its address
gives.
-/

namespace MethodLift

open MethodLift.Expr

/-! ## Values of address expressions -/

namespace Machine

/-- In every environment whose registers hold the given words, the expression has a word as its
value, and nothing is seen from outside when it is evaluated. -/
def Denotes (m : Machine (Option Int64)) (regs : String → Int64) (e : Expr) (w : Int64) : Prop :=
  ∀ env : Env (Option Int64), (∀ r, env.regs r = some (regs r)) →
    Mimics Eq (m.eval env e) (pure (some w))

section Denotes

variable {m : Machine (Option Int64)} {regs : String → Int64} {e left right : Expr} {w x y : Int64}

theorem denotes_register (r : String) : m.onWords.Denotes regs (.register r) (regs r) :=
  fun _ henv _ _ hl => ⟨hl, henv r⟩

theorem denotes_immediate (w : Int64) : m.onWords.Denotes regs (.immediate w) w :=
  fun _ _ _ _ hl => ⟨hl, rfl⟩

/-- An operation on words denotes its result where there is one. -/
theorem Denotes.arith {op : ArithOp} (hleft : m.onWords.Denotes regs left x)
    (hright : m.onWords.Denotes regs right y) (hw : op.eval? x y = some w) :
    m.onWords.Denotes regs (.arith op left right) w := by
  intro env henv l l' hl
  obtain ⟨hl, hx⟩ := hleft env henv l l' hl
  obtain ⟨hl, hy⟩ := hright env henv _ l' hl
  refine ⟨hl, ?_⟩
  show m.onWords.arith op ((m.onWords.eval env left).run l).1
    ((m.onWords.eval env right).run ((m.onWords.eval env left).run l).2).1 = some w
  rw [hx, hy, ← hw]
  exact m.arith_onWords op x y

/-- Expressions that are added from left to right, where no expression at all counts as zero. -/
def Adds (m : Machine (Option Int64)) (regs : String → Int64) : List Expr → Int64 → Prop
  | [], w => w = 0
  | first :: rest, w => m.Denotes regs (rest.foldl (.arith .add) first) w

/-- A part of a sum, which may be missing and counts as zero then. -/
inductive Part (m : Machine (Option Int64)) (regs : String → Int64) : List Expr → Int64 → Prop
  | missing : Part m regs [] 0
  | present {e : Expr} {w : Int64} (h : m.Denotes regs e w) : Part m regs [e] w

theorem Part.adds {part : List Expr} (h : m.Part regs part x) : m.Adds regs part x := by
  cases h with
  | missing => rfl
  | present h => exact h

/-- Parts are added to a sum from left to right; a missing part counts as zero. -/
theorem Adds.append {sum part : List Expr} (hsum : m.onWords.Adds regs sum x)
    (hpart : m.onWords.Part regs part y) : m.onWords.Adds regs (sum ++ part) (x + y) := by
  cases hpart with
  | missing => rwa [List.append_nil, Int64.add_zero]
  | @present e w h =>
    cases sum with
    | nil =>
      obtain rfl : x = 0 := hsum
      rwa [Int64.zero_add]
    | cons first rest =>
      show m.onWords.Denotes regs ((rest ++ [e]).foldl _ first) _
      rw [List.foldl_append]
      exact Denotes.arith hsum h rfl

end Denotes

end Machine

/-! ## Operands in memory -/

def Operand.isMemory : Operand → Bool
  | .memory _ | .stack _ => true
  | _ => false

/-- The address that a memory operand stands for when registers hold the given words under their
canonical names. -/
def Scope.effective (s : Scope) (regs : String → Int64) (m : MemoryRef) : Int64 :=
  (m.base.map word).getD 0 + m.addend + (m.index.map fun name => word name * m.scale).getD 0
where
  word (name : String) : Int64 := regs (Register.canonical s.isa name)

namespace Scope

open Machine

variable (s : Scope) {m : Machine (Option Int64)} {regs : String → Int64}

/-- A register denotes the word that its canonical name holds. -/
theorem denotes_scopeRegister (name : String) :
    m.onWords.Denotes regs (s.register name) (regs (Register.canonical s.isa name)) :=
  denotes_register _

/-- A missing base counts as zero. -/
theorem part_base (base : Option String) : m.onWords.Part regs (base.map s.register).toList
    ((base.map (effective.word s regs)).getD 0) := by
  cases base with
  | none => exact .missing
  | some name => exact .present (s.denotes_scopeRegister name)

theorem part_addend (addend : Int64) : m.onWords.Part regs
    (if addend = 0 then [] else [.immediate addend]) addend := by
  split
  · rename_i hzero
    rw [hzero]
    exact .missing
  · exact .present (denotes_immediate addend)

/-- The index counts scaled; a scale of one is not written. -/
theorem part_index (index : Option String) (scale : Int64) : m.onWords.Part regs
    (index.map fun name =>
      if scale = 1 then s.register name
      else .arith .mul (s.register name) (.immediate scale)).toList
    ((index.map fun name => effective.word s regs name * scale).getD 0) := by
  cases index with
  | none => exact .missing
  | some name =>
    refine .present ?_
    split
    · rename_i hone
      rw [Option.map_some, Option.getD_some, hone, Int64.mul_one]
      exact s.denotes_scopeRegister name
    · exact (s.denotes_scopeRegister name).arith (denotes_immediate scale) rfl

/-- The address of a memory operand is the sum of its parts. -/
theorem denotes_memoryAddress (ref : MemoryRef) :
    m.onWords.Denotes regs (s.memoryAddress ref) (s.effective regs ref) := by
  have hbase : m.onWords.Part regs (ref.base.map s.register).toList _ := s.part_base ref.base
  have hsum := (hbase.adds.append (part_addend ref.addend)).append
    (s.part_index ref.index ref.scale)
  unfold memoryAddress
  dsimp only
  split
  · -- Nothing is present, so the addend is zero, and so is the sum.
    rename_i hnone
    rw [hnone] at hsum
    have haddend : ref.addend = 0 := by
      by_contra hne
      simp [hne] at hnone
    have hzero : s.effective regs ref = 0 := hsum
    rw [haddend, hzero]
    exact denotes_immediate 0
  · rename_i first rest hparts
    rw [hparts] at hsum
    exact hsum

/-- A stack slot lies at its offset from the stack pointer. -/
theorem denotes_stackAddress (offset : Int64) : m.onWords.Denotes regs (s.stackAddress offset)
    (regs (Register.stackPointer s.isa) + offset) :=
  (denotes_register _).arith (denotes_immediate offset) rfl

/-- An operand in memory is the access to its address. -/
theorem operand_of_isMemory {o : Operand} (h : o.isMemory = true) :
    s.operand o = .deref (s.addressOf o) := by
  cases o with
  | memory ref => rfl
  | stack offset => rfl
  | _ => cases h

/-- Addresses of operands have the values they stand for, on every machine on words and whatever the
registers hold: a memory operand stands for base, addend and scaled index, a stack operand for an
offset from the stack pointer. A move from or to such an operand goes through memory at the very
expression that loading its address assigns. -/
theorem locates_operands (m : Machine (Option Int64)) (regs : String → Int64) :
    (∀ ref : MemoryRef, m.onWords.Denotes regs (s.addressOf (.memory ref)) (s.effective regs ref)) ∧
    (∀ offset, m.onWords.Denotes regs (s.addressOf (.stack offset))
      (regs (Register.stackPointer s.isa) + offset)) ∧
    ∀ o : Operand, o.isMemory = true → ∀ block index flow other,
      s.instruction block ⟨index, .loadAddress, [other, o], flow⟩ =
        pure (.assign (s.operand other) (s.addressOf o)) ∧
      s.instruction block ⟨index, .move, [other, o], flow⟩ =
        pure (.assign (s.operand other) (.deref (s.addressOf o))) ∧
      s.instruction block ⟨index, .move, [o, other], flow⟩ =
        pure (.assign (.deref (s.addressOf o)) (s.operand other)) := by
  refine ⟨s.denotes_memoryAddress, s.denotes_stackAddress, ?_⟩
  intro o ho block index flow other
  rw [← s.operand_of_isMemory ho]
  exact ⟨rfl, rfl, rfl⟩

end Scope

/-! ## Going backwards through an array -/

/-- The element at an index from the end, eight bytes each. -/
def backwards : MemoryRef := ⟨some "RCX", 24, some "edx", -8⟩

/-- The array starts at 4096, and the index is two. -/
def backwardsRegisters (r : String) : Int64 :=
  if r = "rcx" then 4096 else if r = "rdx" then 2 else 0

def backwardsScope : Scope :=
  ⟨{ isa := .x64 }, { id := 0, name := "last", declaringName := "Sample" }⟩

/-- A machine that has a value for numbers only. -/
def bare : Machine (Option Int64) where
  void := none
  constant _ := none
  compare _ _ _ := none
  arith _ _ _ := none
  complement _ := none
  lane _ _ := none
  setLane _ _ _ := none
  truth _ := false
  load _ _ := none
  loadField _ _ _ := none
  call _ _ _ := none
  unknown _ _ := none

/-- Sixteen bytes back from 4096 + 24: the negative scale counts as such. -/
theorem Scope.locates_operands_backwards :
    bare.onWords.Denotes backwardsRegisters (backwardsScope.addressOf (.memory backwards)) 4104 ∧
    (Operand.memory backwards).isMemory = true ∧
    backwardsScope.instruction 0 ⟨0, .move, [.register "eax", .memory backwards], .next⟩ =
      pure (.assign (.register "rax") (.deref (backwardsScope.addressOf (.memory backwards)))) := by
  have haddress : backwardsScope.effective backwardsRegisters backwards = 4104 := by decide +kernel
  have htarget : backwardsScope.operand (.register "eax") = .register "rax" := by
    show Expr.leaf (.register (Register.canonical .x64 "eax")) = _
    have hname : Register.canonical .x64 "eax" = "rax" := by decide +kernel
    rw [hname]
  obtain ⟨hmemory, -, hmove⟩ := backwardsScope.locates_operands bare backwardsRegisters
  refine ⟨haddress ▸ hmemory backwards, rfl, ?_⟩
  rw [← htarget]
  exact (hmove (.memory backwards) rfl 0 0 .next (.register "eax")).2.1

end MethodLift
