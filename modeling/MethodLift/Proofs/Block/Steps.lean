import MethodLift.Proofs.Block.Linking

/-!
# Blocks follow the steps of instructions

Control flow at the level of single instructions is a relation between positions that knows nothing
of blocks: an instruction runs on to the next one unless its flow forbids it, and a jump goes to the
instruction that its first target names, the last one of that index. The graph of code has the same
steps: inside a block control runs on, and from the last position of a block it goes to the first
position of a successor, and nowhere else.

Cutting, classifying a last instruction and linking decide this independently of each other.
`ControlFlow.start_iff` says where blocks start, `ControlFlow.mem_successorsOf` what a last
instruction asks for, and `Graph.ofCode_follows` puts them together.
-/

namespace MethodLift

namespace Instruction

/-- The instruction at a position is the one that the first target names: of those with its index
it is the last. -/
def Names (code : List Instruction) (i : Instruction) (p : Nat) : Prop :=
  ∃ target, i.target? = some target ∧ (∃ x, code[p]? = some x ∧ x.index = target) ∧
    ∀ q y, p < q → code[q]? = some y → y.index ≠ target

/-- Control can go on with the next instruction. -/
def RunsOn (i : Instruction) : Prop :=
  i.flow ≠ .jump ∧ i.flow ≠ .ret ∧ i.flow ≠ .trap ∧ i.flow ≠ .indexed ∧ i.mnemonic ≠ .callNoReturn

/-- Control can go to the target. -/
def Departs (i : Instruction) : Prop :=
  (i.flow = .branch ∨ i.flow = .jump) ∧ i.mnemonic ≠ .callNoReturn

end Instruction

/-- Control can pass from one position to another. -/
inductive Steps (code : List Instruction) (p : Nat) : Nat → Prop where
  /-- On to the next instruction, where there is one. -/
  | next {x : Instruction} (found : code[p]? = some x) (runs : x.RunsOn)
      (inside : p + 1 < code.length) : Steps code p (p + 1)
  /-- To the target of a jump. -/
  | jump {x : Instruction} {q : Nat} (found : code[p]? = some x) (departs : x.Departs)
      (named : x.Names code q) : Steps code p q

/-- A step goes on to the next instruction or departs to the one that is named. -/
theorem steps_iff {code : List Instruction} {p q : Nat} {x : Instruction}
    (hx : code[p]? = some x) :
    Steps code p q ↔
      (x.RunsOn ∧ q = p + 1 ∧ p + 1 < code.length) ∨ (x.Departs ∧ x.Names code q) := by
  constructor
  · rintro (⟨hy, hruns, hlt⟩ | ⟨hy, hdeparts, hnames⟩)
    · cases hx.symm.trans hy
      exact .inl ⟨hruns, rfl, hlt⟩
    · cases hx.symm.trans hy
      exact .inr ⟨hdeparts, hnames⟩
  · rintro (⟨hruns, rfl, hlt⟩ | ⟨hdeparts, hnames⟩)
    · exact .next hx hruns hlt
    · exact .jump hx hdeparts hnames

namespace ControlFlow

variable {code is : List Instruction} {parts : List CodeRange} {r : CodeRange} {i : Instruction}
  {p q e stop : Nat} {j : BlockId} {ss : List BlockId}

/-! ## Jump targets -/

/-- Behind the last position of an index the index does not occur. -/
theorem ne_of_lastPosition? {index : Nat} (h : lastPosition? index code = some p) :
    ∀ q y, p < q → code[q]? = some y → y.index ≠ index := by
  induction code generalizing p with
  | nil => cases h
  | cons x rest ih =>
    rw [lastPosition?] at h
    split at h
    · rename_i r hr
      cases h
      rintro (_ | q) y hlt hy
      · omega
      · exact ih hr q y (by omega) hy
    · rename_i hnone
      split at h
      · cases h
        rintro (_ | q) y hlt hy hindex
        · omega
        · have hsome : (lastPosition? index rest).isSome = true :=
            lastPosition?_isSome.mpr ⟨y, List.mem_of_getElem? hy, hindex⟩
          rw [hnone] at hsome
          cases hsome
      · cases h

/-- The position that is found is the last one with the index. -/
theorem lastPosition?_eq_some_iff {index : Nat} :
    lastPosition? index code = some p ↔ (∃ x, code[p]? = some x ∧ x.index = index) ∧
      ∀ q y, p < q → code[q]? = some y → y.index ≠ index := by
  constructor
  · intro h
    exact ⟨getElem?_of_lastPosition? h, ne_of_lastPosition? h⟩
  · rintro ⟨⟨x, hx, hindex⟩, hlast⟩
    obtain ⟨q, hq⟩ := Option.isSome_iff_exists.mp
      (lastPosition?_isSome.mpr ⟨x, List.mem_of_getElem? hx, hindex⟩)
    obtain ⟨y, hy, hyindex⟩ := getElem?_of_lastPosition? hq
    -- Two last positions exclude each other unless they are equal.
    rcases Nat.lt_trichotomy p q with hlt | rfl | hlt
    · exact absurd hyindex (hlast q y hlt hy)
    · exact hq
    · exact absurd hindex (ne_of_lastPosition? hq p x hlt hx)

/-- The position that a jump goes to is the one that its target names. -/
theorem targetPosition_eq_ok_iff : targetPosition code i = .ok p ↔ i.Names code p := by
  unfold targetPosition Instruction.Names
  cases htarget : i.target? with
  | none => simp
  | some target =>
    simp only [Option.some.injEq, exists_eq_left', ← lastPosition?_eq_some_iff]
    cases lastPosition? target code with
    | none => simp
    | some q => simp

/-- The targets that are found are those of the jumps. -/
theorem mem_jumpTargets {targets : List Nat} (h : jumpTargets code is = .ok targets) :
    p ∈ targets ↔ ∃ i ∈ is, i.jumps = true ∧ i.Names code p := by
  induction is generalizing targets with
  | nil =>
    cases h
    simp
  | cons i rest ih =>
    rw [jumpTargets] at h
    rw [List.exists_mem_cons_iff]
    split at h
    · rename_i hjumps
      obtain ⟨q, hq, h⟩ := exists_of_bind_ok h
      obtain ⟨others, hothers, h⟩ := exists_of_bind_ok h
      cases h
      rw [List.mem_cons, ih hothers, ← targetPosition_eq_ok_iff, hq, Except.ok.injEq, eq_comm]
      simp [hjumps]
    · rename_i hjumps
      rw [ih h]
      simp [hjumps]

/-! ## Where blocks start -/

/-- A range starts at the entry, at jump targets, and behind instructions that end a block. -/
theorem start_iff (h : partition code = .ok parts) :
    (∃ r ∈ parts, r.start = p) ↔ p < code.length ∧
      (p = 0 ∨ (∃ i ∈ code, i.jumps = true ∧ i.Names code p) ∨
        ∃ k x, p = k + 1 ∧ code[k]? = some x ∧ x.endsBlock = true) := by
  unfold partition at h
  split at h
  · cases h
  · obtain ⟨targets, htargets, h⟩ := exists_of_bind_ok h
    cases h
    have hfollows : followsEnd code p = true ↔
        ∃ k x, p = k + 1 ∧ code[k]? = some x ∧ x.endsBlock = true := by
      cases p with
      | zero => simp [followsEnd]
      | succ k => cases hk : code[k]? <;> simp [followsEnd, hk]
    have hleader : isLeader code targets p = true ↔
        p = 0 ∨ (∃ i ∈ code, i.jumps = true ∧ i.Names code p) ∨
          ∃ k x, p = k + 1 ∧ code[k]? = some x ∧ x.endsBlock = true := by
      rw [← mem_jumpTargets htargets, ← hfollows]
      simp [isLeader, or_assoc]
    rw [← hleader, ← List.mem_range, ← List.mem_filter]
    constructor
    · rintro ⟨r, hr, rfl⟩
      exact start_mem_of_mem_ranges hr
    · exact mem_ranges_of_start

/-! ## Where positions lie -/

/-- Ranges without gaps cover every position between their ends. -/
theorem exists_range (h : checkRanges e parts = .ok stop) (hp : e ≤ p) (hlt : p < stop) :
    ∃ (k : Nat) (r : CodeRange), parts[k]? = some r ∧ r.start ≤ p ∧ p < r.stop := by
  induction parts generalizing e with
  | nil =>
    cases h
    omega
  | cons r rest ih =>
    obtain ⟨rfl, -, hrest⟩ := checkRanges_cons h
    by_cases hr : p < r.stop
    · exact ⟨0, r, rfl, hp, hr⟩
    · obtain ⟨k, r', hr', hbounds⟩ := ih hrest (by omega)
      exact ⟨k + 1, r', hr', hbounds⟩

/-- No position lies in two ranges. -/
theorem range_unique (h : checkRanges e parts = .ok stop) {k l : Nat} {r r' : CodeRange}
    (hr : parts[k]? = some r) (hr' : parts[l]? = some r') (hp : r.start ≤ p ∧ p < r.stop)
    (hp' : r'.start ≤ p ∧ p < r'.stop) : k = l := by
  rcases Nat.lt_trichotomy k l with hkl | hkl | hkl
  · have := checkRanges_lt h hr hr' hkl
    omega
  · exact hkl
  · have := checkRanges_lt h hr' hr hkl
    omega

/-! ## What a last instruction asks for -/

/-- Control can go on exactly behind blocks that have the next one as a successor. -/
theorem runsOn_iff_kindOf :
    i.RunsOn ↔ kindOf i = .branch ∨ kindOf i = .fallthrough := by
  unfold Instruction.RunsOn kindOf
  by_cases hm : i.mnemonic = .callNoReturn
  · simp [hm]
  · cases hf : i.flow <;> simp [hm]

/-- Control can depart exactly from blocks that have the target as a successor. -/
theorem departs_iff_kindOf : i.Departs ↔ kindOf i = .branch ∨ kindOf i = .jump := by
  unfold Instruction.Departs kindOf
  by_cases hm : i.mnemonic = .callNoReturn
  · simp [hm]
  · cases hf : i.flow <;> simp [hm]

/-- An instruction that ends no block runs on and is no jump. -/
theorem runsOn_of_endsBlock (h : i.endsBlock = false) : i.RunsOn ∧ ¬ i.Departs := by
  rw [runsOn_iff_kindOf, departs_iff_kindOf]
  unfold Instruction.endsBlock at h
  unfold kindOf
  cases hf : i.flow <;> simp_all

/-- A jump finds the block that starts at the position it names. -/
theorem targetBlock_eq_ok_iff :
    targetBlock code parts i = .ok j ↔ ∃ p, i.Names code p ∧ blockAt? parts p = some j := by
  simp only [← targetPosition_eq_ok_iff]
  constructor
  · intro h
    obtain ⟨p, hp, h⟩ := exists_of_bind_ok h
    split at h
    · rename_i hblock
      cases h
      exact ⟨p, hp, hblock⟩
    · cases h
  · rintro ⟨p, hp, hblock⟩
    rw [targetBlock, hp]
    dsimp only [bind, Except.bind]
    rw [hblock]

/-- The edges of a range lead to the next block where control runs on, and to the target where it
departs. -/
theorem mem_successorsOf (hlast : last? code r = some i) (h : successorsOf code parts r = .ok ss) :
    j ∈ ss ↔ (i.RunsOn ∧ blockAt? parts r.stop = some j) ∨
      (i.Departs ∧ targetBlock code parts i = .ok j) := by
  rw [runsOn_iff_kindOf, departs_iff_kindOf]
  simp only [successorsOf, hlast] at h
  cases hkind : kindOf i with
  | branch =>
    rw [hkind] at h
    obtain ⟨taken, htaken, h⟩ := exists_of_bind_ok h
    cases h
    simp [htaken, eq_comm, or_comm]
  | jump =>
    rw [hkind] at h
    obtain ⟨target, htarget, h⟩ := exists_of_bind_ok h
    cases h
    simp [htarget, eq_comm]
  | fallthrough =>
    rw [hkind] at h
    cases h
    simp
  | exit =>
    rw [hkind] at h
    cases h
    simp

end ControlFlow

namespace Graph

open ControlFlow

variable {code : List Instruction} {parts : List CodeRange} {g : Graph} {i j : Nat} {b c : Block}

/-- The blocks of a graph are found by the starts of their ranges. -/
theorem blockAt?_eq_some_iff (h : ofPartition code parts = .ok g) {p : Nat} :
    blockAt? parts p = some j ↔ ∃ c, g.block? j = some c ∧ c.range.start = p := by
  obtain ⟨-, hcovers, -⟩ := exists_of_ofPartition h
  constructor
  · intro hblock
    obtain ⟨r, hr, hstart⟩ := blockAt?_eq_some hblock
    obtain ⟨_, _, -, hj⟩ := block?_of_range h hr
    exact ⟨_, hj, hstart⟩
  · rintro ⟨c, hc, rfl⟩
    exact blockAt?_start hcovers (range_of_block? h hc)

/-- The successors of a block are those of its range, each named once. -/
theorem successors_of_block? (h : ofPartition code parts = .ok g) (hb : g.block? i = some b) :
    ∃ ss, successorsOf code parts b.range = .ok ss ∧ b.successors = ss.foldl appendNew [] ∧
      b.kind = ((last? code b.range).map kindOf).getD .fallthrough := by
  obtain ⟨predecessors, ss, hss, hg⟩ := block?_of_range h (range_of_block? h hb)
  generalize b.range = r at *
  cases hb.symm.trans hg
  exact ⟨ss, hss, rfl, rfl⟩

/-- The edges of a block lead to where its last instruction can pass control. -/
theorem mem_successors_iff (h : ofPartition code parts = .ok g) (hb : g.block? i = some b)
    {x : Instruction} (hx : last? code b.range = some x) :
    j ∈ b.successors ↔ ∃ c, g.block? j = some c ∧
      ((x.RunsOn ∧ c.range.start = b.range.stop) ∨ (x.Departs ∧ x.Names code c.range.start)) := by
  obtain ⟨ss, hss, hsuccessors, -⟩ := successors_of_block? h hb
  rw [hsuccessors, mem_foldl_appendNew, mem_successorsOf hx hss]
  simp only [targetBlock_eq_ok_iff, blockAt?_eq_some_iff h, List.not_mem_nil, false_or]
  constructor
  · rintro (⟨hruns, c, hc, hstart⟩ | ⟨hdeparts, p, hnames, c, hc, rfl⟩)
    · exact ⟨c, hc, .inl ⟨hruns, hstart⟩⟩
    · exact ⟨c, hc, .inr ⟨hdeparts, hnames⟩⟩
  · rintro ⟨c, hc, ⟨hruns, hstart⟩ | ⟨hdeparts, hnames⟩⟩
    · exact .inl ⟨hruns, c, hc, hstart⟩
    · exact .inr ⟨hdeparts, _, hnames, c, hc, rfl⟩

/-- A conditional jump has its target first and then the next block, unless that is the target. -/
theorem successors_of_branch (h : ofPartition code parts = .ok g) (hb : g.block? i = some b)
    (hkind : b.kind = .branch) :
    ∃ x taken, last? code b.range = some x ∧ targetBlock code parts x = .ok taken ∧
      b.successors = (blockAt? parts b.range.stop).toList.foldl appendNew [taken] := by
  obtain ⟨ss, hss, hsuccessors, hk⟩ := successors_of_block? h hb
  cases hx : last? code b.range with
  | none =>
    rw [hk, hx] at hkind
    cases hkind
  | some x =>
    have hkx : kindOf x = .branch := by
      rw [hk, hx] at hkind
      exact hkind
    simp only [successorsOf, hx, hkx] at hss
    obtain ⟨taken, htaken, hss⟩ := exists_of_bind_ok hss
    cases hss
    exact ⟨x, taken, rfl, htaken, hsuccessors⟩

/-! ## The graph of code -/

/-- A position lies in the range of a block. -/
def Holds (g : Graph) (i p : Nat) : Prop :=
  ∃ b, g.block? i = some b ∧ b.range.start ≤ p ∧ p < b.range.stop

/-- A graph has the blocks and the edges of the instruction-level control flow of code. -/
structure Follows (g : Graph) (code : List Instruction) : Prop where
  /-- Blocks start at the entry, at the targets of jumps, and behind what ends a block. -/
  starts : ∀ p, (∃ b ∈ g.blocks, b.range.start = p) ↔ p < code.length ∧
    (p = 0 ∨ (∃ x ∈ code, (x.flow = .branch ∨ x.flow = .jump) ∧ x.Names code p) ∨
      ∃ k x, p = k + 1 ∧ code[k]? = some x ∧ x.endsBlock = true)
  nonempty : ∀ b ∈ g.blocks, b.range.start < b.range.stop ∧ b.range.stop ≤ code.length
  ordered : ∀ {i j : Nat} {a b}, g.block? i = some a → g.block? j = some b → i < j →
    a.range.stop ≤ b.range.start
  covers : ∀ p < code.length, ∃! i, g.Holds i p
  /-- Control passes inside a block, or from the end of a block to the start of a successor. -/
  steps : ∀ p q, Steps code p q ↔
    (q = p + 1 ∧ ∃ i, g.Holds i p ∧ g.Holds i q) ∨
      ∃ b ∈ g.blocks, b.range.stop = p + 1 ∧
        ∃ j ∈ b.successors, ∃ c, g.block? j = some c ∧ c.range.start = q
  /-- The target of a conditional jump is the first successor; the block behind it is the second
  one if it exists and is another. -/
  branches : ∀ b ∈ g.blocks, b.kind = .branch → ∃ x j c,
    code[b.range.stop - 1]? = some x ∧ g.block? j = some c ∧ x.Names code c.range.start ∧
      b.successors[0]? = some j ∧ b.successors.length ≤ 2 ∧
      ∀ k, b.successors[1]? = some k ↔
        k ≠ j ∧ ∃ d, g.block? k = some d ∧ d.range.start = b.range.stop

/-- At the last position of a block control passes to the starts of its successors. -/
theorem steps_last_iff (h : ofPartition code parts = .ok g) (hcut : Cut code parts)
    (hb : g.block? i = some b) {p q : Nat} (hp : b.range.stop = p + 1) :
    Steps code p q ↔ ∃ j ∈ b.successors, ∃ c, g.block? j = some c ∧ c.range.start = q := by
  have hbounds := checkRanges_bounds hcut.covers (range_of_block? h hb)
  obtain ⟨x, hx⟩ : ∃ x, code[p]? = some x := ⟨_, List.getElem?_eq_getElem (by omega)⟩
  have hlast : last? code b.range = some x := by
    rw [last?, hp]
    exact hx
  rw [steps_iff hx]
  simp only [mem_successors_iff h hb hlast]
  constructor
  · rintro (⟨hruns, rfl, hlt⟩ | ⟨hdeparts, hnames⟩)
    · -- The code goes on, so there is a block behind this one.
      have hnext : i + 1 < parts.length := by
        by_contra hlast
        have := checkRanges_last hcut.covers (range_of_block? h hb) (by omega)
        omega
      have hat := blockAt?_stop hcut.covers (range_of_block? h hb)
      rw [if_pos hnext, blockAt?_eq_some_iff h] at hat
      obtain ⟨c, hc, hstart⟩ := hat
      exact ⟨i + 1, ⟨c, hc, .inl ⟨hruns, hstart⟩⟩, c, hc, hstart.trans hp⟩
    · -- A jump lands on the start of a range.
      have hjumps : x.jumps = true := by
        rcases hdeparts.1 with hflow | hflow <;> simp [Instruction.jumps, hflow]
      obtain ⟨p', hp', hstart⟩ := hcut.lands x (List.mem_of_getElem? hx) hjumps
      cases (targetPosition_eq_ok_iff.mpr hnames).symm.trans hp'
      obtain ⟨j, hj, -⟩ := exists_blockAt? hstart
      obtain ⟨c, hc, rfl⟩ := (blockAt?_eq_some_iff h).mp hj
      exact ⟨j, ⟨c, hc, .inr ⟨hdeparts, hnames⟩⟩, c, hc, rfl⟩
  · rintro ⟨j, ⟨c, hc, hgoes⟩, c', hc', rfl⟩
    cases hc.symm.trans hc'
    refine hgoes.imp ?_ id
    rintro ⟨hruns, hstart⟩
    have := checkRanges_bounds hcut.covers (range_of_block? h hc)
    exact ⟨hruns, hstart.trans hp, by omega⟩

/-- Before the last position of a block control passes to the next position only. -/
theorem steps_inside_iff {p q : Nat} {x : Instruction} (hx : code[p]? = some x)
    (hends : x.endsBlock = false) (hlt : p + 1 < code.length) :
    Steps code p q ↔ q = p + 1 := by
  obtain ⟨hruns, hstays⟩ := runsOn_of_endsBlock hends
  rw [steps_iff hx]
  constructor
  · rintro (⟨-, hq, -⟩ | ⟨hdeparts, -⟩)
    · exact hq
    · exact absurd hdeparts hstays
  · rintro rfl
    exact .inl ⟨hruns, rfl, hlt⟩

/-- Ranges tile the code, so every position lies in some block. -/
theorem exists_holds (h : ofPartition code parts = .ok g) {p : Nat} (hp : p < code.length) :
    ∃ i, g.Holds i p := by
  obtain ⟨-, hcovers, -⟩ := exists_of_ofPartition h
  obtain ⟨i, r, hr, hbounds⟩ := exists_range hcovers (Nat.zero_le p) hp
  obtain ⟨_, _, -, hb⟩ := block?_of_range h hr
  exact ⟨i, _, hb, hbounds⟩

/-- Ranges do not overlap, so a position lies in one block only. -/
theorem holds_unique (h : ofPartition code parts = .ok g) {p : Nat} (hi : g.Holds i p)
    (hj : g.Holds j p) : i = j := by
  obtain ⟨-, hcovers, -⟩ := exists_of_ofPartition h
  obtain ⟨a, ha, hpa⟩ := hi
  obtain ⟨b, hb, hpb⟩ := hj
  exact range_unique hcovers (range_of_block? h ha) (range_of_block? h hb) hpa hpb

/-- The steps of instructions are those of blocks. -/
theorem steps_iff_blocks (hparts : partition code = .ok parts) (h : ofPartition code parts = .ok g)
    (p q : Nat) :
    Steps code p q ↔ (q = p + 1 ∧ ∃ i, g.Holds i p ∧ g.Holds i q) ∨
      ∃ b ∈ g.blocks, b.range.stop = p + 1 ∧
        ∃ j ∈ b.successors, ∃ c, g.block? j = some c ∧ c.range.start = q := by
  have hcut := cut_of_partition hparts
  have hbounds : ∀ {i b}, g.block? i = some b → b.range.start < b.range.stop ∧
      b.range.stop ≤ code.length := fun hb =>
    (checkRanges_bounds hcut.covers (range_of_block? h hb)).2
  -- A block that stops behind a position holds it.
  have hends : ∀ {i b}, g.block? i = some b → b.range.stop = p + 1 → g.Holds i p := by
    intro i b hb hstop
    have := hbounds hb
    exact ⟨b, hb, by omega, by omega⟩
  constructor
  · intro hstep
    obtain ⟨x, hx⟩ : ∃ x, code[p]? = some x := by
      cases hstep with
      | next found => exact ⟨_, found⟩
      | jump found => exact ⟨_, found⟩
    obtain ⟨i, b, hb, hstart, hstop⟩ := exists_holds h (List.getElem?_eq_some_iff.mp hx).1
    rcases Nat.lt_or_ge (p + 1) b.range.stop with hlt | hge
    · have hinside : x.endsBlock = false :=
        endsBlock_eq_false hparts (List.mem_of_getElem? (range_of_block? h hb)) (hbounds hb).2
          hstart hlt hx
      rw [steps_inside_iff hx hinside (by have := hbounds hb; omega)] at hstep
      exact .inl ⟨hstep, i, ⟨b, hb, hstart, hstop⟩, b, hb, by omega, by omega⟩
    · have hlast : b.range.stop = p + 1 := by omega
      exact .inr ⟨b, mem_blocks_of_block? hb, hlast, (steps_last_iff h hcut hb hlast).mp hstep⟩
  · rintro (⟨rfl, i, ⟨b, hb, hstart, -⟩, b', hb', -, hlt⟩ | ⟨b, hb, hstop, hsuccessor⟩)
    · cases hb.symm.trans hb'
      obtain ⟨x, hx⟩ : ∃ x, code[p]? = some x :=
        ⟨_, List.getElem?_eq_getElem (by have := hbounds hb; omega)⟩
      have hinside : x.endsBlock = false :=
        endsBlock_eq_false hparts (List.mem_of_getElem? (range_of_block? h hb)) (hbounds hb).2
          hstart hlt hx
      exact (steps_inside_iff hx hinside (by have := hbounds hb; omega)).mpr rfl
    · obtain ⟨i, hb⟩ := exists_block?_of_mem hb
      exact (steps_last_iff h hcut hb hstop).mpr hsuccessor

/-- The two successors of a conditional jump, in terms of the code. -/
theorem branch_successors (h : ofPartition code parts = .ok g) (hb : g.block? i = some b)
    (hkind : b.kind = .branch) : ∃ x j c,
    code[b.range.stop - 1]? = some x ∧ g.block? j = some c ∧ x.Names code c.range.start ∧
      b.successors[0]? = some j ∧ b.successors.length ≤ 2 ∧
      ∀ k, b.successors[1]? = some k ↔
        k ≠ j ∧ ∃ d, g.block? k = some d ∧ d.range.start = b.range.stop := by
  obtain ⟨x, j, hx, hj, hsuccessors⟩ := successors_of_branch h hb hkind
  obtain ⟨p, hnames, hat⟩ := targetBlock_eq_ok_iff.mp hj
  obtain ⟨c, hc, rfl⟩ := (blockAt?_eq_some_iff h).mp hat
  refine ⟨x, j, c, hx, hc, hnames, ?_⟩
  simp only [← blockAt?_eq_some_iff h]
  rw [hsuccessors]
  cases hnext : blockAt? parts b.range.stop with
  | none => simp
  | some k =>
    by_cases hk : k = j
    · have hone : [k].foldl appendNew [j] = [j] := appendNew_of_mem (by simp [hk])
      rw [Option.toList_some, hone, hk]
      refine ⟨rfl, by simp, fun l => ⟨nofun, ?_⟩⟩
      rintro ⟨hne, hl⟩
      exact absurd (Option.some.inj hl).symm hne
    · have htwo : [k].foldl appendNew [j] = [j, k] := by simp [appendNew, hk]
      rw [Option.toList_some, htwo]
      refine ⟨rfl, by simp, fun l => ⟨?_, fun hl => hl.2⟩⟩
      rintro ⟨⟩
      exact ⟨hk, rfl⟩

/-- The graph of code follows its instruction-level control flow. -/
theorem ofCode_follows (h : ofCode code = .ok g) : g.Follows code := by
  obtain ⟨parts, hparts, h⟩ := exists_of_bind_ok h
  have hcut := cut_of_partition hparts
  have hlaid := ofPartition_laid h
  refine ⟨?_, ?_, hlaid.ordered, ?_, steps_iff_blocks hparts h, ?_⟩
  · intro p
    have hjumps : ∀ x : Instruction, x.jumps = true ↔ x.flow = .branch ∨ x.flow = .jump := by
      intro x
      simp [Instruction.jumps]
    simp only [← hjumps]
    rw [← start_iff hparts]
    constructor
    · rintro ⟨b, hb, hstart⟩
      obtain ⟨i, hb⟩ := exists_block?_of_mem hb
      exact ⟨b.range, List.mem_of_getElem? (range_of_block? h hb), hstart⟩
    · rintro ⟨r, hr, hstart⟩
      obtain ⟨i, hr⟩ := List.mem_iff_getElem?.mp hr
      obtain ⟨_, _, -, hb⟩ := block?_of_range h hr
      exact ⟨_, mem_blocks_of_block? hb, hstart⟩
  · intro b hb
    obtain ⟨i, hb⟩ := exists_block?_of_mem hb
    exact ⟨(hlaid.placed hb).range_lt, (hlaid.placed hb).stop_le⟩
  · intro p hp
    obtain ⟨i, hi⟩ := exists_holds h hp
    exact ⟨i, hi, fun j hj => holds_unique h hj hi⟩
  · intro b hb hkind
    obtain ⟨i, hb⟩ := exists_block?_of_mem hb
    exact branch_successors h hb hkind

/-- Code in which an index occurs twice, a jump goes to itself, and a call does not return although
its flow is that of a conditional jump. -/
def crossing : List Instruction :=
  [⟨0, .jumpIfEqual, [.target 2], .branch⟩, ⟨2, .move, [], .next⟩, ⟨2, .goto, [.target 2], .jump⟩,
    ⟨5, .callNoReturn, [.target 0], .branch⟩]

/-- The second of the two equal indexes is the one that is jumped to, and the jump of the call is
followed like any other. -/
theorem ofCode_follows_crossing :
    ∃ g, ofCode crossing = .ok g ∧
      g.blocks.map (fun b => b.successors) = [[2, 1], [2], [2], []] ∧ g.Follows crossing :=
  ⟨_, rfl, by decide, ofCode_follows rfl⟩

end Graph

end MethodLift
