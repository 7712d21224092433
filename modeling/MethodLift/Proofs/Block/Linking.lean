import MethodLift.Proofs.Block.Layout

/-!
# Code that has a graph

Only jumps can keep code from having a graph: a jump has to name an instruction that exists. Where
all jumps do, the code is cut at every target, so the ranges follow each other without gaps, every
jump goes to the start of a block, and linking finds all the blocks that edges lead to.
-/

namespace MethodLift

/-- If the instruction is a jump, its first target is the index of an instruction of the code. -/
def Instruction.Aimed (code : List Instruction) (i : Instruction) : Prop :=
  i.jumps = true → ∃ target, i.target? = some target ∧ ∃ j ∈ code, j.index = target

/-- What is wrong with a jump that goes nowhere. -/
def Instruction.offence (i : Instruction) : Error :=
  match i.target? with
  | none => .branchWithoutTarget i.index
  | some target => .branchToMissing i.index target

theorem Instruction.kind_offence (i : Instruction) : i.offence.kind = .malformed := by
  unfold offence
  split <;> rfl

/-- Where not all elements have a property, there is a first one that has not. -/
theorem exists_first_not {α : Type} {P : α → Prop} {l : List α} (h : ¬ ∀ a ∈ l, P a) :
    ∃ before a after, l = before ++ a :: after ∧ (∀ b ∈ before, P b) ∧ ¬ P a := by
  induction l with
  | nil => simp at h
  | cons a rest ih =>
    by_cases ha : P a
    · obtain ⟨before, c, after, rfl, hbefore, hc⟩ :=
        ih fun hrest => h (List.forall_mem_cons.mpr ⟨ha, hrest⟩)
      exact ⟨a :: before, c, after, rfl, List.forall_mem_cons.mpr ⟨ha, hbefore⟩, hc⟩
    · exact ⟨[], a, rest, rfl, by simp, ha⟩

namespace ControlFlow

variable {code before after is : List Instruction} {i : Instruction}

/-! ## Jump targets -/

/-- An index has a last position exactly if some instruction has it. -/
theorem lastPosition?_isSome {index : Nat} :
    (lastPosition? index code).isSome = true ↔ ∃ j ∈ code, j.index = index := by
  induction code with
  | nil => simp [lastPosition?]
  | cons x rest ih =>
    rw [lastPosition?, List.exists_mem_cons_iff, ← ih]
    cases lastPosition? index rest with
    | some p => simp
    | none => by_cases h : x.index = index <;> simp [h]

theorem targetPosition_of_aimed (h : i.Aimed code) (hjumps : i.jumps = true) :
    ∃ p, targetPosition code i = .ok p := by
  obtain ⟨target, htarget, hmem⟩ := h hjumps
  obtain ⟨p, hp⟩ := Option.isSome_iff_exists.mp (lastPosition?_isSome.mpr hmem)
  exact ⟨p, by simp only [targetPosition, htarget, hp]⟩

/-- What is wrong with a jump is reported as its offence. -/
theorem targetPosition_of_not_aimed (h : ¬ i.Aimed code) :
    i.jumps = true ∧ targetPosition code i = .error i.offence := by
  obtain ⟨hjumps, hnone⟩ := Classical.not_imp.mp h
  refine ⟨hjumps, ?_⟩
  unfold targetPosition Instruction.offence
  cases htarget : i.target? with
  | none => rfl
  | some target =>
    have hmissing : lastPosition? target code = none := by
      rw [← Option.not_isSome_iff_eq_none, lastPosition?_isSome]
      exact fun hmem => hnone ⟨target, htarget, hmem⟩
    simp only [hmissing]

/-- Where all jumps are aimed, all their targets are found. -/
theorem jumpTargets_of_aimed (h : ∀ i ∈ is, i.Aimed code) :
    ∃ targets, jumpTargets code is = .ok targets ∧
      ∀ i ∈ is, i.jumps = true → ∀ p, targetPosition code i = .ok p → p ∈ targets := by
  induction is with
  | nil => exact ⟨[], rfl, by simp⟩
  | cons i rest ih =>
    obtain ⟨hi, hrest⟩ := List.forall_mem_cons.mp h
    obtain ⟨targets, htargets, hmem⟩ := ih hrest
    by_cases hjumps : i.jumps = true
    · obtain ⟨p, hp⟩ := targetPosition_of_aimed hi hjumps
      refine ⟨p :: targets, ?_,
        List.forall_mem_cons.mpr ⟨fun _ q hq => ?_, fun j hj hjj q hq => ?_⟩⟩
      · rw [jumpTargets, if_pos hjumps, hp, htargets]
        rfl
      · cases hp.symm.trans hq
        exact List.mem_cons_self
      · exact List.mem_cons_of_mem p (hmem j hj hjj q hq)
    · refine ⟨targets, ?_, List.forall_mem_cons.mpr ⟨fun h => absurd h hjumps, hmem⟩⟩
      rw [jumpTargets, if_neg hjumps, htargets]

/-- The first jump that goes nowhere is reported. -/
theorem jumpTargets_of_not_aimed (hbefore : ∀ j ∈ before, j.Aimed code) (hi : ¬ i.Aimed code) :
    jumpTargets code (before ++ i :: after) = .error i.offence := by
  induction before with
  | nil =>
    obtain ⟨hjumps, herror⟩ := targetPosition_of_not_aimed hi
    rw [List.nil_append, jumpTargets, if_pos hjumps, herror]
    rfl
  | cons j rest ih =>
    obtain ⟨hj, hrest⟩ := List.forall_mem_cons.mp hbefore
    rw [List.cons_append, jumpTargets, ih hrest]
    split
    · rename_i hjumps
      obtain ⟨p, hp⟩ := targetPosition_of_aimed hj hjumps
      rw [hp]
      rfl
    · rfl

/-- Cutting code reports the first jump that goes nowhere, in the order of the code. -/
theorem partition_of_not_aimed (hcode : code = before ++ i :: after)
    (hbefore : ∀ j ∈ before, j.Aimed code) (hi : ¬ i.Aimed code) :
    partition code = .error i.offence := by
  have hne : code.isEmpty = false := by
    rw [hcode]
    simp
  have htargets : jumpTargets code code = .error i.offence :=
    (congrArg (jumpTargets code) hcode).trans (jumpTargets_of_not_aimed hbefore hi)
  rw [partition, hne, htargets]
  rfl

/-! ## Ranges between starts -/

/-- Ranges between increasing starts follow each other without gaps. -/
theorem checkRanges_ranges {stop start : Nat} {rest : List Nat}
    (hsorted : (start :: rest).Pairwise (· < ·)) (hstop : ∀ s ∈ start :: rest, s < stop) :
    checkRanges start (ranges stop (start :: rest)) = .ok stop := by
  induction rest generalizing start with
  | nil =>
    have hlt : start < stop := hstop start List.mem_cons_self
    rw [ranges, ranges, checkRanges, if_neg]
    · rfl
    · simp
      omega
  | cons next rest ih =>
    obtain ⟨hbelow, hsorted⟩ := List.pairwise_cons.mp hsorted
    have hlt : start < next := hbelow next List.mem_cons_self
    rw [ranges, checkRanges, if_neg]
    · exact ih hsorted fun s hs => hstop s (List.mem_cons_of_mem start hs)
    · simp
      omega

/-- Every start has its range. -/
theorem mem_ranges_of_start {stop s : Nat} {starts : List Nat} (h : s ∈ starts) :
    ∃ r ∈ ranges stop starts, r.start = s := by
  induction starts with
  | nil => cases h
  | cons start rest ih =>
    rw [ranges]
    rcases List.mem_cons.mp h with rfl | h
    · exact ⟨_, List.mem_cons_self, rfl⟩
    · obtain ⟨r, hr, hs⟩ := ih h
      exact ⟨r, List.mem_cons_of_mem _ hr, hs⟩

theorem exists_blockAt? {parts : List CodeRange} {p : Nat} (h : ∃ r ∈ parts, r.start = p) :
    ∃ j, blockAt? parts p = some j ∧ j < parts.length := by
  cases hb : blockAt? parts p with
  | none =>
    obtain ⟨r, hr, hp⟩ := h
    rw [blockAt?, List.findIdx?_eq_none_iff] at hb
    simpa [hp] using hb r hr
  | some j =>
    obtain ⟨r, hr, -⟩ := blockAt?_eq_some hb
    exact ⟨j, rfl, (List.getElem?_eq_some_iff.mp hr).1⟩

/-- The first position is a start, since there is an instruction. -/
theorem exists_starts (targets : List Nat) (hne : code ≠ []) :
    ∃ rest, (List.range code.length).filter (isLeader code targets) = 0 :: rest := by
  obtain ⟨n, hn⟩ := Nat.exists_eq_succ_of_ne_zero (mt List.length_eq_zero_iff.mp hne)
  rw [hn, List.range_succ_eq_map, List.filter_cons_of_pos (by simp [isLeader])]
  exact ⟨_, rfl⟩

/-! ## Cutting -/

/-- A cut that is sound for linking: the ranges cover the code, and jumps go to their starts. -/
structure Cut (code : List Instruction) (parts : List CodeRange) : Prop where
  covers : checkRanges 0 parts = .ok code.length
  lands : ∀ i ∈ code, i.jumps = true →
    ∃ p, targetPosition code i = .ok p ∧ ∃ r ∈ parts, r.start = p

/-- If all jumps are aimed, the code is cut, and every jump has a range that starts at its
target. -/
theorem partition_of_aimed (hne : code ≠ []) (h : ∀ i ∈ code, i.Aimed code) :
    ∃ parts, partition code = .ok parts ∧ Cut code parts := by
  obtain ⟨targets, htargets, hmem⟩ := jumpTargets_of_aimed h
  refine ⟨ranges code.length ((List.range code.length).filter (isLeader code targets)), ?_, ?_,
    fun i hi hjumps => ?_⟩
  · rw [partition, if_neg (by simpa using hne), htargets]
    rfl
  · obtain ⟨rest, hstarts⟩ := exists_starts targets hne
    have hsorted : ((List.range code.length).filter (isLeader code targets)).Pairwise (· < ·) :=
      List.pairwise_lt_range.filter _
    have hstop : ∀ s ∈ (List.range code.length).filter (isLeader code targets),
        s < code.length := fun s hs => List.mem_range.mp (List.mem_filter.mp hs).1
    rw [hstarts] at hsorted hstop ⊢
    exact checkRanges_ranges hsorted hstop
  · obtain ⟨p, hp⟩ := targetPosition_of_aimed (h i hi) hjumps
    obtain ⟨_, y, -, hy, -⟩ := target?_of_targetPosition hp
    refine ⟨p, hp, mem_ranges_of_start (List.mem_filter.mpr ⟨?_, ?_⟩)⟩
    · exact List.mem_range.mpr (List.getElem?_eq_some_iff.mp hy).1
    · simp [isLeader, hmem i hi hjumps p hp]

variable {parts : List CodeRange}

/-- The code that can be cut: it is not empty, and its jumps are aimed. -/
theorem aimed_of_partition (h : partition code = .ok parts) :
    code ≠ [] ∧ ∀ i ∈ code, i.Aimed code := by
  constructor
  · rintro rfl
    cases h
  · by_contra hnot
    obtain ⟨before, i, after, hcode, hbefore, hi⟩ := exists_first_not hnot
    cases h.symm.trans (partition_of_not_aimed hcode hbefore hi)

/-- A partition of code is one that every jump finds its block in. -/
theorem cut_of_partition (h : partition code = .ok parts) : Cut code parts := by
  obtain ⟨hne, haimed⟩ := aimed_of_partition h
  obtain ⟨parts', hparts', hcut⟩ := partition_of_aimed hne haimed
  cases h.symm.trans hparts'
  exact hcut

/-! ## Linking -/

/-- The target of a jump is a leader, so a block starts there. -/
theorem Cut.exists_targetBlock (h : Cut code parts) (hi : i ∈ code) (hjumps : i.jumps = true) :
    ∃ j, targetBlock code parts i = .ok j ∧ j < parts.length := by
  obtain ⟨p, hp, hstart⟩ := h.lands i hi hjumps
  obtain ⟨j, hj, hlt⟩ := exists_blockAt? hstart
  refine ⟨j, ?_, hlt⟩
  rw [targetBlock, hp]
  dsimp only [bind, Except.bind]
  rw [hj]

theorem jumps_of_kindOf (h : kindOf i = .branch ∨ kindOf i = .jump) : i.jumps = true := by
  unfold kindOf at h
  split at h
  · simp at h
  · cases hflow : i.flow <;> simp_all [Instruction.jumps]

/-- Each range has its successors, and they are blocks of the partition. -/
theorem Cut.exists_successorsOf (h : Cut code parts) (r : CodeRange) :
    ∃ ss, successorsOf code parts r = .ok ss ∧ ∀ j ∈ ss, j < parts.length := by
  have hnext : ∀ j ∈ (blockAt? parts r.stop).toList, j < parts.length := by
    intro j hj
    obtain ⟨_, hr, -⟩ := blockAt?_eq_some (Option.mem_toList.mp hj)
    exact (List.getElem?_eq_some_iff.mp hr).1
  unfold successorsOf
  cases hlast : last? code r with
  | none => exact ⟨[], rfl, by simp⟩
  | some last =>
    have hmem : last ∈ code := List.mem_of_getElem? hlast
    cases hkind : kindOf last with
    | branch =>
      obtain ⟨j, hj, hlt⟩ := h.exists_targetBlock hmem (jumps_of_kindOf (.inl hkind))
      refine ⟨j :: (blockAt? parts r.stop).toList, ?_, List.forall_mem_cons.mpr ⟨hlt, hnext⟩⟩
      dsimp only
      rw [hkind, hj]
      rfl
    | jump =>
      obtain ⟨j, hj, hlt⟩ := h.exists_targetBlock hmem (jumps_of_kindOf (.inr hkind))
      refine ⟨[j], ?_, by simpa using hlt⟩
      dsimp only
      rw [hkind, hj]
      rfl
    | fallthrough =>
      refine ⟨_, ?_, hnext⟩
      dsimp only
      rw [hkind]
    | exit =>
      refine ⟨[], ?_, by simp⟩
      dsimp only
      rw [hkind]

end ControlFlow

namespace Graph

open ControlFlow

variable {code : List Instruction} {parts : List CodeRange} {g : Graph}

/-- Edges between existing blocks can be added. -/
theorem exists_addEdges {source : Nat} {targets : List BlockId} (hs : source < g.size)
    (ht : ∀ t ∈ targets, t < g.size) : ∃ g', g.addEdges source targets = .ok g' := by
  induction targets generalizing g with
  | nil => exact ⟨g, rfl⟩
  | cons t rest ih =>
    obtain ⟨ht, hrest⟩ := List.forall_mem_cons.mp ht
    have hadd : ∃ g₁, g.addEdge source t = .ok g₁ := ⟨_, if_pos ⟨hs, ht⟩⟩
    obtain ⟨g₁, hadd⟩ := hadd
    rw [← size_addEdge hadd] at hs hrest
    obtain ⟨g', hg'⟩ := ih hs hrest
    refine ⟨g', ?_⟩
    rw [addEdges, hadd]
    exact hg'

/-- Linking succeeds if the successors of all ranges exist. The induction goes along the ranges that
are left. -/
theorem exists_link {rest : List CodeRange} {id : Nat} (h : ∀ r ∈ rest, ∃ ss,
      successorsOf code parts r = .ok ss ∧ ∀ j ∈ ss, j < parts.length)
    (hsize : g.size = parts.length) (hid : id + rest.length ≤ g.size) :
    ∃ g', link code parts g id rest = .ok g' := by
  induction rest generalizing g id with
  | nil => exact ⟨g, rfl⟩
  | cons r rest ih =>
    rw [List.length_cons] at hid
    obtain ⟨⟨ss, hss, hlt⟩, h⟩ := List.forall_mem_cons.mp h
    have hsource : id < g.size := by omega
    obtain ⟨g₁, hadd⟩ := exists_addEdges hsource (hsize ▸ hlt)
    have hsize₁ : g₁.size = g.size := size_addEdges hadd
    have hrest : id + 1 + rest.length ≤ g₁.size := by omega
    obtain ⟨g', hg'⟩ := ih h (hsize₁.trans hsize) hrest
    refine ⟨g', ?_⟩
    rw [link, hss]
    show (g.addEdges id ss >>= fun g => link code parts g (id + 1) rest) = _
    rw [hadd]
    exact hg'

/-- Code that is covered by ranges has a graph, if the edges of all ranges can be told. -/
theorem exists_graph (hne : code ≠ []) (hcovers : checkRanges 0 parts = .ok code.length)
    (h : ∀ r ∈ parts, ∃ ss, successorsOf code parts r = .ok ss ∧ ∀ j ∈ ss, j < parts.length) :
    ∃ g, ofPartition code parts = .ok g := by
  have hsize := size_cut code parts
  have hid : 0 + parts.length ≤ (cut code parts).size := by omega
  obtain ⟨g, hg⟩ := exists_link h hsize hid
  refine ⟨g, ?_⟩
  rw [ofPartition, if_neg (by simpa using hne), hcovers]
  exact (if_pos rfl).trans hg

/-- Code that is cut soundly has a graph. -/
theorem exists_ofPartition (hne : code ≠ []) (h : Cut code parts) :
    ∃ g, ofPartition code parts = .ok g :=
  exists_graph hne h.covers fun r _ => h.exists_successorsOf r

/-- Code has a graph when it is not empty and its jumps are aimed. -/
theorem exists_ofCode (hne : code ≠ []) (h : ∀ i ∈ code, i.Aimed code) :
    ∃ g, ofCode code = .ok g := by
  obtain ⟨parts, hparts, hcut⟩ := partition_of_aimed hne h
  obtain ⟨g, hg⟩ := exists_ofPartition hne hcut
  refine ⟨g, ?_⟩
  rw [ofCode, hparts]
  exact hg

/-- The first jump that goes nowhere is why code has no graph. -/
theorem ofCode_of_not_aimed {before after : List Instruction} {i : Instruction}
    (hcode : code = before ++ i :: after) (hbefore : ∀ j ∈ before, j.Aimed code)
    (hi : ¬ i.Aimed code) : ofCode code = .error i.offence := by
  rw [ofCode, partition_of_not_aimed hcode hbefore hi]
  rfl

end Graph

end MethodLift
