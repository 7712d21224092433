import MethodLift.Block.Partition
import MethodLift.Proofs.Block.Wiring

/-!
# The blocks of code

What a graph says about the code it was built from. The ranges of a partition follow each other
without gaps, so the block at a position and the block after a block are determined; linking adds
the edges that the last instruction of each range asks for and nothing else.

`Graph.Laid` collects these facts for a graph of given code: where each block lies, how it ends,
and where its edges lead. `Graph.ofPartition_laid` and `Graph.ofCode_laid` establish it.
-/

namespace MethodLift

namespace ControlFlow

variable {code : List Instruction} {parts : List CodeRange} {e stop p i j : Nat} {r r' : CodeRange}

/-! ## Positions of instructions -/

/-- The position that is found holds an instruction with the index. -/
theorem getElem?_of_lastPosition? {index : Nat} (h : lastPosition? index code = some p) :
    ∃ x, code[p]? = some x ∧ x.index = index := by
  induction code generalizing p with
  | nil => cases h
  | cons x rest ih =>
    simp only [lastPosition?] at h
    split at h
    · rename_i q hq
      cases h
      exact ih hq
    · split at h
      · cases h
        exact ⟨x, rfl, ‹_›⟩
      · cases h

/-- A jump names the instruction at the position it goes to. -/
theorem target?_of_targetPosition {x : Instruction} (h : targetPosition code x = .ok p) :
    ∃ t y, x.target? = some t ∧ code[p]? = some y ∧ y.index = t := by
  unfold targetPosition at h
  split at h
  · cases h
  · rename_i t ht
    split at h
    · cases h
    · rename_i q hq
      cases h
      obtain ⟨y, hy, hyt⟩ := getElem?_of_lastPosition? hq
      exact ⟨t, y, ht, hy, hyt⟩

/-! ## Ranges without gaps -/

theorem checkRanges_cons (h : checkRanges e (r :: parts) = .ok stop) :
    r.start = e ∧ r.start < r.stop ∧ checkRanges r.stop parts = .ok stop := by
  simp only [checkRanges] at h
  split at h
  · cases h
  · rename_i hr
    simp only [ne_eq, not_or, not_not, Nat.not_le] at hr
    exact ⟨hr.1, hr.2, h⟩

/-- Ranges that follow each other go upwards. -/
theorem checkRanges_le (h : checkRanges e parts = .ok stop) : e ≤ stop := by
  induction parts generalizing e with
  | nil =>
    cases h
    exact Nat.le_refl _
  | cons r rest ih =>
    obtain ⟨rfl, hlt, hrest⟩ := checkRanges_cons h
    exact Nat.le_trans (Nat.le_of_lt hlt) (ih hrest)

/-- Every range lies between the ends and is not empty. -/
theorem checkRanges_bounds (h : checkRanges e parts = .ok stop) (hr : parts[i]? = some r) :
    e ≤ r.start ∧ r.start < r.stop ∧ r.stop ≤ stop := by
  induction parts generalizing e i with
  | nil => simp at hr
  | cons x rest ih =>
    obtain ⟨rfl, hlt, hrest⟩ := checkRanges_cons h
    cases i with
    | zero =>
      cases hr
      exact ⟨Nat.le_refl _, hlt, checkRanges_le hrest⟩
    | succ i =>
      obtain ⟨h₁, h₂, h₃⟩ := ih hrest hr
      exact ⟨Nat.le_trans (Nat.le_of_lt hlt) h₁, h₂, h₃⟩

/-- The range after a range starts where that one stops. -/
theorem checkRanges_next (h : checkRanges e parts = .ok stop) (hr : parts[i]? = some r)
    (hr' : parts[i + 1]? = some r') : r'.start = r.stop := by
  induction parts generalizing e i with
  | nil => simp at hr
  | cons x rest ih =>
    obtain ⟨rfl, -, hrest⟩ := checkRanges_cons h
    cases i with
    | zero =>
      cases hr
      cases rest with
      | nil => simp at hr'
      | cons y rest =>
        cases hr'
        exact (checkRanges_cons hrest).1
    | succ i => exact ih hrest hr hr'

/-- The last range stops at the end. -/
theorem checkRanges_last (h : checkRanges e parts = .ok stop) (hr : parts[i]? = some r)
    (hlast : parts.length ≤ i + 1) : r.stop = stop := by
  induction parts generalizing e i with
  | nil => simp at hr
  | cons x rest ih =>
    obtain ⟨rfl, -, hrest⟩ := checkRanges_cons h
    cases i with
    | zero =>
      cases hr
      cases rest with
      | nil =>
        cases hrest
        rfl
      | cons y rest => simp at hlast
    | succ i => exact ih hrest hr (by simpa using hlast)

/-- Later ranges start behind earlier ones. -/
theorem checkRanges_lt (h : checkRanges e parts = .ok stop) (hr : parts[i]? = some r)
    (hr' : parts[j]? = some r') (hij : i < j) : r.stop ≤ r'.start := by
  induction parts generalizing e i j with
  | nil => simp at hr
  | cons x rest ih =>
    obtain ⟨rfl, -, hrest⟩ := checkRanges_cons h
    cases j with
    | zero => omega
    | succ j =>
      cases i with
      | zero =>
        cases hr
        exact (checkRanges_bounds hrest hr').1
      | succ i => exact ih hrest hr hr' (by omega)

/-- Different ranges start at different positions, since none is empty. -/
theorem start_injective (h : checkRanges e parts = .ok stop) (hr : parts[i]? = some r)
    (hr' : parts[j]? = some r') (heq : r.start = r'.start) : i = j := by
  have hlt := (checkRanges_bounds h hr).2.1
  have hlt' := (checkRanges_bounds h hr').2.1
  rcases Nat.lt_trichotomy i j with hij | hij | hij
  · have := checkRanges_lt h hr hr' hij
    omega
  · exact hij
  · have := checkRanges_lt h hr' hr hij
    omega

theorem blockAt?_eq_some (h : blockAt? parts p = some i) :
    ∃ r, parts[i]? = some r ∧ r.start = p := by
  rw [blockAt?, List.findIdx?_eq_some_iff_getElem] at h
  obtain ⟨hlt, hp, -⟩ := h
  exact ⟨parts[i], List.getElem?_eq_getElem hlt, by simpa using hp⟩

/-- A range is found by its start. -/
theorem blockAt?_start (h : checkRanges e parts = .ok stop) (hr : parts[i]? = some r) :
    blockAt? parts r.start = some i := by
  cases hb : blockAt? parts r.start with
  | none =>
    rw [blockAt?, List.findIdx?_eq_none_iff] at hb
    have := hb r (List.mem_of_getElem? hr)
    simp at this
  | some j =>
    obtain ⟨r', hr', hstart⟩ := blockAt?_eq_some hb
    rw [start_injective h hr' hr hstart]

/-- The block after a block is the one at the next position. -/
theorem blockAt?_stop (h : checkRanges e parts = .ok stop) (hr : parts[i]? = some r) :
    blockAt? parts r.stop = if i + 1 < parts.length then some (i + 1) else none := by
  split
  · rename_i hlt
    have hr' : parts[i + 1]? = some parts[i + 1] := List.getElem?_eq_getElem hlt
    rw [← checkRanges_next h hr hr', blockAt?_start h hr']
  · rename_i hlt
    cases hb : blockAt? parts r.stop with
    | none => rfl
    | some j =>
      -- A block that started at the very end would be empty.
      obtain ⟨r', hr', hstart⟩ := blockAt?_eq_some hb
      have hend := checkRanges_last h hr (by omega)
      have hbound := checkRanges_bounds h hr'
      omega

/-! ## Ranges between leaders -/

/-- The ranges start where they are told to. -/
theorem start_mem_of_mem_ranges {starts : List Nat} (hr : r ∈ ranges stop starts) :
    r.start ∈ starts := by
  induction starts with
  | nil => simp [ranges] at hr
  | cons s rest ih =>
    rw [ranges, List.mem_cons] at hr
    rcases hr with rfl | hr
    · exact List.mem_cons_self
    · exact List.mem_cons_of_mem s (ih hr)

/-- No block starts inside the range of another one. -/
theorem not_start_inside {starts : List Nat} (hs : starts.Pairwise (· < ·))
    (hr : r ∈ ranges stop starts) (hp : p ∈ starts) (hlt : r.start < p) : r.stop ≤ p := by
  induction starts with
  | nil => simp at hp
  | cons s rest ih =>
    obtain ⟨hbelow, hrest⟩ := List.pairwise_cons.mp hs
    rw [ranges, List.mem_cons] at hr
    rw [List.mem_cons] at hp
    rcases hr with rfl | hr
    · rcases hp with rfl | hp
      · exact absurd hlt (Nat.lt_irrefl _)
      · -- The range stops at the next start, which is the least of the rest.
        cases rest with
        | nil => simp at hp
        | cons t rest =>
          rw [List.mem_cons] at hp
          rcases hp with rfl | hp
          · exact Nat.le_refl _
          · exact Nat.le_of_lt ((List.pairwise_cons.mp hrest).1 p hp)
    · rcases hp with rfl | hp
      · have := hbelow _ (start_mem_of_mem_ranges hr)
        omega
      · exact ih hrest hr hp

/-- Only the last instruction of a range ends a block. -/
theorem endsBlock_eq_false (h : partition code = .ok parts) (hr : r ∈ parts)
    (hstop : r.stop ≤ code.length) (hp : r.start ≤ p) (hlt : p + 1 < r.stop) {x : Instruction}
    (hx : code[p]? = some x) : x.endsBlock = false := by
  unfold partition at h
  split at h
  · cases h
  · obtain ⟨targets, -, h⟩ := exists_of_bind_ok h
    cases h
    by_contra hend
    rw [Bool.not_eq_false] at hend
    have hleader : isLeader code targets (p + 1) = true := by
      simp [isLeader, followsEnd, hx, hend]
    have hmem : p + 1 ∈ (List.range code.length).filter (isLeader code targets) :=
      List.mem_filter.mpr ⟨List.mem_range.mpr (by omega), hleader⟩
    have hsorted : ((List.range code.length).filter (isLeader code targets)).Pairwise (· < ·) :=
      List.pairwise_lt_range.filter _
    have := not_start_inside hsorted hr hmem (by omega)
    omega

end ControlFlow

namespace Graph

open ControlFlow

variable {code : List Instruction} {parts : List CodeRange} {g g' : Graph} {i : Nat}

/-- The block after a block, where there is one. -/
def next (g : Graph) (i : Nat) : List BlockId := if i + 1 < g.size then [i + 1] else []

/-! ## Pushing and linking -/

/-- The blocks of ranges, before their edges are added. -/
def cut (code : List Instruction) (parts : List CodeRange) : Graph :=
  parts.foldl (fun g r => g.push (blockOf code r)) {}

/-- Blocks that are pushed one after the other stand at the positions of their ranges, behind those
that were there. -/
theorem block?_foldl_push (parts : List CodeRange) (g : Graph) (i : Nat) :
    (parts.foldl (fun g r => g.push (blockOf code r)) g).block? i =
      if i < g.size then g.block? i
      else (parts[i - g.size]?).map fun r => { blockOf code r with id := i } := by
  induction parts generalizing g with
  | nil =>
    simp only [List.foldl_nil, List.getElem?_nil, Option.map_none]
    split
    · rfl
    · rename_i h
      exact List.getElem?_eq_none (Nat.le_of_not_lt h)
  | cons r rest ih =>
    rw [List.foldl_cons, ih, size_push, block?_push]
    rcases Nat.lt_trichotomy i g.size with h | h | h
    · rw [if_pos (by omega), if_neg (by omega), if_pos h]
    · subst h
      simp
    · obtain ⟨k, rfl⟩ : ∃ k, i = g.size + 1 + k := ⟨i - (g.size + 1), by omega⟩
      rw [if_neg (by omega), if_neg (by omega), show g.size + 1 + k - (g.size + 1) = k by omega,
        show g.size + 1 + k - g.size = k + 1 by omega, List.getElem?_cons_succ]

theorem block?_cut (code : List Instruction) (parts : List CodeRange) (i : Nat) :
    (cut code parts).block? i = (parts[i]?).map fun r => { blockOf code r with id := i } := by
  rw [cut, block?_foldl_push]
  rfl

theorem wired_cut (code : List Instruction) (parts : List CodeRange) : (cut code parts).Wired := by
  suffices h : ∀ g : Graph, g.Wired →
      (parts.foldl (fun g r => g.push (blockOf code r)) g).Wired from h {} wired_empty
  induction parts with
  | nil => exact fun _ h => h
  | cons r rest ih => exact fun g h => ih (g.push (blockOf code r)) (h.push rfl rfl)

theorem size_cut (code : List Instruction) (parts : List CodeRange) :
    (cut code parts).size = parts.length := by
  suffices h : ∀ g : Graph, (parts.foldl (fun g r => g.push (blockOf code r)) g).size =
      g.size + parts.length by
    rw [cut, h, size]
    exact Nat.zero_add _
  induction parts with
  | nil => exact fun _ => rfl
  | cons r rest ih =>
    intro g
    rw [List.foldl_cons, ih, size_push, List.length_cons]
    omega

/-- Linking keeps the invariant of edges. -/
theorem Wired.link (h : g.Wired) {rest : List CodeRange} {id : BlockId}
    (hl : link code parts g id rest = .ok g') : g'.Wired ∧ g'.size = g.size := by
  induction rest generalizing g id with
  | nil =>
    cases hl
    exact ⟨h, rfl⟩
  | cons r rest ih =>
    obtain ⟨ss, -, hl⟩ := exists_of_bind_ok hl
    obtain ⟨g₁, hadd, hl⟩ := exists_of_bind_ok hl
    obtain ⟨hwired, hsize⟩ := ih (h.addEdges hadd) hl
    exact ⟨hwired, hsize.trans (size_addEdges hadd)⟩

/-- Linking gives each block the successors of its range, and touches nothing but edges. -/
theorem block?_link {rest : List CodeRange} {id : Nat}
    (hl : link code parts g id rest = .ok g') {b : Block} (hb : g.block? i = some b) :
    ∃ successors predecessors,
      g'.block? i = some { b with successors, predecessors } ∧
      (i < id → successors = b.successors) ∧
      ∀ k r, i = id + k → rest[k]? = some r →
        ∃ ss, successorsOf code parts r = .ok ss ∧
          successors = ss.foldl appendNew b.successors := by
  induction rest generalizing g id b with
  | nil =>
    cases hl
    exact ⟨b.successors, b.predecessors, hb, fun _ => rfl, by simp⟩
  | cons r rest ih =>
    obtain ⟨ss, hss, hl⟩ := exists_of_bind_ok hl
    obtain ⟨g₁, hadd, hl⟩ := exists_of_bind_ok hl
    have hb₁ : g₁.block? i = some (wired id ss i b) := by
      rw [block?_addEdges hadd, hb]
      rfl
    obtain ⟨successors, predecessors, hg', hbefore, hat⟩ := ih hl hb₁
    refine ⟨successors, predecessors, hg', ?_, ?_⟩
    · intro hlt
      rw [hbefore (by omega)]
      simp [wired, show i ≠ id by omega]
    · intro k r' hk hr'
      cases k with
      | zero =>
        cases hr'
        refine ⟨ss, hss, ?_⟩
        rw [hbefore (by omega)]
        simp [wired, show i = id by omega]
      | succ k =>
        obtain ⟨ss', hss', heq⟩ := hat k r' (by omega) hr'
        refine ⟨ss', hss', ?_⟩
        rw [heq]
        simp [wired, show i ≠ id by omega]

/-- A graph that could be built covers its code, and is linked. -/
theorem exists_of_ofPartition (h : ofPartition code parts = .ok g) :
    code ≠ [] ∧ checkRanges 0 parts = .ok code.length ∧
      link code parts (cut code parts) 0 parts = .ok g := by
  unfold ofPartition at h
  split at h
  · cases h
  · rename_i hcode
    obtain ⟨covered, hc, h⟩ := exists_of_bind_ok h
    split at h
    · rename_i hcovered
      subst hcovered
      exact ⟨by simpa using hcode, hc, h⟩
    · cases h

/-- The block of a range in a graph that was cut along a partition. -/
theorem block?_of_range (h : ofPartition code parts = .ok g) {r : CodeRange}
    (hr : parts[i]? = some r) :
    ∃ predecessors ss, successorsOf code parts r = .ok ss ∧
      g.block? i = some
        { blockOf code r with id := i, successors := ss.foldl appendNew [], predecessors } := by
  obtain ⟨-, -, hl⟩ := exists_of_ofPartition h
  have hb : (cut code parts).block? i = some { blockOf code r with id := i } := by
    rw [block?_cut, hr]
    rfl
  obtain ⟨successors, predecessors, hg, -, hat⟩ := block?_link hl hb
  obtain ⟨ss, hss, rfl⟩ := hat i r (by omega) hr
  exact ⟨predecessors, ss, hss, hg⟩

theorem size_ofPartition (h : ofPartition code parts = .ok g) : g.size = parts.length := by
  obtain ⟨-, -, hl⟩ := exists_of_ofPartition h
  rw [((wired_cut code parts).link hl).2, size_cut]

/-- A block covers the range at its position. -/
theorem range_of_block? (h : ofPartition code parts = .ok g) {b : Block}
    (hb : g.block? i = some b) : parts[i]? = some b.range := by
  have hlt : i < parts.length := size_ofPartition h ▸ block?_lt hb
  have hr : parts[i]? = some parts[i] := List.getElem?_eq_getElem hlt
  obtain ⟨_, _, -, hg⟩ := block?_of_range h hr
  rw [hb] at hg
  cases hg
  exact hr

/-! ## Graphs of code -/

/-- The edges that the last instruction of a block asks for. The taken target of a conditional
jump comes first; it may be the next block at the same time. -/
def Leaves (g : Graph) (i : Nat) (last : Instruction) (successors : List BlockId) : Prop :=
  match kindOf last with
  | .branch => ∃ j c, g.block? j = some c ∧ last.target? = some c.start ∧
      successors = (g.next i).foldl appendNew [j]
  | .jump => ∃ j c, g.block? j = some c ∧ last.target? = some c.start ∧ successors = [j]
  | .fallthrough => successors = g.next i
  | .exit => successors = []

/-- A block lies where the code of its range is and ends as that code does. -/
structure Placed (code : List Instruction) (g : Graph) (i : Nat) (b : Block) : Prop where
  range_lt : b.range.start < b.range.stop
  stop_le : b.range.stop ≤ code.length
  first : ∃ x, code[b.range.start]? = some x ∧ b.start = x.index
  last : ∃ x, code[b.range.stop - 1]? = some x ∧ b.kind = kindOf x ∧ g.Leaves i x b.successors
  ignored_eq : b.ignored = false

/-- A graph of code: its blocks are placed one behind the other, and its edges are those of the
code. -/
structure Laid (code : List Instruction) (g : Graph) : Prop where
  wired : g.Wired
  size_pos : 0 < g.size
  placed : ∀ {i b}, g.block? i = some b → g.Placed code i b
  ordered : ∀ {i j : Nat} {a b}, g.block? i = some a → g.block? j = some b → i < j →
    a.range.stop ≤ b.range.start

/-- A jump to a block names the start of that block. -/
theorem exists_target (h : ofPartition code parts = .ok g) {x : Instruction} {j : BlockId}
    (ht : targetBlock code parts x = .ok j) :
    ∃ c, g.block? j = some c ∧ x.target? = some c.start := by
  obtain ⟨p, hp, ht⟩ := exists_of_bind_ok ht
  split at ht
  · rename_i k hk
    cases ht
    obtain ⟨t, y, ht, hy, rfl⟩ := target?_of_targetPosition hp
    obtain ⟨r, hr, rfl⟩ := blockAt?_eq_some hk
    obtain ⟨_, _, -, hg⟩ := block?_of_range h hr
    refine ⟨_, hg, ?_⟩
    simp [blockOf, hy, ht]
  · cases ht

/-- The edges of a block are those that its last instruction asks for. -/
theorem leaves_of_successorsOf (h : ofPartition code parts = .ok g) {r : CodeRange}
    (hr : parts[i]? = some r) {x : Instruction} (hx : last? code r = some x) {ss : List BlockId}
    (hss : successorsOf code parts r = .ok ss) : g.Leaves i x (ss.foldl appendNew []) := by
  obtain ⟨-, hc, -⟩ := exists_of_ofPartition h
  have hnext : (blockAt? parts r.stop).toList = g.next i := by
    rw [blockAt?_stop hc hr, next, size_ofPartition h]
    split <;> rfl
  simp only [successorsOf, hx, hnext] at hss
  unfold Leaves
  cases hk : kindOf x with
  | branch =>
    rw [hk] at hss
    obtain ⟨j, hj, hss⟩ := exists_of_bind_ok hss
    cases hss
    obtain ⟨c, hc, ht⟩ := exists_target h hj
    exact ⟨j, c, hc, ht, rfl⟩
  | jump =>
    rw [hk] at hss
    obtain ⟨j, hj, hss⟩ := exists_of_bind_ok hss
    cases hss
    obtain ⟨c, hc, ht⟩ := exists_target h hj
    exact ⟨j, c, hc, ht, rfl⟩
  | fallthrough =>
    rw [hk] at hss
    cases hss
    show (g.next i).foldl appendNew [] = g.next i
    unfold next
    split <;> rfl
  | exit =>
    rw [hk] at hss
    cases hss
    rfl

/-- A graph that was cut along a partition is a graph of its code. -/
theorem ofPartition_laid (h : ofPartition code parts = .ok g) : Laid code g := by
  obtain ⟨hcode, hc, hl⟩ := exists_of_ofPartition h
  refine ⟨((wired_cut code parts).link hl).1, ?_, ?_, ?_⟩
  · rw [size_ofPartition h]
    cases parts with
    | nil =>
      have hlen : 0 = code.length := Except.ok.inj hc
      exact absurd (List.length_eq_zero_iff.mp hlen.symm) hcode
    | cons r rest => simp
  · intro i b hb
    have hr := range_of_block? h hb
    obtain ⟨predecessors, ss, hss, hg⟩ := block?_of_range h hr
    obtain ⟨-, hlt, hle⟩ := checkRanges_bounds hc hr
    obtain ⟨first, hfirst⟩ : ∃ x, code[b.range.start]? = some x :=
      ⟨_, List.getElem?_eq_getElem (by omega)⟩
    obtain ⟨last, hlast⟩ : ∃ x, code[b.range.stop - 1]? = some x :=
      ⟨_, List.getElem?_eq_getElem (by omega)⟩
    have hleaves := leaves_of_successorsOf h hr (x := last) hlast hss
    generalize b.range = r at *
    rw [hb] at hg
    cases hg
    exact ⟨hlt, hle, ⟨first, hfirst, by simp [blockOf, hfirst]⟩,
      ⟨last, hlast, by simp [blockOf, last?, hlast], hleaves⟩, rfl⟩
  · intro i j a b ha hb hij
    exact checkRanges_lt hc (range_of_block? h ha) (range_of_block? h hb) hij

/-- The graph of code is laid out along it, and only the last instruction of a block ends it. -/
theorem ofCode_laid (h : ofCode code = .ok g) :
    Laid code g ∧ ∀ {i b}, g.block? i = some b → ∀ {p x}, b.range.start ≤ p →
      p + 1 < b.range.stop → code[p]? = some x → x.endsBlock = false := by
  obtain ⟨parts, hparts, h⟩ := exists_of_bind_ok h
  have hlaid := ofPartition_laid h
  refine ⟨hlaid, ?_⟩
  intro i b hb p x hp hlt hx
  exact endsBlock_eq_false hparts (List.mem_of_getElem? (range_of_block? h hb))
    (hlaid.placed hb).stop_le hp hlt hx

/-- With distinct indexes no two blocks start alike. -/
theorem Laid.start_injective (h : Laid code g) (hd : (code.map (·.index)).Nodup) {i j : Nat}
    {a b : Block} (ha : g.block? i = some a) (hb : g.block? j = some b)
    (heq : a.start = b.start) : i = j := by
  obtain ⟨x, hx, hax⟩ := (h.placed ha).first
  obtain ⟨y, hy, hby⟩ := (h.placed hb).first
  have hlt := (h.placed ha).range_lt
  have hlt' := (h.placed hb).range_lt
  have hpos : a.range.start = b.range.start := by
    have hx' : (code.map (·.index))[a.range.start]? = some a.start := by simp [hx, hax]
    have hy' : (code.map (·.index))[b.range.start]? = some a.start := by simp [hy, hby, heq]
    have hbound : a.range.start < (code.map (·.index)).length :=
      (List.getElem?_eq_some_iff.mp hx').1
    exact (List.getElem?_inj hbound hd).mp (hx'.trans hy'.symm)
  rcases Nat.lt_trichotomy i j with hij | hij | hij
  · have := h.ordered ha hb hij
    omega
  · exact hij
  · have := h.ordered hb ha hij
    omega

end Graph

end MethodLift
