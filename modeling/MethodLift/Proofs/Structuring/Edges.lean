import MethodLift.Proofs.Structuring.Nesting

/-!
# Edges and absorbed blocks

A block is absorbed from the only block that leads to it, so a jump from anywhere else lands on a
block that stays. The owner of an absorption ends in a conditional jump between two different
blocks: `Splits` has all its parts, and says what the owner looks like with the child in its
conditional.
-/

namespace MethodLift.Structuring

variable {g : Graph} {p : Plan}

/-- A block is only absorbed by a block that leads to it. -/
theorem Grows.free_of_edge (h : Grows g p) (hg : g.Wired) {i j : Nat} {b : Block}
    (hb : g.block? i = some b) (hj : j ∈ b.successors)
    (hnot : ∀ a ∈ p, a.owner = i → a.child ≠ j) : ∀ a ∈ p, a.child ≠ j := by
  rintro a ha rfl
  obtain ⟨b', c, hfits⟩ := h.fits a ha
  have hpred := (hg.mem_pred_iff hb hfits.child).mpr hj
  rw [hfits.predecessors, List.mem_singleton] at hpred
  exact hnot a ha hpred.symm rfl

theorem kind_of_taken? {b : Block} {j : BlockId} (h : b.taken? = some j) : b.kind = .branch := by
  unfold Block.taken? at h
  split at h
  · assumption
  · cases h

/-- Only blocks that end in a conditional jump absorb others. -/
theorem Grows.kind_owner (h : Grows g p) {a : Absorption} (ha : a ∈ p) {b : Block}
    (hb : g.block? a.owner = some b) : b.kind = .branch := by
  obtain ⟨b', c, hfits⟩ := h.fits a ha
  cases hfits.owner.symm.trans hb
  obtain ⟨taken, next, htaken, -⟩ := hfits.edges
  exact kind_of_taken? htaken

/-- The edges of a block that ends in a conditional jump and has two successors. -/
theorem edges_of_branch {i j k : Nat} {succ : List Nat}
    (hsucc : succ = (g.next i).foldl appendNew [j]) (hk : succ[1]? = some k) :
    k = i + 1 ∧ i + 1 < g.size ∧ j ≠ i + 1 ∧ succ = [j, i + 1] := by
  unfold Graph.next at hsucc
  split at hsucc
  · rename_i hlt
    by_cases hj : j = i + 1
    · rw [hj, List.foldl_cons, appendNew_of_mem (by simp)] at hsucc
      rw [hsucc] at hk
      cases hk
    · have hpair : succ = [j, i + 1] := by
        rw [hsucc]
        simp [appendNew, Ne.symm hj]
      rw [hpair] at hk
      cases hk
      exact ⟨rfl, hlt, hj, hpair⟩
  · rw [hsucc] at hk
    cases hk

/-- Whether a block ends in a jump is a matter of its last live statement. -/
theorem endsInJump_of_last {b : Block} {init : List Statement} {s : Statement}
    (h : b.live = init ++ [s]) : b.endsInJump =
      match s.expr with
      | .jump _ | .ret _ | .retVoid => true
      | _ => false := by
  unfold Block.endsInJump
  rw [Block.last?_eq_some_iff.mpr ⟨init, s, h, rfl⟩]
  cases s.expr <;> rfl

/-- Plain statements do not jump at the end. -/
theorem endsInJump_of_plain {b : Block} (h : ∀ s ∈ b.live, s.expr.Plain) :
    b.endsInJump = false := by
  unfold Block.endsInJump
  cases hl : b.last? with
  | none => rfl
  | some e =>
    obtain ⟨init, s, hlive, rfl⟩ := Block.last?_eq_some_iff.mp hl
    have hs := (h s (hlive ▸ List.mem_append_right _ List.mem_cons_self)).isControl_eq
    cases he : s.expr <;> rw [he] at hs <;> first | rfl | cases hs

/-- The block of an owner ends in a conditional jump between two blocks, of which it absorbs
one. -/
structure Splits (g : Graph) (a : Absorption) (b c : Block) (j : Nat) (init : List Statement)
    (s : Statement) (condition : Expr) : Prop where
  kind : b.kind = .branch
  taken : g.block? j = some c
  next : a.owner + 1 < g.size
  taken_ne : j ≠ a.owner + 1
  successors : b.successors = [j, a.owner + 1]
  live : b.live = init ++ [s]
  plain : ∀ x ∈ init, x.expr.Plain
  last : s.expr = .jumpIf condition c.start
  plain_condition : condition.Plain
  child : a.child = if a.negated then a.owner + 1 else j

/-- An owner splits into what stands before its conditional jump, the jump, and the block that the
jump is around. -/
theorem Grows.splits (h : Grows g p) (hg : g.Flat) {a : Absorption} (ha : a ∈ p) {b : Block}
    (hb : g.block? a.owner = some b) {condition : Expr} {target : Nat}
    (hbranch : b.branch? = some (.jumpIf condition target)) :
    ∃ c j init s, Splits g a b c j init s condition := by
  have hk := h.kind_owner ha hb
  obtain ⟨b', c', hfits⟩ := h.fits a ha
  cases hfits.owner.symm.trans hb
  obtain ⟨taken, next, htaken, hnext, hchild⟩ := hfits.edges
  simp only [Block.taken?, Block.fallthrough?, hk, if_true] at htaken hnext
  obtain ⟨init, s, hlive, hs⟩ :=
    Block.last?_eq_some_iff.mp (Block.branch?_eq_some_iff.mp hbranch)
  cases hg.closes hb with
  | quiet hquiet _ =>
    have hplain := (hquiet s (hlive ▸ List.mem_append_right _ List.mem_cons_self)).isControl_eq
    rw [hs] at hplain
    cases hplain
  | leave _ _ _ hk' => cases hk.symm.trans hk'
  | jump _ _ _ hk' => cases hk.symm.trans hk'
  | @branch init' s' condition' j c hlive' hinit hs' hcond _ hc hj =>
    obtain ⟨rfl, hss⟩ := List.append_inj' (hlive.symm.trans hlive') rfl
    cases hss
    cases hs.symm.trans hs'
    rw [hg.wired.id_eq hb] at hj
    obtain ⟨rfl, hlt, hne, hsucc⟩ := edges_of_branch hj hnext
    rw [hsucc] at htaken
    cases htaken
    exact ⟨c, _, init, s, hk, hc, hlt, hne, hsucc, hlive, hinit, hs, hcond, hchild⟩

theorem Splits.takenStart? {a : Absorption} {b c : Block} {j : Nat} {init : List Statement}
    {s : Statement} {condition : Expr} (h : Splits g a b c j init s condition) :
    takenStart? g b = some c.start := by
  simp [Structuring.takenStart?, Block.taken?, h.kind, h.successors, h.taken]

/-- The condition under which the child of an absorption is executed. -/
def Absorption.test (a : Absorption) (condition : Expr) : Expr :=
  if a.negated then negate condition else condition

/-- The live statements of an owner with its child in the conditional. -/
theorem Splits.live_nest {a : Absorption} {b c : Block} {j : Nat} {init : List Statement}
    {s : Statement} {condition : Expr} (h : Splits g a b c j init s condition) (body : Block) :
    (nest b condition body a.negated (Structuring.takenStart? g b)).live =
      init ++ { s with expr := .guarded (a.test condition) body.toBlockHead body.statements } ::
        if a.negated then [{ expr := .jump c.start }] else [] := by
  rw [h.takenStart?]
  unfold nest Absorption.test
  cases a.negated with
  | false => exact Block.live_setLast h.live
  | true =>
    simp only [if_true, Block.live_append]
    rw [Block.live_setLast h.live, List.append_assoc]
    rfl

/-- An owner ends in a jump after nesting exactly if one had to be added for the taken target. -/
theorem Splits.endsInJump_nest {a : Absorption} {b c : Block} {j : Nat} {init : List Statement}
    {s : Statement} {condition : Expr} (h : Splits g a b c j init s condition) (body : Block) :
    (nest b condition body a.negated (Structuring.takenStart? g b)).endsInJump = a.negated := by
  have hlive := h.live_nest body
  cases hn : a.negated with
  | false =>
    rw [hn] at hlive
    exact endsInJump_of_last hlive
  | true =>
    rw [hn, if_pos rfl, List.append_cons] at hlive
    exact endsInJump_of_last hlive

/-- Blocks that end in a jump keep it, since nothing is nested behind it. -/
theorem Nested.endsInJump_of_jump (hg : g.Flat) (hp : Grows g p) {i : Nat} {b b' : Block}
    (h : Nested g p i b') (hb : g.block? i = some b) (hk : b.kind = .jump) :
    b'.endsInJump = true := by
  cases h with
  | leaf hb' _ =>
    cases hb'.symm.trans hb
    cases hg.closes hb with
    | quiet _ hk' => exact absurd hk hk'
    | leave _ _ _ hk' => cases hk.symm.trans hk'
    | jump hlive _ hs _ _ _ => rw [endsInJump_of_last hlive, hs]
    | branch _ _ _ _ hk' _ _ => cases hk.symm.trans hk'
  | node ha hb' _ _ =>
    cases hb'.symm.trans hb
    cases hk.symm.trans (hp.kind_owner ha hb)

/-! ## Jumps that land on blocks that stay -/

/-- A jump to a block that is not absorbed. -/
def Lands (g : Graph) (p : Plan) (target : Nat) : Prop :=
  ∃ k b, g.block? k = some b ∧ b.start = target ∧ ∀ a ∈ p, a.child ≠ k

/-- A block that absorbs nothing leads to blocks that stay. -/
theorem Grows.lands (h : Grows g p) (hg : g.Wired) {i j : Nat} {b c : Block}
    (hb : g.block? i = some b) (hfree : ∀ a ∈ p, a.owner ≠ i) (hj : j ∈ b.successors)
    (hc : g.block? j = some c) : Lands g p c.start :=
  ⟨j, c, hc, rfl, h.free_of_edge hg hb hj fun a ha ho => absurd ho (hfree a ha)⟩

/-- The taken target of a negated conditional stays: the owner absorbs the other one. -/
theorem Splits.lands_taken {a : Absorption} {b c : Block} {j : Nat} {init : List Statement}
    {s : Statement} {condition : Expr} (h : Splits g a b c j init s condition) (hg : g.Wired)
    (hp : Grows g p) (ha : a ∈ p) (hb : g.block? a.owner = some b) (hn : a.negated = true) :
    Lands g p c.start := by
  refine ⟨j, c, h.taken, rfl, hp.free_of_edge hg hb (by simp [h.successors]) fun x hx ho hc => ?_⟩
  rw [hp.forest.eq_of_owner hx ha ho, h.child, hn] at hc
  exact h.taken_ne hc.symm

/-- The successor that is not the taken target stays, when the block does not end in a jump. -/
theorem Nested.free_successor (hg : g.Flat) (hp : Grows g p) {i j : Nat} {b b' : Block}
    (h : Nested g p i b') (hb : g.block? i = some b) (hends : b'.endsInJump = false)
    (hj : j ∈ b.successors) (htaken : b.taken? ≠ some j) : ∀ a ∈ p, a.child ≠ j := by
  refine hp.free_of_edge hg.wired hb hj ?_
  cases h with
  | leaf _ hfree => exact fun a ha ho => absurd ho (hfree a ha)
  | @node a b₀ c condition target ha hb₀ hbranch hbody =>
    cases hb₀.symm.trans hb
    intro x hx ho hchild
    obtain ⟨c', k, init, s, hsplits⟩ := hp.splits hg ha hb hbranch
    rw [hsplits.endsInJump_nest] at hends
    rw [hp.forest.eq_of_owner hx ha ho, hsplits.child, hends] at hchild
    refine htaken ?_
    rw [← hchild]
    simp [Block.taken?, hsplits.kind, hsplits.successors]

/-- A nested block that does not end in a jump runs into a block that stays. -/
theorem Nested.lands_resume (hg : g.Flat) (hp : Grows g p) {i start : Nat} {b b' : Block}
    (h : Nested g p i b') (hb : g.block? i = some b) (hends : b'.endsInJump = false)
    (hresume : resume? g b = some start) : Lands g p start := by
  unfold resume? at hresume
  obtain ⟨c, hc, rfl⟩ := Option.map_eq_some_iff.mp hresume
  obtain ⟨j, hj, hc⟩ := Option.bind_eq_some_iff.mp hc
  refine ⟨j, c, hc, rfl, h.free_successor hg hp hb hends ?_ ?_⟩
  · split at hj
    · exact List.mem_of_getElem? hj
    · exact List.mem_of_getElem? hj
    · cases hj
    · cases hj
  · intro htaken
    have hk := kind_of_taken? htaken
    rw [hk] at hj
    simp only [Block.taken?, hk, if_true] at htaken
    have hnodup := hg.wired.succ_nodup hb
    have := (List.nodup_iff_getElem?_ne_getElem?.mp hnodup) 0 1 Nat.zero_lt_one
      (List.getElem?_eq_some_iff.mp hj).1
    exact this (htaken.trans hj.symm)

end MethodLift.Structuring
