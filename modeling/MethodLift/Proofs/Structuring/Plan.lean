import MethodLift.Pass.Structuring
import MethodLift.Proofs.Block.Wiring

/-!
# Plans are forests

A plan of absorptions is a forest: a block absorbs at most one other, it is absorbed at most once,
and no block comes to lie inside itself. A *rank* that grows from the owner of an absorption to its
child is what carries the last part, and it also bounds the steps that `isInside` and `insideOut`
need. Carrying out a plan in its `order` then meets every absorption once, after those inside it.
-/

namespace MethodLift

/-- Counting more elements, and one more for certain. -/
theorem countP_lt_countP {α : Type} {p q : α → Bool} {l : List α} {a : α} (ha : a ∈ l)
    (hq : q a = true) (hp : p a = false) (h : ∀ x ∈ l, p x = true → q x = true) :
    l.countP p < l.countP q := by
  obtain ⟨before, after, rfl⟩ := List.append_of_mem ha
  have hbefore : before.countP p ≤ before.countP q :=
    List.countP_mono_left fun x hx => h x (List.mem_append_left _ hx)
  have hafter : after.countP p ≤ after.countP q :=
    List.countP_mono_left fun x hx => h x (List.mem_append_right _ (List.mem_cons_of_mem a hx))
  simp only [List.countP_append, List.countP_cons, hp, hq]
  simp only [Bool.false_eq_true, if_false, if_true]
  omega

/-- Looking for a key that at most one element has. -/
theorem find?_key_iff {α κ : Type} [BEq κ] [LawfulBEq κ] {key : α → κ} {l : List α}
    (hl : (l.map key).Nodup) {k : κ} {a : α} :
    l.find? (fun b => key b == k) = some a ↔ a ∈ l ∧ key a = k := by
  constructor
  · intro h
    exact ⟨List.mem_of_find?_eq_some h, by simpa using List.find?_some h⟩
  · rintro ⟨ha, rfl⟩
    cases hf : l.find? fun b => key b == key a with
    | none =>
      rw [List.find?_eq_none] at hf
      exact absurd (beq_self_eq_true (key a)) (hf a ha)
    | some b =>
      have hb : key b = key a := by simpa using List.find?_some hf
      rw [List.inj_on_of_nodup_map hl (List.mem_of_find?_eq_some hf) ha hb]

namespace Structuring

variable {g : Graph} {p : Plan}

/-! ## Forests -/

/-- Every absorption leads from a lower rank to a higher one. -/
def Ranked (rank : Nat → Nat) (p : Plan) : Prop := ∀ a ∈ p, rank a.owner < rank a.child

/-- Absorptions that nest properly. -/
structure Forest (p : Plan) : Prop where
  owners : (p.map fun a => a.owner).Nodup
  children : (p.map fun a => a.child).Nodup
  ranked : ∃ rank, Ranked rank p

/-- A block absorbs at most one other. -/
theorem Forest.eq_of_owner (h : Forest p) {a b : Absorption} (ha : a ∈ p) (hb : b ∈ p)
    (he : a.owner = b.owner) : a = b :=
  List.inj_on_of_nodup_map h.owners ha hb he

/-- A block is absorbed at most once. -/
theorem Forest.eq_of_child (h : Forest p) {a b : Absorption} (ha : a ∈ p) (hb : b ∈ p)
    (he : a.child = b.child) : a = b :=
  List.inj_on_of_nodup_map h.children ha hb he

/-- A block lies in the conditional of another one, maybe with blocks around it. -/
inductive Inside (p : Plan) (outer : BlockId) : BlockId → Prop
  | direct {a : Absorption} (ha : a ∈ p) (ho : a.owner = outer) : Inside p outer a.child
  | deeper {a : Absorption} (ha : a ∈ p) (h : Inside p outer a.owner) : Inside p outer a.child

theorem owner?_eq_none_iff {child : BlockId} :
    owner? p child = none ↔ ∀ a ∈ p, a.child ≠ child := by
  simp [owner?]

/-- In a forest, the owner that is looked up is the only one. -/
theorem Forest.owner?_eq_some_iff (h : Forest p) {child owner : BlockId} :
    owner? p child = some owner ↔ ∃ a ∈ p, a.child = child ∧ a.owner = owner := by
  unfold owner?
  rw [Option.map_eq_some_iff]
  simp only [find?_key_iff h.children, and_assoc]

/-! ## Looking upwards -/

section Upwards

variable {rank : Nat → Nat}

/-- The absorptions of blocks up to the rank of a block, which bound the way up from it. -/
def above (rank : Nat → Nat) (p : Plan) (i : Nat) : Nat :=
  p.countP fun a => decide (rank a.child ≤ rank i)

/-- There are no more absorptions above a block than there are at all. -/
theorem above_le (i : Nat) : above rank p i ≤ p.length := List.countP_le_length

/-- The way up from a child has one absorption more than the way up from its owner. -/
theorem above_lt (hr : Ranked rank p) {a : Absorption} (ha : a ∈ p) :
    above rank p a.owner < above rank p a.child := by
  have hlt := hr a ha
  refine countP_lt_countP ha (by simp) (by simpa using hlt) fun b _ hb => ?_
  rw [decide_eq_true_eq] at hb ⊢
  omega

/-- With a step for each absorption above a block, the look upwards finds what is around it. -/
theorem isInside_iff_of_above (h : Forest p) (hr : Ranked rank p) {outer : BlockId} {steps : Nat}
    {inner : Nat} (hsteps : above rank p inner ≤ steps) :
    isInside p outer steps inner = true ↔ Inside p outer inner := by
  induction steps generalizing inner with
  | zero =>
    constructor
    · intro hi
      cases hi
    · intro hi
      -- no absorption leads up from here
      have hnone : ∀ a ∈ p, a.child ≠ inner := by
        rintro a ha rfl
        have := above_lt hr ha
        omega
      cases hi with
      | direct ha ho => exact absurd rfl (hnone _ ha)
      | deeper ha _ => exact absurd rfl (hnone _ ha)
  | succ steps ih =>
    unfold isInside
    split
    · rename_i hnone
      rw [owner?_eq_none_iff] at hnone
      constructor
      · intro hi
        cases hi
      · intro hi
        cases hi with
        | direct ha ho => exact absurd rfl (hnone _ ha)
        | deeper ha _ => exact absurd rfl (hnone _ ha)
    · rename_i parent hparent
      obtain ⟨a, ha, rfl, rfl⟩ := h.owner?_eq_some_iff.mp hparent
      have hup : above rank p a.owner ≤ steps := by
        have := above_lt hr ha
        omega
      rw [Bool.or_eq_true, beq_iff_eq, ih hup]
      constructor
      · rintro (ho | hi)
        · exact .direct ha ho
        · exact .deeper ha hi
      · intro hi
        generalize hc : a.child = c at hi
        cases hi with
        | direct hb ho =>
          rw [h.eq_of_child ha hb hc]
          exact .inl ho
        | deeper hb hi =>
          rw [h.eq_of_child ha hb hc]
          exact .inr hi

/-- In a forest, looking as many levels up as there are absorptions is enough. -/
theorem isInside_iff (h : Forest p) {outer inner : BlockId} :
    isInside p outer p.length inner = true ↔ Inside p outer inner := by
  obtain ⟨rank, hr⟩ := h.ranked
  exact isInside_iff_of_above h hr (above_le inner)

end Upwards

/-! ## Planning keeps the forest -/

open Classical in
/-- One more absorption, of a block that does not contain the owner. The ranks of the absorbed
block and of all blocks inside it move up. -/
theorem Ranked.snoc {rank : Nat → Nat} (hr : Ranked rank p) {a : Absorption}
    (hne : a.child ≠ a.owner) (hin : ¬ Inside p a.child a.owner) :
    Ranked (fun i => if i = a.child ∨ Inside p a.child i then rank i + rank a.owner + 1
      else rank i) (p ++ [a]) := by
  intro b hb
  rcases List.mem_append.mp hb with hb | hb
  · have hlt := hr b hb
    by_cases ho : b.owner = a.child ∨ Inside p a.child b.owner
    · have hi : Inside p a.child b.child := by
        rcases ho with ho | ho
        · exact .direct hb ho
        · exact .deeper hb ho
      simp only [if_pos ho, if_pos (Or.inr hi : b.child = a.child ∨ _)]
      omega
    · simp only [if_neg ho]
      split <;> omega
  · cases List.mem_singleton.mp hb
    have ho : ¬ (a.owner = a.child ∨ Inside p a.child a.owner) := by
      rintro (ho | ho)
      · exact hne ho.symm
      · exact hin ho
    simp only [if_neg ho, true_or, if_true]
    omega

/-- A new absorption keeps a forest one if its owner and its child are free and the owner is not
inside the child. -/
theorem Forest.snoc (h : Forest p) {a : Absorption} (howner : ∀ b ∈ p, b.owner ≠ a.owner)
    (hchild : ∀ b ∈ p, b.child ≠ a.child) (hne : a.child ≠ a.owner)
    (hin : ¬ Inside p a.child a.owner) : Forest (p ++ [a]) where
  owners := by
    simp only [List.map_append, List.map_cons, List.map_nil]
    refine List.Nodup.append h.owners (List.nodup_singleton _) ?_
    simpa [List.disjoint_singleton] using howner
  children := by
    simp only [List.map_append, List.map_cons, List.map_nil]
    refine List.Nodup.append h.children (List.nodup_singleton _) ?_
    simpa [List.disjoint_singleton] using hchild
  ranked := by
    obtain ⟨rank, hr⟩ := h.ranked
    exact ⟨_, hr.snoc hne hin⟩

/-- An absorption follows a conditional jump into a block that is reached from there only. -/
structure Fits (g : Graph) (a : Absorption) (b c : Block) : Prop where
  owner : g.block? a.owner = some b
  child : g.block? a.child = some c
  branch : ∃ condition target, b.branch? = some (.jumpIf condition target)
  edges : ∃ taken next, b.taken? = some taken ∧ b.fallthrough? = some next ∧
    a.child = if a.negated then next else taken
  predecessors : c.predecessors = [a.owner]
  ne_entry : a.child ≠ 0
  ne_owner : a.child ≠ a.owner

/-- A forest of absorptions that follow the edges of a graph. -/
structure Grows (g : Graph) (p : Plan) : Prop where
  forest : Forest p
  fits : ∀ a ∈ p, ∃ b c, Fits g a b c

theorem grows_nil : Grows g [] where
  forest := ⟨List.nodup_nil, List.nodup_nil, fun _ => 0, by simp [Ranked]⟩
  fits := by simp

/-- What the test of an absorption asks for. -/
theorem canAbsorb_iff (h : Forest p) {owner child : BlockId} :
    canAbsorb g p owner child = true ↔ ∃ c, g.block? child = some c ∧ child ≠ 0 ∧
      child ≠ owner ∧ (∀ a ∈ p, a.child ≠ child) ∧ c.predecessors = [owner] ∧
      ¬ Inside p child owner := by
  unfold canAbsorb
  split
  · rename_i hnone
    simp [hnone]
  · rename_i c hc
    simp only [hc, Option.some.injEq, exists_eq_left', Bool.and_eq_true, bne_iff_ne, ne_eq,
      Option.isNone_iff_eq_none, owner?_eq_none_iff, beq_iff_eq, Bool.not_eq_true',
      ← Bool.not_eq_true, isInside_iff h, and_assoc]

/-- A plan grows by absorptions that pass the test. -/
theorem Grows.snoc (h : Grows g p) {b : Block} {a : Absorption} (hb : g.block? a.owner = some b)
    (hnew : ∀ x ∈ p, x.owner ≠ a.owner) (hcan : canAbsorb g p a.owner a.child = true)
    (hbranch : ∃ condition target, b.branch? = some (.jumpIf condition target))
    (hedges : ∃ taken next, b.taken? = some taken ∧ b.fallthrough? = some next ∧
      a.child = if a.negated then next else taken) : Grows g (p ++ [a]) := by
  obtain ⟨c, hc, hzero, hne, hfree, hpred, hin⟩ := (canAbsorb_iff h.forest).mp hcan
  refine ⟨h.forest.snoc hnew hfree hne hin, fun x hx => ?_⟩
  rcases List.mem_append.mp hx with hx | hx
  · exact h.fits x hx
  · cases List.mem_singleton.mp hx
    exact ⟨b, c, hb, hc, hbranch, hedges, hpred, hzero, hne⟩

theorem branch?_eq_some {b : Block} {e : Expr} (h : b.branch? = some e) :
    ∃ condition target, b.branch? = some (.jumpIf condition target) := by
  unfold Block.branch? at h ⊢
  split at h
  · rename_i condition target hlast
    exact ⟨condition, target, rfl⟩
  · cases h

/-- Planning one block adds at most its own absorption. -/
theorem Grows.planBlock (h : Grows g p) {b : Block} (hb : g.block? b.id = some b)
    (hnew : ∀ a ∈ p, a.owner ≠ b.id) :
    Grows g (planBlock g p b) ∧ ∀ a ∈ Structuring.planBlock g p b, a ∈ p ∨ a.owner = b.id := by
  unfold Structuring.planBlock
  split
  · rename_i taken next e htaken hnext hbranch
    have hbranch := branch?_eq_some hbranch
    split
    · rename_i hcan
      refine ⟨h.snoc (a := ⟨b.id, taken, false⟩) hb hnew hcan hbranch
        ⟨taken, next, htaken, hnext, rfl⟩, fun a ha => ?_⟩
      rcases List.mem_append.mp ha with ha | ha
      · exact .inl ha
      · cases List.mem_singleton.mp ha
        exact .inr rfl
    · split
      · rename_i hcan
        refine ⟨h.snoc (a := ⟨b.id, next, true⟩) hb hnew hcan hbranch
          ⟨taken, next, htaken, hnext, rfl⟩, fun a ha => ?_⟩
        rcases List.mem_append.mp ha with ha | ha
        · exact .inl ha
        · cases List.mem_singleton.mp ha
          exact .inr rfl
      · exact ⟨h, fun a ha => .inl ha⟩
  · exact ⟨h, fun a ha => .inl ha⟩

/-- What is planned for the first blocks is a forest, in which only these blocks own anything. -/
theorem grows_take (hg : g.Numbered) (n : Nat) :
    Grows g ((g.blocks.take n).foldl (planBlock g) []) ∧
      ∀ a ∈ (g.blocks.take n).foldl (planBlock g) [], (a.owner : Nat) < n := by
  induction n with
  | zero => exact ⟨grows_nil, by simp⟩
  | succ n ih =>
    obtain ⟨hgrows, howners⟩ := ih
    rw [List.take_add_one, List.foldl_append]
    cases hb : g.blocks[n]? with
    | none => exact ⟨hgrows, fun a ha => Nat.lt_succ_of_lt (howners a ha)⟩
    | some b =>
      have hid : b.id = n := hg hb
      -- planning in order meets each block before it owns anything
      have hnew : ∀ a ∈ (g.blocks.take n).foldl (planBlock g) [], a.owner ≠ b.id := fun a ha =>
        hid.symm ▸ Nat.ne_of_lt (howners a ha)
      obtain ⟨hgrows', hmem⟩ := hgrows.planBlock (hid.symm ▸ hb) hnew
      refine ⟨hgrows', fun a ha => ?_⟩
      rcases hmem a ha with ha | ha
      · exact Nat.lt_succ_of_lt (howners a ha)
      · rw [ha, hid]
        exact Nat.lt_succ_self n

/-- The plan of a graph is a forest along its edges. -/
theorem grows_plan (hg : g.Numbered) : Grows g (plan g) := by
  have hgrows := (grows_take hg g.blocks.length).1
  rwa [List.take_length] at hgrows

/-! ## The order of a plan -/

/-- Absorptions of a plan one after the other, each once and after those inside it. -/
inductive InsideOut (p : Plan) : Plan → Prop
  | nil : InsideOut p []
  | snoc {done : Plan} {a : Absorption} (h : InsideOut p done) (ha : a ∈ p) (hnew : a ∉ done)
    (hinner : ∀ b ∈ p, b.owner = a.child → b ∈ done) : InsideOut p (done ++ [a])

/-- Only planned absorptions are carried out. -/
theorem InsideOut.subset {done : Plan} (h : InsideOut p done) : ∀ a ∈ done, a ∈ p := by
  induction h with
  | nil => simp
  | snoc _ ha _ _ ih =>
    intro b hb
    rcases List.mem_append.mp hb with hb | hb
    · exact ih b hb
    · exact List.mem_singleton.mp hb ▸ ha

/-- What lies inside an absorbed block was absorbed before. -/
theorem InsideOut.inner {done : Plan} (h : InsideOut p done) {a b : Absorption} (ha : a ∈ done)
    (hb : b ∈ p) (ho : b.owner = a.child) : b ∈ done := by
  induction h with
  | nil => cases ha
  | snoc _ _ _ hinner ih =>
    rcases List.mem_append.mp ha with ha | ha
    · exact List.mem_append_left _ (ih ha)
    · cases List.mem_singleton.mp ha
      exact List.mem_append_left _ (hinner b hb ho)

section Next

variable {done : Plan} {a : Absorption}

/-- The owner of an absorption that is still to come has absorbed nothing. -/
theorem InsideOut.owner_ne (h : InsideOut p done) (hp : Forest p) (ha : a ∈ p) (hnew : a ∉ done) :
    ∀ x ∈ done, x.owner ≠ a.owner :=
  fun x hx ho => hnew (hp.eq_of_owner (h.subset x hx) ha ho ▸ hx)

/-- A block moves once, so the children of what was carried out are other blocks. -/
theorem InsideOut.child_ne (h : InsideOut p done) (hp : Forest p) (ha : a ∈ p) (hnew : a ∉ done) :
    ∀ x ∈ done, x.child ≠ a.child :=
  fun x hx hc => hnew (hp.eq_of_child (h.subset x hx) ha hc ▸ hx)

/-- The owner is not absorbed yet, since the absorption lies inside it. -/
theorem InsideOut.child_ne_owner (h : InsideOut p done) (ha : a ∈ p) (hnew : a ∉ done) :
    ∀ x ∈ done, x.child ≠ a.owner :=
  fun _ hx hc => hnew (h.inner hx ha hc.symm)

end Next

/-- The absorptions by blocks from the rank of a block on, which bound the way down from it. -/
def below (rank : Nat → Nat) (p : Plan) (i : Nat) : Nat :=
  p.countP fun a => decide (rank i ≤ rank a.owner)

/-- The way down from an owner has one absorption more than the way down from its child. -/
theorem below_lt {rank : Nat → Nat} (hr : Ranked rank p) {a : Absorption} (ha : a ∈ p) :
    below rank p a.child < below rank p a.owner := by
  have hlt := hr a ha
  refine countP_lt_countP ha (by simp) (by simpa using hlt) fun b _ hb => ?_
  rw [decide_eq_true_eq] at hb ⊢
  omega

/-- What `insideOut` adds: the absorption of the owner, after everything inside it. -/
structure Extends (rank : Nat → Nat) (p done : Plan) (owner : Nat) (done' : Plan) : Prop where
  ordered : InsideOut p done'
  kept : ∀ a ∈ done, a ∈ done'
  added : ∀ a ∈ done', a ∈ done ∨ rank owner ≤ rank a.owner
  covers : ∀ a ∈ p, a.owner = owner → a ∈ done'

/-- Ordering from an owner on appends what is inside it, deepest first, and then its own absorption.
The induction is on the steps, of which there are enough while ranks rise on the way down. -/
theorem extends_insideOut (h : Forest p) {rank : Nat → Nat} (hr : Ranked rank p) {steps : Nat}
    {done : Plan} {owner : Nat} (hsteps : below rank p owner ≤ steps) (hdone : InsideOut p done) :
    Extends rank p done owner (insideOut p steps done owner) := by
  induction steps generalizing done owner with
  | zero =>
    refine ⟨hdone, fun a ha => ha, fun a ha => .inl ha, ?_⟩
    rintro a ha rfl
    have := below_lt hr ha
    omega
  | succ steps ih =>
    unfold insideOut
    split
    · rename_i hany
      obtain ⟨a, ha, ho⟩ := List.any_eq_true.mp hany
      refine ⟨hdone, fun a ha => ha, fun a ha => .inl ha, fun b hb hbo => ?_⟩
      rw [beq_iff_eq] at ho
      rw [h.eq_of_owner hb (hdone.subset a ha) (hbo.trans ho.symm)]
      exact ha
    · rename_i hany
      split
      · rename_i hnone
        refine ⟨hdone, fun a ha => ha, fun a ha => .inl ha, fun b hb hbo => ?_⟩
        rw [List.find?_eq_none] at hnone
        exact absurd (beq_iff_eq.mpr hbo) (hnone b hb)
      · rename_i a hfind
        obtain ⟨ha, rfl⟩ := (find?_key_iff h.owners).mp hfind
        have hdown : below rank p a.child ≤ steps := by
          have := below_lt hr ha
          omega
        obtain ⟨hordered, hkept, hadded, hcovers⟩ := ih hdown hdone
        have hlt := hr a ha
        -- everything added so far lies strictly below this owner
        have hnew : a ∉ insideOut p steps done a.child := by
          intro hmem
          rcases hadded a hmem with hmem | hle
          · exact hany (List.any_eq_true.mpr ⟨a, hmem, beq_self_eq_true _⟩)
          · omega
        refine ⟨hordered.snoc ha hnew hcovers, fun b hb => List.mem_append_left _ (hkept b hb),
          fun b hb => ?_, fun b hb hbo => ?_⟩
        · rcases List.mem_append.mp hb with hb | hb
          · rcases hadded b hb with hb | hle
            · exact .inl hb
            · exact .inr (by omega)
          · cases List.mem_singleton.mp hb
            exact .inr (Nat.le_refl _)
        · rw [h.eq_of_owner hb ha hbo]
          exact List.mem_append_right _ List.mem_cons_self

/-- The order of a plan meets all absorptions from the inside out. -/
theorem insideOut_order (h : Grows g p) (hg : g.Numbered) :
    InsideOut p (order p g) ∧ ∀ a ∈ p, a ∈ order p g := by
  obtain ⟨rank, hr⟩ := h.forest.ranked
  have hfold : ∀ (ids : List BlockId) (done : Plan), InsideOut p done →
      InsideOut p (ids.foldl (insideOut p p.length) done) ∧
      (∀ a ∈ done, a ∈ ids.foldl (insideOut p p.length) done) ∧
      ∀ a ∈ p, a.owner ∈ ids → a ∈ ids.foldl (insideOut p p.length) done := by
    intro ids
    induction ids with
    | nil =>
      intro done hdone
      exact ⟨hdone, fun a ha => ha, by simp⟩
    | cons id rest ih =>
      intro done hdone
      obtain ⟨hordered, hkept, -, hcovers⟩ :=
        extends_insideOut h.forest hr (List.countP_le_length : below rank p id ≤ p.length) hdone
      obtain ⟨hordered', hkept', hcovers'⟩ := ih _ hordered
      refine ⟨hordered', fun a ha => hkept' a (hkept a ha), fun a ha hmem => ?_⟩
      rcases List.mem_cons.mp hmem with ho | hmem
      · exact hkept' a (hcovers a ha ho)
      · exact hcovers' a ha hmem
  obtain ⟨hordered, -, hcovers⟩ := hfold (g.blocks.map fun b => b.id) [] .nil
  refine ⟨hordered, fun a ha => hcovers a ha ?_⟩
  obtain ⟨b, c, hfits⟩ := h.fits a ha
  rw [← hg hfits.owner]
  exact List.mem_map_of_mem (Graph.mem_blocks_of_block? hfits.owner)

end Structuring

end MethodLift
