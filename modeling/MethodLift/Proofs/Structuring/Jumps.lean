import MethodLift.Proofs.Expr.Jumps
import MethodLift.Proofs.Structuring.Edges

/-!
# Jumps of structured graphs

The blocks that structuring leaves are orderly, and each of their jumps, at any depth, lands on a
block that was not moved: a jump into an absorbed block can only come from its owner, where the
conditional took its place, and the jumps that structuring adds lead to blocks that stay.
-/

namespace MethodLift

open Expr

/-- What was eliminated passes control on. -/
theorem Ends.control_of_eliminated {ss : List Statement} {c : Control} (h : Ends ss c) :
    ∀ s ∈ ss, s.eliminated = true → s.expr.control = .step := by
  induction h with
  | nil => simp
  | pass hs _ ih => exact List.forall_mem_cons.mpr ⟨fun _ => hs, ih⟩
  | last hlive _ => simp [hlive]

/-- Whatever its kind, a block of a flat graph ends in some control. -/
theorem Graph.Exits.exists_ends {g : Graph} {i : Nat} {b : Block} (h : g.Exits i b) :
    ∃ c, Ends b.statements c := by
  unfold Graph.Exits at h
  split at h
  · obtain ⟨j, c, -, -, hends | hends⟩ := h
    · exact ⟨_, hends⟩
    · exact ⟨_, hends⟩
  · obtain ⟨j, c, -, -, hends⟩ := h
    exact ⟨_, hends⟩
  · exact ⟨_, h.2⟩
  · obtain ⟨-, hends | hends⟩ := h
    · exact ⟨_, hends⟩
    · exact ⟨_, hends⟩

/-- A statement after the last one was replaced was there before, or is the new one. -/
theorem Block.mem_replaceLast {e : Expr} {ss : List Statement} {s : Statement}
    (h : s ∈ replaceLast e ss) : s ∈ ss ∨ s.expr = e ∧ s.eliminated = false := by
  induction ss with
  | nil => exact .inl h
  | cons x rest ih =>
    unfold replaceLast at h
    split at h
    · rcases List.mem_cons.mp h with rfl | h
      · exact .inl List.mem_cons_self
      · exact (ih h).imp_left (List.mem_cons_of_mem x)
    · split at h
      · exact .inl h
      · rename_i hx
        rcases List.mem_cons.mp h with rfl | h
        · exact .inr ⟨rfl, by simpa using hx⟩
        · exact .inl (List.mem_cons_of_mem x h)

namespace Structuring

variable {g g' : Graph} {p : Plan}

/-! ## Orderly blocks -/

/-- Statements with control in its places only. -/
structure Neat (ss : List Statement) : Prop where
  orderly : ∀ s ∈ ss, Orderly s.expr
  gone : ∀ s ∈ ss, s.eliminated = true → s.expr.Plain

/-- A jump at the end leaves statements neat. -/
theorem Neat.append {b : Block} (h : Neat b.statements) (target : Nat) :
    Neat (b.append (.jump target)).statements where
  orderly s hs := by
    rcases List.mem_append.mp hs with hs | hs
    · exact h.orderly s hs
    · rw [List.mem_singleton.mp hs]
      exact .jump target
  gone s hs he := by
    rcases List.mem_append.mp hs with hs | hs
    · exact h.gone s hs he
    · rw [List.mem_singleton.mp hs] at he
      cases he

/-- A block is still neat as a body. -/
theorem Neat.asBody {b : Block} (h : Neat b.statements) (g : Graph) :
    Neat (asBody g b).statements := by
  unfold Structuring.asBody
  split
  · exact h
  · split
    · exact h.append _
    · exact h

/-- A negated condition decides as little about control as the condition. -/
theorem plain_negate {e : Expr} (h : e.Plain) : (negate e).Plain := by
  unfold negate
  split
  · split
    · exact plain_compare.mpr (plain_compare.mp h)
    · exact plain_complement.mpr h
  · exact plain_complement.mp h
  · exact plain_complement.mpr h

/-- An owner is still neat with its body inside: the conditional takes the place of the jump at the
end. -/
theorem Neat.nest {b body : Block} (h : Neat b.statements) (hbody : Neat body.statements)
    {condition : Expr} (hc : condition.Plain) (negated : Bool) (taken : Option Nat) :
    Neat (nest b condition body negated taken).statements := by
  have hset : Neat (b.setLast (.guarded (if negated then negate condition else condition)
      body.toBlockHead body.statements)).statements := by
    constructor
    · intro s hs
      rcases Block.mem_replaceLast hs with hs | ⟨he, -⟩
      · exact h.orderly s hs
      · rw [he]
        refine .guarded ?_ hbody.orderly hbody.gone
        split
        · exact plain_negate hc
        · exact hc
    · intro s hs hgone
      rcases Block.mem_replaceLast hs with hs | ⟨-, hlive⟩
      · exact h.gone s hs hgone
      · cases hlive.symm.trans hgone
  cases negated with
  | false => exact hset
  | true =>
    cases taken with
    | none => exact hset
    | some start => exact hset.append start

theorem neat_of_flat (hg : g.Flat) {i : Nat} {b : Block} (hb : g.block? i = some b) :
    Neat b.statements where
  orderly s hs := (hg.tidy hb s hs).orderly
  gone s hs he := by
    obtain ⟨c, hends⟩ := (hg.exits hb).exists_ends
    exact (hg.tidy hb s hs).plain (hends.control_of_eliminated s hs he)

/-- Blocks stay neat however deep others are nested in them. -/
theorem Nested.neat (hg : g.Flat) (hp : Grows g p) {i : Nat} {b : Block} (h : Nested g p i b) :
    Neat b.statements := by
  induction h with
  | leaf hb _ => exact neat_of_flat hg hb
  | node ha hb hbranch _ ih =>
    obtain ⟨c, j, init, s, hsplits⟩ := hp.splits hg ha hb hbranch
    exact (neat_of_flat hg hb).nest (ih.asBody g) hsplits.plain_condition _ _

/-! ## Where jumps land -/

/-- All jumps of statements land on blocks that stay. -/
def AllLand (g : Graph) (p : Plan) (ss : List Statement) : Prop := ∀ t ∈ bodyJumps ss, Lands g p t

theorem jumps_of_plain {init : List Statement} (h : ∀ s ∈ init, s.expr.Plain) :
    init.flatMap (fun s => s.expr.jumps) = [] := by
  rw [List.flatMap_eq_nil_iff]
  exact fun s hs => (h s hs).jumps_eq

/-- The jumps of a block of a flat graph follow its edges. -/
theorem exists_of_mem_jumps (hg : g.Flat) {i t : Nat} {b : Block} (hb : g.block? i = some b)
    (ht : t ∈ bodyJumps b.statements) :
    ∃ j c, g.block? j = some c ∧ j ∈ b.successors ∧ c.start = t := by
  rw [bodyJumps_eq] at ht
  change t ∈ b.live.flatMap _ at ht
  cases hg.closes hb with
  | quiet hlive _ =>
    rw [jumps_of_plain hlive] at ht
    cases ht
  | leave hlive hinit hs _ =>
    rw [hlive, List.flatMap_append, jumps_of_plain hinit, List.flatMap_singleton] at ht
    rcases eq_of_control_leave hs with ⟨value, he⟩ | he <;> rw [he] at ht <;> cases ht
  | @jump init s j c hlive hinit hs _ hc hj =>
    rw [hlive, List.flatMap_append, jumps_of_plain hinit, List.flatMap_singleton, hs] at ht
    exact ⟨j, c, hc, by simp [hj], (List.mem_singleton.mp ht).symm⟩
  | @branch init s condition j c hlive hinit hs _ _ hc hj =>
    rw [hlive, List.flatMap_append, jumps_of_plain hinit, List.flatMap_singleton, hs] at ht
    have hmem : j ∈ b.successors := hj ▸ mem_foldl_appendNew.mpr (.inl List.mem_cons_self)
    exact ⟨j, c, hc, hmem, (List.mem_singleton.mp ht).symm⟩

/-- The jumps of a body are those of its block and the one that runs on. -/
theorem AllLand.asBody {b : Block} (h : AllLand g p b.statements)
    (hresume : ∀ {start}, b.endsInJump = false → resume? g b = some start → Lands g p start) :
    AllLand g p (asBody g b).statements := by
  unfold Structuring.asBody
  split
  · exact h
  · rename_i hends
    split
    · rename_i start hstart
      intro t ht
      rw [bodyJumps_eq] at ht
      change t ∈ (b.append (.jump start)).live.flatMap _ at ht
      rw [Block.live_append, List.flatMap_append, List.mem_append, List.flatMap_singleton] at ht
      rcases ht with ht | ht
      · refine h t ?_
        rw [bodyJumps_eq]
        exact ht
      · rw [List.mem_singleton.mp ht]
        exact hresume (by simpa using hends) hstart
    · exact h

/-- Jumps in nested blocks land on blocks that stay. Those that used to lead to an absorbed block
are gone: they became conditionals. -/
theorem Nested.allLand (hg : g.Flat) (hp : Grows g p) {i : Nat} {b : Block} (h : Nested g p i b) :
    AllLand g p b.statements := by
  induction h with
  | leaf hb hfree =>
    intro t ht
    obtain ⟨j, c, hc, hj, rfl⟩ := exists_of_mem_jumps hg hb ht
    exact hp.lands hg.wired hb hfree hj hc
  | @node a b c condition target ha hb hbranch hbody ih =>
    obtain ⟨d, j, init, s, hsplits⟩ := hp.splits hg ha hb hbranch
    obtain ⟨c₀, hc₀, hhead⟩ := hbody.head
    have hbodyLand : AllLand g p (asBody g c).statements := by
      refine ih.asBody fun hends hresume => hbody.lands_resume hg hp hc₀ hends ?_
      rw [← hresume, resume?, resume?, hhead]
    intro t ht
    rw [bodyJumps_eq] at ht
    change t ∈ (nest b condition (asBody g c) a.negated (takenStart? g b)).live.flatMap _ at ht
    rw [hsplits.live_nest, List.flatMap_append, jumps_of_plain hsplits.plain, List.nil_append,
      List.flatMap_cons, List.mem_append] at ht
    rcases ht with ht | ht
    · exact hbodyLand t ht
    · cases hn : a.negated with
      | false =>
        rw [hn] at ht
        cases ht
      | true =>
        rw [hn, if_pos rfl, List.flatMap_singleton] at ht
        rw [List.mem_singleton.mp ht]
        exact hsplits.lands_taken hg.wired hp ha hb hn

end Structuring

end MethodLift
