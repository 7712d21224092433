import MethodLift.Proofs.Structuring.Ownership
import MethodLift.Proofs.Structuring.Sections

/-!
# How bodies end

A block that moves into a conditional must not run on into what follows the conditional there. It
keeps a jump that it ends in, and where it ran on it gets a jump to the block that it ran into. The
place of that block in the list of successors tells which one it is, and the list names every
successor once only: a conditional jump that has the block behind it as its target, or that stands
at the end of the code, has one successor, and a body that ends in it gets no jump. These bodies run
on into what follows, and no other bodies do.
-/

namespace MethodLift

/-- The bodies of the structured conditionals of a graph, at any depth. -/
def Graph.bodies (g : Graph) : List Block := g.blocks.flatMap Block.bodies

/-- The sections of a graph are its blocks and its bodies. -/
theorem Graph.perm_sections (g : Graph) : g.sections.Perm (g.blocks ++ g.bodies) := by
  have hone : g.blocks = g.blocks.flatMap fun b => [b] := (List.flatMap_singleton' _).symm
  have hperm := List.flatMap_append_perm g.blocks (fun b => [b]) Block.bodies
  rw [← hone] at hperm
  exact hperm.symm

namespace Structuring

variable {g g' : Graph} {p : Plan} {i : Nat} {b c : Block}

/-! ## One body -/

theorem resume?_of_head (h : c.toBlockHead = b.toBlockHead) (g : Graph) :
    resume? g c = resume? g b := by
  unfold resume?
  rw [h]

/-- A body ends in a jump if the block did, or if there is a block that it ran into. -/
theorem endsInJump_asBody (g : Graph) (b : Block) :
    (asBody g b).endsInJump = (b.endsInJump || (resume? g b).isSome) := by
  unfold asBody
  split
  · rename_i hends
    rw [hends, Bool.true_or]
  · rename_i hends
    rw [Bool.not_eq_true] at hends
    cases hresume : resume? g b with
    | none => simp [hends]
    | some start =>
      simp only [hends, Option.isSome_some, Bool.or_true]
      exact endsInJump_of_last (Block.live_append b _)

/-- A conditional jump runs into another block if it has two successors. -/
theorem isSome_resume?_branch (hg : g.Flat) (hb : g.block? i = some b) (hk : b.kind = .branch) :
    (resume? g b).isSome = true ↔ b.successors.length = 2 := by
  have hexits := hg.exits hb
  unfold Graph.Exits at hexits
  rw [hk] at hexits
  obtain ⟨j, c, hc, hsuccessors, -⟩ := hexits
  unfold resume?
  rw [hk]
  cases hnext : b.successors[1]? with
  | none =>
    have hle := List.getElem?_eq_none_iff.mp hnext
    simp
    omega
  | some k =>
    obtain ⟨-, -, -, htwo⟩ := edges_of_branch hsuccessors hnext
    obtain ⟨d, hd⟩ := Graph.exists_block? (hg.wired.succ_lt hb (List.mem_of_getElem? hnext))
    simp [hd, htwo]

/-- A block that falls through runs into its successor. -/
theorem isSome_resume?_fallthrough (hg : g.Flat) (hb : g.block? i = some b)
    (hk : b.kind = .fallthrough) (hs : b.successors ≠ []) : (resume? g b).isSome = true := by
  obtain ⟨j, rest, hsuccessors⟩ := List.exists_cons_of_ne_nil hs
  obtain ⟨c, hc⟩ := Graph.exists_block? (hg.wired.succ_lt hb (hsuccessors ▸ List.mem_cons_self))
  simp [resume?, hk, hsuccessors, hc]

/-- A conditional jump with one successor stays as it is, since it absorbs nothing. -/
theorem Nested.length_of_endsInJump (hg : g.Flat) (hp : Grows g p) (h : Nested g p i c)
    (hb : g.block? i = some b) (hk : b.kind = .branch) (hends : c.endsInJump = true) :
    b.successors.length = 2 := by
  cases h with
  | leaf hc _ =>
    cases hc.symm.trans hb
    cases hg.closes hb with
    | quiet hplain _ => rw [endsInJump_of_plain hplain] at hends; cases hends
    | leave _ _ _ hk' => cases hk.symm.trans hk'
    | jump _ _ _ hk' _ _ => cases hk.symm.trans hk'
    | branch hlive _ hs _ _ _ _ => rw [endsInJump_of_last hlive, hs] at hends; cases hends
  | node ha hb' hbranch _ =>
    cases hb'.symm.trans hb
    obtain ⟨_, _, _, _, hsplits⟩ := hp.splits hg ha hb hbranch
    rw [hsplits.successors]
    rfl

/-- A body ends in a jump or a return, unless its block ended in a conditional jump with a single
successor. -/
theorem Nested.endsInJump_asBody_iff (hg : g.Flat) (hp : Grows g p) (h : Nested g p i c)
    (hb : g.block? i = some b) (hk : b.kind ≠ .exit) (hs : b.successors ≠ []) :
    (asBody g c).endsInJump = true ↔ (b.kind = .branch → b.successors.length = 2) := by
  obtain ⟨b₀, hb₀, hhead⟩ := h.head
  cases hb₀.symm.trans hb
  rw [endsInJump_asBody, resume?_of_head hhead, Bool.or_eq_true]
  cases hkind : b.kind with
  | exit => exact absurd hkind hk
  | jump => simp [h.endsInJump_of_jump hg hp hb hkind]
  | fallthrough => simp [isSome_resume?_fallthrough hg hb hkind hs]
  | branch =>
    rw [isSome_resume?_branch hg hb hkind]
    constructor
    · rintro (hends | htwo) -
      · exact h.length_of_endsInJump hg hp hb hkind hends
      · exact htwo
    · exact fun htwo => .inr (htwo rfl)

/-! ## All bodies -/

/-- A body is a block that an absorption moved, with its own bodies nested in it. The induction is
on the nesting. -/
theorem Nested.exists_of_mem_bodies (hg : g.Tidy) (h : Nested g p i c) :
    ∀ body ∈ c.bodies, ∃ a ∈ p, ∃ d, Nested g p a.child d ∧ body = asBody g d := by
  induction h with
  | leaf hb _ =>
    have hnone := flatMap_bodies_of_tidy (hg _ (Graph.mem_blocks_of_block? hb))
    rw [Block.bodies, hnone]
    exact List.forall_mem_nil _
  | @node a b d condition target ha hb hbranch hbody ih =>
    rw [bodies_nest (hg b (Graph.mem_blocks_of_block? hb)) hbranch, Block.sections, bodies_asBody]
    exact List.forall_mem_cons.mpr ⟨⟨a, ha, d, hbody, rfl⟩, ih⟩

theorem Structured.exists_of_mem_bodies (h : Structured g p g') (hg : g.Tidy) {body : Block}
    (hbody : body ∈ g'.bodies) : ∃ a ∈ p, ∃ d, Nested g p a.child d ∧ body = asBody g d := by
  obtain ⟨b', hb', hbody⟩ := List.mem_flatMap.mp hbody
  obtain ⟨i, hi⟩ := Graph.exists_block?_of_mem hb'
  obtain ⟨b, -, ⟨-, rfl⟩ | ⟨-, hnested⟩⟩ := h.cases hi
  · cases hbody
  · exact hnested.exists_of_mem_bodies hg body hbody

/-- Where there were no bodies before, the bodies are the absorbed blocks. -/
theorem perm_bodies {ctx : Context} (hg : ctx.graph.Numbered) (htidy : ctx.graph.Tidy) :
    (ctx.structureBranches.1.graph.bodies.map fun b => b.id).Perm
      ((plan ctx.graph).map fun a => a.child) := by
  have hsize : ctx.structureBranches.1.graph.size = ctx.graph.size := by
    have hranges := congrArg List.length (structured_structureBranches ctx hg).ranges_eq
    simpa [Graph.size, markBlocks] using hranges
  have hids := perm_ids hg
  rw [htidy.sections_eq, hg.ids_eq] at hids
  have hsections := ((Graph.perm_sections ctx.structureBranches.1.graph).map fun b => b.id).symm
  rw [List.map_append, (numbered_structureBranches hg).ids_eq, hsize] at hsections
  exact (List.perm_append_left_iff _).mp (hsections.trans hids)

end Structuring

open Structuring

/-- When bodies leave their conditionals. The code of the method has distinct indexes and the flow
that its mnemonics imply. After its blocks were filled and structured, the bodies are the absorbed
blocks, each once, and a body whose block had a successor ends in a jump or a return, unless that
block ended in a conditional jump with a single successor. -/
theorem Context.endsInJump_of_absorbed {code : List Instruction} {g : Graph} {scope : Scope}
    {journal journal' : Journal} {ctx : Context} (hcode : Graph.ofCode code = .ok g)
    (hindex : (code.map fun x => x.index).Nodup) (hflow : ∀ x ∈ code, x.flow = x.mnemonic.flow)
    (hfill : (scope.fill code g).run.run journal = (.ok ctx.graph, journal')) :
    (ctx.structureBranches.1.graph.bodies.map fun b => b.id).Perm
        ((ctx.structureBranches.1.graph.blocks.filter fun b => b.state == .absorbed).map
          fun b => b.id) ∧
      ∀ body ∈ ctx.structureBranches.1.graph.bodies, ∀ b, g.block? body.id = some b →
        b.kind ≠ .exit → b.successors ≠ [] →
        (body.endsInJump = true ↔ (b.kind = .branch → b.successors.length = 2)) := by
  have hfilled := scope.filled_fill hfill
  have hflat : ctx.graph.Flat := Graph.flat_of_fill hcode hfilled hindex hflow
  have hnumbered := hflat.wired.numbered
  have hmarked := (refines_markBlocks (plan ctx.graph) ctx.graph).flat hflat
  have htidy : ∀ {g : Graph}, g.Flat → g.Tidy := by
    intro g hg b hb
    obtain ⟨i, hi⟩ := Graph.exists_block?_of_mem hb
    exact hg.tidy hi
  refine ⟨?_, fun body hbody b hb hk hs => ?_⟩
  · refine (perm_bodies hnumbered (htidy hflat)).trans (perm_children hnumbered ?_).symm
    intro i b' hb'
    rw [beq_iff_eq]
    exact absorbed_iff hnumbered hb'
  · have hstructured := structured_structureBranches ctx hnumbered
    obtain ⟨a, ha, d, hnested, rfl⟩ := hstructured.exists_of_mem_bodies (htidy hmarked) hbody
    obtain ⟨c, hc, hhead⟩ := hnested.head
    rw [toBlockHead_asBody, hhead, hmarked.wired.id_eq hc] at hb
    -- the block as it was filled and marked has the same kind and the same successors
    obtain ⟨b', hb', part, journal, -, rfl⟩ := Graph.block?_of_forall₂_left hfilled hb
    have hmark := hc
    rw [block?_markBlocks, hb'] at hmark
    cases hmark
    have hiff := hnested.endsInJump_asBody_iff hmarked hstructured.grows hc hk hs
    exact hiff

namespace Structuring

/-- Code with two conditional jumps over what follows them, and between them a conditional jump to
the instruction behind it. -/
def ladder : List Instruction :=
  [⟨0, .compare, [.register "rax", .immediate 0], .next⟩, ⟨1, .jumpIfEqual, [.target 7], .branch⟩,
    ⟨2, .compare, [.register "rbx", .immediate 0], .next⟩, ⟨3, .jumpIfEqual, [.target 4], .branch⟩,
    ⟨4, .compare, [.register "rcx", .immediate 0], .next⟩, ⟨5, .jumpIfEqual, [.target 7], .branch⟩,
    ⟨6, .move, [.register "rdx", .immediate 1], .next⟩, ⟨7, .ret, [], .ret⟩]

def ladderScope : Scope :=
  ⟨{ isa := .x64 }, { id := 0, name := "ladder", declaringName := "Sample" }⟩

def ladderGraph : Graph := (Graph.ofCode ladder).toOption.getD {}

def ladderContext : Context where
  image := ladderScope.image
  method := ladderScope.method
  graph := ((ladderScope.fill ladder ladderGraph).run.run {}).1.toOption.getD {}

/-- The graph of `ladder` with its bodies. -/
def ladderResult : Graph := ladderContext.structureBranches.1.graph

end Structuring

/-- Two blocks become bodies. The one that jumps to the instruction behind it has one successor
only, and is the one without a jump at its end. -/
theorem Context.endsInJump_of_absorbed_ladder :
    Graph.ofCode ladder = .ok ladderGraph ∧
      (ladderScope.fill ladder ladderGraph).run.run {} = (.ok ladderContext.graph, {}) ∧
      ladderResult.bodies.map (fun b => b.id) = [1, 3] ∧
      ∀ body ∈ ladderResult.bodies, ∀ b, ladderGraph.block? body.id = some b →
        b.kind ≠ .exit → b.successors ≠ [] →
        (body.endsInJump = true ↔ (b.kind = .branch → b.successors.length = 2)) := by
  have hcode : Graph.ofCode ladder = .ok ladderGraph := rfl
  have hfill : (ladderScope.fill ladder ladderGraph).run.run {} = (.ok ladderContext.graph, {}) :=
    rfl
  exact ⟨hcode, hfill, by decide +kernel,
    (endsInJump_of_absorbed hcode (by decide) (by decide) hfill).2⟩

/-- The conditional jump of `ladder` to the instruction behind it has moved into a conditional, and
nothing keeps it from running on into what follows there. -/
theorem Context.not_endsInJump_of_absorbed_ladder :
    Graph.ofCode ladder = .ok ladderGraph ∧ (ladder.map fun x => x.index).Nodup ∧
      (∀ x ∈ ladder, x.flow = x.mnemonic.flow) ∧
      (ladderScope.fill ladder ladderGraph).run.run {} = (.ok ladderContext.graph, {}) ∧
      ∃ body ∈ ladderResult.bodies, body.kind ≠ .exit ∧ body.successors ≠ [] ∧
        body.endsInJump = false := by
  exact ⟨rfl, by decide, by decide, rfl, by decide +kernel⟩

end MethodLift
