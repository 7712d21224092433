import MethodLift.Pipeline.Lift
import MethodLift.Proofs.Pass.LabelCount
import MethodLift.Proofs.Pass.Rewriting
import MethodLift.Proofs.Pipeline.Stages
import MethodLift.Proofs.Text.Labels

/-!
# Labels of lifted methods

The passes before structuring keep the graph of a method flat, whatever the options are and however
many rounds they take, so structuring and counting see a flat graph. Hence the labels that a lifted
method is written with are exactly those that its jumps name.
-/

namespace MethodLift

open Structuring LabelCount

/-! ## The pipeline -/

/-- Structuring was carried out, or was not wanted. -/
def IsStructured (ctx : Context) : Prop := ∃ g p, g.Flat ∧ Structured g p ctx.graph

/-- The references of a structured graph were counted. -/
def IsCounted (ctx : Context) : Prop :=
  ∃ g p g', g.Flat ∧ Structured g p g' ∧ ctx.graph = counted g'

/-- A flat graph stays flat up to structuring, and the end is counting its labels. -/
theorem stages_counted : Lifter.Stages (fun ctx => ctx.graph.Flat) (fun ctx => ctx.graph.Flat)
    IsStructured IsCounted where
  promotion ctx hflat := ctx.refines_promote.flat hflat
  fields ctx hflat := ctx.refines_recoverData.flat hflat
  usages ctx hflat := ctx.refines_inlineUsages.flat hflat
  literals ctx hflat := ctx.refines_inlineLiterals.flat hflat
  folding ctx hflat := ctx.refines_foldConstants.flat hflat
  inlined ctx hflat := ctx.refines_inlineVariables.flat hflat
  structuring ctx hflat _ :=
    ⟨_, _, (refines_markBlocks _ _).flat hflat,
      structured_structureBranches ctx hflat.wired.numbered⟩
  unstructured ctx hflat _ := by
    refine ⟨ctx.graph, [], hflat, grows_nil, fun _ => rfl, by simp, fun hb _ => ?_⟩
    exact ⟨_, hb, .leaf hb (by simp)⟩
  counting ctx hstructured := by
    obtain ⟨g, p, hflat, hs⟩ := hstructured
    exact ⟨g, p, ctx.graph, hflat, hs, graph_countLabels ctx⟩
  steady_rewritten := Silent.steady fun _ _ h => h
  steady_structured := Silent.steady fun _ _ h => h
  steady_counted := Silent.steady fun _ _ h => h

/-- A method that was lifted came from a flat graph, and its labels were counted. -/
theorem exists_counted_of_tryLift {l : Lifter} {method : Method} {code : List Instruction}
    {lifted : LiftedMethod} (hindex : (code.map fun x => x.index).Nodup)
    (hflow : ∀ x ∈ code, x.flow = x.mnemonic.flow) (h : l.tryLift method code = .ok lifted) :
    ∃ g p g', g.Flat ∧ Structured g p g' ∧ lifted.blocks = (counted g').blocks := by
  unfold Lifter.tryLift Lifter.tryLiftLogged at h
  cases hcode : Graph.ofCode code with
  | error e =>
    rw [hcode] at h
    cases h
  | ok g =>
    rw [hcode] at h
    simp only [Lifter.run, Lifter.runGraph] at h
    split at h
    · cases h
    · rename_i graph journal hfill
      have hflat := Graph.flat_of_fill hcode (Scope.filled_fill _ hfill) hindex hflow
      obtain ⟨_, ctx, hrun, g, p, g', hg, hs, hgraph⟩ := stages_counted.turns_passes l.options
        { image := l.image, method, options := l.options, graph, journal } hflat
      rw [hrun] at h
      cases h
      exact ⟨g, p, g', hg, hs, congrArg Graph.blocks hgraph⟩

/-! ## The output -/

/-- Each jump of a labelled graph has one written target, which counts the jumps to it. -/
theorem Labelled.exists_target {bs : List Block} (h : Labelled bs) {t : Nat}
    (ht : t ∈ jumpsOf bs) : ∃ b, (written bs).filter (fun b => b.start == t) = [b] ∧
      b.start = t ∧ b.references = (jumpsOf bs).count t := by
  obtain ⟨b, hb⟩ := h.target t ht
  have hmem : b ∈ (written bs).filter fun b => b.start == t := hb ▸ List.mem_cons_self
  obtain ⟨hwritten, hstart⟩ := List.mem_filter.mp hmem
  rw [beq_iff_eq] at hstart
  exact ⟨b, hb, hstart, by rw [h.count b hwritten, hstart]⟩

/-- Elements that do not contribute a value may be left out where it is counted. -/
theorem count_flatMap_filter {α β : Type} [BEq β] [LawfulBEq β] {l : List α} {q : α → Bool}
    {f : α → List β} {x : β} (h : ∀ a ∈ l, q a = false → x ∉ f a) :
    (l.flatMap f).count x = ((l.filter q).flatMap f).count x := by
  induction l with
  | nil => rfl
  | cons a rest ih =>
    obtain ⟨ha, hrest⟩ := List.forall_mem_cons.mp h
    rw [List.flatMap_cons, List.count_append, ih hrest]
    cases hq : q a with
    | true => rw [List.filter_cons_of_pos hq, List.flatMap_cons, List.count_append]
    | false =>
      rw [List.filter_cons_of_neg (by simp [hq]), List.count_eq_zero.mpr (ha hq), Nat.zero_add]

/-- Labels that fit the jumps of blocks are written once when a jump names them, and never
otherwise. -/
theorem Labelled.count_labels {bs : List Block} (h : Labelled bs) (name : String) :
    ((written bs).flatMap Block.labels).count name =
      if name ∈ (jumpsOf bs).map label then 1 else 0 := by
  split
  · rename_i hmem
    obtain ⟨t, ht, rfl⟩ := List.mem_map.mp hmem
    obtain ⟨b, hb, hstart, hcount⟩ := h.exists_target ht
    have href : b.references ≠ 0 := by
      rw [hcount]
      exact Nat.ne_of_gt (List.count_pos_iff.mpr ht)
    rw [count_flatMap_filter (q := fun b => b.start == t), hb]
    · simp [Block.labels, href, hstart]
    · intro c _ hc hname
      unfold Block.labels at hname
      split at hname
      · cases hname
      · rw [beq_eq_false_iff_ne] at hc
        exact hc (label_injective (List.mem_singleton.mp hname)).symm
  · rename_i hmem
    rw [List.count_eq_zero]
    intro hlabel
    obtain ⟨b, hb, hname⟩ := List.mem_flatMap.mp hlabel
    unfold Block.labels at hname
    split at hname
    · cases hname
    · rename_i href
      rw [List.mem_singleton.mp hname] at hmem
      rw [h.count b hb, List.count_eq_zero, not_not] at href
      exact hmem (List.mem_map_of_mem href)

/-- The jumps of a lifted method and its labels fit together. Every jump in a live statement of a
visible block, at any depth, names the start of one visible block, whose references count the jumps
that name it; no jump names the start of a block that was absorbed; and the text has the label of a
jump once, and no other labels. -/
theorem Lifter.labels_of_tryLift {l : Lifter} {method : Method} {code : List Instruction}
    {lifted : LiftedMethod} (hindex : (code.map fun x => x.index).Nodup)
    (hflow : ∀ x ∈ code, x.flow = x.mnemonic.flow) (h : l.tryLift method code = .ok lifted) :
    (∀ t ∈ jumpsOf lifted.blocks,
      ∃ b, lifted.visibleBlocks.filter (fun b => b.start == t) = [b] ∧
        b.references = (jumpsOf lifted.blocks).count t) ∧
    (∀ t ∈ jumpsOf lifted.blocks, ∀ b ∈ lifted.blocks, b.ignored = true → b.start ≠ t) ∧
    Source.gotos lifted.lines = (jumpsOf lifted.blocks).map label ∧
    ∀ name, (Source.labels lifted.lines).count name =
      if name ∈ Source.gotos lifted.lines then 1 else 0 := by
  obtain ⟨g, p, g', hg, hs, hblocks⟩ := exists_counted_of_tryLift hindex hflow h
  have hlabelled := hs.labelled hg
  have horderly := hs.orderly hg
  rw [← hblocks] at hlabelled horderly
  have hgotos : Source.gotos lifted.lines = (jumpsOf lifted.blocks).map label := by
    have hrest : [Piece.dedent].head? ≠ some Source.space := by simp
    have hall : Source.gotos ((written lifted.blocks).flatMap (Block.lines lifted.vars) ++
        [.dedent]) = (jumpsOf lifted.blocks).map label ++ [] := gotos_blocks horderly hrest
    rw [List.append_nil] at hall
    exact hall
  have hlabels : Source.labels lifted.lines = (written lifted.blocks).flatMap Block.labels := by
    have hrest : [Piece.dedent].head? ≠ some Source.colon := by simp
    have hall : Source.labels ((written lifted.blocks).flatMap (Block.lines lifted.vars) ++
        [.dedent]) = (written lifted.blocks).flatMap Block.labels ++ [] :=
      labels_blocks horderly hrest
    rw [List.append_nil] at hall
    exact hall
  refine ⟨fun t ht => ?_, hlabelled.unmoved, hgotos, fun name => ?_⟩
  · obtain ⟨b, hb, -, hcount⟩ := hlabelled.exists_target ht
    exact ⟨b, hb, hcount⟩
  · rw [hlabels, hgotos]
    exact hlabelled.count_labels name

/-- Code that jumps back to its start as long as two numbers are equal. -/
def spin : List Instruction :=
  [⟨0, .compare, [.immediate 1, .immediate 2], .next⟩, ⟨1, .jumpIfEqual, [.target 0], .branch⟩,
    ⟨2, .ret, [], .ret⟩]

def spinResult : Except Error LiftedMethod :=
  Lifter.tryLift { image := { isa := .x64 } }
    { id := 0, name := "spin", declaringName := "Sample" } spin

/-- The jump back and the label at the start are one of each. -/
theorem Lifter.labels_of_tryLift_spin : ∃ lifted, spinResult = .ok lifted ∧
    jumpsOf lifted.blocks = [0] ∧ (Source.labels lifted.lines).count (label 0) = 1 := by
  have hjumps : spinResult.toOption.map (fun l => jumpsOf l.blocks) = some [0] := by
    decide +kernel
  cases h : spinResult with
  | error e =>
    rw [h] at hjumps
    cases hjumps
  | ok lifted =>
    rw [h] at hjumps
    have hjumps : jumpsOf lifted.blocks = [0] := Option.some.inj hjumps
    obtain ⟨-, -, hgotos, hlabels⟩ := labels_of_tryLift (by decide) (by decide) h
    refine ⟨lifted, rfl, hjumps, ?_⟩
    rw [hlabels, hgotos, hjumps]
    rfl

end MethodLift
