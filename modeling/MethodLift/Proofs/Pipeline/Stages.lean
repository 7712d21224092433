import MethodLift.Pipeline.Lift
import MethodLift.Proofs.Expr.OfInstruction
import MethodLift.Proofs.Pass.Schedule

/-!
# Stages of the pipeline

A method goes through the pipeline in stages: promotion, any number of analyses and inlinings,
structuring, counting. To know what holds of a lifted method it is enough to say what holds between
the stages, and to look at each pass once, whatever the options are and however many rounds there
are. `Stages` lists what has to be shown.
-/

namespace MethodLift.Lifter

/-- Properties of a method before promotion, between the rewriting passes, after structuring, and
after counting. -/
structure Stages (Filled Rewritten Structured Counted : Context → Prop) : Prop where
  promotion : ∀ ctx, Filled ctx → Rewritten ctx.promote.1
  fields : ∀ ctx, Rewritten ctx → Rewritten ctx.recoverData.1
  usages : ∀ ctx, Rewritten ctx → Rewritten ctx.inlineUsages.1
  literals : ∀ ctx, Rewritten ctx → Rewritten ctx.inlineLiterals.1
  folding : ∀ ctx, Rewritten ctx → Rewritten ctx.foldConstants.1
  inlined : ∀ ctx, Rewritten ctx → Rewritten ctx.inlineVariables.1
  structuring : ∀ ctx, Rewritten ctx → ctx.options.enabled .structuring = true →
    Structured ctx.structureBranches.1
  /-- Structuring may be unwanted. -/
  unstructured : ∀ ctx, Rewritten ctx → ctx.options.enabled .structuring = false → Structured ctx
  counting : ∀ ctx, Structured ctx → Counted ctx.countLabels.1
  steady_rewritten : Steady Rewritten
  steady_structured : Steady Structured
  steady_counted : Steady Counted

namespace Stages

variable {Filled Rewritten Structured Counted : Context → Prop}

/-- A pass between promotion and structuring keeps what holds there. -/
theorem turns_rewriting (h : Stages Filled Rewritten Structured Counted) {p : Pass}
    (hp : p ∈ analyses ++ inlining) (n : Nat) : Turns Rewritten (p.run n) Rewritten := by
  simp only [analyses, inlining, List.cons_append, List.nil_append, List.mem_cons,
    List.not_mem_nil, or_false] at hp
  rcases hp with rfl | rfl | rfl | rfl | rfl | rfl
  · exact .ofStep h.fields n
  · exact .ofStep h.usages n
  · exact .ofStep h.literals n
  · exact .ofStep h.folding n
  · exact .ofStep h.inlined n
  · exact .ofStep h.folding n

/-- The last steps structure the method, or not if that is not wanted, and then count labels. -/
theorem turns_finishing (h : Stages Filled Rewritten Structured Counted) :
    Turns Rewritten (Schedule.runOnce finishing) Counted := by
  have hstructuring : Turns Rewritten (Schedule.runPass 0 .structuring) Structured :=
    Schedule.turns_runPass h.steady_structured
      (Turns.ofStep fun ctx hctx => h.structuring ctx hctx.1 hctx.2) h.unstructured
  have hcounting : Turns Structured (Schedule.runPass 0 .labelCount) Counted :=
    Schedule.turns_runPass h.steady_counted (Turns.ofStep fun ctx hctx => h.counting ctx hctx.1)
      fun _ _ hw => by cases hw
  exact hstructuring.bind fun _ => (hcounting.bind fun _ => .pure _).bind fun _ => .pure _

/-- The passes of the pipeline succeed, and lead from the first property to the last. -/
theorem turns_passes (h : Stages Filled Rewritten Structured Counted) (options : Options) :
    Turns Filled (passes options) Counted := by
  have hanalyses : ∀ p ∈ analyses, ∀ n, Turns Rewritten (p.run n) Rewritten :=
    fun p hp => h.turns_rewriting (List.mem_append_left _ hp)
  have hinlining : ∀ p ∈ inlining, ∀ n, Turns Rewritten (p.run n) Rewritten :=
    fun p hp => h.turns_rewriting (List.mem_append_right _ hp)
  have hlast : Turns Rewritten (do
      let _ ← Schedule.runOnce finishing
      modify fun ctx => ctx.say .debug ctx.journal.events.summary) Counted :=
    h.turns_finishing.bind fun _ => Turns.write fun _ hc => h.steady_counted.say hc _ _
  unfold passes
  refine Turns.bind (Turns.ofStep h.promotion 0) fun _ => ?_
  refine (Schedule.turns_settle h.steady_rewritten hanalyses _).bind fun rounds => ?_
  refine (Turns.write fun _ hr => h.steady_rewritten.say hr _ _).bind fun _ => ?_
  split
  · exact (Schedule.turns_settle h.steady_rewritten hinlining _).bind fun _ => hlast
  · exact (Schedule.turns_runRound h.steady_rewritten hinlining).bind fun _ => hlast

end Stages

/-! ## Lifted methods -/

/-- The result of lifting a method, with blocks that are found or given. -/
def Lifts (l : Lifter) (method : Method) (code : List Instruction) (lifted : LiftedMethod) : Prop :=
  lifted = l.lift method code ∨ ∃ parts, lifted = l.liftPartitioned method code parts

/-- The context in which the passes find a method. -/
def start (l : Lifter) (method : Method) (graph : Graph) (journal : Journal) : Context :=
  { image := l.image, method, options := l.options, graph, journal }

variable {l : Lifter} {method : Method} {code : List Instruction} {lifted : LiftedMethod}

/-- A result without a fault was not contained. -/
theorem eq_ok_of_contain {x : Except Error LiftedMethod × List LogLine}
    (h : lifted = (contain method x).1) (hfault : lifted.isFault = false) : x.1 = .ok lifted := by
  obtain ⟨result, log⟩ := x
  cases result with
  | ok _ => rw [h]; rfl
  | error e =>
    rw [h] at hfault
    cases hfault

/-- A method whose blocks were found without a fault. -/
theorem exists_of_lift (hfault : (l.lift method code).isFault = false) :
    ∃ parts g, ControlFlow.partition code = .ok parts ∧ Graph.ofPartition code parts = .ok g ∧
      (l.runGraph method code g).1 = .ok (l.lift method code) := by
  have hok : (l.tryLiftLogged method code).1 = .ok (l.lift method code) :=
    eq_ok_of_contain rfl hfault
  unfold tryLiftLogged at hok
  cases hcode : Graph.ofCode code with
  | error e =>
    rw [hcode] at hok
    cases hok
  | ok g =>
    rw [hcode] at hok
    obtain ⟨parts, hparts, hg⟩ := exists_of_bind_ok hcode
    exact ⟨parts, g, hparts, hg, hok⟩

/-- A method whose blocks were given, without a fault. -/
theorem exists_of_liftPartitioned {parts : List CodeRange}
    (hfault : (l.liftPartitioned method code parts).isFault = false) :
    ∃ g, Graph.ofPartition code parts = .ok g ∧
      (l.runGraph method code g).1 = .ok (l.liftPartitioned method code parts) := by
  have hok : (l.run method code (Graph.ofPartition code parts)).1 =
      .ok (l.liftPartitioned method code parts) := eq_ok_of_contain rfl hfault
  cases hparts : Graph.ofPartition code parts with
  | error e =>
    rw [hparts] at hok
    cases hok
  | ok g =>
    rw [hparts] at hok
    exact ⟨g, rfl, hok⟩

/-- A lifted method without a fault comes from a graph that its code was cut into. -/
theorem Lifts.exists_graph (h : l.Lifts method code lifted) (hfault : lifted.isFault = false) :
    ∃ parts g, Graph.ofPartition code parts = .ok g ∧
      (l.runGraph method code g).1 = .ok lifted := by
  rcases h with rfl | ⟨parts, rfl⟩
  · obtain ⟨parts, g, -, hg, hrun⟩ := exists_of_lift hfault
    exact ⟨parts, g, hg, hrun⟩
  · obtain ⟨g, hg, hrun⟩ := exists_of_liftPartitioned hfault
    exact ⟨parts, g, hg, hrun⟩

/-- A lifted method is what the passes make of its filled graph. -/
theorem exists_of_runGraph {g : Graph} (hrun : (l.runGraph method code g).1 = .ok lifted) :
    ∃ graph journal ctx, (Scope.fill ⟨l.image, method⟩ code g).run.run {} = (.ok graph, journal) ∧
      (passes l.options).run.run (l.start method graph journal) = (.ok (), ctx) ∧
      lifted = finish ctx := by
  dsimp only [runGraph] at hrun
  split at hrun
  · cases hrun
  · rename_i graph journal hfill
    split at hrun
    · cases hrun
    · rename_i ctx hpasses
      exact ⟨graph, journal, ctx, hfill, hpasses, (Except.ok.inj hrun).symm⟩

namespace Stages

variable {Filled Rewritten Structured Counted : Context → Prop}

/-- What holds after the passes. -/
theorem of_passes (h : Stages Filled Rewritten Structured Counted) {ctx ctx' : Context}
    (hpasses : (passes l.options).run.run ctx = (.ok (), ctx')) (hfilled : Filled ctx) :
    Counted ctx' := by
  obtain ⟨_, ctx'', hturns, hcounted⟩ := h.turns_passes l.options ctx hfilled
  cases hpasses.symm.trans hturns
  exact hcounted

/-- What holds of a method after all stages, once its graph is filled. -/
theorem of_runGraph {g : Graph} (h : Stages Filled Rewritten Structured Counted)
    (hrun : (l.runGraph method code g).1 = .ok lifted)
    (hfill : ∀ graph journal, List.Forall₂ (Scope.Filled ⟨l.image, method⟩ code) g.blocks
      graph.blocks → Filled (l.start method graph journal)) :
    ∃ ctx, Counted ctx ∧ lifted = finish ctx := by
  obtain ⟨graph, journal, ctx, hgraph, hpasses, rfl⟩ := exists_of_runGraph hrun
  exact ⟨ctx, h.of_passes hpasses (hfill graph journal (Scope.filled_fill _ hgraph)), rfl⟩

end Stages

end MethodLift.Lifter
