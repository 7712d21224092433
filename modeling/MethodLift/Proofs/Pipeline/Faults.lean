import MethodLift.Proofs.Analyses.Rounds
import MethodLift.Proofs.Block.Linking
import MethodLift.Proofs.Pass.LabelCount
import MethodLift.Proofs.Pipeline.Stages

/-!
# Faults of lifts

Control flow that makes no sense is the only reason why a method cannot be lifted: an empty list of
instructions, or a jump that goes nowhere. Once there is a graph, filling it and all the passes
succeed, and nothing that they record is a fault. A contained failure is the only result that
records one, so it can be told from every other.
-/

namespace MethodLift

/-! ## Journals without faults -/

def Events.FaultFree (events : Events) : Prop := ∀ e ∈ events, e.kind ≠ .fault

namespace Events

variable {events es : Events}

theorem FaultFree.append (h : events.FaultFree) (hes : es.FaultFree) : (events ++ es).FaultFree :=
  List.forall_mem_append.mpr ⟨h, hes⟩

theorem has_eq_false_of_faultFree (h : events.FaultFree) : events.has .fault = false := by
  simpa [has, FaultFree] using h

/-- Routine events are no faults. -/
theorem faultFree_of_isRoutine (h : ∀ e ∈ es, e.IsRoutine) : es.FaultFree := by
  intro e he hfault
  rcases h e he with h | h
  · rw [hfault] at h
    cases h
  · rw [hfault] at h
    cases h

end Events

/-! ## Filling blocks -/

namespace Scope

/-- The work records no fault. -/
abbrev Safe {α : Type} (x : Recorder α) : Prop := Preserves x fun j => j.events.FaultFree

theorem safe_record {e : Event} (h : e.kind ≠ .fault) : Safe (record e) :=
  fun _ hj => hj.append (List.forall_mem_singleton.mpr h)

theorem safe_say (level : LogLevel) (message : String) : Safe (say level message) := fun _ hj => hj

variable (s : Scope) (block : BlockId) (i : Instruction)

theorem safe_placeholder : Safe (s.placeholder block i) :=
  (safe_say _ _).bind fun _ => (safe_record (by simp)).bind fun _ => .pure _

/-- A target that is not known is recorded, but not as a fault. -/
theorem safe_callee (o : Operand) : Safe (s.callee block i o) := by
  unfold callee
  split
  · exact .pure _
  · exact .pure _
  · dsimp only
    split
    · exact .pure _
    · exact .pure _
    · exact (safe_record (by simp)).bind fun _ => .pure _
  · exact .pure _

theorem safe_call : Safe (s.call block i) := by
  unfold call
  split
  · exact s.safe_placeholder block i
  · exact (s.safe_callee block i _).bind fun _ => .pure _

theorem safe_arithmetic (op : ArithOp) : Safe (s.arithmetic block i op) := by
  unfold arithmetic
  split
  · exact .pure _
  · exact .pure _
  · exact s.safe_placeholder block i

theorem safe_loneCompare (left right : Operand) : Safe (s.loneCompare block i left right) :=
  (safe_say _ _).bind fun _ => (safe_record (by simp)).bind fun _ => .pure _

theorem safe_loneBranch (target : Nat) : Safe (s.loneBranch block i target) :=
  (safe_say _ _).bind fun _ => (safe_record (by simp)).bind fun _ => .pure _

/-- Lifting one instruction records placeholders at worst. -/
theorem safe_instruction : Safe (s.instruction block i) := by
  have placeholder := s.safe_placeholder block i
  unfold instruction
  cases i.mnemonic
  case move | signExtend | loadAddress | shiftStack =>
    dsimp only
    split
    · exact .pure _
    · exact placeholder
  case add | subtract | multiply | divide | shiftLeft | shiftRight | and | or | xor =>
    exact s.safe_arithmetic block i _
  case not =>
    dsimp only
    split
    · exact .pure _
    · exact .pure _
    · exact placeholder
  case compare =>
    dsimp only
    split
    · exact s.safe_loneCompare block i _ _
    · exact placeholder
  case jumpIfEqual | jumpIfNotEqual | jumpIfGreater | jumpIfGreaterOrEqual | jumpIfLess
      | jumpIfLessOrEqual =>
    dsimp only
    split
    · exact s.safe_loneBranch block i _
    · exact placeholder
  case goto =>
    dsimp only
    split
    · split
      · exact placeholder
      · exact .pure _
    · exact placeholder
  case ret => exact .pure _
  case call | callNoReturn => exact s.safe_call block i
  case exchange | push | pop | interrupt | notImplemented => exact placeholder

theorem safe_compareAndJump (compare jump : Instruction) :
    Safe (s.compareAndJump block compare jump) := by
  unfold compareAndJump
  split
  · exact .pure _
  · exact (safe_record (by simp)).bind fun _ => .pure _

/-- Lifting a block records no fault, by induction along the lifting. -/
theorem safe_statements (part : List Instruction) : Safe (s.statements block part) := by
  have single : ∀ i, Safe (s.statement block i) :=
    fun i => (s.safe_instruction block i).bind fun _ => .pure _
  fun_induction statements s block part with
  | case1 => exact .pure _
  | case2 i => exact (single i).bind fun _ => .pure _
  | case3 i next rest _ ih =>
    exact (s.safe_compareAndJump block i next).bind fun _ => ih.bind fun _ => .pure _
  | case4 i next rest _ ih => exact (single i).bind fun _ => ih.bind fun _ => .pure _

/-- Blocks whose ranges lie in the code can be filled. -/
theorem runs_fillBlocks {code : List Instruction} {blocks : List Block} {j : Journal}
    (hslice : ∀ b ∈ blocks, ∃ part, slice? code b.range = some part) (hj : j.events.FaultFree) :
    Runs (s.fillBlocks code blocks) j fun _ j' => j'.events.FaultFree := by
  induction blocks generalizing j with
  | nil => exact .pure hj
  | cons b rest ih =>
    obtain ⟨⟨part, hpart⟩, hrest⟩ := List.forall_mem_cons.mp hslice
    rw [fillBlocks, hpart]
    refine Runs.bind (Runs.lift (R := fun _ j' => j'.events.FaultFree) ?_) fun _ j' hj' => ?_
    · exact s.safe_statements b.id part j hj
    · exact (ih hrest hj').bind fun _ _ h => .pure h

/-- A graph of code can be filled. -/
theorem runs_fill {code : List Instruction} {g : Graph} (h : g.Laid code) :
    Runs (s.fill code g) {} fun _ j => j.events.FaultFree := by
  have hslice : ∀ b ∈ g.blocks, ∃ part, slice? code b.range = some part := by
    intro b hb
    obtain ⟨i, hi⟩ := Graph.exists_block?_of_mem hb
    exact ⟨_, if_pos ⟨Nat.le_of_lt (h.placed hi).range_lt, (h.placed hi).stop_le⟩⟩
  exact (s.runs_fillBlocks hslice (by simp [Events.FaultFree])).bind fun _ _ h => .pure h

end Scope

/-! ## Passes -/

namespace Context

def FaultFree (ctx : Context) : Prop := ctx.journal.events.FaultFree

/-- What analyses record are transformations, and those are no faults. -/
theorem Advances.faultFree {ctx ctx' : Context} {changed : Bool} (h : ctx.Advances changed ctx')
    (hctx : ctx.FaultFree) : ctx'.FaultFree := by
  obtain ⟨es, hes, hroutine⟩ := h.events
  rw [FaultFree, hes]
  exact Events.FaultFree.append hctx (Events.faultFree_of_isRoutine hroutine)

open VariableInlining in
/-- Inlining records transformations only. -/
theorem faultFree_inlineVariables {ctx : Context} (h : ctx.FaultFree) :
    ctx.inlineVariables.1.FaultFree := by
  have htake : ∀ (cs : List (VarId × BlockId × Nat)) (s : VariableInlining.State),
      s.events.FaultFree → (cs.foldl (take ctx.vars) s).events.FaultFree := by
    intro cs
    induction cs with
    | nil => exact fun _ hs => hs
    | cons c rest ih =>
      intro s hs
      refine ih _ ?_
      unfold take
      split
      · exact hs
      · exact hs.append (List.forall_mem_singleton.mpr (by simp [inlined]))
  dsimp only [inlineVariables]
  split
  · exact h
  · exact Events.FaultFree.append h (htake _ _ (by simp [Events.FaultFree]))

open Structuring in
theorem faultFree_absorb {ctx : Context} (h : ctx.FaultFree) (a : Absorption) :
    (absorb ctx a).FaultFree := by
  unfold absorb
  split
  · exact h
  · dsimp only
    split
    · exact Events.FaultFree.append h (List.forall_mem_singleton.mpr (by simp [absorbed]))
    · exact h

open Structuring in
/-- Structuring records transformations only. -/
theorem faultFree_structureBranches {ctx : Context} (h : ctx.FaultFree) :
    ctx.structureBranches.1.FaultFree := by
  have habsorb : ∀ (as : Plan) (c : Context), c.FaultFree → (as.foldl absorb c).FaultFree := by
    intro as
    induction as with
    | nil => exact fun _ hc => hc
    | cons a rest ih => exact fun c hc => ih _ (faultFree_absorb hc a)
  dsimp only [structureBranches]
  split
  · exact h
  · exact habsorb _ _ h

theorem faultFree_countLabels {ctx : Context} (h : ctx.FaultFree) :
    ctx.countLabels.1.FaultFree := by
  rw [FaultFree, LabelCount.events_countLabels]
  exact h

end Context

namespace Lifter

/-- The records of a schedule are no faults. -/
theorem steady_faultFree : Steady Context.FaultFree where
  say h _ _ := h
  record h e he := by
    refine Events.FaultFree.append h (List.forall_mem_singleton.mpr fun hfault => ?_)
    rw [hfault] at he
    rcases he with he | he <;> cases he

/-- No pass records a fault. -/
theorem stages_faultFree : Stages Context.FaultFree Context.FaultFree Context.FaultFree
    Context.FaultFree where
  promotion _ h := h
  fields ctx h := ctx.advances_recoverData.faultFree h
  usages ctx h := ctx.advances_inlineUsages.faultFree h
  literals ctx h := ctx.advances_inlineLiterals.faultFree h
  folding ctx h := ctx.advances_foldConstants.faultFree h
  inlined _ h := Context.faultFree_inlineVariables h
  structuring _ h _ := Context.faultFree_structureBranches h
  unstructured _ h _ := h
  counting _ h := Context.faultFree_countLabels h
  steady_rewritten := steady_faultFree
  steady_structured := steady_faultFree
  steady_counted := steady_faultFree

/-! ## Lifts -/

variable {l : Lifter} {method : Method} {code : List Instruction}

/-- A method that has a graph can be lifted. -/
theorem exists_runGraph {g : Graph} (h : g.Laid code) :
    ∃ lifted, (l.runGraph method code g).1 = .ok lifted ∧ lifted.isFault = false := by
  obtain ⟨graph, journal, hfill, hjournal⟩ := Scope.runs_fill ⟨l.image, method⟩ h
  obtain ⟨_, ctx, hpasses, hctx⟩ :=
    stages_faultFree.turns_passes l.options (l.start method graph journal) hjournal
  refine ⟨finish ctx, ?_, Events.has_eq_false_of_faultFree hctx⟩
  rw [start] at hpasses
  simp only [runGraph, hfill, hpasses]

/-- What a lift of code without a graph is. -/
theorem tryLift_of_error {e : Error} (h : Graph.ofCode code = .error e) :
    l.tryLift method code = .error e := by
  rw [tryLift, tryLiftLogged, h]
  rfl

/-- Code that can be cut is lifted without a fault: no later step fails. -/
theorem exists_tryLift {g : Graph} (h : Graph.ofCode code = .ok g) :
    ∃ lifted, l.tryLift method code = .ok lifted ∧ lifted.isFault = false := by
  rw [tryLift, tryLiftLogged, h]
  exact exists_runGraph (Graph.ofCode_laid h).1

/-- A method that was lifted is not marked as a fault. -/
theorem isFault_of_tryLift {lifted : LiftedMethod} (h : l.tryLift method code = .ok lifted) :
    lifted.isFault = false := by
  cases hcode : Graph.ofCode code with
  | error e => cases h.symm.trans (tryLift_of_error hcode)
  | ok g =>
    obtain ⟨lifted', hlifted', hfault⟩ : ∃ lifted', l.tryLift method code = .ok lifted' ∧
        lifted'.isFault = false := exists_tryLift hcode
    cases h.symm.trans hlifted'
    exact hfault

/-- A lift that succeeds is what lifting gives. -/
theorem lift_of_ok {lifted : LiftedMethod} (h : l.tryLift method code = .ok lifted) :
    l.lift method code = lifted := by
  unfold tryLift at h
  unfold lift liftLogged
  generalize l.tryLiftLogged method code = x at h
  obtain ⟨result, log⟩ := x
  cases h
  rfl

/-- A lift that fails leaves a comment with the error in place of the code. -/
theorem lift_of_error {e : Error} (h : l.tryLift method code = .error e) :
    l.lift method code = faulty method e.text := by
  unfold tryLift at h
  unfold lift liftLogged
  generalize l.tryLiftLogged method code = x at h
  obtain ⟨result, log⟩ := x
  cases h
  rfl

/-- Lifting fails exactly on control flow that makes no sense. It succeeds if and only if there are
instructions and every jump names one of them; otherwise it gives `empty`, or what is wrong with the
first jump that goes nowhere. Nothing that comes after finding the blocks can fail. A lift always
gives a result; it is marked as a fault exactly when lifting failed, and then it is a comment with
the text of the error, without variables. -/
theorem faults_of_lift (l : Lifter) (method : Method) (code : List Instruction) :
    ((∃ lifted, l.tryLift method code = .ok lifted) ↔
      code ≠ [] ∧ ∀ i ∈ code, i.Aimed code) ∧
    (code = [] → l.tryLift method code = .error .empty) ∧
    (∀ before i after, code = before ++ i :: after → (∀ j ∈ before, j.Aimed code) →
      ¬ i.Aimed code →
      l.tryLift method code = .error i.offence ∧ i.offence.kind = .malformed) ∧
    (∀ parts, ControlFlow.partition code = .ok parts →
      ∃ g, Graph.ofPartition code parts = .ok g) ∧
    (∀ parts g, Graph.ofPartition code parts = .ok g →
      ∃ lifted, (l.runGraph method code g).1 = .ok lifted) ∧
    ((l.lift method code).isFault = true ↔ ∃ e, l.tryLift method code = .error e) ∧
    (∀ lifted, l.tryLift method code = .ok lifted → l.lift method code = lifted) ∧
    ∀ e, l.tryLift method code = .error e →
      (l.lift method code).blocks =
        [{ kind := .exit
           statements := [{ expr := .comment ("lifting failed: " ++ e.text) }] }] ∧
      (l.lift method code).vars = {} ∧
      (l.lift method code).fault? = some (.contained method.fullName e.text) := by
  have hempty : code = [] → l.tryLift method code = .error .empty := by
    rintro rfl
    exact tryLift_of_error rfl
  have hfirst : ∀ before i after, code = before ++ i :: after → (∀ j ∈ before, j.Aimed code) →
      ¬ i.Aimed code → l.tryLift method code = .error i.offence :=
    fun _ _ _ hcode hbefore hi => tryLift_of_error (Graph.ofCode_of_not_aimed hcode hbefore hi)
  refine ⟨⟨?_, ?_⟩, hempty, fun before i after hcode hbefore hi => ?_, fun parts hparts => ?_,
    fun parts g hg => ?_, ⟨fun hfault => ?_, ?_⟩, fun lifted => lift_of_ok, fun e he => ?_⟩
  · rintro ⟨lifted, hlifted⟩
    constructor
    · exact fun hcode => by cases hlifted.symm.trans (hempty hcode)
    · by_contra hnot
      obtain ⟨before, i, after, hcode, hbefore, hi⟩ := exists_first_not hnot
      cases hlifted.symm.trans (hfirst before i after hcode hbefore hi)
  · rintro ⟨hne, haimed⟩
    obtain ⟨g, hg⟩ := Graph.exists_ofCode hne haimed
    obtain ⟨lifted, hlifted, -⟩ := exists_tryLift hg
    exact ⟨lifted, hlifted⟩
  · exact ⟨hfirst before i after hcode hbefore hi, i.kind_offence⟩
  · exact Graph.exists_ofPartition (ControlFlow.aimed_of_partition hparts).1
      (ControlFlow.cut_of_partition hparts)
  · obtain ⟨lifted, hlifted, -⟩ := exists_runGraph (Graph.ofPartition_laid hg)
    exact ⟨lifted, hlifted⟩
  · cases h : l.tryLift method code with
    | error e => exact ⟨e, rfl⟩
    | ok lifted =>
      rw [lift_of_ok h, isFault_of_tryLift h] at hfault
      cases hfault
  · rintro ⟨e, he⟩
    rw [lift_of_error he]
    rfl
  · rw [lift_of_error he]
    exact ⟨rfl, rfl, rfl⟩

end Lifter

end MethodLift
