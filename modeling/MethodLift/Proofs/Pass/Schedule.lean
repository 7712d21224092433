import MethodLift.Pass.Schedule
import MethodLift.Proofs.Work

/-!
# What schedules keep

`Turns P x Q` says that work on a context that has property `P` succeeds and leaves a context with
property `Q`. A schedule keeps what all its passes keep, as long as what it writes to the journal
plays no part in it.

Where it matters whether passes report a change, a relation between a method before and after, and
the report, takes the place of the two properties. `Settles R` says that a schedule has changing
rounds first and then a quiet one, unless it comes to its limit.
-/

namespace MethodLift

/-- The work succeeds on a context with one property and leaves one with another. -/
def Turns {α : Type} (P : Context → Prop) (x : LiftM α) (Q : Context → Prop) : Prop :=
  ∀ ctx, P ctx → ∃ a ctx', x.run.run ctx = (.ok a, ctx') ∧ Q ctx'

/-- The property does not look at the journal. -/
def Silent (P : Context → Prop) : Prop := ∀ ctx journal, P ctx → P { ctx with journal }

/-- The property survives what schedules write to the journal: log lines, and notices of passes
that changed something and of limits that were reached. -/
structure Steady (P : Context → Prop) : Prop where
  say : ∀ {ctx}, P ctx → ∀ level message, P (ctx.say level message)
  record : ∀ {ctx}, P ctx → ∀ {e : Event}, e.kind = .passCompleted ∨ e.kind = .iterationLimit →
    P (ctx.record e)

theorem Silent.steady {P : Context → Prop} (h : Silent P) : Steady P where
  say hp _ _ := h _ _ hp
  record hp _ _ := h _ _ hp

/-- A pass of one step does that step and cannot fail. -/
theorem Pass.run_ofStep {name description : String} {wanted : Options → Bool}
    {step : Context → Context × Bool} {ctx ctx' : Context} {changed : Bool}
    (h : step ctx = (ctx', changed)) (n : Nat) :
    ((Pass.ofStep name description wanted step).run n).run.run ctx = (.ok changed, ctx') := by
  show (Except.ok (step ctx).2, (step ctx).1) = _
  rw [h]

namespace Turns

variable {α β : Type} {P Q R : Context → Prop}

theorem pure (a : α) : Turns P (Pure.pure a : LiftM α) P := fun ctx h => ⟨a, ctx, rfl, h⟩

theorem weaken {P' Q' : Context → Prop} {x : LiftM α} (h : Turns P x Q)
    (hP : ∀ ctx, P' ctx → P ctx) (hQ : ∀ ctx, Q ctx → Q' ctx) : Turns P' x Q' := by
  intro ctx hp
  obtain ⟨a, ctx', hrun, hq⟩ := h ctx (hP ctx hp)
  exact ⟨a, ctx', hrun, hQ ctx' hq⟩

/-- Work in sequence turns what the first part needs into what the second one leaves. -/
theorem bind {x : LiftM α} {f : α → LiftM β} (hx : Turns P x Q) (hf : ∀ a, Turns Q (f a) R) :
    Turns P (x >>= f) R := by
  intro ctx h
  exact Runs.bind (R := fun _ => Q) (hx ctx h) fun a ctx' => hf a ctx'

theorem write {f : Context → Context} (h : ∀ ctx, P ctx → Q (f ctx)) :
    Turns P (modify f : LiftM PUnit) Q :=
  fun ctx hp => ⟨⟨⟩, f ctx, rfl, h ctx hp⟩

theorem get {f : Context → LiftM β} (h : ∀ ctx, P ctx → Turns (fun c => c = ctx) (f ctx) Q) :
    Turns P (MonadState.get >>= f) Q := by
  intro ctx hp
  exact h ctx hp ctx rfl

/-- A pass that cannot fail does what its step does. -/
theorem ofStep {name description : String} {wanted : Options → Bool}
    {step : Context → Context × Bool} (h : ∀ ctx, P ctx → Q (step ctx).1) (n : Nat) :
    Turns P ((Pass.ofStep name description wanted step).run n) Q :=
  fun ctx hp => ⟨(step ctx).2, (step ctx).1, rfl, h ctx hp⟩

end Turns

namespace Schedule

variable {P Q : Context → Prop} {round : Nat}

/-- A pass that is wanted turns one property into another, and so does not running it otherwise. -/
theorem turns_runPass {p : Pass} (hQ : Steady Q)
    (hrun : ∀ n, Turns (fun ctx => P ctx ∧ p.wanted ctx.options = true) (p.run n) Q)
    (hskip : ∀ ctx, P ctx → p.wanted ctx.options = false → Q ctx) :
    Turns P (runPass round p) Q := by
  refine .get fun ctx hp => ?_
  by_cases hw : p.wanted ctx.options = true
  · rw [if_pos hw]
    have hp' : Turns (fun c => c = ctx) (p.run round) Q :=
      (hrun round).weaken (fun c hc => hc ▸ ⟨hp, hw⟩) fun _ h => h
    refine hp'.bind fun changed => ?_
    cases changed with
    | false => exact .pure false
    | true =>
      refine (Turns.write (Q := Q) fun ctx h => ?_).bind fun _ => .pure true
      exact hQ.record (hQ.say h _ _) (.inl rfl)
  · rw [if_neg hw]
    exact (Turns.pure false).weaken (fun c hc => hc ▸ hskip ctx hp (by simpa using hw)) fun _ h => h

/-- A round keeps what its passes keep. -/
theorem turns_runRound {ps : List Pass} (hP : Steady P)
    (hrun : ∀ p ∈ ps, ∀ n, Turns P (p.run n) P) : Turns P (runRound round ps) P := by
  induction ps with
  | nil => exact .pure false
  | cons p rest ih =>
    obtain ⟨hp, hrest⟩ := List.forall_mem_cons.mp hrun
    have hp' : ∀ n, Turns (fun ctx => P ctx ∧ p.wanted ctx.options = true) (p.run n) P :=
      fun n => (hp n).weaken (fun _ h => h.1) fun _ h => h
    refine (turns_runPass hP hp' fun _ h _ => h).bind fun first => ?_
    exact (ih hrest).bind fun others => .pure _

/-- What each pass keeps, the whole schedule keeps. The induction is on the rounds that are left. -/
theorem turns_settleFrom {ps : List Pass} (hP : Steady P)
    (hrun : ∀ p ∈ ps, ∀ n, Turns P (p.run n) P) (left done : Nat) :
    Turns P (settleFrom ps done left) P := by
  induction left generalizing done with
  | zero =>
    unfold settleFrom
    cases ps.isEmpty with
    | true => exact .pure done
    | false =>
      refine (Turns.write (Q := P) fun ctx h => ?_).bind fun _ => .pure done
      exact hP.record (hP.say h _ _) (.inr rfl)
  | succ left ih =>
    unfold settleFrom
    refine (turns_runRound hP hrun).bind fun changed => ?_
    cases changed with
    | false => exact .pure done
    | true => exact ih (done + 1)

/-- However many rounds a schedule takes, it keeps what its passes keep. -/
theorem turns_settle {ps : List Pass} (hP : Steady P)
    (hrun : ∀ p ∈ ps, ∀ n, Turns P (p.run n) P) (limit : Nat) : Turns P (settle ps limit) P :=
  turns_settleFrom hP hrun limit 0

/-! ## Reports -/

/-- A relation between a method before, a report of a change, and the method after, that passes may
have one after the other, and that survives notices of passes that changed something. -/
structure Reports (R : Context → Bool → Context → Prop) : Prop where
  refl : ∀ ctx, R ctx false ctx
  trans : ∀ {ctx ctx' ctx'' first others}, R ctx first ctx' → R ctx' others ctx'' →
    R ctx (first || others) ctx''
  record : ∀ {ctx ctx' changed}, R ctx changed ctx' → ∀ {e : Event}, e.kind = .passCompleted →
    ∀ level message, R ctx changed ((ctx'.say level message).record e)

/-- A round changed nothing, and this context is what it left. -/
def Quiet (ps : List Pass) (ctx : Context) : Prop :=
  ∃ round before, (runRound round ps).run.run before = (.ok false, ctx)

/-- A schedule with a limit had some rounds that changed something. A quiet round came after them,
or there were as many as allowed. -/
inductive Settles (R : Context → Bool → Context → Prop) (ps : List Pass) :
    Nat → Context → Nat → Context → Prop
  | limit (ctx : Context) (journal : Journal) : Settles R ps 0 ctx 0 { ctx with journal }
  | quiet {left : Nat} {ctx ctx' : Context} (round : R ctx false ctx') (quiet : Quiet ps ctx') :
    Settles R ps (left + 1) ctx 0 ctx'
  | change {left rounds : Nat} {ctx ctx' ctx'' : Context} (round : R ctx true ctx')
    (rest : Settles R ps left ctx' rounds ctx'') : Settles R ps (left + 1) ctx (rounds + 1) ctx''

/-- One report for two counts once at most. -/
theorem toNat_or_le (first others : Bool) :
    (first || others).toNat ≤ first.toNat + others.toNat := by
  cases first <;> cases others <;> decide

section Reports

variable {R : Context → Bool → Context → Prop} {ps : List Pass}

/-- Recording a pass is no change of its own. -/
theorem Reports.runPass (hR : Reports R) {p : Pass} (hp : ∀ n ctx, Runs (p.run n) ctx (R ctx))
    (round : Nat) (ctx : Context) : Runs (runPass round p) ctx (R ctx) := by
  refine Runs.get ?_
  split
  · refine (hp round ctx).bind fun changed ctx' h => ?_
    cases changed with
    | false => exact .pure h
    | true => exact (Runs.write (hR.record h rfl _ _)).bind fun _ _ h => .pure h
  · exact .pure (hR.refl ctx)

/-- A round reports a change if one of its passes does. -/
theorem Reports.runRound (hR : Reports R) (hps : ∀ p ∈ ps, ∀ n ctx, Runs (p.run n) ctx (R ctx))
    (round : Nat) (ctx : Context) : Runs (runRound round ps) ctx (R ctx) := by
  induction ps generalizing ctx with
  | nil => exact .pure (hR.refl ctx)
  | cons p rest ih =>
    obtain ⟨hp, hrest⟩ := List.forall_mem_cons.mp hps
    refine (hR.runPass hp round ctx).bind fun first ctx' h => ?_
    exact (ih hrest ctx').bind fun others ctx'' h' => .pure (hR.trans h h')

/-- A schedule adds up the rounds that changed something and ends after one that did not, or at the
limit. -/
theorem Reports.settleFrom (hR : Reports R)
    (hps : ∀ p ∈ ps, ∀ n ctx, Runs (p.run n) ctx (R ctx)) (left done : Nat) (ctx : Context) :
    Runs (settleFrom ps done left) ctx fun rounds ctx' =>
      ∃ k, rounds = done + k ∧ Settles R ps left ctx k ctx' := by
  induction left generalizing done ctx with
  | zero =>
    unfold Schedule.settleFrom
    cases ps.isEmpty with
    | true => exact .pure ⟨0, rfl, .limit ctx ctx.journal⟩
    | false =>
      refine (Runs.write (R := fun _ c => ∃ k, done = done + k ∧ Settles R ps 0 ctx k c) ?_).bind
        fun _ _ h => .pure h
      exact ⟨0, rfl, .limit ctx _⟩
  | succ left ih =>
    unfold Schedule.settleFrom
    refine (hR.runRound hps done ctx).remember.bind fun changed ctx' h => ?_
    obtain ⟨hround, hrun⟩ := h
    cases changed with
    | false => exact .pure ⟨0, rfl, .quiet hround ⟨done, ctx, hrun⟩⟩
    | true =>
      refine (ih (done + 1) ctx').mono ?_
      rintro rounds ctx'' ⟨k, hk, hsettles⟩
      exact ⟨k + 1, by omega, .change hround hsettles⟩

/-- No schedule runs more rounds than its limit. -/
theorem Settles.rounds_le {limit rounds : Nat} {ctx ctx' : Context}
    (h : Settles R ps limit ctx rounds ctx') : rounds ≤ limit := by
  induction h with
  | limit => exact Nat.le_refl 0
  | quiet => exact Nat.zero_le _
  | change _ _ ih => exact Nat.succ_le_succ ih

/-- With less rounds than allowed, the last round changed nothing. -/
theorem Settles.quiet_of_lt {limit rounds : Nat} {ctx ctx' : Context}
    (h : Settles R ps limit ctx rounds ctx') (hlt : rounds < limit) : Quiet ps ctx' := by
  induction h with
  | limit => exact absurd hlt (Nat.lt_irrefl 0)
  | quiet _ hquiet => exact hquiet
  | change _ _ ih => exact ih (Nat.lt_of_succ_lt_succ hlt)

/-- A schedule settles, or stops at its limit, when its passes are in the relation. -/
theorem Reports.settle (hR : Reports R) (hps : ∀ p ∈ ps, ∀ n ctx, Runs (p.run n) ctx (R ctx))
    (limit : Nat) (ctx : Context) : Runs (settle ps limit) ctx (Settles R ps limit ctx) := by
  refine (hR.settleFrom hps limit 0 ctx).mono ?_
  rintro rounds ctx' ⟨k, hk, hsettles⟩
  rw [Nat.zero_add] at hk
  exact hk ▸ hsettles

end Reports

end Schedule

end MethodLift
