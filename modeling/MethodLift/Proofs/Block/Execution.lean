import MethodLift.Proofs.Block.Flat

/-!
# Executing graphs

A small machine that executes the blocks of a graph, whatever its statements mean. What is still to
be done is a list of tasks; a configuration has tasks and a state, and `Graph.advance` makes one
step. Blocks that are not written take no part: a jump enters the written block that starts at its
target, and the end of a block that runs on leads to the next written one. The body of a
conditional is executed in its place, and its end leads to what follows the conditional, unless the
body leaves the method.

Statements change the state, a return included, and so may the test of a condition. What can be
observed are the statements other than jumps and conditionals, with the states they are executed in.
Two configurations that match each other step by step, `Matches`, show the same.
-/

namespace MethodLift

/-- What statements do and when conditions hold. -/
structure Meaning (σ : Type) where
  act : Expr → σ → σ
  test : Expr → σ → Bool
  /-- The state after a condition was tested. Conditions that only look at the state leave it as
  it is. -/
  after : Expr → σ → σ := fun _ s => s

/-- Opposite comparisons and the complement negate conditions, and are tested in the same way. -/
structure Meaning.Negates {σ : Type} (M : Meaning σ) : Prop where
  compare : ∀ {kind opposite left right s}, Comparison.negate? kind = some opposite →
    M.test (.compare opposite left right) s = !M.test (.compare kind left right) s
  complement : ∀ e s, M.test (.complement e) s = !M.test e s
  after_compare : ∀ {kind opposite left right s}, Comparison.negate? kind = some opposite →
    M.after (.compare opposite left right) s = M.after (.compare kind left right) s
  after_complement : ∀ e s, M.after (.complement e) s = M.after e s

/-- Something that is still to be done. -/
inductive Task where
  | run (e : Expr)
  /-- Goes on with the first written block from an identity on. -/
  | fall (next : Nat)
  | halt

/-- What happens at the end of a block. -/
def BlockHead.ending (b : BlockHead) : Task :=
  match b.kind with
  | .fallthrough | .branch => .fall (b.id + 1)
  | .jump | .exit => .halt

/-- Live statements as tasks. -/
def Task.ofStatements (ss : List Statement) : List Task :=
  (ss.filter fun s => !s.eliminated).map fun s => .run s.expr

def Block.tasks (b : Block) : List Task := Task.ofStatements b.statements ++ [b.ending]

/-- The tasks of the body of a conditional. -/
def BlockHead.bodyTasks (head : BlockHead) (body : List Statement) : List Task :=
  Task.ofStatements body ++ if head.kind = .exit then [.halt] else []

namespace Graph

/-- The written block that a jump enters. -/
def entrance? (g : Graph) (target : Nat) : Option Block :=
  g.blocks.find? fun b => !b.ignored && b.start == target

/-- The tasks after a jump. -/
def enter (g : Graph) (target : Nat) : List Task :=
  match g.entrance? target with
  | some b => b.tasks
  | none => []

/-- The tasks from an identity on. -/
def resume (g : Graph) (i : Nat) : List Task :=
  match (g.blocks.drop i).find? fun b => !b.ignored with
  | some b => b.tasks
  | none => []

end Graph

/-- Tasks and the state in which they are done. -/
structure Config (σ : Type) where
  tasks : List Task
  state : σ

/-- Statements that were executed, with the states they were executed in. -/
abbrev Trace (σ : Type) := List (Expr × σ)

/-- What can be observed of the next step. -/
def Config.observe {σ : Type} (c : Config σ) : Trace σ :=
  match c.tasks with
  | .run (.jump _) :: _ | .run (.jumpIf _ _) :: _ | .run (.guarded _ _ _) :: _ => []
  | .run e :: _ => [(e, c.state)]
  | _ => []

namespace Graph

variable {σ : Type} (g : Graph) (M : Meaning σ)

/-- One step. A configuration without tasks stays as it is. -/
def advance (c : Config σ) : Config σ :=
  match c.tasks with
  | [] | .halt :: _ => ⟨[], c.state⟩
  | .fall i :: _ => ⟨g.resume i, c.state⟩
  | .run (.jump target) :: _ => ⟨g.enter target, c.state⟩
  | .run (.jumpIf condition target) :: rest =>
    ⟨if M.test condition c.state then g.enter target else rest, M.after condition c.state⟩
  | .run (.guarded condition head body) :: rest =>
    ⟨if M.test condition c.state then head.bodyTasks body ++ rest else rest,
      M.after condition c.state⟩
  | .run (.ret value) :: _ => ⟨[], M.act (.ret value) c.state⟩
  | .run .retVoid :: _ => ⟨[], M.act .retVoid c.state⟩
  | .run e :: rest => ⟨rest, M.act e c.state⟩

/-- What can be observed in a number of steps. -/
def run : Nat → Config σ → Trace σ
  | 0, _ => []
  | n + 1, c => c.observe ++ run n (g.advance M c)

/-- A finite beginning of what can be observed from the entry on. -/
def Executes (start : σ) (t : Trace σ) : Prop := ∃ n, t <+: g.run M n ⟨g.resume 0, start⟩

end Graph

/-! ## Traces -/

namespace Graph

variable {σ : Type} {g g' : Graph} {M : Meaning σ}

@[simp] theorem run_halted (n : Nat) (s : σ) : g.run M n ⟨[], s⟩ = [] := by
  induction n with
  | zero => rfl
  | succ n ih => exact ih

theorem run_prefix_succ (n : Nat) (c : Config σ) : g.run M n c <+: g.run M (n + 1) c := by
  induction n generalizing c with
  | zero => exact List.nil_prefix
  | succ n ih => exact (List.prefix_append_right_inj _).mpr (ih _)

/-- More steps show more of the same. -/
theorem run_prefix {m n : Nat} (h : m ≤ n) (c : Config σ) : g.run M m c <+: g.run M n c := by
  induction h with
  | refl => exact List.prefix_refl _
  | step _ ih => exact ih.trans (run_prefix_succ _ c)

/-- Executions depend on where jumps and ends of blocks lead, and on nothing else. -/
theorem run_congr (henter : ∀ target, g'.enter target = g.enter target)
    (hresume : ∀ i, g'.resume i = g.resume i) (n : Nat) (c : Config σ) :
    g'.run M n c = g.run M n c := by
  have hadvance : ∀ c, g'.advance M c = g.advance M c := by
    intro c
    simp only [advance, henter, hresume]
  induction n generalizing c with
  | zero => rfl
  | succ n ih => rw [run, run, hadvance, ih]

/-- One or more steps from one configuration to another show some events. -/
def Leads (g : Graph) (M : Meaning σ) (c : Config σ) (t : Trace σ) (d : Config σ) : Prop :=
  ∃ k, 0 < k ∧ ∀ n, g.run M (n + k) c = t ++ g.run M n d

theorem leads_advance (c : Config σ) : g.Leads M c c.observe (g.advance M c) :=
  ⟨1, Nat.one_pos, fun _ => rfl⟩

/-- A statement without control is observed and executed. -/
theorem leads_plain (g : Graph) (M : Meaning σ) {e : Expr} (he : e.Plain) (rest : List Task)
    (s : σ) : g.Leads M ⟨.run e :: rest, s⟩ [(e, s)] ⟨rest, M.act e s⟩ := by
  have hc := he.isControl_eq
  cases e <;> first | exact leads_advance _ | cases hc

/-- A statement that leaves the method is observed, and nothing follows it. -/
theorem leads_leave (g : Graph) (M : Meaning σ) {e : Expr} (he : e.control = .leave)
    (rest : List Task) (s : σ) : g.Leads M ⟨.run e :: rest, s⟩ [(e, s)] ⟨[], M.act e s⟩ := by
  cases e <;> first | exact leads_advance _ | cases he

section Conditions

variable (g) {condition : Expr} {target : Nat} {head : BlockHead} {body : List Statement} {s : σ}

/-- A taken jump leaves the rest of its block behind at once. -/
theorem leads_taken (h : M.test condition s = true) (rest : List Task) :
    g.Leads M ⟨.run (.jumpIf condition target) :: rest, s⟩ []
      ⟨g.enter target, M.after condition s⟩ := by
  have hl := leads_advance (g := g) (M := M) ⟨.run (.jumpIf condition target) :: rest, s⟩
  simpa only [Config.observe, advance, if_pos h] using hl

theorem leads_not_taken (h : M.test condition s = false) (rest : List Task) :
    g.Leads M ⟨.run (.jumpIf condition target) :: rest, s⟩ [] ⟨rest, M.after condition s⟩ := by
  have hl := leads_advance (g := g) (M := M) ⟨.run (.jumpIf condition target) :: rest, s⟩
  simpa only [Config.observe, advance, h, Bool.false_eq_true, if_false] using hl

theorem leads_body (h : M.test condition s = true) (rest : List Task) :
    g.Leads M ⟨.run (.guarded condition head body) :: rest, s⟩ []
      ⟨head.bodyTasks body ++ rest, M.after condition s⟩ := by
  have hl := leads_advance (g := g) (M := M) ⟨.run (.guarded condition head body) :: rest, s⟩
  simpa only [Config.observe, advance, if_pos h] using hl

theorem leads_past_body (h : M.test condition s = false) (rest : List Task) :
    g.Leads M ⟨.run (.guarded condition head body) :: rest, s⟩ [] ⟨rest, M.after condition s⟩ := by
  have hl := leads_advance (g := g) (M := M) ⟨.run (.guarded condition head body) :: rest, s⟩
  simpa only [Config.observe, advance, h, Bool.false_eq_true, if_false] using hl

end Conditions

/-- Executions in sequence show what the one shows and then what the other shows. -/
theorem Leads.trans {c d e : Config σ} {t u : Trace σ} (h : g.Leads M c t d)
    (h' : g.Leads M d u e) : g.Leads M c (t ++ u) e := by
  obtain ⟨k, hk, hrun⟩ := h
  obtain ⟨l, _, hrun'⟩ := h'
  refine ⟨l + k, by omega, fun n => ?_⟩
  rw [← Nat.add_assoc, hrun, hrun', List.append_assoc]

/-- A relation between the configurations of two graphs is kept by steps that show the same. -/
def Matches (g g' : Graph) (M : Meaning σ) (R : Config σ → Config σ → Prop) : Prop :=
  ∀ c c', R c c' → (c.tasks = [] ∧ c'.tasks = []) ∨
    ∃ t d d', g.Leads M c t d ∧ g'.Leads M c' t d' ∧ R d d'

theorem Matches.symm {R : Config σ → Config σ → Prop} (h : Matches g g' M R) :
    Matches g' g M fun c' c => R c c' := by
  intro c' c hr
  rcases h c c' hr with ⟨hc, hc'⟩ | ⟨t, d, d', hd, hd', hr'⟩
  · exact .inl ⟨hc', hc⟩
  · exact .inr ⟨t, d', d, hd', hd, hr'⟩

/-- What one of two matching configurations shows, the other one shows as well. -/
theorem Matches.run {R : Config σ → Config σ → Prop} (h : Matches g g' M R) (n : Nat)
    {c c' : Config σ} (hr : R c c') : ∃ m, g.run M n c <+: g'.run M m c' := by
  induction n using Nat.strongRecOn generalizing c c' with
  | _ n ih =>
    rcases h c c' hr with ⟨hc, -⟩ | ⟨t, d, d', ⟨k, hk, hd⟩, ⟨l, -, hd'⟩, hr'⟩
    · obtain ⟨tasks, s⟩ := c
      cases hc
      exact ⟨0, by rw [run_halted]; exact List.nil_prefix⟩
    · by_cases hn : n < k
      · have hshort : g.run M n c <+: g.run M (0 + k) c := run_prefix (by omega) c
        rw [hd 0] at hshort
        exact ⟨0 + l, hd' 0 ▸ hshort⟩
      · obtain ⟨m, hm⟩ := ih (n - k) (by omega) hr'
        refine ⟨m + l, ?_⟩
        rw [hd' m, ← Nat.sub_add_cancel (Nat.le_of_not_lt hn), hd (n - k)]
        exact (List.prefix_append_right_inj t).mpr hm

/-- Graphs whose entries match have the same executions. -/
theorem Matches.executes_iff {R : Config σ → Config σ → Prop} (h : Matches g g' M R) {s : σ}
    (hr : R ⟨g.resume 0, s⟩ ⟨g'.resume 0, s⟩) (t : Trace σ) :
    g.Executes M s t ↔ g'.Executes M s t := by
  constructor
  · rintro ⟨n, hn⟩
    obtain ⟨m, hm⟩ := h.run n hr
    exact ⟨m, hn.trans hm⟩
  · rintro ⟨n, hn⟩
    obtain ⟨m, hm⟩ := h.symm.run n hr
    exact ⟨m, hn.trans hm⟩

/-! ## Where control goes -/

/-- A jump enters the only written block that starts at its target. -/
theorem enter_eq {i : Nat} {b : Block} (hb : g.block? i = some b) (hwritten : b.ignored = false)
    (honly : ∀ {j c}, g.block? j = some c → c.start = b.start → j = i) :
    g.enter b.start = b.tasks := by
  unfold enter entrance?
  cases hf : g.blocks.find? fun c => !c.ignored && c.start == b.start with
  | none =>
    rw [List.find?_eq_none] at hf
    exact absurd (by simp [hwritten]) (hf b (mem_blocks_of_block? hb))
  | some c =>
    have hc := List.find?_some hf
    rw [Bool.and_eq_true, beq_iff_eq] at hc
    obtain ⟨j, hj⟩ := exists_block?_of_mem (List.mem_of_find?_eq_some hf)
    cases honly hj hc.2
    rw [hb] at hj
    cases hj
    rfl

/-- In a flat graph all blocks are written and start at different instructions, so a jump to the
start of a block enters that block. -/
theorem Flat.enter_eq (hg : g.Flat) {i : Nat} {b : Block} (hb : g.block? i = some b) :
    g.enter b.start = b.tasks :=
  Graph.enter_eq hb (hg.visible hb) fun hc hstart => hg.start_injective hc hb hstart

/-- Running on leads to the next block when it is written. -/
theorem resume_eq {i : Nat} {b : Block} (hb : g.block? i = some b) (hwritten : b.ignored = false) :
    g.resume i = b.tasks := by
  obtain ⟨hlt, hget⟩ := List.getElem?_eq_some_iff.mp hb
  unfold resume
  rw [List.drop_eq_getElem_cons hlt, hget, List.find?_cons_of_pos (by simp [hwritten])]

end Graph

end MethodLift
