import Mathlib.Data.List.Forall2

/-!
# Work that may fail or keeps state

How to take results of monadic work apart. Work that succeeds does so step by step; `Runs x s R`
says that work `x` that may fail succeeds in state `s`, with a result and a state that are related.

`Yields x P` says that stateful work `x` ends with a result that has property `P`, from whatever
state it starts, and `Preserves x I` that it keeps a property of the state. The passes rebuild
statements with such work, and most facts about them are of this form.

A loop that keeps a record of what it has met ends because `unmet` gets smaller.
-/

namespace MethodLift

/-! ## Work that may fail -/

/-- Work that succeeds does so step by step. -/
theorem exists_of_bind_ok {ε α β : Type} {x : Except ε α} {f : α → Except ε β} {b : β}
    (h : (x >>= f) = .ok b) : ∃ a, x = .ok a ∧ f a = .ok b := by
  cases x with
  | error e => cases h
  | ok a => exact ⟨a, rfl, h⟩

/-- Work with state that succeeds does so step by step. -/
theorem exists_of_run_bind_ok {ε σ α β : Type} {x : ExceptT ε (StateM σ) α}
    {f : α → ExceptT ε (StateM σ) β} {b : β} {s s' : σ}
    (h : (x >>= f).run.run s = (.ok b, s')) :
    ∃ a t, x.run.run s = (.ok a, t) ∧ (f a).run.run t = (.ok b, s') := by
  rw [ExceptT.run_bind, StateT.run_bind] at h
  cases hx : x.run.run s with
  | mk result t =>
    rw [hx] at h
    cases result with
    | error e => cases h
    | ok a => exact ⟨a, t, rfl, h⟩

/-- Work with state that does not fail gives what can be read off it. -/
theorem eq_ok_of_isSome {ε σ α : Type} {x : Except ε α × σ} (h : x.1.toOption.isSome = true)
    (a : α) : x = (.ok (x.1.toOption.getD a), x.2) := by
  cases x with
  | mk result s =>
    cases result with
    | error e => cases h
    | ok b => rfl

/-- The work succeeds in a state; its result and the state that it leaves are related. -/
def Runs {ε σ α : Type} (x : ExceptT ε (StateM σ) α) (s : σ) (R : α → σ → Prop) : Prop :=
  ∃ a s', x.run.run s = (.ok a, s') ∧ R a s'

namespace Runs

variable {ε σ α β : Type} {s : σ} {R : α → σ → Prop} {S : β → σ → Prop}

theorem pure {a : α} (h : R a s) : Runs (Pure.pure a : ExceptT ε (StateM σ) α) s R :=
  ⟨a, s, rfl, h⟩

/-- Work in sequence: what the second part starts from is only known through what the first one
ensures. -/
theorem bind {x : ExceptT ε (StateM σ) α} {f : α → ExceptT ε (StateM σ) β} (hx : Runs x s R)
    (hf : ∀ a s', R a s' → Runs (f a) s' S) : Runs (x >>= f) s S := by
  obtain ⟨a, s', hrun, hr⟩ := hx
  obtain ⟨b, s'', hrun', hs⟩ := hf a s' hr
  refine ⟨b, s'', ?_, hs⟩
  rw [ExceptT.run_bind, StateT.run_bind, hrun]
  exact hrun'

theorem write {f : σ → σ} {R : PUnit → σ → Prop} (h : R ⟨⟩ (f s)) :
    Runs (modify f : ExceptT ε (StateM σ) PUnit) s R := ⟨⟨⟩, f s, rfl, h⟩

theorem get {f : σ → ExceptT ε (StateM σ) β} (h : Runs (f s) s S) :
    Runs (MonadState.get >>= f) s S := h

/-- Work that cannot fail succeeds. -/
theorem lift {x : StateM σ α} (h : R (x.run s).1 (x.run s).2) :
    Runs (liftM x : ExceptT ε (StateM σ) α) s R :=
  ⟨(x.run s).1, (x.run s).2, rfl, h⟩

theorem mono {S : α → σ → Prop} {x : ExceptT ε (StateM σ) α} (h : Runs x s R)
    (hrs : ∀ a s', R a s' → S a s') : Runs x s S := by
  obtain ⟨a, s', hrun, hr⟩ := h
  exact ⟨a, s', hrun, hrs a s' hr⟩

/-- The run itself may be remembered. -/
theorem remember {x : ExceptT ε (StateM σ) α} (h : Runs x s R) :
    Runs x s fun a s' => R a s' ∧ x.run.run s = (.ok a, s') := by
  obtain ⟨a, s', hrun, hr⟩ := h
  exact ⟨a, s', hrun, hr, hrun⟩

end Runs

/-! ## Lists that are related element by element -/

section Related

variable {α β γ : Type} {R : α → β → Prop} {S : β → γ → Prop} {T : α → γ → Prop}

/-- Relations between lists element by element compose where those between the elements do. -/
theorem forall₂_trans (h : ∀ a b c, R a b → S b c → T a c) {l : List α} {l' : List β}
    {l'' : List γ} (hr : List.Forall₂ R l l') (hs : List.Forall₂ S l' l'') :
    List.Forall₂ T l l'' := by
  induction hr generalizing l'' with
  | nil =>
    cases hs
    exact .nil
  | cons hab _ ih =>
    cases hs with
    | cons hbc hs => exact .cons (h _ _ _ hab hbc) (ih hs)

theorem forall₂_imp_of_mem {R' : α → β → Prop} {l : List α} {l' : List β}
    (h : ∀ a ∈ l, ∀ b, R a b → R' a b) (hr : List.Forall₂ R l l') : List.Forall₂ R' l l' := by
  induction hr with
  | nil => exact .nil
  | cons hab _ ih =>
    obtain ⟨ha, hrest⟩ := List.forall_mem_cons.mp h
    exact .cons (ha _ hab) (ih hrest)

/-- A list that is another one with every element changed at its place is related to it. -/
theorem forall₂_of_getElem? {f : Nat → α → β} {l : List α} {l' : List β}
    (h : ∀ i, l'[i]? = l[i]?.map (f i)) (hr : ∀ i a, l[i]? = some a → R a (f i a)) :
    List.Forall₂ R l l' := by
  induction l generalizing l' f with
  | nil =>
    obtain rfl : l' = [] := by simpa using h 0
    exact .nil
  | cons a rest ih =>
    cases l' with
    | nil => cases h 0
    | cons b rest' =>
      obtain rfl : b = f 0 a := Option.some.inj (h 0)
      exact .cons (hr 0 a rfl) (ih (fun i => h (i + 1)) fun i => hr (i + 1))

/-- Each element of the second list has one in the first that it comes from. -/
theorem exists_of_forall₂ {l : List α} {l' : List β} (h : List.Forall₂ R l l') {b : β}
    (hb : b ∈ l') : ∃ a ∈ l, R a b := by
  induction h with
  | nil => cases hb
  | @cons a c _ _ hac _ ih =>
    rcases List.mem_cons.mp hb with rfl | hb
    · exact ⟨a, List.mem_cons_self, hac⟩
    · obtain ⟨a', ha', hr⟩ := ih hb
      exact ⟨a', List.mem_cons_of_mem a ha', hr⟩

/-- Lists that are related element by element have the same image under functions that agree on what
is related. -/
theorem map_eq_of_forall₂ {f : α → γ} {f' : β → γ} {l : List α} {l' : List β}
    (h : List.Forall₂ R l l') (hf : ∀ a b, R a b → f' b = f a) : l'.map f' = l.map f := by
  induction h with
  | nil => rfl
  | cons hab _ ih => exact congrArg₂ List.cons (hf _ _ hab) ih

theorem flatMap_eq_of_forall₂ {f : α → List γ} {f' : β → List γ} {l : List α} {l' : List β}
    (h : List.Forall₂ R l l') (hf : ∀ a b, R a b → f' b = f a) : l'.flatMap f' = l.flatMap f := by
  rw [List.flatMap_def, List.flatMap_def, map_eq_of_forall₂ h hf]

/-- Changing one element relates a list to the changed one. -/
theorem forall₂_modify {R : α → α → Prop} (hrefl : ∀ a, R a a) {l : List α} {i : Nat} {f : α → α}
    (h : ∀ a, l[i]? = some a → R a (f a)) : List.Forall₂ R l (l.modify i f) := by
  induction l generalizing i with
  | nil => simp
  | cons a rest ih =>
    cases i with
    | zero => exact .cons (h a rfl) (List.forall₂_same.mpr fun b _ => hrefl b)
    | succ i => exact .cons (hrefl a) (ih h)

end Related

/-! ## Loops with a record of what was met -/

section Record

variable {α : Type} {key : α → Nat} {l : List α} {met met' : List Nat}

/-- How many elements there are whose keys were not met. -/
def unmet (key : α → Nat) (l : List α) (met : List Nat) : Nat :=
  (l.filter fun a => key a ∉ met).length

theorem unmet_eq_filter (h : met ⊆ met') :
    unmet key l met' = ((l.filter fun a => key a ∉ met).filter fun a => key a ∉ met').length := by
  rw [unmet, List.filter_filter]
  congr 1
  apply List.filter_congr
  intro a _
  simpa using fun hmem => mt (@h _) hmem

/-- The more keys were met, the fewer elements are left. -/
theorem unmet_le (h : met ⊆ met') : unmet key l met' ≤ unmet key l met := by
  rw [unmet_eq_filter h]
  exact List.length_filter_le _ _

/-- Meeting the key of an element for the first time makes progress. Searches end because of
this. -/
theorem unmet_lt (h : met ⊆ met') {a : α} (ha : a ∈ l) (hnew : key a ∉ met)
    (hmet : key a ∈ met') : unmet key l met' < unmet key l met := by
  rw [unmet_eq_filter h]
  refine List.length_filter_lt_length_iff_exists.mpr ⟨a, ?_, by simpa using hmet⟩
  exact List.mem_filter.mpr ⟨ha, by simpa using hnew⟩

end Record

/-! ## Results of stateful work -/

/-- Whatever state it starts in, the work ends with a result that has a property. -/
def Yields {σ α : Type} (x : StateM σ α) (P : α → Prop) : Prop := ∀ s, P (x.run s).1

namespace Yields

variable {σ α β : Type}

theorem pure {P : α → Prop} {a : α} (h : P a) : Yields (Pure.pure a : StateM σ α) P :=
  fun _ => h

/-- Work in sequence, where the second part may rely on the property of the first result. -/
theorem bind {P : α → Prop} {Q : β → Prop} {x : StateM σ α} {f : α → StateM σ β}
    (hx : Yields x P) (hf : ∀ a, P a → Yields (f a) Q) : Yields (x >>= f) Q :=
  fun s => hf (x.run s).1 (hx s) (x.run s).2

theorem mono {P Q : α → Prop} {x : StateM σ α} (h : Yields x P) (hpq : ∀ a, P a → Q a) :
    Yields x Q :=
  fun s => hpq _ (h s)

/-- Work through a list yields results that are related to the elements one by one. -/
theorem mapM {R : α → β → Prop} {l : List α} {f : α → StateM σ β}
    (h : ∀ a ∈ l, Yields (f a) (R a)) : Yields (l.mapM f) fun l' => List.Forall₂ R l l' := by
  induction l with
  | nil => exact Yields.pure .nil
  | cons a rest ih =>
    rw [List.mapM_cons]
    refine bind (h a List.mem_cons_self) fun b hb => ?_
    refine bind (ih fun c hc => h c (List.mem_cons_of_mem a hc)) fun bs hbs => ?_
    exact Yields.pure (.cons hb hbs)

/-- Work that does to every element what a plain function does is a map. -/
theorem mapM_eq {φ : α → β} {l : List α} {f : α → StateM σ β}
    (h : ∀ a ∈ l, Yields (f a) (· = φ a)) : Yields (l.mapM f) (· = l.map φ) := by
  refine (mapM h).mono fun l' hl' => ?_
  rw [← List.forall₂_eq_eq_eq, List.forall₂_map_right_iff]
  exact hl'.flip

/-- Work on a list gives a list of results that all have the property which each single one has. -/
theorem forall_mapM {P : β → Prop} {l : List α} {f : α → StateM σ β}
    (h : ∀ a ∈ l, Yields (f a) P) : Yields (l.mapM f) fun l' => ∀ b ∈ l', P b := by
  refine (mapM (R := fun _ b => P b) h).mono fun l' hl' => ?_
  induction hl' with
  | nil => simp
  | cons hb _ ih => exact List.forall_mem_cons.mpr ⟨hb, ih fun a ha => h a (.tail _ ha)⟩

end Yields

/-- The work keeps a property of the state. -/
def Preserves {σ α : Type} (x : StateM σ α) (I : σ → Prop) : Prop := ∀ s, I s → I (x.run s).2

namespace Preserves

variable {σ α β : Type} {I : σ → Prop}

theorem pure (a : α) : Preserves (Pure.pure a : StateM σ α) I := fun _ h => h

theorem bind {x : StateM σ α} {f : α → StateM σ β} (hx : Preserves x I)
    (hf : ∀ a, Preserves (f a) I) : Preserves (x >>= f) I :=
  fun s h => hf (x.run s).1 _ (hx s h)

/-- Work on a list keeps what the work on each element keeps. -/
theorem mapM {l : List α} {f : α → StateM σ β} (h : ∀ a ∈ l, Preserves (f a) I) :
    Preserves (l.mapM f) I := by
  induction l with
  | nil => exact .pure []
  | cons a rest ih =>
    obtain ⟨ha, hrest⟩ := List.forall_mem_cons.mp h
    rw [List.mapM_cons]
    exact ha.bind fun b => (ih hrest).bind fun bs => .pure (b :: bs)

end Preserves

end MethodLift
