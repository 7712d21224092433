import Mathlib
import MethodLift.Pass.Promotion

/-!
# Names are fresh

Variables without a name are named in order, each by trying number after number until a name is
free. The search ends: the names of one register differ, and only so many are taken. A name that is
given was free before and is taken from then on. So it is no name that a variable had, and no name
that another variable is given, whatever register that one stands for.

Mathlib is imported whole for `Nat.repr_inj`, which no smaller part of it brings.
-/

namespace MethodLift.Promotion

/-! ## The search for a name -/

section Search

variable {register : String} {taken : List String} {k j : Nat}

/-- Trying number after number, from one on, ends at another. The number of tries has no bound. -/
inductive Finds (register : String) (taken : List String) : Nat → Nat → Prop
  | free {k : Nat} (hfree : candidate register k ∉ taken) : Finds register taken k k
  | next {k j : Nat} (htaken : candidate register k ∈ taken)
    (hrest : Finds register taken (k + 1) j) : Finds register taken k j

theorem Finds.not_mem (h : Finds register taken k j) : candidate register j ∉ taken := by
  induction h with
  | free hfree => exact hfree
  | next _ _ ih => exact ih

theorem candidate_ne_empty (register : String) (k : Nat) : candidate register k ≠ "" := by
  unfold candidate
  split <;> simp

/-- The definitions of a register have different names. -/
theorem candidate_injective (register : String) : Function.Injective (candidate register) := by
  have hlonger (k : Nat) : "var_" ++ register ≠ "var_" ++ register ++ "_" ++ toString k := by
    intro h
    have hlength := congrArg String.length h
    simp only [String.length_append] at hlength
    have hmark : "_".length = 1 := rfl
    omega
  intro j k h
  unfold candidate at h
  split at h <;> split at h
  · omega
  · exact absurd h (hlonger k)
  · exact absurd h.symm (hlonger j)
  · exact Nat.repr_inj.mp ((String.append_right_inj _).mp h)

/-- Not all of the numbers in a row have their names taken, if there is one more of them than there
are names. -/
theorem exists_free (register : String) (taken : List String) (k : Nat) :
    ∃ i ≤ taken.length, candidate register (k + i) ∉ taken := by
  by_contra! hall
  have hinjective : Function.Injective fun i => candidate register (k + i) :=
    (candidate_injective register).comp fun _ _ h => Nat.add_left_cancel h
  have hnodup := (List.nodup_range (n := taken.length + 1)).map hinjective
  have hsub :
      (List.range (taken.length + 1)).map (fun i => candidate register (k + i)) ⊆ taken := by
    intro name hname
    obtain ⟨i, hi, rfl⟩ := List.mem_map.mp hname
    exact hall i (Nat.lt_succ_iff.mp (List.mem_range.mp hi))
  have hle := hnodup.length_le_of_subset hsub
  rw [List.length_map, List.length_range] at hle
  omega

/-- Tries that reach a free name are enough. -/
theorem finds_firstFree {tries : Nat} (h : ∃ i ≤ tries, candidate register (k + i) ∉ taken) :
    Finds register taken k (firstFree register taken tries k) := by
  induction tries generalizing k with
  | zero =>
    obtain ⟨i, hi, hfree⟩ := h
    obtain rfl := Nat.le_zero.mp hi
    exact .free hfree
  | succ tries ih =>
    rw [firstFree]
    split
    · rename_i hcontains
      have htaken := List.contains_iff_mem.mp hcontains
      refine .next htaken (ih ?_)
      obtain ⟨i, hi, hfree⟩ := h
      cases i with
      | zero => exact absurd htaken hfree
      | succ i => exact ⟨i, Nat.le_of_succ_le_succ hi, by rwa [Nat.add_right_comm]⟩
    · rename_i hcontains
      exact .free fun hmem => hcontains (List.contains_iff_mem.mpr hmem)

end Search

/-! ## Naming in order -/

/-- The names in use after a register's name of a number was given. -/
def Naming.give (n : Naming) (register : String) (k : Nat) : Naming where
  taken := candidate register k :: n.taken
  next := n.next.insert register (k + 1)

/-- Naming some variables in order ends with others. Each search starts at the number after the last
one that its register was given. -/
inductive Names : Naming → List Variable → List Variable → Prop
  | nil {n : Naming} : Names n [] []
  | keep {n : Naming} {v : Variable} {vs ws : List Variable} (hname : v.name ≠ "")
    (hrest : Names n vs ws) : Names n (v :: vs) (v :: ws)
  | give {n : Naming} {v : Variable} {vs ws : List Variable} {k : Nat} (hname : v.name = "")
    (hfinds : Finds v.register n.taken ((n.next.get? v.register).getD 0) k)
    (hrest : Names (n.give v.register k) vs ws) :
    Names n (v :: vs) ({ v with name := candidate v.register k } :: ws)

/-- Naming ends, whatever names are taken. -/
theorem names_nameAll (n : Naming) (vs : List Variable) : Names n vs (nameAll n vs) := by
  induction vs generalizing n with
  | nil => exact .nil
  | cons v rest ih =>
    by_cases hname : v.name = ""
    · have hfinds := finds_firstFree (exists_free v.register n.taken
        ((n.next.get? v.register).getD 0))
      have hnamed := Names.give hname hfinds (ih _)
      simpa [nameAll, nameVariable, Naming.give, hname] using hnamed
    · have hkept := Names.keep hname (ih n)
      simpa [nameAll, nameVariable, hname] using hkept

/-- What naming may change of a variable: its name, if it has none. -/
structure Named (v w : Variable) : Prop where
  eq_withName : w = { v with name := w.name }
  name_ne_empty : w.name ≠ ""
  eq_of_name : v.name ≠ "" → w = v

namespace Names

variable {n : Naming} {vs ws : List Variable}

theorem forall₂_named (h : Names n vs ws) : List.Forall₂ Named vs ws := by
  induction h with
  | nil => exact .nil
  | keep hname _ ih => exact .cons ⟨rfl, hname, fun _ => rfl⟩ ih
  | give hname _ _ ih =>
    exact .cons ⟨rfl, candidate_ne_empty _ _, fun h => absurd hname h⟩ ih

/-- A name that is given was not taken at the start. -/
theorem not_taken (h : Names n vs ws) :
    ∀ p ∈ vs.zip ws, p.1.name = "" → p.2.name ∉ n.taken := by
  induction h with
  | nil => exact List.forall_mem_nil _
  | keep hname _ ih => exact List.forall_mem_cons.mpr ⟨fun h => absurd h hname, ih⟩
  | give _ hfinds _ ih =>
    refine List.forall_mem_cons.mpr ⟨fun _ => hfinds.not_mem, fun p hp hempty hmem => ?_⟩
    exact ih p hp hempty (List.mem_cons_of_mem _ hmem)

/-- Where the names that variables have are taken, no two variables have one name of which one was
given it. -/
theorem pairwise_ne (h : Names n vs ws) (htaken : ∀ v ∈ vs, v.name ≠ "" → v.name ∈ n.taken) :
    (vs.zip ws).Pairwise fun p q => p.1.name = "" ∨ q.1.name = "" → p.2.name ≠ q.2.name := by
  induction h with
  | nil => exact .nil
  | @keep n v vs ws hname hrest ih =>
    obtain ⟨hv, hvs⟩ := List.forall_mem_cons.mp htaken
    refine .cons (fun q hq hempty heq => ?_) (ih hvs)
    have hq' := hrest.not_taken q hq (hempty.resolve_left hname)
    exact hq' (heq ▸ hv hname)
  | @give n v vs ws k hname hfinds hrest ih =>
    obtain ⟨-, hvs⟩ := List.forall_mem_cons.mp htaken
    refine .cons (fun q hq _ heq => ?_) (ih fun u hu hne => List.mem_cons_of_mem _ (hvs u hu hne))
    by_cases hempty : q.1.name = ""
    · exact hrest.not_taken q hq hempty (heq ▸ List.mem_cons_self)
    · -- the other variable keeps its name, which was taken
      have hnamed : Named q.1 q.2 := (List.forall₂_iff_zip.mp hrest.forall₂_named).2 hq
      have hmem := hvs q.1 (List.of_mem_zip hq).1 hempty
      rw [← hnamed.eq_of_name hempty, ← heq] at hmem
      exact hfinds.not_mem hmem

end Names

/-! ## Tables of variables -/

/-- The names that variables have are taken from the start. -/
theorem mem_taken {t : Variables} {v : Variable} (h : v ∈ t.entries) (hname : v.name ≠ "") :
    v.name ∈ (t.entries.map (·.name)).filter fun name => !name.isEmpty := by
  refine List.mem_filter.mpr ⟨List.mem_map_of_mem h, ?_⟩
  simpa using hname

/-- Naming ends for every table. It changes nothing but empty names, and no name is empty after it.
A name that it gives differs from the names that all other variables have in the end. -/
theorem fresh_assignNames (t : Variables) :
    Names { taken := (t.entries.map (·.name)).filter fun name => !name.isEmpty } t.entries
      (assignNames t).entries ∧
    (assignNames t).size = t.size ∧
    ∀ i v, t.get? i = some v → ∃ w, (assignNames t).get? i = some w ∧
      w = { v with name := w.name } ∧ w.name ≠ "" ∧ (v.name ≠ "" → w = v) ∧
      (v.name = "" → ∀ j u, j ≠ i → (assignNames t).get? j = some u → u.name ≠ w.name) := by
  have hnames : Names { taken := (t.entries.map (·.name)).filter fun name => !name.isEmpty }
      t.entries (assignNames t).entries := names_nameAll _ _
  have hnamed := List.forall₂_iff_get.mp hnames.forall₂_named
  have hpairwise := List.pairwise_iff_getElem.mp (hnames.pairwise_ne fun _ => mem_taken)
  refine ⟨hnames, hnamed.1.symm, fun i v hv => ?_⟩
  obtain ⟨hi, rfl⟩ := List.getElem?_eq_some_iff.mp hv
  have hi' : i < (assignNames t).entries.length := hnamed.1 ▸ hi
  have hw := hnamed.2 i hi hi'
  refine ⟨(assignNames t).entries[i], List.getElem?_eq_getElem hi', hw.eq_withName,
    hw.name_ne_empty, hw.eq_of_name, fun hempty j u hne hu => ?_⟩
  obtain ⟨hj', rfl⟩ := List.getElem?_eq_some_iff.mp hu
  have hzip (k : Nat) (hk : k < (assignNames t).entries.length) :
      k < (t.entries.zip (assignNames t).entries).length := by
    rw [List.length_zip, hnamed.1, Nat.min_self]
    exact hk
  rcases Nat.lt_or_gt_of_ne hne with hlt | hgt
  · have hdiffer := hpairwise j i (hzip j hj') (hzip i hi') hlt
    simp only [List.getElem_zip] at hdiffer
    exact hdiffer (.inr hempty)
  · have hdiffer := hpairwise i j (hzip i hi') (hzip j hj') hgt
    simp only [List.getElem_zip] at hdiffer
    exact (hdiffer (.inl hempty)).symm

/-- A parameter is called like a register's first name, and a register is spelled like another one
with a number. -/
def crowded : Variables where
  entries :=
    [{ name := "var_rax", register := "rcx", parameter := some 0 }, { register := "rax" },
      { register := "rax_1" }, { register := "rax" }]

/-- The name of a parameter is skipped, and a name made for one register is skipped for another. -/
theorem fresh_assignNames_crowded :
    (assignNames crowded).entries.map (·.name) =
      ["var_rax", "var_rax_1", "var_rax_1_1", "var_rax_2"] ∧
    crowded.get? 2 = some { register := "rax_1" } ∧
    ∃ w, (assignNames crowded).get? 2 = some w ∧ w.register = "rax_1" ∧ w.name ≠ "" ∧
      ∀ j u, j ≠ 2 → (assignNames crowded).get? j = some u → u.name ≠ w.name := by
  have hget : crowded.get? 2 = some { register := "rax_1" } := rfl
  obtain ⟨w, hw, hother, hname, -, hfresh⟩ := (fresh_assignNames crowded).2.2 2 _ hget
  refine ⟨by decide +kernel, hget, w, hw, ?_, hname, hfresh rfl⟩
  rw [hother]

end MethodLift.Promotion
