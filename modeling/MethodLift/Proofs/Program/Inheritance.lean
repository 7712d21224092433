import MethodLift.Program.Image
import MethodLift.Proofs.Work
import Mathlib.Data.List.Nodup
import Mathlib.Logic.Function.Iterate

/-!
# Fields along the bases

The field that a look-up finds is declared by the first type on the way from a type to its bases
that declares an instance field at the offset. Base links are taken as they come: they may name
missing types or lead back to a type on the way. A way that leads to a declaration never meets a
type twice, since from there on it would go the same way without end. So nothing is lost where a
look-up gives up, be it after as many steps as there are types or at the first type that it meets
again.
-/

namespace MethodLift

/-! ## Fields of a type -/

/-- The field is an instance field at an offset. -/
def Field.LiesAt (f : Field) (offset : Int64) : Prop := f.isStatic = false ∧ f.offset = offset

theorem Field.liesAt_iff {f : Field} {offset : Int64} :
    f.LiesAt offset ↔ (!f.isStatic && f.offset == offset) = true := by
  simp [LiesAt]

namespace TypeDef

variable {d : TypeDef} {offset : Int64} {field : Field}

/-- The field is the first one at an offset, in declaration order. -/
def First (d : TypeDef) (offset : Int64) (field : Field) : Prop :=
  ∃ before after, d.fields = before ++ field :: after ∧ field.LiesAt offset ∧
    ∀ f ∈ before, ¬f.LiesAt offset

/-- The type declares no field at an offset. -/
def Lacks (d : TypeDef) (offset : Int64) : Prop := ∀ f ∈ d.fields, ¬f.LiesAt offset

theorem First.not_lacks (h : d.First offset field) : ¬d.Lacks offset := by
  obtain ⟨before, after, hfields, hlies, -⟩ := h
  intro hlacks
  refine hlacks field ?_ hlies
  rw [hfields]
  exact List.mem_append_right _ List.mem_cons_self

/-- A type's own look-up finds the first of its fields at an offset. -/
theorem fieldAt?_eq_some_iff : d.fieldAt? offset = some field ↔ d.First offset field := by
  rw [fieldAt?, List.find?_eq_some_iff_append]
  constructor
  · rintro ⟨hlies, before, after, hfields, hbefore⟩
    refine ⟨before, after, hfields, Field.liesAt_iff.mpr hlies, fun f hf hlies' => ?_⟩
    have hno := hbefore f hf
    rw [Field.liesAt_iff.mp hlies'] at hno
    cases hno
  · rintro ⟨before, after, hfields, hlies, hbefore⟩
    refine ⟨Field.liesAt_iff.mp hlies, before, after, hfields, fun f hf => ?_⟩
    rw [Bool.not_eq_true', Bool.eq_false_iff]
    exact fun h => hbefore f hf (Field.liesAt_iff.mpr h)

/-- A type's own look-up fails exactly if the type declares no field at the offset. -/
theorem fieldAt?_eq_none_iff : d.fieldAt? offset = none ↔ d.Lacks offset := by
  simp only [fieldAt?, List.find?_eq_none, Lacks, Field.liesAt_iff]

end TypeDef

/-! ## The definition of a type -/

/-- The type is a defined one, behind any number of pointers. -/
def TypeRef.Denotes (type : TypeRef) (id : TypeId) : Prop :=
  ∃ depth, ∃ core ∈ [classType id, valueType id, genericInst id], type = pointer^[depth] core

/-- Pointers are looked through to the type that they point to. -/
theorem TypeRef.definition?_eq_some_iff {type : TypeRef} {id : TypeId} :
    type.definition? = some id ↔ type.Denotes id := by
  constructor
  · intro h
    induction type with
    | classType | valueType | genericInst =>
      cases h
      exact ⟨0, _, by simp, rfl⟩
    | pointer target ih =>
      obtain ⟨depth, core, hcore, rfl⟩ := ih h
      exact ⟨depth + 1, core, hcore, (Function.iterate_succ_apply' pointer depth core).symm⟩
    | primitive | array | genericParam => cases h
  · rintro ⟨depth, core, hcore, rfl⟩
    induction depth with
    | zero =>
      simp only [List.mem_cons, List.not_mem_nil, or_false] at hcore
      rcases hcore with rfl | rfl | rfl <;> rfl
    | succ depth ih =>
      rw [Function.iterate_succ_apply']
      exact ih

namespace Program

variable {program : Program} {offset : Int64} {id : TypeId} {field : Field}

/-! ## The way along the bases -/

/-- The identity that is met after some steps from a type to its bases. -/
def ancestor? (program : Program) (id : TypeId) : Nat → Option TypeId
  | 0 => some id
  | n + 1 => (program.typeDef? id).bind fun d => d.base.bind fun base => program.ancestor? base n

theorem ancestor?_add (program : Program) (id : TypeId) (m n : Nat) :
    program.ancestor? id (m + n) = (program.ancestor? id m).bind (program.ancestor? · n) := by
  induction m generalizing id with
  | zero => rw [Nat.zero_add, ancestor?, Option.bind_some]
  | succ m ih =>
    rw [Nat.succ_add]
    simp only [ancestor?, ih, Option.bind_assoc]

/-- The type after `n` steps is the first one on the way that declares a field at an offset. -/
def FirstAt (program : Program) (offset : Int64) (id : TypeId) (n : Nat) (field : Field) : Prop :=
  (∃ base d, program.ancestor? id n = some base ∧ program.typeDef? base = some d ∧
    d.First offset field) ∧
  ∀ m < n, ∃ base d, program.ancestor? id m = some base ∧ program.typeDef? base = some d ∧
    d.Lacks offset

theorem firstAt_zero_iff : program.FirstAt offset id 0 field ↔
    ∃ d, program.typeDef? id = some d ∧ d.First offset field := by
  simp [FirstAt, ancestor?]

/-- Some steps further on, the type itself declares no field and its base comes that many steps less
one before the field. -/
theorem firstAt_succ_iff {n : Nat} : program.FirstAt offset id (n + 1) field ↔
    ∃ d base, program.typeDef? id = some d ∧ d.Lacks offset ∧ d.base = some base ∧
      program.FirstAt offset base n field := by
  constructor
  · rintro ⟨⟨last, e, hlast, he, hfirst⟩, hbefore⟩
    obtain ⟨_, d, hid, hd, hlacks⟩ := hbefore 0 (Nat.succ_pos n)
    cases hid
    simp only [ancestor?, hd, Option.bind_some] at hlast
    obtain ⟨base, hbase, hlast⟩ := Option.bind_eq_some_iff.mp hlast
    refine ⟨d, base, hd, hlacks, hbase, ⟨last, e, hlast, he, hfirst⟩, fun m hm => ?_⟩
    have hnext := hbefore (m + 1) (Nat.succ_lt_succ hm)
    simp only [ancestor?, hd, hbase, Option.bind_some] at hnext
    exact hnext
  · rintro ⟨d, base, hd, hlacks, hbase, ⟨last, e, hlast, he, hfirst⟩, hbefore⟩
    refine ⟨⟨last, e, ?_, he, hfirst⟩, fun m hm => ?_⟩
    · simp only [ancestor?, hd, hbase, Option.bind_some, hlast]
    · cases m with
      | zero => exact ⟨id, d, rfl, hd, hlacks⟩
      | succ m =>
        simp only [ancestor?, hd, hbase, Option.bind_some]
        exact hbefore m (Nat.lt_of_succ_lt_succ hm)

/-- A way to a declaration never meets a type twice. -/
theorem FirstAt.ancestor?_ne {n k m : Nat} (h : program.FirstAt offset id n field) (hkm : k < m)
    (hmn : m ≤ n) : program.ancestor? id k ≠ program.ancestor? id m := by
  intro heq
  obtain ⟨⟨base, d, hbase, hd, hfirst⟩, hbefore⟩ := h
  obtain ⟨r, rfl⟩ := Nat.exists_eq_add_of_le hmn
  -- From the second meeting on the way is the same as from the first, so the declaring type would
  -- stand earlier on it.
  have hearlier : program.ancestor? id (k + r) = some base := by
    rw [ancestor?_add, heq, ← ancestor?_add]
    exact hbase
  obtain ⟨base', d', hbase', hd', hlacks⟩ := hbefore (k + r) (Nat.add_lt_add_right hkm r)
  obtain rfl := Option.some.inj (hbase'.symm.trans hearlier)
  obtain rfl := Option.some.inj (hd'.symm.trans hd)
  exact hfirst.not_lacks hlacks

/-- A way to a declaration is shorter than the list of types. -/
theorem FirstAt.lt_length {n : Nat} (h : program.FirstAt offset id n field) :
    n < program.typeIds.length := by
  have hnodup : ((List.range (n + 1)).map (program.ancestor? id)).Nodup := by
    refine List.Nodup.map_on (fun k hk m hm heq => ?_) List.nodup_range
    rw [List.mem_range] at hk hm
    rcases Nat.lt_trichotomy k m with hlt | rfl | hlt
    · exact absurd heq (h.ancestor?_ne hlt (Nat.le_of_lt_succ hm))
    · rfl
    · exact absurd heq.symm (h.ancestor?_ne hlt (Nat.le_of_lt_succ hk))
  have hsub : (List.range (n + 1)).map (program.ancestor? id) ⊆
      program.typeIds.map some := by
    intro x hx
    obtain ⟨m, hm, rfl⟩ := List.mem_map.mp hx
    have hknown : ∃ base d, program.ancestor? id m = some base ∧
        program.typeDef? base = some d := by
      rcases Nat.lt_or_eq_of_le (Nat.le_of_lt_succ (List.mem_range.mp hm)) with hlt | rfl
      · obtain ⟨base, d, hbase, hd, -⟩ := h.2 m hlt
        exact ⟨base, d, hbase, hd⟩
      · obtain ⟨base, d, hbase, hd, -⟩ := h.1
        exact ⟨base, d, hbase, hd⟩
    obtain ⟨base, d, hbase, hd⟩ := hknown
    exact List.mem_map.mpr ⟨base, program.mem_typeIds base d hd, hbase.symm⟩
  have hle := hnodup.length_le_of_subset hsub
  rw [List.length_map, List.length_map, List.length_range] at hle
  exact hle

/-! ## Look-ups -/

/-- A look-up with some number of steps finds the declarations that are nearer. -/
theorem fieldFrom?_eq_some_iff {steps : Nat} :
    program.fieldFrom? offset steps id = some field ↔
      ∃ n < steps, program.FirstAt offset id n field := by
  induction steps generalizing id with
  | zero => simp [fieldFrom?]
  | succ steps ih =>
    constructor
    · intro h
      unfold fieldFrom? at h
      split at h
      · cases h
      · rename_i d hd
        split at h
        · rename_i f hfirst
          cases h
          have hfirst := TypeDef.fieldAt?_eq_some_iff.mp hfirst
          exact ⟨0, Nat.succ_pos steps, firstAt_zero_iff.mpr ⟨d, hd, hfirst⟩⟩
        · rename_i hlacks
          obtain ⟨base, hbase, hfrom⟩ := Option.bind_eq_some_iff.mp h
          obtain ⟨n, hn, hfirst⟩ := ih.mp hfrom
          have hlacks := TypeDef.fieldAt?_eq_none_iff.mp hlacks
          exact ⟨n + 1, Nat.succ_lt_succ hn,
            firstAt_succ_iff.mpr ⟨d, base, hd, hlacks, hbase, hfirst⟩⟩
    · rintro ⟨n, hn, hfirst⟩
      cases n with
      | zero =>
        obtain ⟨d, hd, hfirst⟩ := firstAt_zero_iff.mp hfirst
        simp only [fieldFrom?, hd, TypeDef.fieldAt?_eq_some_iff.mpr hfirst]
      | succ n =>
        obtain ⟨d, base, hd, hlacks, hbase, hfirst⟩ := firstAt_succ_iff.mp hfirst
        simp only [fieldFrom?, hd, TypeDef.fieldAt?_eq_none_iff.mpr hlacks, hbase,
          Option.bind_some]
        exact ih.mpr ⟨n, Nat.lt_of_succ_lt_succ hn, hfirst⟩

/-- The look-up with a record of the types that were met: it gives up at the first one that it meets
again. -/
def inherited? (program : Program) (offset : Int64) (seen : List TypeId)
    (current : Option TypeId) : Option Field :=
  match current with
  | none => none
  | some id =>
    if id ∈ seen then none
    else
      match _hd : program.typeDef? id with
      | none => none
      | some d =>
        match d.fieldAt? offset with
        | some field => some field
        | none => inherited? program offset (id :: seen) d.base
termination_by unmet id program.typeIds seen
decreasing_by
  exact unmet_lt (List.subset_cons_self _ _) (program.mem_typeIds _ _ _hd) ‹_› List.mem_cons_self

/-- What the look-up with a record finds is the first declaration on the way. The induction follows
the look-up, whose record grows. -/
theorem exists_firstAt_of_inherited? (seen : List TypeId) (current : Option TypeId)
    (h : program.inherited? offset seen current = some field) :
    ∃ id n, current = some id ∧ program.FirstAt offset id n field := by
  fun_induction program.inherited? offset seen current with
  | case1 => cases h
  | case2 => cases h
  | case3 => cases h
  | case4 seen id hnew d hd f hfirst =>
    cases h
    have hfirst := TypeDef.fieldAt?_eq_some_iff.mp hfirst
    exact ⟨id, 0, rfl, firstAt_zero_iff.mpr ⟨d, hd, hfirst⟩⟩
  | case5 seen id hnew d hd hlacks ih =>
    obtain ⟨base, n, hbase, hfirst⟩ := ih h
    have hlacks := TypeDef.fieldAt?_eq_none_iff.mp hlacks
    exact ⟨id, n + 1, rfl, firstAt_succ_iff.mpr ⟨d, base, hd, hlacks, hbase, hfirst⟩⟩

/-- One step of the look-up with a record. -/
theorem inherited?_some {seen : List TypeId} {d : TypeDef}
    (hnew : id ∉ seen) (hd : program.typeDef? id = some d) :
    program.inherited? offset seen (some id) =
      match d.fieldAt? offset with
      | some field => some field
      | none => program.inherited? offset (id :: seen) d.base := by
  rw [inherited?, if_neg hnew]
  split
  · rename_i hnone
    rw [hd] at hnone
    cases hnone
  · rename_i e he
    obtain rfl := Option.some.inj (hd.symm.trans he)
    rfl

/-- Giving up at a type that was met before loses nothing. -/
theorem inherited?_of_firstAt {n : Nat} (h : program.FirstAt offset id n field) (seen : List TypeId)
    (hseen : ∀ m ≤ n, ∀ base ∈ program.ancestor? id m, base ∉ seen) :
    program.inherited? offset seen (some id) = some field := by
  have hnew : id ∉ seen := hseen 0 (Nat.zero_le n) id rfl
  induction n generalizing id seen with
  | zero =>
    obtain ⟨d, hd, hfirst⟩ := firstAt_zero_iff.mp h
    rw [inherited?_some hnew hd, TypeDef.fieldAt?_eq_some_iff.mpr hfirst]
  | succ n ih =>
    obtain ⟨d, base, hd, hlacks, hbase, hfirst⟩ := firstAt_succ_iff.mp h
    rw [inherited?_some hnew hd, TypeDef.fieldAt?_eq_none_iff.mpr hlacks, hbase]
    have hstep (m : Nat) : program.ancestor? id (m + 1) = program.ancestor? base m := by
      simp only [ancestor?, hd, hbase, Option.bind_some]
    have hseen' : ∀ m ≤ n, ∀ x ∈ program.ancestor? base m, x ∉ id :: seen := by
      intro m hm x hx hmem
      rw [← hstep] at hx
      rcases List.mem_cons.mp hmem with rfl | hmem
      · exact h.ancestor?_ne (Nat.succ_pos m) (Nat.succ_le_succ hm) hx.symm
      · exact hseen (m + 1) (Nat.succ_le_succ hm) x hx hmem
    exact ih hfirst (id :: seen) hseen' (hseen' 0 (Nat.zero_le n) base rfl)

/-- The look-up with a record misses nothing: a way that leads to a declaration meets no type
twice. -/
theorem inherited?_eq_some_iff {current : Option TypeId} :
    program.inherited? offset [] current = some field ↔
      ∃ id n, current = some id ∧ program.FirstAt offset id n field := by
  constructor
  · exact exists_firstAt_of_inherited? [] current
  · rintro ⟨id, n, rfl, hfirst⟩
    exact inherited?_of_firstAt hfirst [] fun _ _ _ _ => List.not_mem_nil

/-- The look-up with a bound on its steps misses nothing: the bound is the number of types. -/
theorem fieldAt?_eq_some_iff {type : TypeRef} :
    program.fieldAt? type offset = some field ↔
      ∃ id n, type.definition? = some id ∧ program.FirstAt offset id n field := by
  rw [fieldAt?, Option.bind_eq_some_iff]
  constructor
  · rintro ⟨id, hid, hfrom⟩
    obtain ⟨n, -, hfirst⟩ := fieldFrom?_eq_some_iff.mp hfrom
    exact ⟨id, n, hid, hfirst⟩
  · rintro ⟨id, n, hid, hfirst⟩
    exact ⟨id, hid, fieldFrom?_eq_some_iff.mpr ⟨n, hfirst.lt_length, hfirst⟩⟩

/-- In any program, whatever its base links are, the look-up of a field ends, also where it is only
cut off at a type that it meets again, and finds a field exactly where some type on the way along
the bases is the first to declare one at the offset: all types before it are defined and declare
none, and the field is the first at the offset in that type. It finds nothing in all other cases. -/
theorem inherits_fieldAt (program : Program) (type : TypeRef) (offset : Int64) :
    program.fieldAt? type offset = program.inherited? offset [] type.definition? ∧
      (∀ field, program.fieldAt? type offset = some field ↔
        ∃ id n, type.Denotes id ∧ program.FirstAt offset id n field) ∧
      (program.fieldAt? type offset = none ↔
        ∀ id n field, type.Denotes id → ¬program.FirstAt offset id n field) := by
  have hsome (field : Field) : program.fieldAt? type offset = some field ↔
      ∃ id n, type.Denotes id ∧ program.FirstAt offset id n field := by
    simp only [fieldAt?_eq_some_iff, TypeRef.definition?_eq_some_iff]
  refine ⟨?_, hsome, ?_⟩
  · apply Option.ext
    intro field
    rw [fieldAt?_eq_some_iff, inherited?_eq_some_iff]
  · rw [Option.eq_none_iff_forall_ne_some]
    constructor
    · intro hnone id n field hid hfirst
      exact hnone field ((hsome field).mpr ⟨id, n, hid, hfirst⟩)
    · intro hno field hfield
      obtain ⟨id, n, hid, hfirst⟩ := (hsome field).mp hfield
      exact hno id n field hid hfirst

/-- Two types that are the base of each other, of which one declares a field. -/
def mutualBases : Program :=
  (((({ isa := .x64 } : Image).addType
    { id := 1, space := "", name := "A", base := some 2 }).addType
    (TypeDef.addField { id := 2, space := "", name := "B", base := some 1 } "x" 8 .object)))

/-- The field of the base is found, and the circle has an end where there is none. -/
theorem inherits_fieldAt_mutual :
    (∃ n field, mutualBases.FirstAt 8 1 n field) ∧
      ∀ n field, ¬mutualBases.FirstAt 16 1 n field := by
  constructor
  · obtain ⟨-, hsome, -⟩ := inherits_fieldAt mutualBases (.pointer (.classType 1)) 8
    obtain ⟨field, hfield⟩ := Option.isSome_iff_exists.mp
      (show (mutualBases.fieldAt? (.pointer (.classType 1)) 8).isSome = true by decide)
    obtain ⟨id, n, hid, hfirst⟩ := (hsome field).mp hfield
    obtain rfl : id = 1 := by
      rw [← TypeRef.definition?_eq_some_iff] at hid
      exact (Option.some.inj hid).symm
    exact ⟨n, field, hfirst⟩
  · obtain ⟨-, -, hnone⟩ := inherits_fieldAt mutualBases (.classType 1) 16
    intro n field
    exact hnone.mp (by decide) 1 n field (TypeRef.definition?_eq_some_iff.mp rfl)

end Program

end MethodLift
