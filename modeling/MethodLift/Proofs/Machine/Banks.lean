import MethodLift.Proofs.Machine.Arguments

/-!
# One register for each argument

The place of an argument in the bank of its kind grows with its position, whether both banks advance
together or each counts its own arguments. The banks of an instruction set have no register in
common, and none holds a register twice. So no register carries two arguments, for any mixture of
integers and floating-point values, also after one of the banks is used up.
-/

namespace MethodLift.Convention

/-! ## Places -/

section Places

variable {types : List TypeRef} {j k : Nat} {a b : TypeRef}

/-- An argument counts for all later ones of its kind. -/
theorem rank_lt_rank (hjk : j < k) (ha : types[j]? = some a) (hkind : a.isFloat = b.isFloat) :
    rank types j a < rank types k b := by
  have hsame : rank types j a = rank types j b := by rw [rank, rank, hkind]
  have hnext : rank types (j + 1) b = rank types j b + 1 := by
    rw [rank, List.take_add_one, ha, List.countP_append, ← rank]
    simp [hkind]
  have hmono : rank types (j + 1) b ≤ rank types k b :=
    (List.take_sublist_take_left hjk).countP_le
  omega

/-- Arguments of one kind take rising places in their bank. -/
theorem placeFrom_lt_placeFrom (c : Convention) (hjk : j < k) (ha : types[j]? = some a)
    (hkind : a.isFloat = b.isFloat) :
    c.placeFrom 0 0 types j a < c.placeFrom 0 0 types k b := by
  have hrank := rank_lt_rank hjk ha hkind
  unfold placeFrom
  rw [hkind]
  split <;> omega

end Places

/-! ## Registers -/

variable {c : Convention}

/-- Types whose banks share a register are of one kind. -/
theorem isFloat_eq_of_mem_bank (h : (c.integer ++ c.float).Nodup) {a b : TypeRef} {r : String}
    (ha : r ∈ c.bank a) (hb : r ∈ c.bank b) : a.isFloat = b.isFloat := by
  have hdisjoint := (List.nodup_append.mp h).2.2
  unfold bank at ha hb
  cases hfa : a.isFloat <;> cases hfb : b.isFloat <;> simp only [hfa, hfb] at ha hb ⊢
  · exact absurd rfl (hdisjoint r ha r hb)
  · exact absurd rfl (hdisjoint r hb r ha)

theorem nodup_bank (h : (c.integer ++ c.float).Nodup) (type : TypeRef) : (c.bank type).Nodup := by
  obtain ⟨hinteger, hfloat, -⟩ := List.nodup_append.mp h
  unfold bank
  split
  · exact hfloat
  · exact hinteger

/-- Where the banks hold no register twice, no register carries two arguments. -/
theorem nodup_assign (h : (c.integer ++ c.float).Nodup) (types : List TypeRef) :
    ((c.assign types).filterMap id).Nodup := by
  rw [List.Nodup, List.pairwise_filterMap, List.pairwise_iff_getElem]
  rintro j k hj hk hjk r hr _ hr' rfl
  have hjr := c.getElem?_assign types j
  have hkr := c.getElem?_assign types k
  rw [List.getElem?_eq_getElem hj, show (c.assign types)[j] = some r from hr] at hjr
  rw [List.getElem?_eq_getElem hk, show (c.assign types)[k] = some r from hr'] at hkr
  obtain ⟨a, ha, har⟩ := Option.map_eq_some_iff.mp hjr.symm
  obtain ⟨b, hb, hbr⟩ := Option.map_eq_some_iff.mp hkr.symm
  have hkind := isFloat_eq_of_mem_bank h (List.mem_of_getElem? har) (List.mem_of_getElem? hbr)
  have hbank : c.bank a = c.bank b := by rw [bank, bank, hkind]
  have hplace := c.placeFrom_lt_placeFrom hjk ha hkind
  obtain ⟨hlt, -⟩ := List.getElem?_eq_some_iff.mp har
  -- one register at two places of one bank
  have heq := (List.getElem?_inj hlt (nodup_bank h a)).mp (har.trans (hbank ▸ hbr.symm))
  omega

/-- No register is in both banks, nor twice in one. -/
theorem nodup_of (isa : InstructionSet) : ((of isa).integer ++ (of isa).float).Nodup := by
  cases isa <;> decide

/-- Each argument has its own entry. On x86-64 it is the register at the argument's position in the
bank of its kind, and is missing from the fifth argument on. On ARM64 it is the register at the
place that counts the arguments of the same kind before, and is missing exactly after eight of them.
No register carries two arguments. -/
theorem exact_assign (types : List TypeRef) :
    (∀ isa, ((of isa).assign types).length = types.length ∧
      (((of isa).assign types).filterMap id).Nodup) ∧
    ∀ k : Fin types.length,
      ((of .x64).assign types)[k.val]? = some ((of .x64).bank types[k])[k.val]? ∧
      (((of .x64).assign types)[k.val]? = some none ↔ 4 ≤ k.val) ∧
      ((of .arm64).assign types)[k.val]? =
        some ((of .arm64).bank types[k])[rank types k types[k]]? ∧
      (((of .arm64).assign types)[k.val]? = some none ↔ 8 ≤ rank types k types[k]) := by
  refine ⟨fun isa => ⟨length_assignFrom _ 0 0 types, nodup_assign (nodup_of isa) types⟩, ?_⟩
  intro k
  have htype : types[k.val]? = some types[k] := List.getElem?_eq_getElem k.isLt
  have hx64 := x64.getElem?_assign types k
  have hx64none := x64.getElem?_assign_eq_none_iff htype
  have harm64 := arm64.getElem?_assign types k
  have harm64none := arm64.getElem?_assign_eq_none_iff htype
  rw [htype, Option.map_some, placeFrom_x64] at hx64
  rw [length_bank_x64, placeFrom_x64] at hx64none
  rw [htype, Option.map_some, placeFrom_arm64] at harm64
  rw [length_bank_arm64, placeFrom_arm64] at harm64none
  exact ⟨hx64, hx64none, harm64, harm64none⟩

end MethodLift.Convention
