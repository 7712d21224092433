import Mathlib.Data.Int.Bitwise
import MethodLift.Expr.Operator

/-!
# Exact arithmetic

The operations on integers of any size, and where they have no result on words. Arithmetic on words
is exact arithmetic whose result is reduced to a word: sums, differences and products wrap, and the
bits of a word are the lowest bits of the integer that it stands for.
-/

namespace MethodLift.ArithOp

/-- The result on two integers, without a limit on its size. Division and remainder go towards zero,
the right shift goes down. -/
def exact : ArithOp → Int → Int → Int
  | .add, a, b => a + b
  | .sub, a, b => a - b
  | .mul, a, b => a * b
  | .div, a, b => a.tdiv b
  | .rem, a, b => a.tmod b
  | .shl, a, b => a * 2 ^ b.toNat
  | .shr, a, b => a / 2 ^ b.toNat
  | .and, a, b => a.land b
  | .or, a, b => a.lor b
  | .xor, a, b => a.xor b

/-- The operation has no result on two words. -/
def Undefined : ArithOp → Int → Int → Prop
  | .div, a, b | .rem, a, b => b = 0 ∨ a = -2 ^ 63 ∧ b = -1
  | .shl, _, b | .shr, _, b => ¬(0 ≤ b ∧ b ≤ 63)
  | _, _, _ => False

instance : (op : ArithOp) → (a b : Int) → Decidable (op.Undefined a b)
  | .div, _, _ | .rem, _, _ => inferInstanceAs (Decidable (_ ∨ _ ∧ _))
  | .shl, _, _ | .shr, _, _ => inferInstanceAs (Decidable (¬(_ ∧ _)))
  | .add, _, _ | .sub, _, _ | .mul, _, _ | .and, _, _ | .or, _, _ | .xor, _, _ =>
    inferInstanceAs (Decidable False)

/-! ## Bits -/

/-- The bits of a word are those of the integer it was made from. -/
theorem getLsbD_ofInt (z : Int) {w i : Nat} (hi : i < w) :
    (BitVec.ofInt w z).getLsbD i = z.testBit i := by
  cases z with
  | ofNat n =>
    show (BitVec.ofInt w (n : Int)).getLsbD i = n.testBit i
    rw [BitVec.ofInt_natCast, BitVec.getLsbD_ofNat, decide_eq_true hi, Bool.true_and]
  | negSucc n =>
    show _ = !n.testBit i
    rw [BitVec.ofInt_negSucc_eq_not_ofNat, BitVec.getLsbD_not, BitVec.getLsbD_ofNat,
      decide_eq_true hi, Bool.true_and, Bool.true_and]

theorem getLsbD_toBitVec (a : Int64) {i : Nat} (hi : i < 64) :
    a.toBitVec.getLsbD i = a.toInt.testBit i := by
  rw [← getLsbD_ofInt _ hi, ← Int64.toBitVec_ofInt, Int64.ofInt_toInt]

/-- A word is known by its bits, so an integer with the same ones gives the word. -/
theorem eq_ofInt_of_testBit {x : Int64} {z : Int}
    (h : ∀ i < 64, x.toBitVec.getLsbD i = z.testBit i) : x = Int64.ofInt z := by
  refine Int64.toBitVec_inj.mp (BitVec.eq_of_getLsbD_eq fun i hi => ?_)
  rw [Int64.toBitVec_ofInt, getLsbD_ofInt z hi]
  exact h i hi

/-- Conjunction of words is that of integers, bit by bit. -/
theorem and_eq (a b : Int64) : a &&& b = Int64.ofInt (a.toInt.land b.toInt) := by
  refine eq_ofInt_of_testBit fun i hi => ?_
  rw [Int64.toBitVec_and, BitVec.getLsbD_and, getLsbD_toBitVec a hi, getLsbD_toBitVec b hi,
    Int.testBit_land]

theorem or_eq (a b : Int64) : a ||| b = Int64.ofInt (a.toInt.lor b.toInt) := by
  refine eq_ofInt_of_testBit fun i hi => ?_
  rw [Int64.toBitVec_or, BitVec.getLsbD_or, getLsbD_toBitVec a hi, getLsbD_toBitVec b hi,
    Int.testBit_lor]

theorem xor_eq (a b : Int64) : a ^^^ b = Int64.ofInt (a.toInt.xor b.toInt) := by
  refine eq_ofInt_of_testBit fun i hi => ?_
  rw [Int64.toBitVec_xor, BitVec.getLsbD_xor, getLsbD_toBitVec a hi, getLsbD_toBitVec b hi,
    Int.testBit_lxor]

/-! ## Shifts -/

section Shifts

variable {b : Int64}

/-- A word can be shifted by 0 to 63 bits. -/
theorem shifts_iff : shifts b = true ↔ 0 ≤ b.toInt ∧ b.toInt ≤ 63 := by
  have hzero : (0 : Int64).toInt = 0 := rfl
  have hwidth : (64 : Int64).toInt = 64 := rfl
  rw [shifts, Bool.and_eq_true, decide_eq_true_iff, decide_eq_true_iff, Int64.le_iff_toInt_le,
    Int64.lt_iff_toInt_lt, hzero, hwidth]
  omega

/-- An amount in range is taken as it is. -/
theorem smod_toBitVec (h : shifts b = true) : b.toBitVec.smod 64 = b.toBitVec := by
  obtain ⟨hlow, hhigh⟩ := shifts_iff.mp h
  have hwidth : (64 : BitVec 64).toInt = 64 := rfl
  refine BitVec.eq_of_toInt_eq ?_
  rw [BitVec.toInt_smod, Int64.toInt_toBitVec, hwidth, Int.fmod_eq_emod_of_nonneg _ (by omega)]
  exact Int.emod_eq_of_lt hlow (by omega)

theorem toNat_toBitVec (h : shifts b = true) : b.toBitVec.toNat = b.toInt.toNat := by
  have hlow := (shifts_iff.mp h).1
  have hcond := BitVec.toInt_eq_toNat_cond b.toBitVec
  have hlt := b.toBitVec.isLt
  rw [← Int64.toInt_toBitVec] at hlow ⊢
  split at hcond
  · omega
  · omega

theorem ofInt_two_pow (w n : Nat) : BitVec.ofInt w (2 ^ n) = BitVec.twoPow w n := by
  have hcast : (2 : Int) ^ n = ((2 ^ n : Nat) : Int) := by simp
  refine BitVec.eq_of_toNat_eq ?_
  rw [hcast, BitVec.ofInt_natCast, BitVec.toNat_ofNat, BitVec.toNat_twoPow]

/-- Shifting to the left multiplies by a power of two. -/
theorem shiftLeft_eq (a : Int64) (h : shifts b = true) :
    a <<< b = Int64.ofInt (a.toInt * 2 ^ b.toInt.toNat) := by
  refine Int64.toBitVec_inj.mp ?_
  rw [Int64.toBitVec_shiftLeft, smod_toBitVec h, BitVec.shiftLeft_eq', toNat_toBitVec h,
    BitVec.shiftLeft_eq_mul_twoPow, Int64.ofInt_mul, Int64.toBitVec_mul, Int64.ofInt_toInt,
    Int64.toBitVec_ofInt, ofInt_two_pow]

/-- Shifting to the right divides by a power of two, downwards. -/
theorem shiftRight_eq (a : Int64) (h : shifts b = true) :
    a >>> b = Int64.ofInt (a.toInt / 2 ^ b.toInt.toNat) := by
  refine Int64.toBitVec_inj.mp ?_
  rw [Int64.toBitVec_shiftRight, smod_toBitVec h, BitVec.sshiftRight_eq', toNat_toBitVec h,
    Int64.toBitVec_ofInt, ← BitVec.ofInt_toInt (x := a.toBitVec.sshiftRight _),
    BitVec.toInt_sshiftRight, Int64.toInt_toBitVec, Int.shiftRight_eq_div_pow]
  simp

end Shifts

/-! ## Quotients -/

/-- Division is undefined by zero, and where the quotient does not fit into a word. -/
theorem divides_iff {a b : Int64} :
    divides a b = true ↔ ¬(b.toInt = 0 ∨ a.toInt = -2 ^ 63 ∧ b.toInt = -1) := by
  have hzero : b = 0 ↔ b.toInt = 0 := Int64.toInt_inj.symm
  have hone : b = -1 ↔ b.toInt = -1 := Int64.toInt_inj.symm
  have hmin : a = Int64.minValue ↔ a.toInt = -2 ^ 63 := Int64.toInt_inj.symm
  rw [divides, Bool.and_eq_true, bne_iff_ne, Bool.not_eq_true', Bool.and_eq_false_iff,
    beq_eq_false_iff_ne, beq_eq_false_iff_ne, ne_eq, ne_eq, ne_eq, hzero, hone, hmin]
  tauto

theorem div_eq (a b : Int64) : a / b = Int64.ofInt (a.toInt.tdiv b.toInt) :=
  Int64.toInt_inj.mp ((Int64.toInt_div a b).trans Int64.toInt_ofInt.symm)

/-- The remainder has the sign of the dividend. -/
theorem mod_eq (a b : Int64) : a % b = Int64.ofInt (a.toInt.tmod b.toInt) := by
  rw [← Int64.toInt_mod, Int64.ofInt_toInt]

/-! ## Results -/

/-- A test that says when there is a result. -/
theorem ite_test {α : Type} {test : Bool} {p : Prop} [Decidable p] {x y : α}
    (htest : test = true ↔ ¬p) (hxy : test = true → x = y) :
    (if test then some x else none) = if p then none else some y := by
  by_cases hp : p
  · have hfalse : ¬test = true := fun h => htest.mp h hp
    rw [if_neg hfalse, if_pos hp]
  · have htrue : test = true := htest.mpr hp
    rw [if_pos htrue, if_neg hp, hxy htrue]

/-- The result on words is the exact result reduced to a word, and there is one unless the exact
operation is undefined. -/
theorem eval?_eq (op : ArithOp) (a b : Int64) :
    op.eval? a b = if op.Undefined a.toInt b.toInt then none
      else some (Int64.ofInt (op.exact a.toInt b.toInt)) := by
  have hshift : shifts b = true ↔ ¬¬(0 ≤ b.toInt ∧ b.toInt ≤ 63) := shifts_iff.trans not_not.symm
  cases op with
  | add =>
    rw [exact, Int64.ofInt_add, Int64.ofInt_toInt, Int64.ofInt_toInt]
    rfl
  | sub =>
    rw [exact, Int64.ofInt_sub, Int64.ofInt_toInt, Int64.ofInt_toInt]
    rfl
  | mul =>
    rw [exact, Int64.ofInt_mul, Int64.ofInt_toInt, Int64.ofInt_toInt]
    rfl
  | div => exact ite_test divides_iff fun _ => div_eq a b
  | rem => exact ite_test divides_iff fun _ => mod_eq a b
  | shl => exact ite_test hshift fun h => shiftLeft_eq a h
  | shr => exact ite_test hshift fun h => shiftRight_eq a h
  | and => exact congrArg some (and_eq a b)
  | or => exact congrArg some (or_eq a b)
  | xor => exact congrArg some (xor_eq a b)

example : eval? .div Int64.minValue (-1) = none ∧ eval? .shl 1 63 = some Int64.minValue ∧
    eval? .shr Int64.minValue 63 = some (-1) := by
  decide

end MethodLift.ArithOp
