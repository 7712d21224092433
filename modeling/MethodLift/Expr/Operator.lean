import MethodLift.Code.Instruction

/-!
# Comparisons and arithmetic

Arithmetic works on signed 64-bit words and wraps; `ArithOp.eval?` has no value where the machine
leaves the result undefined.
-/

namespace MethodLift

/-- A comparison of two operands. -/
inductive Comparison where
  /-- No conditional jump says what is compared. -/
  | unresolved
  | equal
  | notEqual
  | greater
  | greaterOrEqual
  | less
  | lessOrEqual
deriving DecidableEq, Repr

namespace Comparison

def ofJump? : Mnemonic → Option Comparison
  | .jumpIfEqual => some .equal
  | .jumpIfNotEqual => some .notEqual
  | .jumpIfGreater => some .greater
  | .jumpIfGreaterOrEqual => some .greaterOrEqual
  | .jumpIfLess => some .less
  | .jumpIfLessOrEqual => some .lessOrEqual
  | _ => none

/-- The comparison that holds exactly when this one does not. -/
def negate? : Comparison → Option Comparison
  | .unresolved => none
  | .equal => some .notEqual
  | .notEqual => some .equal
  | .greater => some .lessOrEqual
  | .greaterOrEqual => some .less
  | .less => some .greaterOrEqual
  | .lessOrEqual => some .greater

def symbol? : Comparison → Option String
  | .unresolved => none
  | .equal => some " == "
  | .notEqual => some " != "
  | .greater => some " > "
  | .greaterOrEqual => some " >= "
  | .less => some " < "
  | .lessOrEqual => some " <= "

end Comparison

/-- A binary operation. -/
inductive ArithOp where
  | add
  | sub
  | mul
  | div
  | rem
  | shl
  | shr
  | and
  | or
  | xor
deriving DecidableEq, Repr

namespace ArithOp

def ofMnemonic? : Mnemonic → Option ArithOp
  | .add => some .add
  | .subtract => some .sub
  | .multiply => some .mul
  | .divide => some .div
  | .shiftLeft => some .shl
  | .shiftRight => some .shr
  | .and => some .and
  | .or => some .or
  | .xor => some .xor
  | _ => none

def symbol : ArithOp → String
  | .add => " + "
  | .sub => " - "
  | .mul => " * "
  | .div => " / "
  | .rem => " % "
  | .shl => " << "
  | .shr => " >> "
  | .and => " & "
  | .or => " | "
  | .xor => " ^ "

/-- A quotient exists: the divisor is not zero and the quotient fits into a word. -/
def divides (left right : Int64) : Bool :=
  right != 0 && !(left == Int64.minValue && right == -1)

/-- A word can be shifted by this amount. -/
def shifts (amount : Int64) : Bool := 0 ≤ amount && amount < 64

/-- The result on two words. Division goes towards zero and the right shift keeps the sign. -/
def eval? (op : ArithOp) (left right : Int64) : Option Int64 :=
  match op with
  | .add => some (left + right)
  | .sub => some (left - right)
  | .mul => some (left * right)
  | .div => if divides left right then some (left / right) else none
  | .rem => if divides left right then some (left % right) else none
  | .shl => if shifts right then some (left <<< right) else none
  | .shr => if shifts right then some (left >>> right) else none
  | .and => some (left &&& right)
  | .or => some (left ||| right)
  | .xor => some (left ^^^ right)

end ArithOp

end MethodLift
