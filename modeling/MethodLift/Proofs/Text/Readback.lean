import MethodLift.Text.Digits
import MethodLift.Text.Quoted
import Mathlib.Data.Nat.Init
import Mathlib.Tactic.SplitIfs

/-!
# Reading literals back

Readers for the literals of the pseudo-source. A quoted text goes up to the first quote that has no
backslash in front of it; a backslash is followed by one character, or by an `x` and exactly two
hexadecimal digits, so what an escape stands for does not depend on what comes after it. A number
has an optional minus sign and is hexadecimal behind `0x`, decimal otherwise.

Every literal that is written is read back: a quoted text in front of any other text, up to its
closing quote, and every word, on both sides of the limit where hexadecimal starts.
-/

namespace MethodLift.Source

/-! ## Readers -/

/-- The value of a digit in a base up to sixteen, in upper or lower case. -/
def digit? (base : Nat) (c : Char) : Option Nat :=
  ("0123456789ABCDEF".toList.take base).findIdx? (· == c.toUpper)

/-- The value of a numeral whose first digits have been read. -/
def naturalFrom? (base : Nat) : Nat → List Char → Option Nat
  | value, [] => some value
  | value, c :: rest => (digit? base c).bind fun d => naturalFrom? base (base * value + d) rest

/-- The value of a numeral, which has at least one digit. -/
def natural? (base : Nat) (text : List Char) : Option Nat :=
  if text.isEmpty then none else naturalFrom? base 0 text

/-- The value of a numeral that is hexadecimal behind its mark. -/
def magnitude? : List Char → Option Nat
  | '0' :: 'x' :: rest => natural? 16 rest
  | text => natural? 10 text

/-- The value of a number with an optional minus sign. -/
def readNumber? (text : String) : Option Int :=
  match text.toList with
  | '-' :: rest => (magnitude? rest).map fun n : Nat => -(n : Int)
  | rest => (magnitude? rest).map fun n : Nat => (n : Int)

/-- What one character behind a backslash stands for. -/
def escaped? : Char → Option Char
  | '\"' => some '\"'
  | '\\' => some '\\'
  | 'n' => some '\n'
  | 'r' => some '\r'
  | 't' => some '\t'
  | '0' => some '\x00'
  | _ => none

/-- Puts a character in front of the text that was read. -/
def push (c : Char) (read : List Char × List Char) : List Char × List Char :=
  (c :: read.1, read.2)

/-- The text up to the closing quote, and what follows the quote. Control characters have to be
escaped. -/
def readBody? : List Char → Option (List Char × List Char)
  | [] => none
  | '\"' :: rest => some ([], rest)
  | '\\' :: 'x' :: high :: low :: rest =>
    (digit? 16 high).bind fun h => (digit? 16 low).bind fun l =>
      (readBody? rest).map (push (Char.ofNat (16 * h + l)))
  | '\\' :: mark :: rest => (escaped? mark).bind fun c => (readBody? rest).map (push c)
  | c :: rest => if c = '\\' || isControl c then none else (readBody? rest).map (push c)

/-- A quoted text and what follows it. -/
def readQuoted? (text : String) : Option (String × String) :=
  match text.toList with
  | '\"' :: rest => (readBody? rest).map fun read => (String.ofList read.1, String.ofList read.2)
  | _ => none

/-! ## Numerals -/

theorem digit?_ten : ∀ d < 10, digit? 10 (Nat.digitChar d) = some d := by decide

theorem digit?_sixteen : ∀ d < 16, digit? 16 (Nat.digitChar d).toUpper = some d := by decide

/-- A numeral is read from left to right. -/
theorem naturalFrom?_append (base : Nat) (text rest : List Char) (value : Nat) :
    naturalFrom? base value (text ++ rest) =
      (naturalFrom? base value text).bind fun n => naturalFrom? base n rest := by
  induction text generalizing value with
  | nil => rfl
  | cons c text ih =>
    rw [List.cons_append, naturalFrom?, naturalFrom?, Option.bind_assoc]
    exact Option.bind_congr fun d _ => ih _

/-- A numeral is read back, however its digits are spelled, if each of them is. -/
theorem natural?_toDigits {base : Nat} (spell : Char → Char) (hbase : 1 < base)
    (hspell : ∀ d < base, digit? base (spell (Nat.digitChar d)) = some d) (n : Nat) :
    natural? base ((Nat.toDigits base n).map spell) = some n := by
  have hread : naturalFrom? base 0 ((Nat.toDigits base n).map spell) = some n := by
    induction n using Nat.strong_induction_on with
    | _ n ih =>
      by_cases hn : n < base
      · rw [Nat.toDigits_of_lt_base hn, List.map_singleton, naturalFrom?, hspell n hn]
        simp [naturalFrom?]
      · have hsmaller : n / base < n := Nat.div_lt_self (by omega) hbase
        have hlast : n % base < base := Nat.mod_lt n (by omega)
        rw [Nat.toDigits_of_base_le hbase (by omega), List.map_append, naturalFrom?_append,
          ih _ hsmaller, Option.bind_some, List.map_singleton, naturalFrom?, hspell _ hlast,
          Option.bind_some, naturalFrom?, Nat.div_add_mod]
  rw [natural?, if_neg (by simp), hread]

theorem isDigit_of_mem_repr {n : Nat} {c : Char} (h : c ∈ n.repr.toList) : c.isDigit = true := by
  rw [Nat.toList_repr] at h
  exact Nat.isDigit_of_mem_toDigits (by decide) (by decide) h

/-- Decimal numerals are read back: they do not start like hexadecimal ones. -/
theorem magnitude?_repr (n : Nat) : magnitude? n.repr.toList = some n := by
  unfold magnitude?
  split
  · -- A decimal numeral does not look like a hexadecimal one.
    rename_i rest heq
    have hmark : 'x' ∈ n.repr.toList := by simp [heq]
    exact absurd (isDigit_of_mem_repr hmark) (by decide)
  · rw [Nat.toList_repr, ← List.map_id (Nat.toDigits 10 n)]
    exact natural?_toDigits id (by decide) digit?_ten n

theorem magnitude?_hex (n : Nat) : magnitude? ("0x" ++ hex n).toList = some n := by
  have htext : ("0x" ++ hex n).toList = '0' :: 'x' :: (Nat.toDigits 16 n).map Char.toUpper := by
    simp [hex]
  rw [htext]
  exact natural?_toDigits Char.toUpper (by decide) digit?_sixteen n

/-! ## Numbers -/

/-- A numeral behind the sign of a number is read as the number. -/
theorem readNumber?_signed {z : Int} {text : String} (h : magnitude? text.toList = some z.natAbs) :
    readNumber? ((if z < 0 then "-" else "") ++ text) = some z := by
  unfold readNumber?
  rw [String.toList_append]
  split_ifs with hz
  · show (magnitude? text.toList).map _ = some z
    rw [h, Option.map_some]
    exact congrArg some (by omega)
  · show (match text.toList with | '-' :: rest => _ | rest => _) = some z
    split
    · -- A numeral has no sign of its own.
      rename_i heq
      rw [heq] at h
      cases h
    · rw [h, Option.map_some]
      exact congrArg some (by omega)

/-- A signed number is written as its magnitude behind its sign. -/
theorem decimal_eq (v : Int64) :
    decimal v = (if v.toInt < 0 then "-" else "") ++ v.toInt.natAbs.repr := by
  show v.toInt.repr = _
  rw [Int.repr_eq_if]
  split_ifs with hpos hneg hneg
  · omega
  · rw [String.empty_append]
    exact congrArg Nat.repr (by omega)
  · exact congrArg (fun n => "-" ++ Nat.repr n) (by omega)
  · omega

/-- Every number is read back. -/
theorem readNumber?_number (v : Int64) : readNumber? (number v) = some v.toInt := by
  unfold number
  split
  · rw [decimal_eq]
    exact readNumber?_signed (magnitude?_repr _)
  · have hsign : (if v.toInt < 0 then "-0x" else "0x") =
        (if v.toInt < 0 then "-" else "") ++ "0x" := by
      split <;> rfl
    rw [hsign, String.append_assoc]
    exact readNumber?_signed (magnitude?_hex _)

/-! ## Quoted text -/

theorem digit?_hexDigit : ∀ d < 16, digit? 16 (hexDigit d) = some d := by decide

/-- Control characters have two hexadecimal digits. -/
theorem toNat_lt_of_isControl {c : Char} (h : isControl c = true) : c.toNat < 256 := by
  simp only [isControl, Bool.or_eq_true, Bool.and_eq_true, decide_eq_true_eq] at h
  rcases h with h | ⟨-, h⟩
  · exact Nat.lt_of_lt_of_le (m := 0x20) h (by decide)
  · exact Nat.lt_of_le_of_lt (m := 0x9F) h (by decide)

/-- An escaped character is read back, whatever comes after it. -/
theorem readBody?_escapeChar (c : Char) (rest : List Char) :
    readBody? (escapeChar c ++ rest) = (readBody? rest).map (push c) := by
  unfold escapeChar
  split_ifs with hquote hback hline hreturn htab hnull hcontrol
  · subst hquote
    rfl
  · subst hback
    rfl
  · subst hline
    rfl
  · subst hreturn
    rfl
  · subst htab
    rfl
  · subst hnull
    rfl
  · have hlt := toNat_lt_of_isControl hcontrol
    have hvalue : 16 * (c.toNat / 16) + c.toNat % 16 = c.toNat := Nat.div_add_mod _ _
    show (digit? 16 (hexDigit (c.toNat / 16))).bind _ = _
    rw [digit?_hexDigit _ (by omega), Option.bind_some, digit?_hexDigit _ (by omega),
      Option.bind_some, hvalue, Char.ofNat_toNat]
    rfl
  · rw [List.singleton_append, readBody?]
    · simp [hback, hcontrol]
    · exact fun h => hquote h
    · exact fun _ _ _ h => absurd h hback
    · exact fun _ _ h => absurd h hback

/-- A text is read back up to the quote behind it. -/
theorem readBody?_escaped (text rest : List Char) :
    readBody? (text.flatMap escapeChar ++ '\"' :: rest) = some (text, rest) := by
  induction text with
  | nil => rfl
  | cons c text ih =>
    rw [List.flatMap_cons, List.append_assoc, readBody?_escapeChar, ih]
    rfl

theorem toList_quote (s : String) :
    (quote s).toList = '\"' :: (s.toList.flatMap escapeChar ++ ['\"']) :=
  String.toList_ofList

/-- A quoted text is read back up to its closing quote, whatever comes after it. -/
theorem readQuoted?_quote (s rest : String) : readQuoted? (quote s ++ rest) = some (s, rest) := by
  have htext : (quote s ++ rest).toList =
      '\"' :: (s.toList.flatMap escapeChar ++ '\"' :: rest.toList) := by
    rw [String.toList_append, toList_quote, List.cons_append, List.append_assoc,
      List.singleton_append]
  rw [readQuoted?, htext]
  show (readBody? _).map _ = _
  rw [readBody?_escaped, Option.map_some, String.ofList_toList, String.ofList_toList]

theorem isControl_hexDigit : ∀ d < 16, isControl (hexDigit d) = false := by decide

/-- No escape holds a control character. -/
theorem any_isControl_escapeChar (c : Char) : (escapeChar c).any isControl = false := by
  unfold escapeChar
  split_ifs with hquote hback hline hreturn htab hnull hcontrol
  any_goals decide
  · have hlt := toNat_lt_of_isControl hcontrol
    have hhigh := isControl_hexDigit (c.toNat / 16) (by omega)
    have hlow := isControl_hexDigit (c.toNat % 16) (by omega)
    simp only [List.any_cons, hhigh, hlow]
    decide
  · simpa using hcontrol

/-- A quoted text has no control characters, so it stands in one line. -/
theorem any_isControl_quote (s : String) : (quote s).toList.any isControl = false := by
  have hbody : (s.toList.flatMap escapeChar).any isControl = false := by
    rw [List.any_flatMap, List.any_eq_false]
    intro c _
    simp [any_isControl_escapeChar]
  rw [toList_quote, List.any_cons, List.any_append, hbody]
  decide

/-- Literals can be read back. A quoted text in front of any other text is read up to its closing
quote, and has no control characters; so different texts are quoted in different ways. Every number
is read back from its decimal or hexadecimal form. -/
theorem reads_literals :
    (∀ s rest : String, readQuoted? (quote s ++ rest) = some (s, rest)) ∧
    (∀ s : String, (quote s).toList.any isControl = false) ∧
    Function.Injective quote ∧
    ∀ v : Int64, readNumber? (number v) = some v.toInt := by
  refine ⟨readQuoted?_quote, any_isControl_quote, fun s t hst => ?_, readNumber?_number⟩
  have hread : some (s, "") = some (t, "") := by
    rw [← readQuoted?_quote, hst, readQuoted?_quote]
  exact congrArg Prod.fst (Option.some.inj hread)

-- Escapes in front of digits, a control character beyond ASCII, and text behind the literal.
example : readQuoted? (quote "\x0017\x01F\u0085\\\"" ++ "\" + 1") =
    some ("\x0017\x01F\u0085\\\"", "\" + 1") := by
  decide +kernel

example : number Int64.minValue = "-0x8000000000000000" ∧ number (-65535) = "-65535" ∧
    number 65536 = "0x10000" := by
  decide +kernel

end MethodLift.Source
