import MethodLift.Text.Combining
import MethodLift.Text.Invisible

/-!
# Quoted text

Two quoted forms of a text. `quote` is the literal of the pseudo-source, where a control character
is written with two hexadecimal digits. `debugQuote` is the form that messages use: every character
that cannot be seen by itself is written with its code point in brackets.
-/

namespace MethodLift

/-- Control characters: the code points below space, and those from delete to `0x9F`. -/
def isControl (c : Char) : Bool := c.val < 0x20 || (0x7F ≤ c.val && c.val ≤ 0x9F)

def hexDigit (n : Nat) : Char := (Nat.digitChar n).toUpper

/-- A character inside a literal of the pseudo-source. -/
def escapeChar (c : Char) : List Char :=
  if c = '\"' then ['\\', '\"']
  else if c = '\\' then ['\\', '\\']
  else if c = '\n' then ['\\', 'n']
  else if c = '\r' then ['\\', 'r']
  else if c = '\t' then ['\\', 't']
  else if c = '\x00' then ['\\', '0']
  else if isControl c then ['\\', 'x', hexDigit (c.toNat / 16), hexDigit (c.toNat % 16)]
  else [c]

/-- A literal of the pseudo-source. -/
def quote (text : String) : String :=
  String.ofList ('\"' :: text.toList.flatMap escapeChar ++ ['\"'])

/-- A character inside a text quoted by a message. -/
def debugEscapeChar (c : Char) : List Char :=
  if c = '\"' then ['\\', '\"']
  else if c = '\\' then ['\\', '\\']
  else if c = '\n' then ['\\', 'n']
  else if c = '\r' then ['\\', 'r']
  else if c = '\t' then ['\\', 't']
  else if c = '\x00' then ['\\', '0']
  else if isCombining c || isInvisible c then
    ['\\', 'u', '\x7b'] ++ Nat.toDigits 16 c.toNat ++ ['\x7d']
  else [c]

/-- A text quoted by a message. -/
def debugQuote (text : String) : String :=
  String.ofList ('\"' :: text.toList.flatMap debugEscapeChar ++ ['\"'])

end MethodLift
