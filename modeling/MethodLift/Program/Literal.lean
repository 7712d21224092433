import MethodLift.Text.Quoted

/-!
# String literals in memory

A literal is stored as UTF-8 text up to a zero byte. Only texts that a reader would take for a
string are accepted: not empty, of bounded length, and without control characters other than tab
and line breaks.
-/

namespace MethodLift.Literal

/-- The zero byte stands within this many bytes. -/
def maxBytes : Nat := 4096

/-- Characters that a literal may hold. -/
def isPrintable (c : Char) : Bool := !isControl c || c == '\t' || c == '\n' || c == '\r'

/-- The literal at the start of some bytes. -/
def decode? (bytes : List UInt8) : Option String :=
  let window := bytes.take maxBytes
  let body := window.takeWhile (· != 0)
  if !window.contains 0 || body.isEmpty then none
  else
    match String.fromUTF8? ⟨body.toArray⟩ with
    | none => none
    | some text => if text.toList.all isPrintable then some text else none

end MethodLift.Literal
