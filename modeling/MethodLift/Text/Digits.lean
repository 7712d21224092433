/-!
# Numerals

The ways numbers are spelled: decimal, upper-case hexadecimal, and decimal padded with zeros.
-/

namespace MethodLift

/-- Upper-case hexadecimal digits of a natural number, without leading zeros. -/
def hex (n : Nat) : String := String.ofList ((Nat.toDigits 16 n).map Char.toUpper)

/-- The two's complement pattern of a word, in hexadecimal with its mark. -/
def hexWord (value : Int64) : String := "0x" ++ hex value.toUInt64.toNat

/-- An address in hexadecimal with its mark. -/
def hexAddress (address : UInt64) : String := "0x" ++ hex address.toNat

/-- Decimal digits, padded on the left with zeros up to `width` characters. -/
def padded (width n : Nat) : String :=
  String.ofList (List.replicate (width - (toString n).length) '0') ++ toString n

def decimal (value : Int64) : String := toString value.toInt

/-- A literal of the pseudo-source: decimal up to a magnitude of `0xFFFF`, beyond that the sign
and the magnitude in hexadecimal. -/
def number (value : Int64) : String :=
  if value.toInt.natAbs ≤ 0xFFFF then decimal value
  else (if value.toInt < 0 then "-0x" else "0x") ++ hex value.toInt.natAbs

end MethodLift
