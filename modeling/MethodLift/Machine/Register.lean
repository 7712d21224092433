import MethodLift.Machine.InstructionSet

/-!
# Canonical register names

Machine code names one physical register by several aliases, one per width. Every alias has one
canonical spelling; canonical names are their own canonical spelling, and names that denote no
known register stay as they are.
-/

namespace MethodLift.Register

/-- The value of a non-empty run of decimal digits. -/
def natOfDigits? (digits : List Char) : Option Nat :=
  if digits.isEmpty || !digits.all Char.isDigit then none
  else some (digits.foldl (fun n c => 10 * n + (c.toNat - '0'.toNat)) 0)

/-- A register number: decimal digits, behind an optional plus sign, of a value below 256. -/
def number? (text : List Char) : Option Nat :=
  let digits := match text with
    | '+' :: rest => rest
    | _ => text
  (natOfDigits? digits).filter (· < 256)

/-- The names of the x86-64 registers with letters, each behind its canonical name. -/
def x64Aliases : List (String × List String) :=
  [("rax", ["al", "ah", "ax", "eax", "rax"]),
    ("rbx", ["bl", "bh", "bx", "ebx", "rbx"]),
    ("rcx", ["cl", "ch", "cx", "ecx", "rcx"]),
    ("rdx", ["dl", "dh", "dx", "edx", "rdx"]),
    ("rsi", ["sil", "si", "esi", "rsi"]),
    ("rdi", ["dil", "di", "edi", "rdi"]),
    ("rsp", ["spl", "sp", "esp", "rsp"]),
    ("rbp", ["bpl", "bp", "ebp", "rbp"])]

/-- Drops one width letter at the end. -/
def dropWidth (text : List Char) : List Char :=
  match text.getLast? with
  | some c => if ['b', 'w', 'd', 'l'].contains c then text.dropLast else text
  | none => text

/-- The numbered x86-64 registers `r8` to `r15`, with an optional width letter. -/
def x64Numbered? (lower : String) : Option String :=
  match lower.toList with
  | 'r' :: rest =>
    match number? (dropWidth rest) with
    | some n => if 8 ≤ n && n ≤ 15 then some ("r" ++ toString n) else none
    | none => none
  | _ => none

/-- Canonical names of x86-64: the 64-bit names in lower case. -/
def canonicalX64 (name : String) : String :=
  let lower := name.toLower
  match x64Aliases.find? fun entry => entry.2.contains lower with
  | some entry => entry.1
  | none => (x64Numbered? lower).getD lower

/-- Canonical names of ARM64: `Xn` for the general registers, `Vn` for all views of a vector
register, and `SP`. Numbers go up to 31. -/
def canonicalArm64 (name : String) : String :=
  let lower := name.toLower
  if lower == "sp" || lower == "wsp" then "SP"
  else
    match lower.toList with
    | [] => name
    | bank :: rest =>
      match number? rest with
      | none => name
      | some n =>
        if 31 < n then name
        else if ['w', 'x'].contains bank then "X" ++ toString n
        else if ['b', 'h', 's', 'd', 'q', 'v'].contains bank then "V" ++ toString n
        else name

def canonical : InstructionSet → String → String
  | .x64 => canonicalX64
  | .arm64 => canonicalArm64

def stackPointer : InstructionSet → String
  | .x64 => "rsp"
  | .arm64 => "SP"

end MethodLift.Register
