/-!
# JSON values

A value keeps the spelling of its numbers and strings: a number is the literal
it was written as, and a string the characters between its quotes with their
escape sequences.  Members of an object keep their order and may repeat a
name.  Readers of particular formats decide what to make of that.
-/

namespace Quorum

/-- A JSON value with the spelling of its literals. -/
inductive Json
  | null
  | bool (b : Bool)
  /-- A number, as the literal that writes it. -/
  | number (literal : List Char)
  /-- A string, as the characters between its quotes. -/
  | string (raw : List Char)
  | array (items : List Json)
  /-- An object, its members in order, each name as between its quotes. -/
  | object (members : List (List Char × Json))

namespace Json

/-- The number that writes a natural number in decimal digits. -/
def ofNat (k : Nat) : Json :=
  .number (Nat.toDigits 10 k)

/-- The natural number that a literal of digits alone writes. -/
def toNat? : Json → Option Nat
  | .number literal =>
    if literal.all Char.isDigit then some (Nat.ofDigitChars 10 literal 0) else none
  | _ => none

/-- An object with names that need no escape sequence. -/
def ofMembers (members : List (String × Json)) : Json :=
  .object (members.map fun m => (m.1.toList, m.2))

end Json

end Quorum
