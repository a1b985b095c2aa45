import Quorum.Bytes

/-!
# Hexadecimal text

Byte strings written as two hexadecimal digits a byte, the high half first.
Writing uses lower-case digits; reading accepts either case.
-/

namespace Quorum.Hex

/-- The digit for a number below sixteen. -/
def digit (k : Nat) : Char :=
  if k < 10 then Char.ofNat ('0'.toNat + k) else Char.ofNat ('a'.toNat + (k - 10))

/-- The number below sixteen that a digit stands for. -/
def digitValue? (c : Char) : Option Nat :=
  if '0' ≤ c ∧ c ≤ '9' then some (c.toNat - '0'.toNat)
  else if 'a' ≤ c ∧ c ≤ 'f' then some (c.toNat - 'a'.toNat + 10)
  else if 'A' ≤ c ∧ c ≤ 'F' then some (c.toNat - 'A'.toNat + 10)
  else none

/-- The digits of a byte string. -/
def digits (bs : Bytes) : List Char :=
  bs.flatMap fun b => [digit (b.toNat / 16), digit (b.toNat % 16)]

/-- The byte string that a list of digits writes, if the digits come in pairs. -/
def ofDigits? : List Char → Option Bytes
  | [] => some []
  | [_] => none
  | high :: low :: rest => do
    let h ← digitValue? high
    let l ← digitValue? low
    let bs ← ofDigits? rest
    return UInt8.ofNat (16 * h + l) :: bs

def encode (bs : Bytes) : String :=
  String.ofList (digits bs)

def decode? (text : String) : Option Bytes :=
  ofDigits? text.toList

end Quorum.Hex
