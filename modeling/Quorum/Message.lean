import Quorum.Bytes
import Quorum.Error

/-!
# Messages to be signed

A message is an integer, given by its bytes with the most significant first.
What is signed is its shortest encoding, or the encoding of a fixed length if
the message declares one.
-/

namespace Quorum

/-- A message to be signed. -/
structure SigningMessage where
  /-- The bytes of the integer, most significant first. -/
  value : Bytes
  /-- The number of bytes to be signed, if it is fixed. -/
  fixedLength : Option UInt64
deriving DecidableEq

/-- The bytes that are signed. -/
def SigningMessage.encode (m : SigningMessage) : Except Error Bytes :=
  let shortest := m.value.dropLeadingZeros
  match m.fixedLength with
  | none => .ok shortest
  | some max =>
    if max.toNat < shortest.length then
      .error (.messageTooLong shortest.length max.toNat)
    else .ok (List.replicate (max.toNat - shortest.length) 0 ++ shortest)

end Quorum
