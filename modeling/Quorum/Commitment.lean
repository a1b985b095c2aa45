import Quorum.Tape
import Quorum.Transcript

/-!
# Hash commitments

A commitment to a list of values is the digest of 32 random bytes, the number
of values and the values themselves.  Whoever holds the random bytes and the
values can open it.
-/

namespace Quorum

/-- A commitment: the digest of what it commits to. -/
structure HashCommitment where
  digest : Octets 32
deriving DecidableEq

/-- What opens a commitment. -/
structure Decommitment where
  /-- The random bytes that hide the values. -/
  randomness : Octets 32
  values : List Bytes
deriving DecidableEq

namespace Decommitment

/-- The segments that the commitment is a digest of. -/
def segments (d : Decommitment) : List Bytes :=
  d.randomness.toList :: Bytes.ofNatBE 8 d.values.length :: d.values

/-- The commitment that a decommitment opens. -/
def commitment (d : Decommitment) : HashCommitment :=
  ⟨Transcript.digest Transcript.Purpose.commitment.tag d.segments⟩

end Decommitment

namespace HashCommitment

/-- Whether a decommitment opens a commitment. -/
def verify (c : HashCommitment) (d : Decommitment) : Bool :=
  d.commitment = c

/-- The values of a decommitment that opens the commitment. -/
def open? (c : HashCommitment) (d : Decommitment) : Option (List Bytes) :=
  if c.verify d then some d.values else none

end HashCommitment

/-- What opens a fresh commitment to the values, with randomness from the tape. -/
def Decommitment.draw (values : List Bytes) (tape : Tape) : Decommitment × Tape :=
  let (randomness, tape) := tape.octets 32
  (⟨randomness, values⟩, tape)

end Quorum
