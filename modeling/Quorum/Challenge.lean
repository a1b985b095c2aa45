import Quorum.Curve.Scalar
import Quorum.Error
import Quorum.Hash.Sha3
import Quorum.Hash.Sha512
import Quorum.Poseidon.Sponge

/-!
# The signature challenge

The challenge of a signature is a 64-byte preimage reduced modulo the group
order.  SHA-512 yields standard signatures; SHA3-512 and the algebraic hash
are alternatives that the verifier has to share.
-/

namespace Quorum

/-- A hash with 64 bytes of output from which challenges are derived. -/
structure ChallengeHash where
  /-- The bytes whose reduction is the challenge. -/
  preimage : Bytes → Octets 64

namespace ChallengeHash

/-- The hash of standard signatures. -/
def standard : ChallengeHash :=
  ⟨sha512⟩

/-- The sponge hash with a digest of 64 bytes. -/
def sha3 : ChallengeHash :=
  ⟨sha3x512⟩

/-- The algebraic hash: its digest without leading zero bytes, then zero bytes. -/
def algebraic : ChallengeHash :=
  ⟨fun input =>
    Octets.zeroExtend 64 (Poseidon.digest input).toList.dropLeadingZeros⟩

end ChallengeHash

/-- The concatenation of hash input segments, none of which may be empty. -/
def flattenSegments (segments : List Bytes) : Except Error Bytes :=
  match segments.findIdx? (·.isEmpty) with
  | some index => .error (.emptyHashSegment index)
  | none => .ok segments.flatten

/-- The signature challenge over a list of segments. -/
def signatureChallenge (hash : ChallengeHash) (segments : List Bytes) :
    Except Error Scalar := do
  let input ← flattenSegments segments
  return Scalar.reduce (hash.preimage input).toList

end Quorum
