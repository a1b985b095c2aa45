import Quorum.Curve.Encoding
import Quorum.Curve.Subgroup
import Quorum.Error
import Quorum.Hash.Sha512

/-!
# Signatures

A signature is an encoded nonce point and an encoded scalar.  It is verified
by the strict rule of the standard scheme: the scalar must be reduced, neither
the nonce point nor the key may have small order, and the bytes of
`s G - k A` must be those of the nonce, where `k` is the standard challenge.
-/

namespace Quorum

/-- A signature. -/
structure Signature where
  /-- The encoded nonce point. -/
  r : Octets 32
  /-- The encoded scalar. -/
  s : Octets 32
deriving DecidableEq

namespace Signature

/-- The 64 bytes of a signature. -/
def toBytes (sig : Signature) : Bytes :=
  sig.r.toList ++ sig.s.toList

/-- The challenge that a verifier of the standard scheme computes. -/
def challenge (sig : Signature) (A : Point) (message : Bytes) : Scalar :=
  Scalar.reduce (sha512 (sig.r.toList ++ A.encode.toList ++ message)).toList

/-- Whether a signature is that of a message under the key `A`. -/
def verifies (sig : Signature) (A : Point) (message : Bytes) : Bool :=
  match Scalar.decode? sig.s.toList, Point.decode? sig.r.toList with
  | some s, some R =>
    !R.isSmallOrder && !A.isSmallOrder
      && (s • Point.generator - sig.challenge A message • A).encode = sig.r
  | _, _ => false

/--
Accepts the signature of a message under a key, which is read back from its
encoding first.
-/
def verify (sig : Signature) (A : Point) (message : Bytes) : Except Error Unit :=
  -- A match in this place would be reduced, key and all, wherever a proof unfolds it.
  (Point.decode? A.encode.toList).elim
    (.error (.deserialization "signature error: Cannot decompress Edwards point"))
    fun key => if sig.verifies key message then .ok () else .error .invalidSignature

end Signature

end Quorum
