import Quorum.Key.Polynomial
import Quorum.Key.Share
import Quorum.Tape

/-!
# Dealing a key

A trusted dealer draws a polynomial with as many coefficients as holders are
needed to sign.  The key is its value at zero, and each holder's share is its
value at the holder's evaluation point.
-/

namespace Quorum

/-- Shares of the key that is the value at zero of a polynomial. -/
def KeyShare.ofCoefficients (coefficients : List Scalar) (n : UInt64) :
    List KeyShare :=
  let ids := (List.range n.toNat).map UInt64.ofNat
  let secrets := ids.map fun id =>
    Polynomial.evaluate coefficients (evaluationPoint id)
  let publicShares := secrets.map (· • Point.generator)
  let publicKey := coefficients.headD 0 • Point.generator
  (ids.zip secrets).map fun (id, secret) =>
    ⟨id, n, UInt64.ofNat coefficients.length, secret, publicKey, publicShares⟩

/-- Shares of a fresh key for `n` holders, any `threshold` of which can sign. -/
def dealShares (threshold n : UInt64) (tape : Tape) :
    Except Error (List KeyShare × Tape) :=
  if threshold < 2 then .error (.invalidConfig .thresholdTooSmall)
  else if n < threshold then
    .error (.thresholdNotMet threshold.toNat n.toNat)
  else
    let (coefficients, tape) := tape.scalars threshold.toNat
    .ok (KeyShare.ofCoefficients coefficients n, tape)

end Quorum
