import Quorum.Curve.Scalar
import Quorum.Error

/-!
# Lagrange coefficients

Each holder of a key share has an evaluation point, one more than its
identifier.  The coefficients of a signing set recombine values at the points
of its members to the value at zero.
-/

namespace Quorum

/-- The identifier of a holder of a key share. -/
abbrev PartyId := UInt64

/-- The point at which a holder's share is evaluated. -/
def evaluationPoint (id : PartyId) : Scalar :=
  Scalar.ofNat (id.toNat + 1)

/-- Whether some entry of a list occurs again further on. -/
def hasDuplicates : List PartyId → Bool
  | [] => false
  | id :: ids => ids.contains id || hasDuplicates ids

/-- The coefficient of a member of a signing set without repetitions. -/
def lagrangeCoefficient (id : PartyId) (parties : List PartyId) :
    Except Error Scalar :=
  if !parties.contains id then .error (.invalidPartyId id.toNat)
  else if hasDuplicates parties then .error (.invalidConfig .duplicateParties)
  else
    let others := parties.filter (· != id)
    let numerator := Scalar.product (others.map evaluationPoint)
    let denominator := Scalar.product
      (others.map fun other => evaluationPoint other - evaluationPoint id)
    .ok (numerator * denominator.inverse)

end Quorum
