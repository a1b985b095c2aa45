import Quorum.Curve.Subgroup
import Quorum.Key.Lagrange

/-!
# Key shares

A key share holds one party's secret share together with the joint public key
and the public shares of all holders.  For a given signing set, secret and
public shares are weighted by the Lagrange coefficients of their holders.
-/

namespace Quorum

/-- A party's share of a signing key. -/
structure KeyShare where
  /-- The holder of the share. -/
  partyId : PartyId
  /-- The number of holders. -/
  nParties : UInt64
  /-- The number of holders that can sign. -/
  threshold : UInt64
  secretShare : Scalar
  publicKey : Point
  /-- The public shares of all holders, in the order of their identifiers. -/
  publicShares : List Point
deriving DecidableEq

namespace KeyShare

/-- Checks that a key share does not contradict itself. -/
def validate (key : KeyShare) : Except Error Unit :=
  if key.publicShares.length ≠ key.nParties.toNat then
    .error (.invalidConfig
      (.shareCount key.nParties.toNat key.publicShares.length))
  else
    match key.publicShares[key.partyId.toNat]? with
    | none => .error (.invalidPartyId key.partyId.toNat)
    | some own =>
      if key.secretShare • Point.generator ≠ own then
        .error (.invalidConfig .shareMismatch)
      else if key.publicKey.isValid then .ok ()
      else .error (.invalidConfig .invalidPublicKey)

/-- The secret share weighted for a signing set. -/
def signingShare (key : KeyShare) (parties : List PartyId) :
    Except Error Scalar := do
  let coefficient ← lagrangeCoefficient key.partyId parties
  return coefficient * key.secretShare

/-- The public share of a holder weighted for a signing set. -/
def weightedPublicShare (key : KeyShare) (id : PartyId) (parties : List PartyId) :
    Except Error Point :=
  match key.publicShares[id.toNat]? with
  | none => .error (.invalidPartyId id.toNat)
  | some share => do
    let coefficient ← lagrangeCoefficient id parties
    return coefficient • share

end KeyShare

end Quorum
