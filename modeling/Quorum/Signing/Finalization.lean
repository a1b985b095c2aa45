import Quorum.Signature
import Quorum.Signing.Share

/-!
# Assembling the signature

The shares add up to the scalar of the signature.  The sum is checked against
the aggregate nonce and the joint key before the signature is handed out; if it
does not fit, each share is checked on its own to name who sent a wrong one.
-/

namespace Quorum

/-- All that is needed to assemble the signature. -/
structure Finalization where
  session : Session
  /-- The aggregate that the shares belong to. -/
  aggregate : Aggregate
  /-- The shares of all signers, in session order. -/
  shares : List Scalar

/-- The finalization, once the third round is completed. -/
def ShareRound.next (r : ShareRound) : Except Error Finalization := do
  let (shares, aggregate) ← r.round.finish
  return ⟨r.session, aggregate, shares⟩

namespace Finalization

/-- Whether a share fits a nonce point and a weighted public share. -/
def fits (challenge s : Scalar) (noncePoint weightedShare : Point) : Bool :=
  s • Point.generator = noncePoint + challenge • weightedShare

/-- The position of the first share that does not fit. -/
def findInvalidShare? (f : Finalization) : Option Nat :=
  ((f.shares.zip f.aggregate.noncePoints).zip
    f.session.weightedShares).findIdx? fun ((s, noncePoint), weightedShare) =>
      !fits f.aggregate.challenge s noncePoint weightedShare

/-- The signature, or the signer whose share is wrong. -/
def finalize (f : Finalization) : Except Error Signature :=
  let s := Scalar.sum f.shares
  if fits f.aggregate.challenge s f.aggregate.nonce f.session.publicKey then
    .ok ⟨f.aggregate.nonce.encode, s.encode⟩
  else
    match f.findInvalidShare? with
    | some j => .error (.invalidShare j)
    | none => .error .invalidSignature

end Finalization

end Quorum
