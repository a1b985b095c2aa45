import Quorum.Signing.Reveal

/-!
# The third round: the signature share

Before a signer lets go of its share it opens the nonce of every peer: the
revealed values have to open the commitment of the first round, be the
coordinates of a point, and come with a proof of knowledge of the nonce.  The
sum of the nonces and the joint key then determine the signature challenge.
-/

namespace Quorum

/-- The messages of the third round. -/
def shareKind : RoundKind Scalar where
  number := 3
  content s := .share ⟨s⟩
  payload?
    | .share s => some s.s
    | _ => none

/-- What a successful start of the third round fixes. -/
structure Aggregate where
  /-- The sum of the nonce points. -/
  nonce : Point
  challenge : Scalar
  /-- The nonce points of all signers, in session order. -/
  noncePoints : List Point
  /-- The encoded message. -/
  message : Bytes
deriving DecidableEq

/-- The third round of a signer. -/
structure ShareRound where
  session : Session
  nonce : Nonce
  /-- The commitments of all signers, in session order. -/
  commitments : List HashCommitment
  /-- The openings of all signers, in session order. -/
  reveals : List NonceReveal
  /-- The round, which leaves the aggregate. -/
  round : Round Scalar Aggregate

/-- The third round, once the second one is completed. -/
def RevealRound.next (r : RevealRound) : Except Error ShareRound := do
  let (reveals, _) ← r.round.finish
  return ⟨r.session, r.nonce, r.commitments, reveals,
    .new shareKind r.session.config.partyIndex r.session.size⟩

/--
The nonce point of the signer at position `j`.  Its component of small order is
cleared before the proof is checked, so that all signers work with the same
point of the prime-order subgroup.
-/
def Session.openNonce (s : Session) (j : Nat) (commitment : HashCommitment)
    (reveal : NonceReveal) : Except Error Point :=
  let round := shareKind.number.toNat
  match commitment.open? reveal.decommitment with
  | none => .error (.decommitmentFailed j round)
  | some [x, y] =>
    match (Point.ofAffine? x y).map Point.clearCofactor with
    | none => .error (.invalidPoint j round)
    | some point =>
      if point = 0 then .error (.invalidPoint j round)
      else if reveal.proof.verify (partyContext s.ssid j) point then .ok point
      else .error (.proofVerificationFailed j round)
  | some values => .error (.malformedDecommitment j round values.length)

namespace ShareRound

/-- The nonce points of all signers, or the failure of the first peer that has one. -/
def openNonces (r : ShareRound) : Except Error (List Point) :=
  (r.commitments.zip r.reveals).zipIdx.mapM fun ((commitment, reveal), j) =>
    if j = r.session.own then .ok r.nonce.point
    else r.session.openNonce j commitment reveal

/-- The own share, with the aggregate that it belongs to. -/
def prepare (r : ShareRound) : Except Error (Scalar × Aggregate) := do
  let noncePoints ← r.openNonces
  let nonce := Point.sum noncePoints
  let message ← r.session.message.encode
  let challenge ← signatureChallenge r.session.hash
    [nonce.encode.toList, r.session.publicKey.encode.toList, message]
  return (challenge * r.session.signingShare + r.nonce.secret,
    { nonce, challenge, noncePoints, message })

def start (r : ShareRound) : Except Error Envelope × ShareRound :=
  let (sent, round) := r.round.start r.prepare
  (sent, { r with round })

def update (r : ShareRound) (batch : List Envelope) : ShareRound :=
  { r with round := r.round.update batch }

/-- The own share, once the round was started. -/
def share? (r : ShareRound) : Option Scalar :=
  r.round.table.get? r.session.own

end ShareRound

end Quorum
