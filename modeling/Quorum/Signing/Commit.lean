import Quorum.Curve.Affine
import Quorum.Round.Basic
import Quorum.Session.Admission

/-!
# The first round: committing to a nonce

The signer draws a nonce, commits to the coordinates of its point, and already
prepares the opening together with a proof that it knows the nonce.
-/

namespace Quorum

/-- A signer's nonce with what will be revealed of it. -/
structure Nonce where
  secret : Scalar
  /-- The nonce times the generator. -/
  point : Point
  /-- The message of the second round. -/
  reveal : NonceReveal
deriving DecidableEq

/-- The messages of the first round. -/
def commitKind : RoundKind HashCommitment where
  number := 1
  content c := .commitment ⟨c⟩
  payload?
    | .commitment c => some c.commitment
    | _ => none

/--
Draws a nonce, the randomness of the commitment and that of the proof, in this
order.  The nonce zero has no proof and is refused.
-/
def Session.drawNonce (s : Session) (tape : Tape) :
    Except Error (HashCommitment × Nonce) := do
  let (secret, tape) := tape.scalar
  let point := secret • Point.generator
  match point.affine? with
  | none => .error (.internal .noAffineForm)
  | some coordinates =>
    let (decommitment, tape) := Decommitment.draw coordinates.toValues tape
    let (proof, _) ← DlogProof.prove (partyContext s.ssid s.own) secret point tape
    return (decommitment.commitment, ⟨secret, point, ⟨decommitment, proof⟩⟩)

/-- The first round of a signer. -/
structure CommitRound where
  session : Session
  /-- The round, which leaves the nonce. -/
  round : Round HashCommitment Nonce

namespace CommitRound

/-- The first round of an admitted signer. -/
def ofSession (s : Session) : CommitRound :=
  ⟨s, .new commitKind s.config.partyIndex s.size⟩

/-- The first round of a signer that asks for admission. -/
def new (hash : ChallengeHash) (config : SessionConfig) (key : KeyShare)
    (message : SigningMessage) : Except Error CommitRound :=
  (Session.establish hash config key message).map ofSession

/-- Starts the round with the randomness of a tape. -/
def start (r : CommitRound) (tape : Tape) : Except Error Envelope × CommitRound :=
  let (sent, round) := r.round.start (r.session.drawNonce tape)
  (sent, { r with round })

def update (r : CommitRound) (batch : List Envelope) : CommitRound :=
  { r with round := r.round.update batch }

end CommitRound

end Quorum
