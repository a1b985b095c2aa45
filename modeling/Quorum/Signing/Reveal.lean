import Quorum.Signing.Commit

/-!
# The second round: opening the commitment

The signer sends the opening that it prepared in the first round.  The openings
of the peers are only collected here; they are checked in the third round.
-/

namespace Quorum

/-- The messages of the second round. -/
def revealKind : RoundKind NonceReveal where
  number := 2
  content r := .reveal r
  payload?
    | .reveal r => some r
    | _ => none

/-- The second round of a signer. -/
structure RevealRound where
  session : Session
  nonce : Nonce
  /-- The commitments of all signers, in session order. -/
  commitments : List HashCommitment
  /-- The round, which leaves nothing. -/
  round : Round NonceReveal Unit

/-- The second round, once the first one is completed. -/
def CommitRound.next (r : CommitRound) : Except Error RevealRound := do
  let (commitments, nonce) ← r.round.finish
  return ⟨r.session, nonce, commitments,
    .new revealKind r.session.config.partyIndex r.session.size⟩

namespace RevealRound

def start (r : RevealRound) : Except Error Envelope × RevealRound :=
  let (sent, round) := r.round.start (.ok (r.nonce.reveal, ()))
  (sent, { r with round })

def update (r : RevealRound) (batch : List Envelope) : RevealRound :=
  { r with round := r.round.update batch }

end RevealRound

end Quorum
