import Quorum.Signing.Signer

/-!
# Participants

A participant runs the protocol on its own.  It starts its round, posts the
message, and reads until a message of every signer was accepted; then it goes
on to the next round.  Messages that the round cannot use are skipped, and only
an empty wait ends a run early.

A participant is a machine that reacts to batches of messages and to the end of
its patience.  Each reaction yields at most one message to be posted.
-/

namespace Quorum

/-- Where a participant's run stands. -/
inductive Participant
  /-- It is in a round and has read a number of messages from the mailbox. -/
  | waiting (signer : Signer) (tape : Tape) (seen : Nat)
  | ended (result : Except Error Signature)

namespace Participant

/-- Starts a signer's round, and yields the message to be posted. -/
def enter (tape : Tape) (signer : Signer) : Participant × Option Envelope :=
  match signer.start tape with
  | (.ok e, signer) => (.waiting signer tape 0, some e)
  | (.error e, _) => (.ended (.error e), none)

/-- Asks for admission and starts the first round. -/
def begin (hash : ChallengeHash) (config : SessionConfig) (key : KeyShare)
    (message : SigningMessage) (tape : Tape) : Participant × Option Envelope :=
  match CommitRound.new hash config key message with
  | .ok r => enter tape (.committing r)
  | .error e => (.ended (.error e), none)

/-- Reads a batch, and goes on to the next round if the round is complete. -/
def read (batch : List (Option Envelope)) : Participant → Participant × Option Envelope
  | .waiting signer tape seen =>
    let signer := signer.update (batch.filterMap id)
    if signer.isComplete then
      match signer.next with
      | .ok (.signing next) => enter tape next
      | .ok (.finalizing f) => (.ended f.finalize, none)
      | .error e => (.ended (.error e), none)
    else (.waiting signer tape (seen + batch.length), none)
  | .ended result => (.ended result, none)

/-- Gives up waiting. -/
def giveUp : Participant → Participant
  | .waiting signer _ seen =>
    .ended (.error (.timeout (.broadcasts signer.number.toNat seen)))
  | .ended result => .ended result

/-- The result of a run that has ended. -/
def result? : Participant → Option (Except Error Signature)
  | .waiting .. => none
  | .ended result => some result

end Participant

end Quorum
