import Quorum.Signing.Finalization

/-!
# A signer in any of its rounds

The rounds follow one another, and each is consumed by the next.  A signer is
in one of the three rounds, and what the last of them leads to is the
finalization.
-/

namespace Quorum

/-- A signer in one of its rounds. -/
inductive Signer
  /-- In the first round. -/
  | committing (r : CommitRound)
  /-- In the second round. -/
  | revealing (r : RevealRound)
  /-- In the third round. -/
  | sharing (r : ShareRound)

/-- What a completed round leads to. -/
inductive Stage
  /-- A further round. -/
  | signing (s : Signer)
  /-- The finalization. -/
  | finalizing (f : Finalization)

namespace Signer

def number : Signer → UInt32
  | committing _ => commitKind.number
  | revealing _ => revealKind.number
  | sharing _ => shareKind.number

/-- Starts the round; only the first one reads the tape. -/
def start (tape : Tape) : Signer → Except Error Envelope × Signer
  | committing r => ((r.start tape).1, committing (r.start tape).2)
  | revealing r => (r.start.1, revealing r.start.2)
  | sharing r => (r.start.1, sharing r.start.2)

def canAccept (e : Envelope) : Signer → Bool
  | committing r => r.round.canAccept e
  | revealing r => r.round.canAccept e
  | sharing r => r.round.canAccept e

def phase : Signer → Phase
  | committing r => r.round.phase
  | revealing r => r.round.phase
  | sharing r => r.round.phase

/-- Whether a message of every signer was accepted in the round. -/
def isComplete : Signer → Bool
  | committing r => r.round.table.isComplete
  | revealing r => r.round.table.isComplete
  | sharing r => r.round.table.isComplete

/-- The signer after a batch of envelopes. -/
def update (batch : List Envelope) : Signer → Signer
  | committing r => committing (r.update batch)
  | revealing r => revealing (r.update batch)
  | sharing r => sharing (r.update batch)

/-- What follows the round, once it is completed. -/
def next : Signer → Except Error Stage
  | committing r => r.next.map fun r => .signing (revealing r)
  | revealing r => r.next.map fun r => .signing (sharing r)
  | sharing r => r.next.map .finalizing

end Signer

end Quorum
