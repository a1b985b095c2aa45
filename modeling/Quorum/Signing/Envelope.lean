import Quorum.Commitment
import Quorum.Sigma.Dlog

/-!
# Messages between signers

In the first round a signer commits to its nonce, in the second it opens the
commitment and proves that it knows the nonce, and in the third it sends its
signature share.  A message travels in an envelope that names its sender and
its round.
-/

namespace Quorum

/-- The message of the first round. -/
structure NonceCommitment where
  /-- The commitment to the coordinates of the nonce point. -/
  commitment : HashCommitment
deriving DecidableEq

/-- The message of the second round. -/
structure NonceReveal where
  /-- What opens the commitment of the first round. -/
  decommitment : Decommitment
  /-- A proof of knowledge of the nonce. -/
  proof : DlogProof
deriving DecidableEq

/-- The message of the third round. -/
structure SignatureShare where
  s : Scalar
deriving DecidableEq

/-- The content of an envelope. -/
inductive Content
  /-- A message of the first round. -/
  | commitment (c : NonceCommitment)
  /-- A message of the second round. -/
  | reveal (r : NonceReveal)
  /-- A message of the third round. -/
  | share (s : SignatureShare)
deriving DecidableEq

/-- A message as it is delivered. -/
inductive Envelope
  /-- A message to all signers. -/
  | broadcast (sender : UInt64) (round : UInt32) (content : Content)
  /-- A message to one signer. -/
  | direct (sender recipient : UInt64) (round : UInt32) (content : Content)
deriving DecidableEq

namespace Envelope

/-- The position that the sender claims. -/
def sender : Envelope → UInt64
  | broadcast sender _ _ => sender
  | direct sender _ _ _ => sender

/-- The round that the message claims to belong to. -/
def round : Envelope → UInt32
  | broadcast _ round _ => round
  | direct _ _ round _ => round

def content : Envelope → Content
  | broadcast _ _ content => content
  | direct _ _ _ content => content

/-- Whether the message goes to all signers. -/
def isBroadcast : Envelope → Bool
  | broadcast .. => true
  | direct .. => false

end Envelope

end Quorum
