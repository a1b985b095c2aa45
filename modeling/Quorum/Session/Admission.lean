import Quorum.Challenge
import Quorum.Key.Share
import Quorum.Message
import Quorum.Session.Config

/-!
# Admission to a session

A signer enters a session with its configuration, its key share and the
message.  What is checked here once is relied upon by all rounds: every signer
has a public share, the own share is consistent, and the Lagrange weights
exist.
-/

namespace Quorum

/-- What a signer knows throughout a session. -/
structure Session where
  config : SessionConfig
  /-- The session tag. -/
  ssid : Octets 32
  hash : ChallengeHash
  /-- The signer's weighted secret share. -/
  signingShare : Scalar
  publicKey : Point
  /-- The weighted public shares of all signers, in session order. -/
  weightedShares : List Point
  message : SigningMessage

namespace Session

/-- Checks that a key share belongs to the threshold and the position configured. -/
def matchKey (config : SessionConfig) (key : KeyShare) : Except Error Unit :=
  if config.threshold = key.threshold then
    config.partyId.bind fun id =>
      if id = key.partyId then .ok ()
      else .error (.invalidPartyId key.partyId.toNat)
  else
    .error (.invalidConfig
      (.thresholdMismatch config.threshold.toNat key.threshold.toNat))

/-- Admits a signer, or says what is wrong with its configuration or key share. -/
def establish (hash : ChallengeHash) (config : SessionConfig) (key : KeyShare)
    (message : SigningMessage) : Except Error Session := do
  key.validate
  config.validate
  matchKey config key
  let weightedShares ← config.parties.mapM fun id =>
    key.weightedPublicShare id config.parties
  let signingShare ← key.signingShare config.parties
  return {
    config, hash, signingShare, weightedShares, message
    ssid := config.ssid key.publicKey
    publicKey := key.publicKey }

def size (s : Session) : Nat :=
  s.config.parties.length

def own (s : Session) : Nat :=
  s.config.partyIndex.toNat

end Session

end Quorum
