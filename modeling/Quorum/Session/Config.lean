import Quorum.Curve.Encoding
import Quorum.Key.Lagrange
import Quorum.Transcript

/-!
# Session configurations

A session is a list of key share holders that sign together, in a fixed order,
under an identifier they share.  Each signer has its own position in the list.
The session tag binds the identifier, the signers and the joint key, and the
tag followed by a position is the context in which the signer at that position
proves knowledge of its nonce.
-/

namespace Quorum

/-- The configuration of one signer in a session. -/
structure SessionConfig where
  sessionId : Octets 32
  /-- The number of signers that are needed. -/
  threshold : UInt64
  /-- The position of this signer. -/
  partyIndex : UInt64
  /-- The key share holders that take part, in session order. -/
  parties : List PartyId
deriving DecidableEq

namespace SessionConfig

/-- Checks that a configuration does not contradict itself. -/
def validate (config : SessionConfig) : Except Error Unit :=
  if config.threshold < 2 then .error (.invalidConfig .thresholdTooSmall)
  else if config.parties.length < config.threshold.toNat then
    .error (.thresholdNotMet config.threshold.toNat config.parties.length)
  else if hasDuplicates config.parties then
    .error (.invalidConfig .duplicateParties)
  else if config.partyIndex.toNat < config.parties.length then .ok ()
  else .error (.invalidPartyId config.partyIndex.toNat)

/-- A configuration that does not contradict itself. -/
def create (sessionId : Octets 32) (threshold partyIndex : UInt64)
    (parties : List PartyId) : Except Error SessionConfig := do
  let config : SessionConfig := ⟨sessionId, threshold, partyIndex, parties⟩
  config.validate
  return config

/-- The key share holder at this signer's position. -/
def partyId (config : SessionConfig) : Except Error PartyId :=
  match config.parties[config.partyIndex.toNat]? with
  | some id => .ok id
  | none => .error (.invalidPartyId config.partyIndex.toNat)

/-- The segments that the session tag is a digest of. -/
def segments (config : SessionConfig) (publicKey : Point) : List Bytes :=
  config.sessionId.toList :: publicKey.encode.toList
    :: Bytes.ofNatBE 8 config.parties.length
    :: config.parties.map fun id => Bytes.ofNatBE 8 id.toNat

def ssid (config : SessionConfig) (publicKey : Point) : Octets 32 :=
  Transcript.digest Transcript.Purpose.session.tag (config.segments publicKey)

end SessionConfig

/-- The context in which the signer at a position proves statements. -/
def partyContext (ssid : Octets 32) (index : Nat) : Bytes :=
  ssid.toList ++ Bytes.ofNatBE 8 index

end Quorum
