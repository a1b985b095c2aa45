/-!
# Failures

Every way in which an operation of the library can fail is one constructor,
with the data that tells the caller what happened.  `Error.message` words the
failure, and `Error.culprit` names the peer whose misbehaviour caused it, if
there is one.

Where a cause has several known forms they are a type of their own; each has a
further constructor for a cause that a caller words itself.
-/

namespace Quorum

/-- What is wrong with a session configuration or a key share. -/
inductive ConfigFault
  /-- Fewer than two signers would suffice. -/
  | thresholdTooSmall
  | duplicateParties
  /-- The number of public shares differs from the number of holders. -/
  | shareCount (expected actual : Nat)
  /-- The secret share belongs to another public share. -/
  | shareMismatch
  /-- The joint public key is not a generator of the prime-order subgroup. -/
  | invalidPublicKey
  | thresholdMismatch (session key : Nat)
  | other (text : String)
deriving DecidableEq

/-- Why a statement cannot be proved. -/
inductive WitnessFault
  /-- The public point is not a generator of the prime-order subgroup. -/
  | dlogStatement
  /-- One of the two public points is not a generator of the prime-order subgroup. -/
  | dualStatement
  | other (text : String)
deriving DecidableEq

/-- What a party was waiting for when its patience ended. -/
inductive Awaited
  /-- Broadcasts of a round, after a number of them had been seen. -/
  | broadcasts (round seen : Nat)
  | other (text : String)
deriving DecidableEq

/-- A fault of the library itself. -/
inductive InternalFault
  /-- A nonce point whose encoding is not read back. -/
  | noAffineForm
  | other (text : String)
deriving DecidableEq

/-- The failures of the library. -/
inductive Error
  /-- A configuration or key share contradicts itself. -/
  | invalidConfig (fault : ConfigFault)
  | thresholdNotMet (required actual : Nat)
  | invalidPartyId (id : Nat)
  | invalidWitness (fault : WitnessFault)
  /-- A decommitment does not open its commitment. -/
  | decommitmentFailed (party round : Nat)
  /-- A decommitment holds something other than two coordinates. -/
  | malformedDecommitment (party round count : Nat)
  /-- The revealed coordinates are not those of a usable point. -/
  | invalidPoint (party round : Nat)
  | proofVerificationFailed (party round : Nat)
  /-- A signature share does not fit the nonce and the key share. -/
  | invalidShare (party : Nat)
  /-- A round is started a second time. -/
  | alreadyStarted (round : Nat)
  /-- A round is left before every sender was accepted. -/
  | roundIncomplete (round : Nat)
  /-- A segment of a hash input is empty. -/
  | emptyHashSegment (index : Nat)
  /-- A message does not fit its fixed length. -/
  | messageTooLong (count max : Nat)
  | hash (text : String)
  | serialization (text : String)
  | deserialization (text : String)
  | relay (text : String)
  /-- Nothing new arrived in time. -/
  | timeout (awaited : Awaited)
  | invalidSignature
  /-- A fault of the library itself. -/
  | internal (fault : InternalFault)
deriving DecidableEq

/-- The wording of a configuration fault. -/
def ConfigFault.message : ConfigFault → String
  | thresholdTooSmall => "Threshold must be at least 2"
  | duplicateParties => "Signing set contains duplicate parties"
  | shareCount expected actual => s!"expected {expected} public shares, got {actual}"
  | shareMismatch => "secret share does not match its public share"
  | invalidPublicKey => "invalid joint public key"
  | thresholdMismatch session key =>
    s!"session threshold {session} does not match key share threshold {key}"
  | other text => text

def WitnessFault.message : WitnessFault → String
  | dlogStatement => "dlog statement is not a valid prime-order point"
  | dualStatement => "dual-exponent statement contains an invalid point"
  | other text => text

def Awaited.message : Awaited → String
  | broadcasts round seen => s!"round {round} broadcasts after the first {seen}"
  | other text => text

def InternalFault.message : InternalFault → String
  | noAffineForm => "nonce point has no affine form"
  | other text => text

namespace Error

def message : Error → String
  | invalidConfig fault => s!"Invalid configuration: {fault.message}"
  | thresholdNotMet required actual =>
    s!"Threshold not met: required {required}, got {actual}"
  | invalidPartyId id => s!"Invalid party ID: {id}"
  | invalidWitness fault => s!"Invalid witness: {fault.message}"
  | decommitmentFailed party round =>
    s!"Round {round}: decommitment from party {party} does not match its commitment"
  | malformedDecommitment party round count =>
    s!"Round {round}: decommitment from party {party} has {count} values, expected 2"
  | invalidPoint party round =>
    s!"Round {round}: party {party} revealed an invalid point"
  | proofVerificationFailed party round =>
    s!"Round {round}: proof from party {party} failed to verify"
  | invalidShare party => s!"Signature share from party {party} is invalid"
  | alreadyStarted round => s!"Round {round} already started"
  | roundIncomplete round => s!"Round {round} has not received all messages"
  | emptyHashSegment index => s!"Hash input segment {index} is empty"
  | messageTooLong count max =>
    s!"Message of {count} bytes exceeds fixed length {max}"
  | hash text => s!"Hash error: {text}"
  | serialization text => s!"Serialization error: {text}"
  | deserialization text => s!"Deserialization error: {text}"
  | relay text => s!"Relay error: {text}"
  | timeout awaited => s!"Timeout waiting for {awaited.message}"
  | invalidSignature => "Invalid signature"
  | internal fault => s!"Internal error: {fault.message}"

/-- The index of the peer that caused a failure, if the failure is attributable. -/
def culprit : Error → Option Nat
  | decommitmentFailed party _ => some party
  | malformedDecommitment party _ _ => some party
  | invalidPoint party _ => some party
  | proofVerificationFailed party _ => some party
  | invalidShare party => some party
  | _ => none

end Error

end Quorum
