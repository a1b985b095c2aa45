import Quorum.Relay
import Quorum.Signing.Participant

/-!
# Networks

Participants of one session share a relay.  `Network.run` lets each of them
read whenever its mailbox has something new, and ends the patience of those
that still wait once nobody can go on.
-/

namespace Quorum

/-- Participants of one session with the relay that they share. -/
structure Network where
  sessionId : Octets 32
  /-- The messages that the relay makes of one that a participant posts. -/
  copies : Envelope → List Envelope
  relay : Relay
  participants : List Participant

namespace Network

/-- The mailbox of a round. -/
def key (net : Network) (round : UInt32) : MailboxKey :=
  ⟨net.sessionId, round⟩

/-- The network after a participant posted a message. -/
def post (net : Network) (e : Envelope) : Network :=
  { net with
    relay := (net.copies e).foldl
      (fun relay copy => relay.post (net.key e.round) (Wire.write copy)) net.relay }

/-- The network after a participant took a step. -/
def replace (net : Network) (i : Nat) (step : Participant × Option Envelope) :
    Network :=
  let net := { net with participants := net.participants.set i step.1 }
  match step.2 with
  | some e => net.post e
  | none => net

/-- The network with one more participant, which starts its first round. -/
def join (net : Network) (step : Participant × Option Envelope) : Network :=
  let net := { net with participants := net.participants ++ [step.1] }
  match step.2 with
  | some e => net.post e
  | none => net

/-- What a participant would read now. -/
def unread? (net : Network) : Participant → Option (List (Option Envelope))
  | .waiting signer _ seen =>
    net.relay.receive? (net.key signer.number) seen
  | .ended _ => none

/-- Lets one participant read, if its mailbox has something new. -/
def turn (net : Network) (i : Nat) : Option Network := do
  let p ← net.participants[i]?
  let batch ← net.unread? p
  return net.replace i (p.read batch)

/-- Lets the first participant read that has something new in its mailbox. -/
def advance? (net : Network) : Option Network :=
  (List.range net.participants.length).findSome? net.turn

/-- Lets participants read as long as one of them can, but no more than `fuel` times. -/
def advance : (fuel : Nat) → Network → Network
  | 0, net => net
  | fuel + 1, net =>
    match net.advance? with
    | some net => advance fuel net
    | none => net

/--
The number of times that participants can read: each of them reads the mailbox
of a round at first and after every message that one of them posts, and nobody
posts more than one message in each of three rounds.
-/
def maxTurns (net : Network) : Nat :=
  let posts := 3 * net.participants.length
  posts * (posts + 1)

/-- The network once nobody can go on and all patience has ended. -/
def run (net : Network) : Network :=
  let net := advance net.maxTurns net
  { net with participants := net.participants.map Participant.giveUp }

/-- The results of the participants that have ended. -/
def results (net : Network) : List (Except Error Signature) :=
  net.participants.filterMap Participant.result?

end Network

end Quorum
