import Quorum.Error
import Quorum.Wire.Messages

/-!
# The message relay

A relay keeps a mailbox for each session and round.  A mailbox is append-only
and may hold anything that anyone posted to it, in the order of arrival.  A
reader says how many messages it has seen and gets all later ones, each decoded
on its own.
-/

namespace Quorum

/-- The session and the round that a mailbox belongs to. -/
structure MailboxKey where
  sessionId : Octets 32
  round : UInt32
deriving DecidableEq

/-- Everything posted so far, first posted first. -/
structure Relay where
  /-- The texts with the mailboxes they were posted to. -/
  log : List (MailboxKey × String)

/-- A text that is posted while a reader waits. -/
structure Arrival where
  /-- The time from the beginning of the wait. -/
  delay : Nat
  text : String

namespace Relay

/-- The relay to which nothing was posted. -/
def empty : Relay :=
  ⟨[]⟩

/-- The relay after one more text was posted to a mailbox. -/
def post (relay : Relay) (key : MailboxKey) (text : String) : Relay :=
  ⟨relay.log ++ [(key, text)]⟩

/-- The texts in a mailbox, in the order of arrival. -/
def mailbox (relay : Relay) (key : MailboxKey) : List String :=
  relay.log.filterMap fun entry => if entry.1 = key then some entry.2 else none

/--
The messages of a mailbox after the first `seen`, if there are any; a text that
is no envelope keeps its place.
-/
def receive? (relay : Relay) (key : MailboxKey) (seen : Nat) :
    Option (List (Option Envelope)) :=
  let unseen := (relay.mailbox key).drop seen
  if unseen.isEmpty then none else some (unseen.map (Wire.read? Envelope))

/--
Waits until a mailbox holds more than `seen` messages, for less time than
`patience`, while one text may arrive in the same mailbox.  The text is in the
mailbox afterwards, whether it came in time or not.
-/
def await (relay : Relay) (key : MailboxKey) (patience seen : Nat)
    (arrival : Option Arrival) :
    Except Error (List (Option Envelope)) × Relay :=
  let later := match arrival with
    | some a => relay.post key a.text
    | none => relay
  let inTime : Bool := match arrival with
    | some a => a.delay < patience
    | none => false
  let batch? := (relay.receive? key seen).or
    (if inTime then later.receive? key seen else none)
  match batch? with
  | some batch => (.ok batch, later)
  | none => (.error (.timeout (.broadcasts key.round.toNat seen)), later)

end Relay

end Quorum
