import Quorum.Error
import Quorum.Round.Table
import Quorum.Signing.Envelope

/-!
# Broadcast rounds

What the rounds of the protocol have in common.  A round is started once, which
yields the own message and something to be kept for the next round; it accepts
at most one message from each peer, before or after the start; and it can be
left once every slot is filled.

A start that fails leaves the round started, so that it can neither be started
again nor completed.
-/

namespace Quorum

/-- How far a round has got. -/
inductive Phase
  | notStarted
  /-- The round was started, and some slot is empty. -/
  | started
  /-- The round was started, and every slot is filled. -/
  | completed
deriving DecidableEq

/-- What tells the messages of one round from those of another. -/
structure RoundKind (α : Type) where
  number : UInt32
  /-- The content that carries a payload. -/
  content : α → Content
  /-- The payload that a content of this round carries. -/
  payload? : Content → Option α

/-- A round whose messages carry an `α` and whose start leaves a `β`. -/
structure Round (α β : Type) where
  kind : RoundKind α
  /-- The position of this signer. -/
  own : UInt64
  started : Bool
  /-- What a successful start left for the next round. -/
  output : Option β
  /-- The payloads accepted so far, the own one included. -/
  table : AcceptanceTable α

namespace Round

variable {α β : Type}

/-- A round among `n` signers that was not started. -/
def new (kind : RoundKind α) (own : UInt64) (n : Nat) : Round α β :=
  ⟨kind, own, false, none, .empty n⟩

/-- How far the round has got. -/
def phase (r : Round α β) : Phase :=
  if r.started then if r.table.isComplete then .completed else .started
  else .notStarted

/--
Starts the round with the outcome of preparing the own message, and yields the
message to be sent.
-/
def start (r : Round α β) (prepared : Except Error (α × β)) :
    Except Error Envelope × Round α β :=
  if r.started then (.error (.alreadyStarted r.kind.number.toNat), r)
  else
    match prepared with
    | .error e => (.error e, { r with started := true })
    | .ok (payload, output) =>
      (.ok (.broadcast r.own r.kind.number (r.kind.content payload)),
        { r with
          started := true
          output := some output
          table := (r.table.accept r.own.toNat payload).2 })

/-- The payload of an envelope that a peer broadcast in this round. -/
def payload? (r : Round α β) (e : Envelope) : Option α :=
  if e.isBroadcast && e.round == r.kind.number && e.sender != r.own then
    r.kind.payload? e.content
  else none

/-- Whether an envelope is one that a peer broadcast in this round. -/
def canAccept (r : Round α β) (e : Envelope) : Bool :=
  (r.payload? e).isSome

/-- The round after one more envelope. -/
def receive (r : Round α β) (e : Envelope) : Round α β :=
  match r.payload? e with
  | some payload =>
    { r with table := (r.table.accept e.sender.toNat payload).2 }
  | none => r

/-- The round after a batch of envelopes. -/
def update (r : Round α β) (batch : List Envelope) : Round α β :=
  batch.foldl receive r

/-- The accepted payloads and what the start left, once the round is completed. -/
def finish (r : Round α β) : Except Error (List α × β) :=
  match r.phase, r.table.values?, r.output with
  | .completed, some payloads, some output => .ok (payloads, output)
  | _, _, _ => .error (.roundIncomplete r.kind.number.toNat)

end Round

end Quorum
