import Mathlib
import Quorum.Round.Basic
import Quorum.Proofs.Round.Table

/-!
# A round as a function of its history

What happens to a round is a sequence of events: it is started with the outcome
of preparing the own message, or it receives a batch of envelopes.  The state
of a round is determined by its history in a simple way.  The own slot and the
output come from the first start, and the slot of a peer holds the payload of
the first envelope of that peer that belongs to the round, wherever the starts
and the borders of the batches are.
-/

namespace Quorum

namespace Round

/-- What can happen to a round. -/
inductive Event (α β : Type)
  /-- It is started with the outcome of preparing the own message. -/
  | start (prepared : Except Error (α × β))
  /-- It receives a batch of envelopes. -/
  | update (batch : List Envelope)

variable {α β : Type}

/-- What a start of the round was given. -/
def Event.prepared? : Event α β → Option (Except Error (α × β))
  | start prepared => some prepared
  | update _ => none

/-- The envelopes received. -/
def Event.received : Event α β → List Envelope
  | start _ => []
  | update batch => batch

/-- The round after one more event. -/
def step (r : Round α β) : Event α β → Round α β
  | .start prepared => (r.start prepared).2
  | .update batch => r.update batch

/-- The round after a sequence of events. -/
def after (r : Round α β) (events : List (Event α β)) : Round α β :=
  events.foldl step r

/-- What the first start of a history was given. -/
def firstStart? (events : List (Event α β)) : Option (Except Error (α × β)) :=
  events.findSome? Event.prepared?

/-- All envelopes received in a history, in order. -/
def received (events : List (Event α β)) : List Envelope :=
  events.flatMap Event.received

/-- The payload of an envelope if it belongs to the round and to a peer's position. -/
def payloadFrom? (r : Round α β) (j : Nat) (e : Envelope) : Option α :=
  if e.sender.toNat = j then r.payload? e else none

theorem after_append (r : Round α β) (events later : List (Event α β)) :
    r.after (events ++ later) = (r.after events).after later :=
  List.foldl_append

section Receive

variable (r : Round α β)

@[simp]
theorem kind_receive (e : Envelope) : (r.receive e).kind = r.kind := by
  rw [receive]
  split <;> rfl

@[simp]
theorem own_receive (e : Envelope) : (r.receive e).own = r.own := by
  rw [receive]
  split <;> rfl

@[simp]
theorem started_receive (e : Envelope) : (r.receive e).started = r.started := by
  rw [receive]
  split <;> rfl

@[simp]
theorem output_receive (e : Envelope) : (r.receive e).output = r.output := by
  rw [receive]
  split <;> rfl

@[simp]
theorem size_receive (e : Envelope) :
    (r.receive e).table.size = r.table.size := by
  rw [receive]
  split
  · exact AcceptanceTable.size_accept r.table _ _
  · rfl

@[simp]
theorem payloadFrom?_receive (e : Envelope) :
    (r.receive e).payloadFrom? = r.payloadFrom? := by
  funext j e'
  rw [payloadFrom?, payloadFrom?, payload?, payload?, kind_receive, own_receive]

/-- An envelope fills the slot of its sender, unless that slot is filled. -/
theorem get?_receive (e : Envelope) {j : Nat} (hj : j < r.table.size) :
    (r.receive e).table.get? j = (r.table.get? j).or (r.payloadFrom? j e) := by
  rw [receive, payloadFrom?]
  cases hpayload : r.payload? e with
  | none => simp
  | some payload =>
    rw [AcceptanceTable.get?_accept]
    by_cases hsender : e.sender.toNat = j
    · rw [if_pos ⟨hsender.symm, hj⟩, if_pos hsender]
    · rw [if_neg fun h => hsender h.1.symm, if_neg hsender, Option.or_none]

theorem payloadFrom?_own (e : Envelope) :
    r.payloadFrom? r.own.toNat e = none := by
  rw [payloadFrom?]
  split
  · next h =>
    rw [payload?, UInt64.toNat_inj.mp h]
    simp
  · rfl

end Receive

section Update

variable (r : Round α β)

@[simp]
theorem update_nil : r.update [] = r :=
  rfl

@[simp]
theorem update_cons (e : Envelope) (batch : List Envelope) :
    r.update (e :: batch) = (r.receive e).update batch :=
  rfl

theorem update_append (batch batch' : List Envelope) :
    r.update (batch ++ batch') = (r.update batch).update batch' :=
  List.foldl_append

/-- What receiving an envelope keeps, a batch of envelopes keeps. -/
theorem update_induction {p : Round α β → Prop} (batch : List Envelope)
    (hr : p r) (hstep : ∀ r e, p r → p (r.receive e)) : p (r.update batch) := by
  induction batch generalizing r with
  | nil => exact hr
  | cons e batch ih => exact ih (r.receive e) (hstep r e hr)

@[simp]
theorem kind_update (batch : List Envelope) : (r.update batch).kind = r.kind :=
  r.update_induction batch (p := fun r' => r'.kind = r.kind) rfl
    fun r' e h => (r'.kind_receive e).trans h

@[simp]
theorem own_update (batch : List Envelope) : (r.update batch).own = r.own :=
  r.update_induction batch (p := fun r' => r'.own = r.own) rfl
    fun r' e h => (r'.own_receive e).trans h

@[simp]
theorem started_update (batch : List Envelope) :
    (r.update batch).started = r.started :=
  r.update_induction batch (p := fun r' => r'.started = r.started) rfl
    fun r' e h => (r'.started_receive e).trans h

@[simp]
theorem output_update (batch : List Envelope) :
    (r.update batch).output = r.output :=
  r.update_induction batch (p := fun r' => r'.output = r.output) rfl
    fun r' e h => (r'.output_receive e).trans h

@[simp]
theorem size_update (batch : List Envelope) :
    (r.update batch).table.size = r.table.size :=
  r.update_induction batch (p := fun r' => r'.table.size = r.table.size) rfl
    fun r' e h => (r'.size_receive e).trans h

/-- A slot holds the first payload that a batch has for it, unless it was filled. -/
theorem get?_update (batch : List Envelope) {j : Nat} (hj : j < r.table.size) :
    (r.update batch).table.get? j =
      (r.table.get? j).or (batch.findSome? (r.payloadFrom? j)) := by
  induction batch generalizing r with
  | nil => exact Option.or_none.symm
  | cons e batch ih =>
    rw [update_cons, ih (r.receive e) ((r.size_receive e).symm ▸ hj),
      get?_receive r e hj, payloadFrom?_receive, Option.or_assoc,
      List.findSome?_cons]
    cases r.payloadFrom? j e <;> simp

end Update

section Start

variable {r : Round α β}

theorem start_of_started (h : r.started = true)
    (prepared : Except Error (α × β)) :
    r.start prepared = (.error (.alreadyStarted r.kind.number.toNat), r) :=
  if_pos h

theorem start_error (h : r.started = false) (e : Error) :
    r.start (.error e) = (.error e, { r with started := true }) := by
  rw [start, h]
  rfl

theorem start_ok (h : r.started = false) (payload : α) (output : β) :
    r.start (.ok (payload, output)) =
      (.ok (.broadcast r.own r.kind.number (r.kind.content payload)),
        { r with
          started := true
          output := some output
          table := (r.table.accept r.own.toNat payload).2 }) := by
  rw [start, h]
  rfl

end Start

/-- The state of a round among `n` signers that had a given history. -/
structure HasHistory (kind : RoundKind α) (own : UInt64) (n : Nat)
    (events : List (Event α β)) (r : Round α β) : Prop where
  kind_eq : r.kind = kind
  own_eq : r.own = own
  size_eq : r.table.size = n
  /-- The round is started by the first start, whatever comes of it. -/
  started_eq : r.started = (firstStart? events).isSome
  /-- The output is that of the first start, if it was successful. -/
  output_eq : r.output =
    (firstStart? events).bind fun prepared => prepared.toOption.map Prod.snd
  /-- The own slot is filled by the first start, if it was successful. -/
  own_slot : own.toNat < n → r.table.get? own.toNat =
    (firstStart? events).bind fun prepared => prepared.toOption.map Prod.fst
  /-- The slot of a peer is filled by its first envelope of the round. -/
  peer_slot : ∀ j < n, j ≠ own.toNat →
    r.table.get? j = (received events).findSome? (r.payloadFrom? j)

section HasHistory

variable {kind : RoundKind α} {own : UInt64} {n : Nat}
  {events : List (Event α β)} {r : Round α β}

theorem hasHistory_new :
    (new kind own n : Round α β).HasHistory kind own n [] where
  kind_eq := rfl
  own_eq := rfl
  size_eq := AcceptanceTable.size_empty n
  started_eq := rfl
  output_eq := rfl
  own_slot _ := AcceptanceTable.get?_empty n _
  peer_slot j _ _ := AcceptanceTable.get?_empty n j

theorem firstStart?_concat (events : List (Event α β)) (event : Event α β) :
    firstStart? (events ++ [event]) =
      (firstStart? events).or event.prepared? := by
  rw [firstStart?, List.findSome?_append]
  cases event <;> rfl

theorem received_concat (events : List (Event α β)) (event : Event α β) :
    received (events ++ [event]) = received events ++ event.received := by
  rw [received, List.flatMap_append, List.flatMap_singleton]
  rfl

theorem HasHistory.update (h : r.HasHistory kind own n events)
    (batch : List Envelope) :
    (r.update batch).HasHistory kind own n (events ++ [.update batch]) := by
  have hpayload : (r.update batch).payloadFrom? = r.payloadFrom? := by
    funext j e
    rw [payloadFrom?, payloadFrom?, payload?, payload?, kind_update, own_update]
  have hfirst : firstStart? (events ++ [Event.update batch]) =
      firstStart? events := by
    rw [firstStart?_concat]
    exact Option.or_none
  constructor
  case kind_eq => rw [kind_update, h.kind_eq]
  case own_eq => rw [own_update, h.own_eq]
  case size_eq => rw [size_update, h.size_eq]
  case started_eq => rw [started_update, h.started_eq, hfirst]
  case output_eq => rw [output_update, h.output_eq, hfirst]
  case own_slot =>
    intro hown
    have hnone : batch.findSome? (r.payloadFrom? own.toNat) = none := by
      rw [List.findSome?_eq_none_iff, ← h.own_eq]
      intro e _
      exact r.payloadFrom?_own e
    rw [get?_update r batch (h.size_eq.symm ▸ hown), hnone, Option.or_none,
      h.own_slot hown, hfirst]
  case peer_slot =>
    intro j hj hne
    rw [get?_update r batch (h.size_eq.symm ▸ hj), h.peer_slot j hj hne,
      hpayload, received_concat, List.findSome?_append]
    rfl

theorem HasHistory.start (h : r.HasHistory kind own n events)
    (prepared : Except Error (α × β)) :
    (r.start prepared).2.HasHistory kind own n (events ++ [.start prepared]) := by
  have hreceived : received (events ++ [Event.start prepared]) =
      received events := by
    rw [received_concat]
    exact List.append_nil _
  have hfirst : firstStart? (events ++ [Event.start prepared]) =
      (firstStart? events).or (some prepared) :=
    firstStart?_concat events _
  cases hstarted : r.started with
  | true =>
    -- A later start changes neither the round nor what the first start was given.
    obtain ⟨given, hgiven⟩ : ∃ given, firstStart? events = some given := by
      rw [← Option.isSome_iff_exists, ← h.started_eq, hstarted]
    have hsame : firstStart? (events ++ [Event.start prepared]) =
        firstStart? events := by
      rw [hfirst, hgiven, Option.some_or]
    rw [start_of_started hstarted]
    exact ⟨h.kind_eq, h.own_eq, h.size_eq, hsame ▸ h.started_eq,
      hsame ▸ h.output_eq, hsame ▸ h.own_slot, hreceived ▸ h.peer_slot⟩
  | false =>
    have hnone : firstStart? events = none := by
      rw [← Option.isNone_iff_eq_none, ← Option.not_isSome, ← h.started_eq,
        hstarted, Bool.not_false]
    rw [hnone, Option.none_or] at hfirst
    have hown : own.toNat < n → r.table.get? own.toNat = none := by
      intro hlt
      rw [h.own_slot hlt, hnone, Option.bind_none]
    cases prepared with
    | error e =>
      rw [start_error hstarted]
      constructor
      case kind_eq => exact h.kind_eq
      case own_eq => exact h.own_eq
      case size_eq => exact h.size_eq
      case started_eq => rw [hfirst, Option.isSome_some]
      case output_eq =>
        rw [hfirst]
        exact h.output_eq.trans (by rw [hnone, Option.bind_none]; rfl)
      case own_slot =>
        intro hlt
        rw [hfirst]
        exact hown hlt
      case peer_slot =>
        rw [hreceived]
        exact h.peer_slot
    | ok given =>
      obtain ⟨payload, output⟩ := given
      rw [start_ok hstarted]
      constructor
      case kind_eq => exact h.kind_eq
      case own_eq => exact h.own_eq
      case size_eq => exact (AcceptanceTable.size_accept _ _ _).trans h.size_eq
      case started_eq => rw [hfirst, Option.isSome_some]
      case output_eq =>
        rw [hfirst]
        rfl
      case own_slot =>
        intro hlt
        rw [hfirst, h.own_eq, AcceptanceTable.get?_accept,
          if_pos ⟨rfl, h.size_eq.symm ▸ hlt⟩, hown hlt]
        rfl
      case peer_slot =>
        intro j hj hne
        have hne' : ¬ (j = r.own.toNat ∧ j < r.table.size) := by
          rw [h.own_eq]
          exact fun hand => hne hand.1
        rw [hreceived, AcceptanceTable.get?_accept, if_neg hne']
        exact h.peer_slot j hj hne

theorem HasHistory.step (h : r.HasHistory kind own n events)
    (event : Event α β) :
    (r.step event).HasHistory kind own n (events ++ [event]) := by
  cases event with
  | start prepared => exact h.start prepared
  | update batch => exact h.update batch

theorem HasHistory.after (h : r.HasHistory kind own n events)
    (later : List (Event α β)) :
    (r.after later).HasHistory kind own n (events ++ later) := by
  induction later generalizing r events with
  | nil =>
    rw [List.append_nil]
    exact h
  | cons event later ih =>
    have hstep := ih (h.step event)
    rw [List.append_assoc, List.singleton_append] at hstep
    exact hstep

theorem hasHistory_after_new (kind : RoundKind α) (own : UInt64) (n : Nat)
    (events : List (Event α β)) :
    ((new kind own n).after events).HasHistory kind own n events :=
  hasHistory_new.after events

end HasHistory

end Round

end Quorum
