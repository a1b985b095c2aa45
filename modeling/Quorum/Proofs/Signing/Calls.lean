import Mathlib
import Quorum.Signing.Signer
import Quorum.Proofs.Round.Lifecycle

/-!
# Calls on a signer

While a signer is in a round it can be started, given batches of envelopes, and
asked whether it would accept an envelope and how far it has got.  This module
says what such a sequence of calls answers and does.  Whatever the payload of
the round is, a sequence of calls amounts to a history of the round.
-/

namespace Quorum

/-- A call on a signer in a round. -/
inductive Call
  /-- Start the round with the randomness of a tape. -/
  | start (tape : Tape)
  /-- Take in a batch of envelopes. -/
  | update (batch : List Envelope)
  /-- Say whether an envelope would be taken in. -/
  | canAccept (e : Envelope)
  /-- Say how far the round has got. -/
  | phase

/-- What a call answers. -/
inductive Reply
  /-- The message to be sent, or why there is none. -/
  | sent (outcome : Except Error Envelope)
  /-- Whether a message of every signer was accepted. -/
  | updated (complete : Bool)
  /-- Whether the envelope would be taken in. -/
  | judged (acceptable : Bool)
  /-- How far the round has got. -/
  | reached (phase : Phase)

def Call.delivered : Call → List Envelope
  | update batch => batch
  | _ => []

def Call.tape? : Call → Option Tape
  | start tape => some tape
  | _ => none

def Reply.outcome? : Reply → Option (Except Error Envelope)
  | sent outcome => some outcome
  | _ => none

/-- All envelopes that a sequence of calls delivers, in order. -/
def delivered (calls : List Call) : List Envelope :=
  calls.flatMap Call.delivered

namespace Signer

/-- What a call answers, and the signer behind it. -/
def perform (s : Signer) : Call → Reply × Signer
  | .start tape => (.sent (s.start tape).1, (s.start tape).2)
  | .update batch => (.updated (s.update batch).isComplete, s.update batch)
  | .canAccept e => (.judged (s.canAccept e), s)
  | .phase => (.reached s.phase, s)

/-- The signer behind a sequence of calls. -/
def after (s : Signer) (calls : List Call) : Signer :=
  calls.foldl (fun s call => (s.perform call).2) s

/-- What a sequence of calls answers. -/
def replies : Signer → List Call → List Reply
  | _, [] => []
  | s, call :: calls => (s.perform call).1 :: replies (s.perform call).2 calls

/-- The outcome of the first start in a sequence of calls, if there is one. -/
def firstOutcome? (s : Signer) (calls : List Call) :
    Option (Except Error Envelope) :=
  (s.replies calls).findSome? Reply.outcome?

end Signer

/-! ## Rounds with any payload -/

/-- The message that goes out from a position, once its payload is prepared. -/
def RoundKind.outcome {α β : Type} (kind : RoundKind α) (own : UInt64)
    (prepared : Except Error (α × β)) : Except Error Envelope :=
  prepared.map fun p => .broadcast own kind.number (kind.content p.1)

namespace Round

variable {α β : Type}

/-- What a call means for a round, given what its start prepares. -/
def eventOf? (prepare : Tape → Except Error (α × β)) : Call → Option (Event α β)
  | .start tape => some (.start (prepare tape))
  | .update batch => some (.update batch)
  | _ => none

/-- What a sequence of calls means for a round. -/
def eventsOf (prepare : Tape → Except Error (α × β)) (calls : List Call) :
    List (Event α β) :=
  calls.filterMap (eventOf? prepare)

theorem after_update (r : Round α β) (batch : List Envelope) :
    r.after [.update batch] = r.update batch :=
  rfl

theorem after_eventsOf_cons (r : Round α β)
    (prepare : Tape → Except Error (α × β)) (call : Call) (calls : List Call) :
    r.after (eventsOf prepare (call :: calls)) =
      (r.after (eventOf? prepare call).toList).after (eventsOf prepare calls) := by
  cases call <;> rfl

/-- The envelopes that the calls deliver are those that the round receives. -/
theorem received_eventsOf (prepare : Tape → Except Error (α × β))
    (calls : List Call) : received (eventsOf prepare calls) = delivered calls := by
  induction calls with
  | nil => rfl
  | cons call calls ih =>
    have hcons : delivered (call :: calls) = call.delivered ++ delivered calls :=
      List.flatMap_cons
    rw [hcons, ← ih]
    cases call <;> rfl

theorem eventsOf_append (prepare : Tape → Except Error (α × β))
    (calls later : List Call) :
    eventsOf prepare (calls ++ later) =
      eventsOf prepare calls ++ eventsOf prepare later :=
  List.filterMap_append

/-- The first start is given what the first tape prepares. -/
theorem firstStart?_eventsOf (prepare : Tape → Except Error (α × β))
    (calls : List Call) :
    firstStart? (eventsOf prepare calls) = (calls.findSome? Call.tape?).map prepare := by
  induction calls with
  | nil => rfl
  | cons call calls ih =>
    cases call with
    | start tape => rfl
    | update batch => exact ih
    | canAccept e => exact ih
    | phase => exact ih

/-- What a new round hands on was prepared from the first tape that it was given. -/
theorem prepared_of_finish {kind : RoundKind α} {own : UInt64} {n : Nat}
    (hown : own.toNat < n) {prepare : Tape → Except Error (α × β)} {calls : List Call}
    {payloads : List α} {output : β}
    (h : ((new kind own n).after (eventsOf prepare calls)).finish = .ok (payloads, output)) :
    ∃ tape payload, calls.findSome? Call.tape? = some tape ∧
      prepare tape = .ok (payload, output) ∧ payloads.length = n ∧
      payloads[own.toNat]? = some payload := by
  have hhistory := hasHistory_after_new kind own n (eventsOf prepare calls)
  obtain ⟨payload, hfirst, hlength, hslot, -⟩ := hhistory.of_finish hown h
  rw [firstStart?_eventsOf, Option.map_eq_some_iff] at hfirst
  obtain ⟨tape, htape, hprepare⟩ := hfirst
  exact ⟨tape, payload, htape, hprepare, hlength, hslot⟩

theorem start_fst {r : Round α β} (h : r.started = false)
    (prepared : Except Error (α × β)) :
    (r.start prepared).1 = r.kind.outcome r.own prepared := by
  cases prepared with
  | error e =>
    rw [start_error h]
    rfl
  | ok given =>
    rw [start_ok h]
    rfl

end Round

/-- A round of some payload, with what a start of it prepares. -/
structure AnyRound where
  payload : Type
  output : Type
  /-- What a start prepares. -/
  prepare : Tape → Except Error (payload × output)
  round : Round payload output

/-- The round after a history. -/
def AnyRound.after (r : AnyRound)
    (events : List (Round.Event r.payload r.output)) : AnyRound :=
  { r with round := r.round.after events }

theorem AnyRound.after_mk {α β : Type} (prepare : Tape → Except Error (α × β))
    (round : Round α β) (events : List (Round.Event α β)) :
    (⟨α, β, prepare, round⟩ : AnyRound).after events =
      ⟨α, β, prepare, round.after events⟩ :=
  rfl

/-! ## What a call does -/

/-- What a start of the third round prepares does not depend on the envelopes received. -/
theorem ShareRound.prepare_with (r : ShareRound) (round : Round Scalar Aggregate) :
    ShareRound.prepare { r with round } = r.prepare := by
  rw [ShareRound.prepare, ShareRound.prepare]
  rfl

theorem CommitRound.start_eq (r : CommitRound) (tape : Tape) :
    r.start tape = ((r.round.start (r.session.drawNonce tape)).1,
      { r with round := (r.round.start (r.session.drawNonce tape)).2 }) := by
  rw [CommitRound.start]

theorem RevealRound.start_eq (r : RevealRound) :
    r.start = ((r.round.start (.ok (r.nonce.reveal, ()))).1,
      { r with round := (r.round.start (.ok (r.nonce.reveal, ()))).2 }) := by
  rw [RevealRound.start]

theorem ShareRound.start_eq (r : ShareRound) :
    r.start = ((r.round.start r.prepare).1,
      { r with round := (r.round.start r.prepare).2 }) := by
  rw [ShareRound.start]

namespace Signer

/-- The round that a signer is in. -/
def current : Signer → AnyRound
  | committing r => ⟨_, _, r.session.drawNonce, r.round⟩
  | revealing r => ⟨_, _, fun _ => .ok (r.nonce.reveal, ()), r.round⟩
  | sharing r => ⟨_, _, fun _ => r.prepare, r.round⟩

def own (s : Signer) : UInt64 :=
  s.current.round.own

/-- The content accepted for a position in the round. -/
def slot (s : Signer) (j : Nat) : Option Content :=
  (s.current.round.table.get? j).map s.current.round.kind.content

theorem current_committing (r : CommitRound) :
    (committing r).current = ⟨_, _, r.session.drawNonce, r.round⟩ :=
  rfl

theorem current_revealing (r : RevealRound) :
    (revealing r).current = ⟨_, _, fun _ => .ok (r.nonce.reveal, ()), r.round⟩ :=
  rfl

theorem current_sharing (r : ShareRound) :
    (sharing r).current = ⟨_, _, fun _ => r.prepare, r.round⟩ :=
  rfl

theorem phase_eq (s : Signer) : s.phase = s.current.round.phase := by
  cases s <;> rfl

theorem isComplete_eq (s : Signer) :
    s.isComplete = s.current.round.table.isComplete := by
  cases s <;> rfl

theorem start_fst (s : Signer) (tape : Tape) :
    (s.start tape).1 = (s.current.round.start (s.current.prepare tape)).1 := by
  cases s with
  | committing r => rw [current_committing, Signer.start, r.start_eq]
  | revealing r => rw [current_revealing, Signer.start, r.start_eq]
  | sharing r => rw [current_sharing, Signer.start, r.start_eq]

theorem after_cons (s : Signer) (call : Call) (calls : List Call) :
    s.after (call :: calls) = (s.perform call).2.after calls :=
  rfl

theorem after_append (s : Signer) (calls later : List Call) :
    s.after (calls ++ later) = (s.after calls).after later :=
  List.foldl_append

theorem perform_committing (r : CommitRound) (call : Call) :
    ((committing r).perform call).2 = committing { r with
      round := r.round.after (Round.eventOf? r.session.drawNonce call).toList } := by
  cases call with
  | start tape => rw [perform, Signer.start, r.start_eq, Round.eventOf?]; rfl
  | update batch => rfl
  | canAccept e => rfl
  | phase => rfl

theorem perform_revealing (r : RevealRound) (call : Call) :
    ((revealing r).perform call).2 = revealing { r with
      round := r.round.after
        (Round.eventOf? (fun _ => .ok (r.nonce.reveal, ())) call).toList } := by
  cases call with
  | start tape => rw [perform, Signer.start, r.start_eq, Round.eventOf?]; rfl
  | update batch => rfl
  | canAccept e => rfl
  | phase => rfl

theorem perform_sharing (r : ShareRound) (call : Call) :
    ((sharing r).perform call).2 = sharing { r with
      round := r.round.after (Round.eventOf? (fun _ => r.prepare) call).toList } := by
  cases call with
  | start tape => rw [perform, Signer.start, r.start_eq, Round.eventOf?]; rfl
  | update batch => rfl
  | canAccept e => rfl
  | phase => rfl

/-- A sequence of calls is a history of the first round, and leaves all else. -/
theorem after_committing (r : CommitRound) (calls : List Call) :
    (committing r).after calls = committing { r with
      round := r.round.after (Round.eventsOf r.session.drawNonce calls) } := by
  induction calls generalizing r with
  | nil => rfl
  | cons call calls ih =>
    rw [after_cons, perform_committing, ih, Round.after_eventsOf_cons]

theorem after_revealing (r : RevealRound) (calls : List Call) :
    (revealing r).after calls = revealing { r with
      round := r.round.after
        (Round.eventsOf (fun _ => .ok (r.nonce.reveal, ())) calls) } := by
  induction calls generalizing r with
  | nil => rfl
  | cons call calls ih =>
    rw [after_cons, perform_revealing, ih, Round.after_eventsOf_cons]

theorem after_sharing (r : ShareRound) (calls : List Call) :
    (sharing r).after calls = sharing { r with
      round := r.round.after (Round.eventsOf (fun _ => r.prepare) calls) } := by
  induction calls generalizing r with
  | nil => rfl
  | cons call calls ih =>
    simp only [after_cons, perform_sharing, ih, ShareRound.prepare_with,
      Round.after_eventsOf_cons]

theorem current_after (s : Signer) (calls : List Call) :
    (s.after calls).current =
      s.current.after (Round.eventsOf s.current.prepare calls) := by
  cases s with
  | committing r =>
    rw [after_committing, current_committing, current_committing,
      AnyRound.after_mk]
  | revealing r =>
    rw [after_revealing, current_revealing, current_revealing,
      AnyRound.after_mk]
  | sharing r =>
    simp only [after_sharing, current_sharing, AnyRound.after_mk,
      ShareRound.prepare_with]

/-- The kind of the messages of the round that a signer is in. -/
def kind : (s : Signer) → RoundKind s.current.payload
  | committing _ => commitKind
  | revealing _ => revealKind
  | sharing _ => shareKind

/-- Whether a content is of the kind that is exchanged in the round. -/
def exchanges : Signer → Content → Bool
  | committing _, .commitment _ => true
  | revealing _, .reveal _ => true
  | sharing _, .share _ => true
  | _, _ => false

/--
Whether an envelope is a broadcast of the round, by the sender at a position
and with a content of the kind that is exchanged.
-/
def expects (s : Signer) (j : Nat) : Envelope → Bool
  | .broadcast sender round content =>
    sender.toNat == j && round == s.number && s.exchanges content
  | .direct .. => false

/-- Nothing has happened yet in the round, which is one among `n` signers. -/
def IsNew (s : Signer) (n : Nat) : Prop :=
  s.current.round = .new s.kind s.own n

theorem number_kind (s : Signer) : s.kind.number = s.number := by
  cases s <;> rfl

theorem payload?_kind (s : Signer) (c : Content) :
    (s.kind.payload? c).map s.kind.content =
      if s.exchanges c then some c else none := by
  cases s <;> cases c <;> rfl

section IsNew

variable {s : Signer} {n : Nat}

theorem IsNew.kind_eq (h : s.IsNew n) : s.current.round.kind = s.kind := by
  have hnew : s.current.round = .new s.kind s.own n := h
  rw [hnew]
  rfl

theorem IsNew.not_started (h : s.IsNew n) : s.current.round.started = false := by
  have hnew : s.current.round = .new s.kind s.own n := h
  rw [hnew]
  rfl

theorem IsNew.hasHistory (h : s.IsNew n) (calls : List Call) :
    (s.current.round.after (Round.eventsOf s.current.prepare calls)).HasHistory
      s.kind s.own n (Round.eventsOf s.current.prepare calls) := by
  have hnew : s.current.round = .new s.kind s.own n := h
  rw [hnew]
  exact Round.hasHistory_after_new s.kind s.own n _

theorem IsNew.size_after (h : s.IsNew n) (calls : List Call) :
    (s.after calls).current.round.table.size = n := by
  rw [current_after, AnyRound.after]
  exact (h.hasHistory calls).size_eq

/-- The message that a round has for a position is the content of the envelope. -/
theorem IsNew.payloadFrom?_eq (h : s.IsNew n) {j : Nat} (hj : j ≠ s.own.toNat)
    (e : Envelope) :
    (s.current.round.payloadFrom? j e).map s.kind.content =
      if s.expects j e then some e.content else none := by
  rw [Round.payloadFrom?, Round.payload?, h.kind_eq, number_kind]
  cases e with
  | direct sender recipient round content => simp [Envelope.isBroadcast, expects]
  | broadcast sender round content =>
    by_cases hsender : sender.toNat = j
    · have hown : sender ≠ s.current.round.own := by
        rintro rfl
        exact hj hsender.symm
      by_cases hround : round = s.number
      · have hcontent := s.payload?_kind content
        simpa [Envelope.sender, Envelope.isBroadcast, Envelope.round,
          Envelope.content, expects, hsender, hown, hround] using hcontent
      · simp [Envelope.sender, Envelope.round, expects, hsender, hround]
    · simp [Envelope.sender, expects, hsender]

/-- The first start answers with what it was given, whatever was received before. -/
theorem firstOutcome?_eq (h : s.current.round.started = false)
    (calls : List Call) :
    s.firstOutcome? calls =
      (Round.firstStart? (Round.eventsOf s.current.prepare calls)).map
        (s.current.round.kind.outcome s.current.round.own) := by
  induction calls generalizing s with
  | nil => rfl
  | cons call calls ih =>
    cases call with
    | start tape =>
      change some (s.start tape).1 = some (s.current.round.kind.outcome
        s.current.round.own (s.current.prepare tape))
      rw [start_fst, Round.start_fst h]
    | update batch =>
      have hcurrent : (s.update batch).current =
          s.current.after [.update batch] :=
        s.current_after [.update batch]
      have hstarted : (s.update batch).current.round.started = false := by
        rw [hcurrent]
        exact (Round.started_update _ batch).trans h
      have hrest := ih hstarted
      rw [hcurrent, AnyRound.after, Round.after_update, Round.kind_update,
        Round.own_update] at hrest
      exact hrest
    | canAccept e => exact ih h
    | phase => exact ih h

end IsNew

end Signer

end Quorum
