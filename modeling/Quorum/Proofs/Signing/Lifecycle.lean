import Mathlib
import Quorum.Proofs.Signing.Aggregate
import Quorum.Proofs.Signing.Ceremony

/-!
# The life of a round

A round is started once: the first start either yields the message to be sent
or fails for good, and every later start is refused.  Only that start fills the
own slot, so that the content sent is the one that the signer's own table holds
ever after.  What a round accepts from peers, and in which order, cannot move
its phase back, complete it without a start, or let it be left early.
-/

namespace Quorum

namespace Signer

/--
Whether the first start of a round fails: in the first round if the tape yields
the nonce zero, in the third one if the nonce of some peer does not open, or if
the message has no encoding or an empty one.
-/
def StartFails : Signer → Tape → Prop
  | committing _, tape => tape.scalar.1 = 0
  | revealing _, _ => False
  | sharing r, _ =>
    (∃ j c v, r.commitments[j]? = some c ∧ r.reveals[j]? = some v ∧
      j ≠ r.session.own ∧ ∃ e, r.session.openNonce j c v = .error e) ∨
      ∀ bytes, r.session.message.encode = .ok bytes → bytes = []

/-- What holds of a signer's round after some calls, and from then on. -/
structure Lifecycle (s : Signer) (calls : List Call) : Prop where
  /-- The first start fails under the known conditions only. -/
  first_start : s.firstOutcome? calls = none → ∀ tape,
    (∃ e, ((s.after calls).start tape).1 = .error e) ↔ s.StartFails tape
  /-- Every later start is refused and changes nothing. -/
  start_again : ∀ outcome, s.firstOutcome? calls = some outcome → ∀ tape,
    (s.after calls).start tape =
      (.error (.alreadyStarted s.number.toNat), s.after calls)
  /-- What is sent is a broadcast of the round from the own position. -/
  sent_eq : ∀ e, s.firstOutcome? calls = some (.ok e) →
    e = .broadcast s.own s.number e.content ∧ s.exchanges e.content = true
  /-- The own slot holds what was sent, if anything was. -/
  own_slot : (s.after calls).slot s.own.toNat =
    (s.firstOutcome? calls).bind fun outcome =>
      outcome.toOption.map Envelope.content
  /-- Once filled, the own slot never changes. -/
  own_slot_kept : ∀ content, (s.after calls).slot s.own.toNat = some content →
    ∀ later, (s.after (calls ++ later)).slot s.own.toNat = some content
  /-- In the later rounds no other calls would have filled it differently. -/
  own_slot_unique : s.number ≠ commitKind.number → ∀ content content' calls',
    (s.after calls).slot s.own.toNat = some content →
      (s.after calls').slot s.own.toNat = some content' → content = content'
  /-- The round counts as not started until the first start. -/
  notStarted_iff :
    (s.after calls).phase = .notStarted ↔ s.firstOutcome? calls = none
  /-- The phase never moves back. -/
  rank_phase_le : ∀ later,
    (s.after calls).phase.rank ≤ (s.after (calls ++ later)).phase.rank
  /-- An update says whether the round is completed then. -/
  updated_iff : ∀ batch, ((s.after calls).perform (.update batch)).1 = .updated true ↔
    (s.after (calls ++ [.update batch])).phase = .completed
  /-- The round can be left when it is completed. -/
  next_iff : (∃ stage, (s.after calls).next = .ok stage) ↔
    (s.after calls).phase = .completed
  /-- Otherwise leaving it says that it is incomplete. -/
  next_error : (s.after calls).phase ≠ .completed →
    (s.after calls).next = .error (.roundIncomplete s.number.toNat)
  /-- After a failed start the round is never completed, and nothing is ever sent. -/
  failed : ∀ e, s.firstOutcome? calls = some (.error e) → ∀ later,
    (s.after (calls ++ later)).phase = .started ∧
      (s.after (calls ++ later)).slot s.own.toNat = none ∧
      ∀ outcome, .sent outcome ∈ (s.after calls).replies later →
        outcome = .error (.alreadyStarted s.number.toNat)

section Start

theorem exists_prepare_eq_error (s : Signer) (tape : Tape) :
    (∃ e, s.current.prepare tape = .error e) ↔ s.StartFails tape := by
  cases s with
  | committing r =>
    -- The round has to be unfolded first: otherwise the draw itself is evaluated.
    rw [current_committing, StartFails]
    dsimp only
    exact r.session.exists_drawNonce_eq_error tape
  | revealing r =>
    constructor
    · rintro ⟨e, he⟩
      cases he
    · exact False.elim
  | sharing r =>
    rw [current_sharing]
    exact r.exists_prepare_eq_error

theorem start_of_started {s : Signer} (h : s.current.round.started = true)
    (tape : Tape) :
    s.start tape =
      (.error (.alreadyStarted s.current.round.kind.number.toNat), s) := by
  have hfst := s.start_fst tape
  rw [Round.start_of_started h] at hfst
  have hsnd : (s.start tape).2 = s := by
    cases s with
    | committing r =>
      have hr : r.round.started = true := h
      rw [Signer.start, r.start_eq, Round.start_of_started hr]
    | revealing r =>
      have hr : r.round.started = true := h
      rw [Signer.start, r.start_eq, Round.start_of_started hr]
    | sharing r =>
      have hr : r.round.started = true := h
      rw [Signer.start, r.start_eq, Round.start_of_started hr]
  exact Prod.ext hfst hsnd

end Start

/-- Only the first round uses its tape. -/
theorem prepare_eq_prepare {s : Signer} (h : s.number ≠ commitKind.number)
    (tape tape' : Tape) : s.current.prepare tape = s.current.prepare tape' := by
  cases s with
  | committing r => exact absurd rfl h
  | revealing r => rfl
  | sharing r => rfl

theorem exchanges_content (s : Signer) (payload : s.current.payload) :
    s.exchanges (s.kind.content payload) = true := by
  cases s <;> rfl

section Replies

theorem replies_append (s : Signer) (calls later : List Call) :
    s.replies (calls ++ later) = s.replies calls ++ (s.after calls).replies later := by
  induction calls generalizing s with
  | nil => rfl
  | cons call calls ih =>
    rw [List.cons_append, replies, replies, ih, after_cons]
    rfl

/-- Later calls do not change what the first start answered. -/
theorem firstOutcome?_append {s : Signer} {calls : List Call}
    {outcome : Except Error Envelope} (h : s.firstOutcome? calls = some outcome)
    (later : List Call) : s.firstOutcome? (calls ++ later) = some outcome := by
  rw [firstOutcome?] at h
  rw [firstOutcome?, replies_append, List.findSome?_append, h, Option.some_or]

/-- Whatever is sent is the answer to some start. -/
theorem exists_start_of_sent {s : Signer} {calls : List Call}
    {outcome : Except Error Envelope} (h : Reply.sent outcome ∈ s.replies calls) :
    ∃ before tape, ((s.after before).start tape).1 = outcome := by
  induction calls generalizing s with
  | nil => cases h
  | cons call calls ih =>
    rw [replies, List.mem_cons] at h
    rcases h with hhead | hrest
    · cases call with
      | start tape =>
        injection hhead with houtcome
        exact ⟨[], tape, houtcome.symm⟩
      | update batch => cases hhead
      | canAccept e => cases hhead
      | phase => cases hhead
    · obtain ⟨before, tape, hstart⟩ := ih hrest
      exact ⟨call :: before, tape, hstart⟩

end Replies

section IsNew

variable {s : Signer} {n : Nat}

theorem IsNew.started_after (h : s.IsNew n) (calls : List Call) :
    (s.after calls).current.round.started = (s.firstOutcome? calls).isSome := by
  rw [current_after, AnyRound.after]
  dsimp only
  rw [(h.hasHistory calls).started_eq, firstOutcome?_eq h.not_started,
    Option.isSome_map]

theorem IsNew.kind_after (h : s.IsNew n) (calls : List Call) :
    (s.after calls).current.round.kind.number = s.number := by
  rw [current_after, AnyRound.after]
  dsimp only
  rw [(h.hasHistory calls).kind_eq, number_kind]

theorem IsNew.start_fst (h : s.IsNew n) {calls : List Call}
    (hnone : s.firstOutcome? calls = none) (tape : Tape) :
    ((s.after calls).start tape).1 = s.kind.outcome s.own (s.current.prepare tape) := by
  have hstarted := h.started_after calls
  rw [hnone, Option.isSome_none] at hstarted
  rw [Signer.start_fst]
  rw [current_after, AnyRound.after] at hstarted ⊢
  dsimp only at hstarted ⊢
  rw [Round.start_fst hstarted, (h.hasHistory calls).kind_eq,
    (h.hasHistory calls).own_eq]

theorem IsNew.start_again (h : s.IsNew n) {calls : List Call}
    {outcome : Except Error Envelope} (hsome : s.firstOutcome? calls = some outcome)
    (tape : Tape) :
    (s.after calls).start tape =
      (.error (.alreadyStarted s.number.toNat), s.after calls) := by
  have hstarted : (s.after calls).current.round.started = true := by
    rw [h.started_after, hsome, Option.isSome_some]
  rw [start_of_started hstarted, h.kind_after]

theorem IsNew.slot_own (h : s.IsNew n) (hown : s.own.toNat < n)
    (calls : List Call) :
    (s.after calls).slot s.own.toNat =
      (s.firstOutcome? calls).bind fun outcome =>
        outcome.toOption.map Envelope.content := by
  have hhistory := h.hasHistory calls
  rw [slot, current_after, AnyRound.after]
  dsimp only
  rw [hhistory.own_slot hown, hhistory.kind_eq, firstOutcome?_eq h.not_started,
    h.kind_eq]
  cases Round.firstStart? (Round.eventsOf s.current.prepare calls) with
  | none => rfl
  | some given => cases given <;> rfl

/-- What fills the own slot is what a start prepares. -/
theorem IsNew.exists_start_of_slot_own (h : s.IsNew n) (hown : s.own.toNat < n)
    {calls : List Call} {content : Content}
    (hcontent : (s.after calls).slot s.own.toNat = some content) :
    ∃ tape, s.kind.outcome s.own (s.current.prepare tape) =
      .ok (.broadcast s.own s.number content) := by
  rw [h.slot_own hown, firstOutcome?_eq h.not_started, h.kind_eq,
    Round.firstStart?_eventsOf, Option.map_map, Option.bind_map,
    Option.bind_eq_some_iff] at hcontent
  obtain ⟨tape, -, hgiven⟩ := hcontent
  refine ⟨tape, ?_⟩
  rw [Function.comp_apply, Function.comp_apply] at hgiven
  cases hprepare : s.current.prepare tape with
  | error e =>
    rw [hprepare] at hgiven
    cases hgiven
  | ok given =>
    rw [hprepare] at hgiven
    cases hgiven
    rw [← number_kind]
    rfl

theorem IsNew.sent_eq (h : s.IsNew n) {calls : List Call} {e : Envelope}
    (hsent : s.firstOutcome? calls = some (.ok e)) :
    e = .broadcast s.own s.number e.content ∧ s.exchanges e.content = true := by
  rw [firstOutcome?_eq h.not_started, Option.map_eq_some_iff] at hsent
  obtain ⟨given, -, hgiven⟩ := hsent
  obtain ⟨⟨payload, output⟩, -, rfl⟩ := map_eq_ok.mp hgiven
  rw [h.kind_eq, number_kind]
  exact ⟨rfl, s.exchanges_content payload⟩

theorem IsNew.phase_eq_completed_iff (h : s.IsNew n) (hown : s.own.toNat < n)
    (calls : List Call) :
    (s.after calls).phase = .completed ↔ (s.after calls).isComplete = true := by
  rw [phase_eq, isComplete_eq, current_after, AnyRound.after]
  dsimp only
  exact (h.hasHistory calls).phase_eq_completed_iff_isComplete hown

theorem IsNew.rank_phase_le (h : s.IsNew n) (calls later : List Call) :
    (s.after calls).phase.rank ≤ (s.after (calls ++ later)).phase.rank := by
  have hlater := (h.hasHistory calls).rank_phase_le
    (Round.eventsOf s.current.prepare later)
  rw [phase_eq, phase_eq, current_after, current_after, AnyRound.after,
    AnyRound.after]
  dsimp only
  rw [Round.eventsOf_append, Round.after_append]
  exact hlater

/-- A failed start is final. -/
theorem IsNew.phase_of_error (h : s.IsNew n) (hown : s.own.toNat < n)
    {calls : List Call} {e : Error}
    (hfailed : s.firstOutcome? calls = some (.error e)) :
    (s.after calls).phase = .started := by
  rw [firstOutcome?_eq h.not_started, Option.map_eq_some_iff] at hfailed
  obtain ⟨given, hfirst, hgiven⟩ := hfailed
  cases given with
  | ok given => cases hgiven
  | error e' =>
    rw [phase_eq, current_after, AnyRound.after]
    dsimp only
    exact (h.hasHistory calls).phase_of_error hown hfirst

theorem IsNew.lifecycle_of_own_lt (h : s.IsNew n) (hown : s.own.toNat < n)
    (calls : List Call) : s.Lifecycle calls := by
  constructor
  case first_start =>
    intro hnone tape
    rw [h.start_fst hnone, ← exists_prepare_eq_error, RoundKind.outcome]
    cases s.current.prepare tape with
    | error e => exact iff_of_true ⟨e, rfl⟩ ⟨e, rfl⟩
    | ok given =>
      refine iff_of_false ?_ ?_ <;> rintro ⟨e, he⟩ <;> cases he
  case start_again =>
    intro outcome hsome tape
    exact h.start_again hsome tape
  case sent_eq =>
    intro e hsent
    exact h.sent_eq hsent
  case own_slot => exact h.slot_own hown calls
  case own_slot_kept =>
    intro content hcontent later
    rw [h.slot_own hown, Option.bind_eq_some_iff] at hcontent
    obtain ⟨outcome, hsome, houtcome⟩ := hcontent
    rw [h.slot_own hown, firstOutcome?_append hsome]
    exact houtcome
  case own_slot_unique =>
    intro hnumber content content' calls' hcontent hcontent'
    obtain ⟨tape, hsent⟩ := h.exists_start_of_slot_own hown hcontent
    obtain ⟨tape', hsent'⟩ := h.exists_start_of_slot_own hown hcontent'
    rw [prepare_eq_prepare hnumber tape tape', hsent'] at hsent
    injection hsent with hsame
    injection hsame with _ _ hcontents
    exact hcontents.symm
  case notStarted_iff =>
    rw [phase_eq, Round.phase_eq_notStarted_iff, h.started_after,
      Option.isSome_eq_false_iff, Option.isNone_iff_eq_none]
  case rank_phase_le => exact h.rank_phase_le calls
  case updated_iff =>
    intro batch
    rw [h.phase_eq_completed_iff hown, after_append]
    change Reply.updated ((s.after calls).update batch).isComplete =
      .updated true ↔ ((s.after calls).update batch).isComplete = true
    rw [Reply.updated.injEq]
  case next_iff =>
    rw [exists_next_iff, phase_eq, current_after, AnyRound.after]
    dsimp only
    exact (h.hasHistory calls).exists_finish_iff hown
  case next_error =>
    intro hphase
    rw [phase_eq] at hphase
    rw [next_of_error (Round.finish_of_phase_ne hphase), h.kind_after]
  case failed =>
    intro e hfailed later
    have hlater := firstOutcome?_append hfailed later
    refine ⟨h.phase_of_error hown hlater, ?_, fun outcome hsent => ?_⟩
    · rw [h.slot_own hown, hlater]
      rfl
    · obtain ⟨before, tape, rfl⟩ := exists_start_of_sent hsent
      rw [← after_append, h.start_again (firstOutcome?_append hfailed before)]

end IsNew

end Signer

/--
Every round that an admitted signer gets to lives as described, whatever is
started, delivered and asked, and in whatever order.
-/
theorem Entrant.Enters.lifecycle {a : Entrant} {s : Signer} (h : a.Enters s)
    (calls : List Call) : s.Lifecycle calls :=
  h.isNew.lifecycle_of_own_lt h.own_lt calls

/-- The first round of the smallest ceremony, with a message that spoofs its own position. -/
theorem Ceremony.lifecycle_smallest :
    (smallest.entrant 0).Enters
        (.committing (.ofSession (smallest.entrant 0).session)) ∧
      (Signer.committing (.ofSession (smallest.entrant 0).session)).Lifecycle
        [.update [.broadcast 0 1 (.commitment ⟨⟨Octets.ofNatLE 32 0⟩⟩)],
          .start (smallest.tape 0), .phase, .start (smallest.tape 1)] := by
  have hadmitted : (smallest.entrant 0).Enters
      (.committing (.ofSession (smallest.entrant 0).session)) :=
    .admitted (Entrant.commitRound_eq_ok.mpr
      ⟨valid_smallest.admissible (by decide), rfl⟩)
  exact ⟨hadmitted, hadmitted.lifecycle _⟩

end Quorum
