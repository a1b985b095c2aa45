import Mathlib
import Quorum.Proofs.Signing.Ceremony

/-!
# The first acceptable message wins

The slot of a peer depends on the envelopes that were delivered in one way
only: it holds the content of the first one that the round expects from that
peer.  Where batches begin and end, when the round is started, what is
delivered a second time, and everything that the round expects from nobody make
no difference.
-/

namespace Quorum

namespace Signer

/-- How the deliveries to a round among `n` signers determine its slots. -/
structure FirstWins (s : Signer) (n : Nat) : Prop where
  /-- The slot of a peer holds the first envelope that is expected from it. -/
  slot_eq : ∀ calls, ∀ j < n, j ≠ s.own.toNat →
    (s.after calls).slot j =
      ((delivered calls).find? (s.expects j)).map Envelope.content
  /-- An envelope that is expected from no peer makes no difference. -/
  unexpected : ∀ e, (∀ j < n, j ≠ s.own.toNat → s.expects j e = false) →
    ∀ before batch batch' later,
      s.after (before ++ .update (batch ++ e :: batch') :: later) =
        s.after (before ++ .update (batch ++ batch') :: later)
  /-- An envelope that is delivered again makes no difference. -/
  redelivered : ∀ before batch batch' later, ∀ e ∈ delivered before ++ batch,
    s.after (before ++ .update (batch ++ e :: batch') :: later) =
      s.after (before ++ .update (batch ++ batch') :: later)
  /-- Batches can be split and merged. -/
  split : ∀ before batch batch' later,
    s.after (before ++ .update (batch ++ batch') :: later) =
      s.after (before ++ .update batch :: .update batch' :: later)
  /-- The start can be moved past a batch. -/
  start_moved : ∀ before tape batch later,
    s.after (before ++ .start tape :: .update batch :: later) =
      s.after (before ++ .update batch :: .start tape :: later)
  /-- All that matters is the tape of the first start and the first envelope of each peer. -/
  agree : ∀ calls calls',
    calls.findSome? Call.tape? = calls'.findSome? Call.tape? →
    (∀ j < n, j ≠ s.own.toNat → (delivered calls).find? (s.expects j) =
      (delivered calls').find? (s.expects j)) →
    s.after calls = s.after calls'

theorem delivered_append (calls later : List Call) :
    delivered (calls ++ later) = delivered calls ++ delivered later :=
  List.flatMap_append

theorem delivered_cons (call : Call) (calls : List Call) :
    delivered (call :: calls) = call.delivered ++ delivered calls :=
  List.flatMap_cons

theorem content_injective (s : Signer) : Function.Injective s.kind.content := by
  cases s with
  | committing r =>
    intro c c' h
    injection h with h
    injection h
  | revealing r =>
    intro v v' h
    injection h
  | sharing r =>
    intro x x' h
    injection h with h
    injection h

/-- The state of a signer is that of its round. -/
theorem after_eq_of_round_eq {s : Signer} {calls calls' : List Call}
    (h : s.current.round.after (Round.eventsOf s.current.prepare calls) =
      s.current.round.after (Round.eventsOf s.current.prepare calls')) :
    s.after calls = s.after calls' := by
  cases s with
  | committing r =>
    rw [after_committing, after_committing]
    rw [current_committing] at h
    dsimp only at h
    rw [h]
  | revealing r =>
    rw [after_revealing, after_revealing]
    rw [current_revealing] at h
    dsimp only at h
    rw [h]
  | sharing r =>
    rw [after_sharing, after_sharing]
    rw [current_sharing] at h
    dsimp only at h
    rw [h]

section IsNew

variable {s : Signer} {n : Nat}

/-- The first payload of a peer is that of the first envelope expected from it. -/
theorem IsNew.findSome?_payloadFrom? (h : s.IsNew n) {j : Nat}
    (hj : j ≠ s.own.toNat) (es : List Envelope) :
    (es.findSome? (s.current.round.payloadFrom? j)).map s.kind.content =
      (es.find? (s.expects j)).map Envelope.content := by
  induction es with
  | nil => rfl
  | cons e es ih =>
    have hhead := h.payloadFrom?_eq hj e
    rw [List.findSome?_cons, List.find?_cons]
    cases hpayload : s.current.round.payloadFrom? j e with
    | some payload =>
      rw [hpayload] at hhead
      split_ifs at hhead with hexpects
      · rw [hexpects]
        exact hhead
      · cases hhead
    | none =>
      rw [hpayload] at hhead
      split_ifs at hhead with hexpects
      · cases hhead
      · rw [Bool.not_eq_true] at hexpects
        rw [hexpects]
        exact ih

/-- The payloads that a round has for a peer do not depend on its history. -/
theorem IsNew.payloadFrom?_after (h : s.IsNew n) (calls : List Call) :
    (s.current.round.after
      (Round.eventsOf s.current.prepare calls)).payloadFrom? =
        s.current.round.payloadFrom? := by
  rw [(h.hasHistory calls).payloadFrom?_eq]
  exact (h.hasHistory []).payloadFrom?_eq.symm

theorem IsNew.slot_peer (h : s.IsNew n) (calls : List Call) {j : Nat} (hj : j < n)
    (hne : j ≠ s.own.toNat) :
    (s.after calls).slot j =
      ((delivered calls).find? (s.expects j)).map Envelope.content := by
  have hhistory := h.hasHistory calls
  rw [slot, current_after, AnyRound.after]
  dsimp only
  rw [hhistory.kind_eq, hhistory.peer_slot j hj hne, h.payloadFrom?_after,
    Round.received_eventsOf, h.findSome?_payloadFrom? hne]

theorem IsNew.after_eq_of_agree (h : s.IsNew n) {calls calls' : List Call}
    (htape : calls.findSome? Call.tape? = calls'.findSome? Call.tape?)
    (hpeers : ∀ j < n, j ≠ s.own.toNat → (delivered calls).find? (s.expects j) =
      (delivered calls').find? (s.expects j)) :
    s.after calls = s.after calls' := by
  apply after_eq_of_round_eq
  apply (h.hasHistory calls).eq_of_agree (h.hasHistory calls')
  · rw [Round.firstStart?_eventsOf, Round.firstStart?_eventsOf, htape]
  · intro j hj hne
    rw [h.payloadFrom?_after, h.payloadFrom?_after, Round.received_eventsOf,
      Round.received_eventsOf]
    apply Option.map_injective s.content_injective
    rw [h.findSome?_payloadFrom? hne, h.findSome?_payloadFrom? hne, hpeers j hj hne]

/-- A round is finished by a start and an expected message of every peer. -/
theorem IsNew.finish_of_delivery (h : s.IsNew n) (hown : s.own.toNat < n)
    {calls : List Call} {tape : Tape} (htape : calls.findSome? Call.tape? = some tape)
    {payload : s.current.payload} {output : s.current.output}
    (hprepare : s.current.prepare tape = .ok (payload, output))
    {payloads : List s.current.payload} (hlength : payloads.length = n)
    (hself : payloads[s.own.toNat]? = some payload)
    (hpeers : ∀ j < n, j ≠ s.own.toNat → ∀ p, payloads[j]? = some p →
      ∃ e, (delivered calls).find? (s.expects j) = some e ∧
        e.content = s.kind.content p) :
    (s.current.round.after (Round.eventsOf s.current.prepare calls)).finish =
      .ok (payloads, output) := by
  have hhistory := h.hasHistory calls
  have hfirst : Round.firstStart? (Round.eventsOf s.current.prepare calls) =
      some (.ok (payload, output)) := by
    rw [Round.firstStart?_eventsOf, htape, Option.map_some, hprepare]
  apply hhistory.finish_of_slots hfirst hlength
  intro j hj
  by_cases hne : j = s.own.toNat
  · rw [hne, hhistory.own_slot hown, hfirst, hself]
    rfl
  · have hj' : j < payloads.length := hlength.symm ▸ hj
    obtain ⟨e, hfind, hcontent⟩ := hpeers j hj hne payloads[j]
      (List.getElem?_eq_getElem hj')
    rw [hhistory.peer_slot j hj hne, h.payloadFrom?_after, Round.received_eventsOf,
      List.getElem?_eq_getElem hj']
    apply Option.map_injective s.content_injective
    rw [h.findSome?_payloadFrom? hne, hfind, Option.map_some, Option.map_some, hcontent]

theorem IsNew.firstOutcome?_of_prepare (h : s.IsNew n) {calls : List Call}
    {tape : Tape} (htape : calls.findSome? Call.tape? = some tape)
    {payload : s.current.payload} {output : s.current.output}
    (hprepare : s.current.prepare tape = .ok (payload, output)) :
    s.firstOutcome? calls =
      some (.ok (.broadcast s.own s.number (s.kind.content payload))) := by
  rw [firstOutcome?_eq h.not_started, Round.firstStart?_eventsOf, htape,
    Option.map_some, Option.map_some, hprepare, h.kind_eq, ← number_kind]
  rfl

/-- An envelope is skipped if it is not the first one that is expected from a peer. -/
theorem IsNew.after_skip (h : s.IsNew n) {before later : List Call}
    {batch batch' : List Envelope} {e : Envelope}
    (hskip : ∀ j < n, j ≠ s.own.toNat → s.expects j e = true →
      ∃ e' ∈ delivered before ++ batch, s.expects j e' = true) :
    s.after (before ++ .update (batch ++ e :: batch') :: later) =
      s.after (before ++ .update (batch ++ batch') :: later) := by
  apply h.after_eq_of_agree
  · rw [List.findSome?_append, List.findSome?_append]
    rfl
  · intro j hj hne
    have hsplit : ∀ es : List Envelope,
        delivered (before ++ .update (batch ++ es) :: later) =
          delivered before ++ batch ++ (es ++ delivered later) := by
      intro es
      rw [delivered_append, delivered_cons, Call.delivered]
      simp only [List.append_assoc]
    rw [hsplit, hsplit]
    generalize hknown : delivered before ++ batch = known at hskip
    rw [List.cons_append, List.find?_append, List.find?_append, List.find?_cons]
    cases hexpects : s.expects j e with
    | false => rfl
    | true =>
      obtain ⟨e', hmem, he'⟩ := hskip j hj hne hexpects
      have hsome : (known.find? (s.expects j)).isSome = true :=
        List.find?_isSome.mpr ⟨e', hmem, he'⟩
      rw [Option.or_of_isSome hsome, Option.or_of_isSome hsome]

/--
In a new round the first acceptable message of each peer wins, however the
messages are delivered.
-/
theorem IsNew.firstWins (h : s.IsNew n) : s.FirstWins n where
  slot_eq calls _ hj hne := h.slot_peer calls hj hne
  unexpected e he before batch batch' later := by
    apply h.after_skip
    intro j hj hne hexpects
    rw [he j hj hne] at hexpects
    cases hexpects
  redelivered before batch batch' later e hmem := by
    apply h.after_skip
    intro j _ _ hexpects
    exact ⟨e, hmem, hexpects⟩
  split before batch batch' later := by
    apply h.after_eq_of_agree
    · rw [List.findSome?_append, List.findSome?_append]
      rfl
    · intro j _ _
      rw [delivered_append, delivered_append, delivered_cons, delivered_cons,
        delivered_cons, Call.delivered, Call.delivered, Call.delivered,
        List.append_assoc batch]
  start_moved before tape batch later := by
    apply h.after_eq_of_agree
    · rw [List.findSome?_append, List.findSome?_append]
      rfl
    · intro j _ _
      rw [delivered_append, delivered_append, delivered_cons, delivered_cons,
        delivered_cons, delivered_cons]
      rfl
  agree _ _ htape hpeers := h.after_eq_of_agree htape hpeers

end IsNew

end Signer

/-- The first round of the first signer of the smallest ceremony. -/
theorem Ceremony.firstWins_smallest :
    (Signer.committing (.ofSession (smallest.entrant 0).session)).IsNew 2 ∧
      (Signer.committing (.ofSession (smallest.entrant 0).session)).FirstWins 2 := by
  have hnew :
      (Signer.committing (.ofSession (smallest.entrant 0).session)).IsNew 2 :=
    rfl
  exact ⟨hnew, hnew.firstWins⟩

end Quorum
