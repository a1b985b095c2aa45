import Mathlib
import Quorum.Proofs.Round.History

/-!
# How far a round gets

The phase of a round follows from its history.  A round with an own slot is
complete only after a successful start, because nobody else can fill that slot;
hence a round whose first start failed is never completed, and a completed
round has all that leaving it needs.
-/

namespace Quorum

/-- The phases in the order in which a round passes through them. -/
def Phase.rank : Phase → Nat
  | notStarted => 0
  | started => 1
  | completed => 2

namespace Round

variable {α β : Type} {kind : RoundKind α} {own : UInt64} {n : Nat}
  {events : List (Event α β)} {r : Round α β}

theorem phase_eq_completed_iff :
    r.phase = .completed ↔ r.started = true ∧ r.table.isComplete = true := by
  rw [phase]
  cases r.started <;> cases r.table.isComplete <;> simp

theorem phase_eq_notStarted_iff : r.phase = .notStarted ↔ r.started = false := by
  rw [phase]
  cases r.started <;> cases r.table.isComplete <;> simp

theorem finish_eq_ok {payloads : List α} {output : β} :
    r.finish = .ok (payloads, output) ↔
      r.phase = .completed ∧ r.table.values? = some payloads ∧
        r.output = some output := by
  rw [finish]
  split
  · next hphase hvalues houtput =>
    rw [hphase, hvalues, houtput]
    simp
  · next hother =>
    constructor
    · intro h
      cases h
    · rintro ⟨hphase, hvalues, houtput⟩
      exact absurd houtput (hother _ _ hphase hvalues)

theorem finish_of_phase_ne (h : r.phase ≠ .completed) :
    r.finish = .error (.roundIncomplete r.kind.number.toNat) := by
  rw [finish]
  split
  · next hphase _ _ => exact absurd hphase h
  · rfl

namespace HasHistory

/-- Nobody but the signer fills the own slot, so a complete table means a start. -/
theorem exists_firstStart_of_isComplete (h : r.HasHistory kind own n events)
    (hown : own.toNat < n) (hcomplete : r.table.isComplete = true) :
    ∃ prepared, firstStart? events = some (.ok prepared) := by
  have hsome := AcceptanceTable.isComplete_iff.mp hcomplete own.toNat
    (h.size_eq.symm ▸ hown)
  rw [h.own_slot hown] at hsome
  cases hfirst : firstStart? events with
  | none =>
    rw [hfirst] at hsome
    cases hsome
  | some given =>
    cases given with
    | error e =>
      rw [hfirst] at hsome
      cases hsome
    | ok prepared => exact ⟨prepared, rfl⟩

theorem phase_eq_completed_iff_isComplete (h : r.HasHistory kind own n events)
    (hown : own.toNat < n) :
    r.phase = .completed ↔ r.table.isComplete = true := by
  rw [phase_eq_completed_iff]
  refine ⟨And.right, fun hcomplete => ⟨?_, hcomplete⟩⟩
  obtain ⟨prepared, hfirst⟩ := h.exists_firstStart_of_isComplete hown hcomplete
  rw [h.started_eq, hfirst, Option.isSome_some]

/-- A round that was not started holds nothing of its own. -/
theorem of_not_started (h : r.HasHistory kind own n events) (hown : own.toNat < n)
    (hstarted : r.started = false) :
    firstStart? events = none ∧ r.output = none ∧ r.table.get? own.toNat = none := by
  have hnone : firstStart? events = none := by
    rw [h.started_eq, Option.isSome_eq_false_iff, Option.isNone_iff_eq_none] at hstarted
    exact hstarted
  refine ⟨hnone, ?_, ?_⟩
  · rw [h.output_eq, hnone]
    rfl
  · rw [h.own_slot hown, hnone]
    rfl

/-- What a round keeps was prepared by its first start. -/
theorem exists_firstStart_of_output (h : r.HasHistory kind own n events) {output : β}
    (houtput : r.output = some output) :
    ∃ payload, firstStart? events = some (.ok (payload, output)) := by
  rw [h.output_eq] at houtput
  obtain ⟨prepared, hfirst, hpair⟩ := Option.bind_eq_some_iff.mp houtput
  cases prepared with
  | error e => cases hpair
  | ok given =>
    obtain rfl := Option.some.inj hpair
    exact ⟨given.1, hfirst⟩

theorem phase_of_error (h : r.HasHistory kind own n events)
    (hown : own.toNat < n) {e : Error}
    (hfirst : firstStart? events = some (.error e)) : r.phase = .started := by
  have hstarted : r.started = true := by
    rw [h.started_eq, hfirst, Option.isSome_some]
  have hincomplete : r.table.isComplete = false := by
    rw [Bool.eq_false_iff]
    intro hcomplete
    obtain ⟨prepared, hok⟩ := h.exists_firstStart_of_isComplete hown hcomplete
    rw [hfirst] at hok
    cases hok
  rw [phase, hstarted, hincomplete]
  rfl

theorem exists_finish_iff (h : r.HasHistory kind own n events)
    (hown : own.toNat < n) :
    (∃ result, r.finish = .ok result) ↔ r.phase = .completed := by
  constructor
  · rintro ⟨⟨payloads, output⟩, hfinish⟩
    exact (finish_eq_ok.mp hfinish).1
  · intro hphase
    have hcomplete := (phase_eq_completed_iff.mp hphase).2
    obtain ⟨payloads, hvalues⟩ := Option.isSome_iff_exists.mp
      ((AcceptanceTable.isSome_values? r.table).trans hcomplete)
    obtain ⟨⟨payload, output⟩, hfirst⟩ :=
      h.exists_firstStart_of_isComplete hown hcomplete
    have houtput : r.output = some output := by
      rw [h.output_eq, hfirst]
      rfl
    exact ⟨(payloads, output), finish_eq_ok.mpr ⟨hphase, hvalues, houtput⟩⟩

/-- A round whose slots are all filled hands them on. -/
theorem finish_of_slots (h : r.HasHistory kind own n events) {payload : α}
    {output : β} (hfirst : firstStart? events = some (.ok (payload, output)))
    {payloads : List α} (hlength : payloads.length = n)
    (hslots : ∀ j < n, r.table.get? j = payloads[j]?) :
    r.finish = .ok (payloads, output) := by
  have hvalues : r.table.values? = some payloads := by
    rw [AcceptanceTable.values?_eq_some, h.size_eq]
    refine ⟨hlength, fun j => ?_⟩
    by_cases hj : j < n
    · exact hslots j hj
    · rw [AcceptanceTable.get?_eq_none_of_size_le (h.size_eq.symm ▸ not_lt.mp hj),
        List.getElem?_eq_none (hlength.symm ▸ not_lt.mp hj)]
  rw [finish_eq_ok, phase_eq_completed_iff, h.started_eq, hfirst, h.output_eq, hfirst,
    ← AcceptanceTable.isSome_values?, hvalues]
  exact ⟨⟨rfl, rfl⟩, rfl, rfl⟩

theorem of_finish (h : r.HasHistory kind own n events) (hown : own.toNat < n)
    {payloads : List α} {output : β} (hfinish : r.finish = .ok (payloads, output)) :
    ∃ payload, firstStart? events = some (.ok (payload, output)) ∧
      payloads.length = n ∧ payloads[own.toNat]? = some payload ∧
      ∀ j < n, j ≠ own.toNat →
        payloads[j]? = (received events).findSome? (r.payloadFrom? j) := by
  obtain ⟨hphase, hvalues, houtput⟩ := finish_eq_ok.mp hfinish
  obtain ⟨hlength, hget⟩ := AcceptanceTable.values?_eq_some.mp hvalues
  obtain ⟨⟨payload, output'⟩, hfirst⟩ := h.exists_firstStart_of_isComplete hown
    (phase_eq_completed_iff.mp hphase).2
  have houtput' : output' = output := by
    rw [h.output_eq, hfirst] at houtput
    exact Option.some.inj houtput
  subst houtput'
  refine ⟨payload, hfirst, hlength.trans h.size_eq, ?_, fun j hj hne => ?_⟩
  · rw [← hget, h.own_slot hown, hfirst]
    rfl
  · rw [← hget, h.peer_slot j hj hne]

theorem firstStart?_append_of_some {given : Except Error (α × β)}
    (hfirst : firstStart? events = some given) (later : List (Event α β)) :
    firstStart? (events ++ later) = some given := by
  rw [firstStart?, List.findSome?_append]
  change (firstStart? events).or _ = _
  rw [hfirst, Option.some_or]

theorem received_append (events later : List (Event α β)) :
    received (events ++ later) = received events ++ received later :=
  List.flatMap_append

theorem payloadFrom?_eq (h : r.HasHistory kind own n events) :
    r.payloadFrom? = (new kind own n : Round α β).payloadFrom? := by
  funext j e
  rw [payloadFrom?, payloadFrom?, payload?, payload?, h.kind_eq, h.own_eq]
  rfl

theorem get?_after_of_some (h : r.HasHistory kind own n events)
    (later : List (Event α β)) {j : Nat} {payload : α}
    (hslot : r.table.get? j = some payload) :
    (r.after later).table.get? j = some payload := by
  have hlater := h.after later
  have hj : j < n := by
    by_contra hle
    rw [AcceptanceTable.get?_eq_none_of_size_le
      (h.size_eq.symm ▸ not_lt.mp hle)] at hslot
    cases hslot
  by_cases hne : j = own.toNat
  · subst hne
    rw [h.own_slot hj] at hslot
    cases hfirst : firstStart? events with
    | none =>
      rw [hfirst] at hslot
      cases hslot
    | some given =>
      rw [hlater.own_slot hj, firstStart?_append_of_some hfirst, ← hslot, hfirst]
  · rw [h.peer_slot j hj hne] at hslot
    rw [hlater.peer_slot j hj hne, received_append, List.findSome?_append,
      hlater.payloadFrom?_eq, ← h.payloadFrom?_eq, hslot, Option.some_or]

theorem rank_phase_le (h : r.HasHistory kind own n events)
    (later : List (Event α β)) :
    r.phase.rank ≤ (r.after later).phase.rank := by
  have hlater := h.after later
  have hstarted : r.started = true → (r.after later).started = true := by
    rw [h.started_eq, hlater.started_eq]
    intro hsome
    obtain ⟨given, hfirst⟩ := Option.isSome_iff_exists.mp hsome
    rw [firstStart?_append_of_some hfirst, Option.isSome_some]
  have hcomplete : r.table.isComplete = true →
      (r.after later).table.isComplete = true := by
    rw [AcceptanceTable.isComplete_iff, AcceptanceTable.isComplete_iff,
      h.size_eq, hlater.size_eq]
    intro hall j hj
    obtain ⟨payload, hslot⟩ := Option.isSome_iff_exists.mp (hall j hj)
    rw [h.get?_after_of_some later hslot, Option.isSome_some]
  rw [phase, phase]
  cases hs : r.started with
  | false => exact Nat.zero_le _
  | true =>
    rw [hstarted hs]
    cases hc : r.table.isComplete with
    | true => rw [hcomplete hc]
    | false => cases (r.after later).table.isComplete <;> decide

/-- Two rounds are equal if their first starts and the first payloads of each peer agree. -/
theorem eq_of_agree {events' : List (Event α β)} {r' : Round α β}
    (h : r.HasHistory kind own n events) (h' : r'.HasHistory kind own n events')
    (hfirst : firstStart? events = firstStart? events')
    (hpeers : ∀ j < n, j ≠ own.toNat →
      (received events).findSome? (r.payloadFrom? j) =
        (received events').findSome? (r'.payloadFrom? j)) : r = r' := by
  have htable : r.table = r'.table := by
    apply AcceptanceTable.ext_get? (h.size_eq.trans h'.size_eq.symm)
    rw [h.size_eq]
    intro j hj
    by_cases hne : j = own.toNat
    · subst hne
      rw [h.own_slot hj, h'.own_slot hj, hfirst]
    · rw [h.peer_slot j hj hne, h'.peer_slot j hj hne, hpeers j hj hne]
  have hkind : r.kind = r'.kind := h.kind_eq.trans h'.kind_eq.symm
  have hown : r.own = r'.own := h.own_eq.trans h'.own_eq.symm
  have hstarted : r.started = r'.started := by
    rw [h.started_eq, h'.started_eq, hfirst]
  have houtput : r.output = r'.output := by
    rw [h.output_eq, h'.output_eq, hfirst]
  cases r
  cases r'
  cases htable
  cases hkind
  cases hown
  cases hstarted
  cases houtput
  rfl

end HasHistory

end Round

end Quorum
