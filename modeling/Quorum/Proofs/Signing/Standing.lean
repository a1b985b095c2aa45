import Mathlib
import Quorum.Proofs.Signing.Release

/-!
# How a run stands

A participant either is refused, or fails to start a round, or waits, or was
stopped while it waited, or has come to the finalization.  Which of these is
the case depends on what it received only through the first message of each
peer: it is past a round exactly when there is one from every peer.
-/

namespace Quorum

/-- A new round is complete once it was started and every peer was heard. -/
theorem Signer.IsNew.isComplete_iff {s : Signer} {n : Nat} (h : s.IsNew n)
    (hown : s.own.toNat < n) (calls : List Call) :
    (s.after calls).isComplete = true ↔
      (∃ e, s.firstOutcome? calls = some (.ok e)) ∧
        ∀ j < n, j ≠ s.own.toNat →
          ((delivered calls).find? (s.expects j)).isSome = true := by
  have hslots : (s.after calls).isComplete = true ↔
      ∀ j < n, ((s.after calls).slot j).isSome = true := by
    rw [isComplete_eq, AcceptanceTable.isComplete_iff, h.size_after]
    simp only [slot, Option.isSome_map]
  rw [hslots]
  constructor
  · intro hall
    constructor
    · have hself := hall _ hown
      rw [h.slot_own hown] at hself
      cases houtcome : s.firstOutcome? calls with
      | none =>
        rw [houtcome] at hself
        cases hself
      | some outcome =>
        cases outcome with
        | error e =>
          rw [houtcome] at hself
          cases hself
        | ok e => exact ⟨e, rfl⟩
    · intro j hj hne
      have hpeer := hall j hj
      rwa [h.slot_peer calls hj hne, Option.isSome_map] at hpeer
  · rintro ⟨⟨e, he⟩, hpeers⟩ j hj
    by_cases hne : j = s.own.toNat
    · rw [hne, h.slot_own hown, he]
      rfl
    · rw [h.slot_peer calls hj hne, Option.isSome_map]
      exact hpeers j hj hne

theorem Signer.IsNew.exists_next {s : Signer} {n : Nat} (h : s.IsNew n)
    (hown : s.own.toNat < n) {calls : List Call}
    (hcomplete : (s.after calls).isComplete = true) :
    ∃ stage, (s.after calls).next = .ok stage :=
  (h.lifecycle_of_own_lt hown calls).next_iff.mpr
    ((h.phase_eq_completed_iff hown calls).mpr hcomplete)

/-- In a round a message of every peer was received. -/
def Entrant.Heard (a : Entrant) (log : List Action) (k : Nat) : Prop :=
  ∀ j < a.config.parties.length, j ≠ a.config.partyIndex.toNat →
    (firstFrom? log k j).isSome = true

theorem Entrant.Enters.exists_peer {a : Entrant} {s : Signer} (h : a.Enters s) :
    ∃ j < a.config.parties.length, j ≠ a.config.partyIndex.toNat := by
  have htwo := h.admissible.two_le_threshold.trans h.admissible.threshold_le
  by_cases hzero : a.config.partyIndex.toNat = 0
  · exact ⟨1, htwo, by omega⟩
  · exact ⟨0, by omega, Ne.symm hzero⟩

namespace Run

variable {a : Entrant} {tape : Tape} {responses : List Response} {run : Run}

/-- How a run stands after some responses of the relay. -/
inductive Stands (a : Entrant) (tape : Tape) (responses : List Response) (run : Run) :
    Prop
  /-- The participant was refused. -/
  | refused (e : Error) (admission : a.commitRound = .error e) (stages : run.stages = [])
    (log : run.log = []) (result : run.participant = .ended (.error e))
  /-- The start of the round that it got to last failed. -/
  | stuck (k : Nat) (s : Signer) (e : Error) (stages : run.stages.length = k + 1)
    (stage : run.stages[k]? = some (.signing s)) (posts : (posts run.log).length = k)
    (start : (s.start tape).1 = .error e) (result : run.participant = .ended (.error e))
  /-- It waits, and has not heard every peer. -/
  | waiting (k : Nat) (signer : Signer) (seen : Nat)
    (waits : run.WaitsIn a tape k signer seen) (unheard : ¬ a.Heard run.log k)
    (result : run.participant = .waiting signer tape seen)
  /-- It was stopped while it waited, by its own patience or by a failure of the relay. -/
  | stopped (k : Nat) (signer : Signer) (seen : Nat) (e : Error)
    (waits : run.WaitsIn a tape k signer seen) (unheard : ¬ a.Heard run.log k)
    (result : run.participant = .ended (.error e))
    (cause : (e = .timeout (.broadcasts (k + 1) seen) ∧ .timeout ∈ responses) ∨
      .failure e ∈ responses)
  /-- It has come to the finalization. -/
  | finished (f : Finalization) (stages : run.stages.length = 4)
    (stage : run.stages[3]? = some (.finalizing f)) (posts : (posts run.log).length = 3)
    (result : run.participant = .ended f.finalize)

/-- The signer of a participant that waits is complete if every peer was heard. -/
theorem WaitsIn.isComplete_iff {k : Nat} {signer : Signer} {seen : Nat}
    (h : run.WaitsIn a tape k signer seen) (hsound : run.Sound a tape) :
    signer.isComplete = true ↔ a.Heard run.log k := by
  obtain ⟨s, hs, ⟨e, hstart⟩, rfl⟩ := h.signer_eq
  have hstage := hsound.stage_eq k _ hs
  have henters := Entrant.enters_of_stageAfter hstage
  have hsent : s.firstOutcome? (callsOf tape run.log k) = some (.ok e) :=
    congrArg some hstart
  rw [henters.isNew.isComplete_iff henters.own_lt, henters.own_eq, delivered_callsOf,
    Entrant.expects_of_stageAfter hstage, Entrant.Heard]
  simp only [firstFrom?, Option.isSome_map]
  exact and_iff_right ⟨e, hsent⟩

theorem respond_of_ended {result : Except Error Signature}
    (h : run.participant = .ended result) (response : Response) :
    run.respond response = run := by
  cases response with
  | batch messages =>
    rw [respond, Run.receive, h]
  | timeout =>
    rw [respond, Run.giveUp, h, Participant.giveUp]
    cases run
    cases h
    rfl
  | failure e =>
    rw [respond, Run.fail, h]

namespace Stands

theorem mono (h : run.Stands a tape responses) (later : List Response) :
    run.Stands a tape (responses ++ later) := by
  cases h with
  | refused e admission stages log result => exact .refused e admission stages log result
  | stuck k s e stages stage posts start result =>
    exact .stuck k s e stages stage posts start result
  | waiting k signer seen waits unheard result =>
    exact .waiting k signer seen waits unheard result
  | stopped k signer seen e waits unheard result cause =>
    exact .stopped k signer seen e waits unheard result
      (cause.imp (And.imp_right (List.mem_append_left later))
        (List.mem_append_left later))
  | finished f stages stage posts result => exact .finished f stages stage posts result

/-- A participant that waits has not heard every peer. -/
theorem of_waiting {signer : Signer} {tape' : Tape} {seen : Nat}
    (h : run.Stands a tape responses)
    (hwaiting : run.participant = .waiting signer tape' seen) :
    tape' = tape ∧ ∃ k, run.WaitsIn a tape k signer seen ∧ ¬ a.Heard run.log k := by
  have hrunning : ∀ result, run.participant ≠ .ended result := by
    intro result hended
    rw [hended] at hwaiting
    cases hwaiting
  cases h with
  | waiting k signer' seen' waits unheard result =>
    rw [result] at hwaiting
    injection hwaiting with hsigner htape hseen
    subst hsigner htape hseen
    exact ⟨rfl, k, waits, unheard⟩
  | refused _ _ _ _ result => exact absurd result (hrunning _)
  | stuck _ _ _ _ _ _ _ result => exact absurd result (hrunning _)
  | stopped _ _ _ _ _ _ result => exact absurd result (hrunning _)
  | finished _ _ _ _ result => exact absurd result (hrunning _)

/-- A participant has posted in every round before the one that it got to last. -/
theorem length_stages_le (h : run.Stands a tape responses) :
    run.stages.length ≤ (posts run.log).length + 1 := by
  cases h with
  | refused e admission stages log result =>
    rw [stages]
    exact Nat.zero_le _
  | stuck k s e stages stage posts start result => omega
  | waiting k signer seen waits unheard result =>
    have hposts := waits.length_posts
    have hstages := waits.length_stages
    omega
  | stopped k signer seen e waits unheard result cause =>
    have hposts := waits.length_posts
    have hstages := waits.length_stages
    omega
  | finished f stages stage posts result => omega

/-- Behind a message that was posted the participant went on, or it has not heard every peer. -/
theorem of_posted (h : run.Stands a tape responses) {k : Nat}
    (hk : k < (posts run.log).length) :
    (∃ stage, run.stages[k + 1]? = some stage) ∨
      ∃ signer seen, run.WaitsIn a tape k signer seen ∧ ¬ a.Heard run.log k ∧
        (run.participant = .waiting signer tape seen ∨
          ∃ e, run.participant = .ended (.error e) ∧
            ((e = .timeout (.broadcasts (k + 1) seen) ∧ .timeout ∈ responses) ∨
              .failure e ∈ responses)) := by
  have hnext : k + 1 < run.stages.length → ∃ stage, run.stages[k + 1]? = some stage :=
    fun hlt => ⟨_, List.getElem?_eq_getElem hlt⟩
  cases h with
  | refused e admission stages log result =>
    rw [log] at hk
    cases hk
  | stuck k' s e stages stage posts start result =>
    exact Or.inl (hnext (by omega))
  | waiting k' signer seen waits unheard result =>
    have hposts := waits.length_posts
    have hstages := waits.length_stages
    by_cases heq : k = k'
    · subst heq
      exact Or.inr ⟨signer, seen, waits, unheard, Or.inl result⟩
    · exact Or.inl (hnext (by omega))
  | stopped k' signer seen e waits unheard result cause =>
    have hposts := waits.length_posts
    have hstages := waits.length_stages
    by_cases heq : k = k'
    · subst heq
      exact Or.inr ⟨signer, seen, waits, unheard, Or.inr ⟨e, result, cause⟩⟩
    · exact Or.inl (hnext (by omega))
  | finished f stages stage posts result =>
    exact Or.inl (hnext (by omega))

end Stands

namespace Sound

/-- A participant waits that has just started its round, or whose round is not complete. -/
theorem stands_of_waiting (hsound : run.Sound a tape) {signer : Signer} {tape' : Tape}
    {seen : Nat} (hwaiting : run.participant = .waiting signer tape' seen)
    (h : seen = 0 ∨ signer.isComplete = false) : run.Stands a tape responses := by
  obtain ⟨rfl, k, hwaits⟩ := hsound.waits signer tape' seen hwaiting
  refine .waiting k signer seen hwaits ?_ hwaiting
  intro hheard
  rcases h with rfl | hincomplete
  · -- Nothing was received in this round yet, and there is a peer to be heard.
    obtain ⟨s, hs, -, -⟩ := hwaits.signer_eq
    have henters := Entrant.enters_of_stageAfter (hsound.stage_eq k _ hs)
    obtain ⟨j, hj, hne⟩ := henters.exists_peer
    have hsome := hheard j hj hne
    have hnothing : reads (roundNumber k) run.log = [] :=
      List.length_eq_zero_iff.mp hwaits.seen_eq.symm
    rw [firstFrom?, hnothing] at hsome
    cases hsome
  · rw [(hwaits.isComplete_iff hsound).mpr hheard] at hincomplete
    cases hincomplete

theorem stands_of_enter {stages : List Stage} {log : List Action} {s : Signer}
    (hsound : Sound a tape ⟨(Participant.enter tape s).1, stages ++ [Stage.signing s],
      log ++ ((Participant.enter tape s).2.map .post).toList⟩)
    (hlength : stages.length = (posts log).length) :
    Stands a tape responses ⟨(Participant.enter tape s).1, stages ++ [Stage.signing s],
      log ++ ((Participant.enter tape s).2.map .post).toList⟩ := by
  cases hstart : s.start tape with
  | mk sent s' =>
    cases sent with
    | ok e =>
      have henter : Participant.enter tape s = (.waiting s' tape 0, some e) := by
        rw [Participant.enter, hstart]
      rw [henter] at hsound ⊢
      exact hsound.stands_of_waiting rfl (Or.inl rfl)
    | error e =>
      have henter : Participant.enter tape s = (.ended (.error e), none) := by
        rw [Participant.enter, hstart]
      rw [henter, Option.map_none, Option.toList_none, List.append_nil]
      refine .stuck stages.length s e ?_ List.getElem?_concat_length hlength.symm
        (congrArg Prod.fst hstart) rfl
      rw [List.length_append, List.length_singleton]

theorem stands_begin (a : Entrant) (tape : Tape) :
    (begin a tape).Stands a tape [] := by
  have hsound := sound_begin a tape
  cases hround : a.commitRound with
  | error e =>
    have hbegin : begin a tape = ⟨.ended (.error e), [], []⟩ := begin_of_error hround tape
    rw [hbegin]
    exact .refused e hround rfl rfl rfl
  | ok r =>
    rw [begin_of_ok hround] at hsound ⊢
    exact hsound.stands_of_enter rfl

/-- A batch makes a participant go on as soon as every peer was heard. -/
theorem stands_receive (hsound : run.Sound a tape) {k : Nat} {signer : Signer}
    {seen : Nat} (hwaits : run.WaitsIn a tape k signer seen)
    (hwaiting : run.participant = .waiting signer tape seen)
    (batch : List (Option Envelope)) :
    (run.receive batch).Stands a tape responses := by
  have hsound' := hsound.receive batch
  obtain ⟨s, hs, -, hupdate⟩ := hwaits.update_eq batch
  have hrecorded :=
    hsound.toRecorded.receive hwaits.length_stages (hwaits.lt_three hsound) batch
  have hstage := hrecorded.stage_eq k _ hs
  have henters := Entrant.enters_of_stageAfter hstage
  have hlength : run.stages.length =
      (posts (run.log ++ [Action.receive signer.number batch])).length := by
    rw [posts_concat_receive, hwaits.length_stages, hwaits.length_posts]
  generalize ht : signer.update (batch.filterMap id) = t at hupdate
  cases hcomplete : t.isComplete with
  | false =>
    rw [receive_of_incomplete hwaiting ht hcomplete] at hsound' ⊢
    exact hsound'.stands_of_waiting rfl (Or.inr hcomplete)
  | true =>
    obtain ⟨stage, hnext⟩ : ∃ stage, t.next = .ok stage := by
      rw [hupdate] at hcomplete ⊢
      exact henters.isNew.exists_next henters.own_lt hcomplete
    cases stage with
    | signing s' =>
      rw [receive_of_signing hwaiting ht hcomplete hnext] at hsound' ⊢
      exact hsound'.stands_of_enter hlength
    | finalizing f =>
      rw [hupdate] at hnext
      have hthree := Entrant.three_le_of_stageAfter
        ((Entrant.stageAfter_succ hstage).trans hnext)
      have hk := Entrant.lt_three_of_stageAfter hstage
      obtain rfl : k = 2 := by omega
      rw [← hupdate] at hnext
      rw [receive_of_finalizing hwaiting ht hcomplete hnext]
      have hstages := hwaits.length_stages
      refine .finished f ?_ ?_ ?_ rfl
      · rw [List.length_append, hstages, List.length_singleton]
      · have hlast : (run.stages ++ [Stage.finalizing f])[run.stages.length]? =
            some (Stage.finalizing f) := List.getElem?_concat_length
        rwa [hstages] at hlast
      · rw [← hlength, hstages]

theorem stands_respond (hsound : run.Sound a tape) (h : run.Stands a tape responses)
    (response : Response) :
    (run.respond response).Stands a tape (responses ++ [response]) := by
  cases hparticipant : run.participant with
  | ended result =>
    rw [respond_of_ended hparticipant]
    exact h.mono [response]
  | waiting signer tape' seen =>
    obtain ⟨rfl, k, hwaits, hunheard⟩ := h.of_waiting hparticipant
    cases response with
    | batch messages => exact hsound.stands_receive hwaits hparticipant messages
    | timeout =>
      have hnumber : signer.number.toNat = k + 1 := by
        rw [hwaits.number_eq hsound]
        exact toNat_roundNumber (hwaits.lt_three hsound)
      refine .stopped k signer seen (.timeout (.broadcasts (k + 1) seen))
        (hwaits.congr rfl rfl) hunheard ?_ (Or.inl ⟨rfl, List.mem_concat_self ..⟩)
      rw [Run.respond, Run.giveUp, hparticipant, Participant.giveUp, hnumber]
    | failure e =>
      rw [Run.respond, Run.fail, hparticipant]
      exact .stopped k signer seen e (hwaits.congr rfl rfl) hunheard rfl
        (Or.inr (List.mem_concat_self ..))

end Sound

end Run

theorem Entrant.exists_ended_of_timeout (a : Entrant) (tape : Tape)
    {responses : List Response} (h : .timeout ∈ responses) :
    ∃ result, (a.run tape responses).participant = .ended result := by
  induction responses using List.reverseRecOn with
  | nil => cases h
  | append_singleton responses response ih =>
    rw [a.run_concat]
    rcases List.mem_append.mp h with hbefore | hlast
    · obtain ⟨result, hresult⟩ := ih hbefore
      rw [Run.respond_of_ended hresult]
      exact ⟨result, hresult⟩
    · obtain rfl := List.mem_singleton.mp hlast
      rw [Run.respond, Run.giveUp]
      cases (a.run tape responses).participant with
      | waiting signer tape' seen => exact ⟨_, rfl⟩
      | ended result => exact ⟨result, rfl⟩

/-- However the relay responds, a run stands in one of the ways listed. -/
theorem Entrant.stands_run (a : Entrant) (tape : Tape) (responses : List Response) :
    (a.run tape responses).Stands a tape responses := by
  induction responses using List.reverseRecOn with
  | nil => exact Run.Sound.stands_begin a tape
  | append_singleton responses response ih =>
    rw [a.run_concat]
    exact (a.sound_run tape responses).stands_respond ih response

end Quorum
