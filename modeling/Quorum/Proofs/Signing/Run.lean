import Mathlib
import Quorum.Signing.Participant
import Quorum.Proofs.Signing.Course

/-!
# Runs of participants

A run of a participant leaves a log of what it posted and received, and it gets
to one stage after the other.  The stages are those of a signer that is started
in every round and then given all that was received in that round; an envelope
is posted when the signer is started that sends it.
-/

namespace Quorum

/-- What a participant does towards the relay. -/
inductive Action
  | post (e : Envelope)
  | receive (round : UInt32) (batch : List (Option Envelope))

/-- What a participant that waits may get from the relay. -/
inductive Response
  | batch (messages : List (Option Envelope))
  /-- Nothing, until its patience ends. -/
  | timeout
  /-- A failure to post or to receive. -/
  | failure (e : Error)

def Action.posted? : Action → Option Envelope
  | post e => some e
  | receive .. => none

/-- What an action receives for a round. -/
def Action.received (round : UInt32) : Action → List (Option Envelope)
  | post _ => []
  | receive r batch => if r = round then batch else []

/-- The envelopes posted in a log. -/
def posts (log : List Action) : List Envelope :=
  log.filterMap Action.posted?

/-- What is received for a round in a log. -/
def reads (round : UInt32) (log : List Action) : List (Option Envelope) :=
  log.flatMap (Action.received round)

/-- The number of the round that follows after `k` others. -/
def roundNumber (k : Nat) : UInt32 :=
  UInt32.ofNat (k + 1)

/-- The calls on the signer in each round. -/
def callsOf (tape : Tape) (log : List Action) (k : Nat) : List Call :=
  [.start tape, .update ((reads (roundNumber k) log).filterMap id)]

/-- The stage that a participant gets to when it reads a batch. -/
def Participant.reached? (batch : List (Option Envelope)) : Participant → Option Stage
  | waiting signer _ _ =>
    let signer := signer.update (batch.filterMap id)
    if signer.isComplete then signer.next.toOption else none
  | ended _ => none

/-- A participant with what it has done. -/
structure Run where
  participant : Participant
  /-- The stages that it has got to, first one first. -/
  stages : List Stage
  /-- What it has done towards the relay, first action first. -/
  log : List Action

namespace Run

/-- The beginning of a run. -/
def begin (a : Entrant) (tape : Tape) : Run :=
  let step := Participant.begin a.hash a.config a.key a.message tape
  { participant := step.1
    stages := (a.commitRound.toOption.map fun r => .signing (.committing r)).toList
    log := (step.2.map .post).toList }

/-- The run after the participant received a batch, unless it has ended. -/
def receive (run : Run) (batch : List (Option Envelope)) : Run :=
  match run.participant with
  | .waiting signer _ _ =>
    let step := run.participant.read batch
    { participant := step.1
      stages := run.stages ++ (run.participant.reached? batch).toList
      log := run.log ++ [.receive signer.number batch] ++ (step.2.map .post).toList }
  | .ended _ => run

def giveUp (run : Run) : Run :=
  { run with participant := run.participant.giveUp }

/-- The run after the relay failed, unless it has ended. -/
def fail (run : Run) (e : Error) : Run :=
  match run.participant with
  | .waiting .. => { run with participant := .ended (.error e) }
  | .ended _ => run

def respond (run : Run) : Response → Run
  | .batch messages => run.receive messages
  | .timeout => run.giveUp
  | .failure e => run.fail e

end Run

/-- The run of a participant, given how the relay responds. -/
def Entrant.run (a : Entrant) (tape : Tape) (responses : List Response) : Run :=
  responses.foldl Run.respond (.begin a tape)

theorem Entrant.run_concat (a : Entrant) (tape : Tape) (responses : List Response)
    (response : Response) :
    a.run tape (responses ++ [response]) = (a.run tape responses).respond response :=
  List.foldl_concat ..

/-! ## Logs -/

section Log

variable {log : List Action}

theorem posts_append (log later : List Action) :
    posts (log ++ later) = posts log ++ posts later :=
  List.filterMap_append

theorem reads_append (round : UInt32) (log later : List Action) :
    reads round (log ++ later) = reads round log ++ reads round later :=
  List.flatMap_append

theorem posts_concat_post (log : List Action) (e : Envelope) :
    posts (log ++ [Action.post e]) = posts log ++ [e] :=
  posts_append log [Action.post e]

theorem posts_concat_receive (log : List Action) (round : UInt32)
    (batch : List (Option Envelope)) :
    posts (log ++ [Action.receive round batch]) = posts log :=
  (posts_append log [Action.receive round batch]).trans (List.append_nil _)

theorem reads_concat_post (round : UInt32) (log : List Action) (e : Envelope) :
    reads round (log ++ [Action.post e]) = reads round log :=
  (reads_append round log [Action.post e]).trans (List.append_nil _)

theorem reads_concat_receive (round : UInt32) (log : List Action) (r : UInt32)
    (batch : List (Option Envelope)) :
    reads round (log ++ [Action.receive r batch]) =
      reads round log ++ if r = round then batch else [] := by
  rw [reads_append]
  exact congrArg _ (List.append_nil _)

theorem roundNumber_inj {j k : Nat} (hj : j < 3) (hk : k < 3) :
    roundNumber j = roundNumber k ↔ j = k := by
  interval_cases j <;> interval_cases k <;> decide

theorem toNat_roundNumber {k : Nat} (hk : k < 3) : (roundNumber k).toNat = k + 1 := by
  interval_cases k <;> decide

theorem callsOf_concat_post (tape : Tape) (log : List Action) (e : Envelope) :
    callsOf tape (log ++ [Action.post e]) = callsOf tape log := by
  funext k
  rw [callsOf, callsOf, reads_concat_post]

/-- What is received in one round does not matter for another one. -/
theorem callsOf_concat_receive {tape : Tape} {j k : Nat} (hj : j < 3) (hk : k < 3)
    (hne : j ≠ k) (batch : List (Option Envelope)) :
    callsOf tape (log ++ [Action.receive (roundNumber k) batch]) j = callsOf tape log j := by
  rw [callsOf, callsOf, reads_concat_receive,
    if_neg fun h => hne ((roundNumber_inj hk hj).mp h).symm, List.append_nil]

theorem getElem?_concat_eq_some {α : Type} {xs : List α} {x y : α} {j : Nat}
    (h : (xs ++ [x])[j]? = some y) : xs[j]? = some y ∨ j = xs.length ∧ x = y := by
  rw [List.getElem?_append] at h
  split_ifs at h with hj
  · exact Or.inl h
  · obtain ⟨hlt, rfl⟩ := List.getElem?_eq_some_iff.mp h
    rw [List.length_singleton] at hlt
    exact Or.inr ⟨by omega, by rw [List.getElem_singleton]⟩

/-- A post in a longer log was there before or is the last action. -/
theorem concat_eq_append_post {x : Action} {before after : List Action} {e : Envelope}
    (h : log ++ [x] = before ++ Action.post e :: after) :
    (∃ after', log = before ++ Action.post e :: after') ∨ x = .post e ∧ log = before := by
  rcases List.eq_nil_or_concat after with rfl | ⟨after', y, rfl⟩
  · obtain ⟨hlog, hx⟩ := List.append_inj' h rfl
    exact Or.inr ⟨(List.cons.inj hx).1, hlog⟩
  · rw [List.concat_eq_append, ← List.cons_append, ← List.append_assoc] at h
    exact Or.inl ⟨after', (List.append_inj' h rfl).1⟩

end Log

/-! ## What a run amounts to -/

/-- Rounds are numbered from one on. -/
theorem Entrant.number_of_stageAfter {a : Entrant} {calls : Nat → List Call} {k : Nat}
    {s : Signer} (h : a.stageAfter calls k = .ok (.signing s)) :
    s.number = roundNumber k := by
  match k, lt_three_of_stageAfter h with
  | 0, _ =>
    obtain ⟨r, rfl⟩ := exists_of_stageAfter_zero h
    rfl
  | 1, _ =>
    obtain ⟨r, _, _, rfl, -⟩ := exists_of_stageAfter_one h
    rfl
  | 2, _ =>
    obtain ⟨r, rfl⟩ := exists_of_stageAfter_two h
    rfl

namespace Run

/--
An envelope is due after what is in a log: it is what the signer sends that the
participant has got to, and nothing was received for this round yet.
-/
structure Due (a : Entrant) (tape : Tape) (log : List Action) (e : Envelope) :
    Prop where
  /-- The signer in the round that follows the posts in the log sends the envelope. -/
  sent : ∃ s, a.stageAfter (callsOf tape log) (posts log).length = .ok (.signing s) ∧
    (s.start tape).1 = .ok e
  /-- Nothing was received for this round or a later one. -/
  unread : ∀ j < 3, (posts log).length ≤ j → reads (roundNumber j) log = []

/-- A participant waits in the round that follows after `k` others. -/
structure WaitsIn (a : Entrant) (tape : Tape) (run : Run) (k : Nat) (signer : Signer)
    (seen : Nat) : Prop where
  /-- This is the round that it got to last. -/
  length_stages : run.stages.length = k + 1
  /-- It is the signer that was started and given all that was received. -/
  signer_eq : ∃ s, run.stages[k]? = some (.signing s) ∧
    (∃ e, (s.start tape).1 = .ok e) ∧ signer = s.after (callsOf tape run.log k)
  length_posts : (posts run.log).length = k + 1
  /-- It has seen what it received for this round. -/
  seen_eq : seen = (reads (roundNumber k) run.log).length
  /-- It has received nothing for a later round. -/
  unread : ∀ j < 3, k < j → reads (roundNumber j) run.log = []

/-- What the stages and the log of a run amount to. -/
structure Recorded (a : Entrant) (tape : Tape) (stages : List Stage)
    (log : List Action) : Prop where
  /-- The stages are those of the signer with what was received in each round. -/
  stage_eq : ∀ k stage, stages[k]? = some stage →
    a.stageAfter (callsOf tape log) k = .ok stage
  /-- What is posted is what the signers send that the participant has got to. -/
  sent : ∀ (k : Nat) e, (posts log)[k]? = some e →
    ∃ s, stages[k]? = some (.signing s) ∧ (s.start tape).1 = .ok e
  /-- Every envelope was due when it was posted. -/
  due : ∀ before e after, log = before ++ .post e :: after → Due a tape before e

/-- What a run amounts to. -/
structure Sound (a : Entrant) (tape : Tape) (run : Run) : Prop
    extends Recorded a tape run.stages run.log where
  /-- A participant that waits does so in the round that it got to last. -/
  waits : ∀ signer tape' seen, run.participant = .waiting signer tape' seen →
    tape' = tape ∧ ∃ k, run.WaitsIn a tape k signer seen

namespace Recorded

variable {a : Entrant} {tape : Tape} {stages : List Stage} {log : List Action}

theorem nil (a : Entrant) (tape : Tape) : Recorded a tape [] [] := by
  constructor
  case stage_eq =>
    intro k stage hstage
    cases hstage
  case sent =>
    intro k e he
    cases he
  case due =>
    intro before e after hlog
    exact absurd hlog.symm
      (List.append_ne_nil_of_right_ne_nil _ (List.cons_ne_nil _ _))

/-- The participant gets to one more stage. -/
theorem stage (h : Recorded a tape stages log) {stage : Stage}
    (hstage : a.stageAfter (callsOf tape log) stages.length = .ok stage) :
    Recorded a tape (stages ++ [stage]) log := by
  refine ⟨?_, ?_, h.due⟩
  · intro j stage' hget
    rcases getElem?_concat_eq_some hget with hold | ⟨rfl, rfl⟩
    · exact h.stage_eq j stage' hold
    · exact hstage
  · intro j e he
    obtain ⟨s, hs, hstart⟩ := h.sent j e he
    have hj := (List.getElem?_eq_some_iff.mp hs).1
    exact ⟨s, by rwa [List.getElem?_append_left hj], hstart⟩

/-- The participant posts what the signer of its last stage sends. -/
theorem post {s : Signer} {e : Envelope} (h : Recorded a tape (stages ++ [Stage.signing s]) log)
    (hposts : (posts log).length = stages.length)
    (hunread : ∀ j < 3, stages.length ≤ j → reads (roundNumber j) log = [])
    (hstart : (s.start tape).1 = .ok e) :
    Recorded a tape (stages ++ [Stage.signing s]) (log ++ [Action.post e]) := by
  have hlast : (stages ++ [Stage.signing s])[(posts log).length]? = some (Stage.signing s) := by
    rw [hposts]
    exact List.getElem?_concat_length
  constructor
  case stage_eq =>
    rw [callsOf_concat_post]
    exact h.stage_eq
  case sent =>
    rw [posts_concat_post]
    intro j e' he'
    rcases getElem?_concat_eq_some he' with hold | ⟨rfl, rfl⟩
    · exact h.sent j e' hold
    · exact ⟨s, hlast, hstart⟩
  case due =>
    intro before e' after hlog
    rcases concat_eq_append_post hlog with ⟨after', hold⟩ | ⟨hpost, rfl⟩
    · exact h.due before e' after' hold
    · injection hpost with hpost
      subst hpost
      exact ⟨⟨s, h.stage_eq _ _ hlast, hstart⟩, fun j hj hle => hunread j hj (hposts ▸ hle)⟩

/-- The participant receives a batch in the round that it got to last. -/
theorem receive (h : Recorded a tape stages log) {k : Nat} (hlength : stages.length = k + 1)
    (hk : k < 3) (batch : List (Option Envelope)) :
    Recorded a tape stages (log ++ [Action.receive (roundNumber k) batch]) := by
  refine ⟨?_, ?_, ?_⟩
  · intro j stage hstage
    have hj : j < stages.length := (List.getElem?_eq_some_iff.mp hstage).1
    rw [← h.stage_eq j stage hstage]
    -- A stage depends on what was received in the rounds before it, and those are over.
    refine Entrant.stageAfter_congr fun i hi => ?_
    exact callsOf_concat_receive (by omega) hk (by omega) batch
  · rw [posts_concat_receive]
    exact h.sent
  · intro before e after hlog
    rcases concat_eq_append_post hlog with ⟨after', hold⟩ | ⟨hreceive, -⟩
    · exact h.due before e after' hold
    · cases hreceive

end Recorded

section Sound

variable {a : Entrant} {tape : Tape} {stages : List Stage} {log : List Action} {k : Nat}

theorem Recorded.sound_of_ended {result : Except Error Signature}
    (h : Recorded a tape stages log) : Sound a tape ⟨.ended result, stages, log⟩ := by
  refine ⟨h, ?_⟩
  rintro _ _ _ ⟨⟩

/-- A participant that enters the round of the next stage posts what is due. -/
theorem Recorded.sound_enter (h : Recorded a tape stages log) {s : Signer}
    (hlength : stages.length = k) (hposts : (posts log).length = k)
    (hunread : ∀ j < 3, k ≤ j → reads (roundNumber j) log = [])
    (hs : a.stageAfter (callsOf tape log) k = .ok (.signing s)) :
    Sound a tape ⟨(Participant.enter tape s).1, stages ++ [Stage.signing s],
      log ++ ((Participant.enter tape s).2.map .post).toList⟩ := by
  subst hlength
  have hnext := h.stage hs
  rw [Participant.enter]
  cases hstart : s.start tape with
  | mk sent s' =>
    cases sent with
    | error e =>
      dsimp only
      rw [Option.map_none, Option.toList_none, List.append_nil]
      exact hnext.sound_of_ended
    | ok e =>
      dsimp only
      rw [Option.map_some, Option.toList_some]
      refine ⟨hnext.post hposts hunread (congrArg Prod.fst hstart), ?_⟩
      intro signer tape' seen hwaits
      injection hwaits with hsigner htape hseen
      refine ⟨htape.symm, stages.length, ?_⟩
      have hk : stages.length < 3 := Entrant.lt_three_of_stageAfter hs
      have hnone : reads (roundNumber stages.length) log = [] := hunread _ hk le_rfl
      constructor
      case length_stages => rw [List.length_append, List.length_singleton]
      case signer_eq =>
        refine ⟨s, List.getElem?_concat_length, ⟨e, congrArg Prod.fst hstart⟩, ?_⟩
        -- Nothing was received for this round yet: the calls are a start and an empty batch.
        rw [callsOf_concat_post, callsOf, hnone, ← hsigner]
        have hafter : s.after [.start tape, .update []] =
            (s.start tape).2.update [] := rfl
        rw [List.filterMap_nil, hafter, hstart, Signer.update_nil]
      case length_posts =>
        rw [posts_concat_post, List.length_append, hposts, List.length_singleton]
      case seen_eq =>
        rw [reads_concat_post, hnone, ← hseen]
        rfl
      case unread =>
        intro j hj hlt
        rw [reads_concat_post]
        exact hunread j hj hlt.le

theorem begin_of_error {e : Error} (h : a.commitRound = .error e) (tape : Tape) :
    begin a tape = ⟨.ended (.error e), [], []⟩ := by
  have hnew : CommitRound.new a.hash a.config a.key a.message = .error e := h
  rw [begin, Participant.begin, hnew, h]
  rfl

theorem begin_of_ok {r : CommitRound} (h : a.commitRound = .ok r) (tape : Tape) :
    begin a tape = ⟨(Participant.enter tape (.committing r)).1,
      [] ++ [Stage.signing (.committing r)],
      [] ++ ((Participant.enter tape (.committing r)).2.map .post).toList⟩ := by
  have hnew : CommitRound.new a.hash a.config a.key a.message = .ok r := h
  rw [begin, Participant.begin, hnew, h]
  rfl

theorem sound_begin (a : Entrant) (tape : Tape) : (begin a tape).Sound a tape := by
  cases hround : a.commitRound with
  | error e =>
    rw [begin_of_error hround]
    exact (Recorded.nil a tape).sound_of_ended
  | ok r =>
    rw [begin_of_ok hround]
    exact (Recorded.nil a tape).sound_enter rfl rfl (fun _ _ _ => rfl)
      (map_eq_ok.mpr ⟨r, hround, rfl⟩)

section Receive

variable {run : Run} {signer : Signer} {seen : Nat}

/-- Receiving a batch extends the calls of the current round. -/
theorem WaitsIn.update_eq (h : run.WaitsIn a tape k signer seen)
    (batch : List (Option Envelope)) :
    ∃ s, run.stages[k]? = some (Stage.signing s) ∧ (∃ e, (s.start tape).1 = .ok e) ∧
      signer.update (batch.filterMap id) =
        s.after (callsOf tape (run.log ++ [Action.receive (roundNumber k) batch]) k) := by
  obtain ⟨s, hstage, hstart, hsigner⟩ := h.signer_eq
  refine ⟨s, hstage, hstart, ?_⟩
  have hafter : ∀ es, s.after [.start tape, .update es] = (s.start tape).2.update es :=
    fun _ => rfl
  rw [hsigner, callsOf, callsOf, reads_concat_receive, if_pos rfl, hafter, hafter,
    ← Signer.update_append, List.filterMap_append]

/-- A participant waits for messages of the round that it got to. -/
theorem WaitsIn.number_eq (h : run.WaitsIn a tape k signer seen)
    (hsound : run.Sound a tape) : signer.number = roundNumber k := by
  obtain ⟨s, hs, -, rfl⟩ := h.signer_eq
  rw [Signer.number_after, Entrant.number_of_stageAfter (hsound.stage_eq k _ hs)]

theorem WaitsIn.lt_three (h : run.WaitsIn a tape k signer seen)
    (hsound : run.Sound a tape) : k < 3 := by
  obtain ⟨s, hs, -⟩ := h.signer_eq
  exact Entrant.lt_three_of_stageAfter (hsound.stage_eq k _ hs)

/-- How a participant waits depends on its stages and its log only. -/
theorem WaitsIn.congr (h : run.WaitsIn a tape k signer seen) {run' : Run}
    (hstages : run'.stages = run.stages) (hlog : run'.log = run.log) :
    run'.WaitsIn a tape k signer seen := by
  constructor
  case length_stages => rw [hstages, h.length_stages]
  case signer_eq =>
    rw [hstages, hlog]
    exact h.signer_eq
  case length_posts => rw [hlog, h.length_posts]
  case seen_eq => rw [hlog, h.seen_eq]
  case unread =>
    rw [hlog]
    exact h.unread

/-! ### What a batch leads to -/

section Batch

variable {batch : List (Option Envelope)} {t : Signer}

theorem receive_of_incomplete (h : run.participant = .waiting signer tape seen)
    (ht : signer.update (batch.filterMap id) = t) (hcomplete : t.isComplete = false) :
    run.receive batch =
      ⟨.waiting t tape (seen + batch.length), run.stages,
        run.log ++ [Action.receive signer.number batch]⟩ := by
  rw [Run.receive, h]
  simp only [Participant.read, Participant.reached?, ht, hcomplete, Bool.false_eq_true,
    if_false, Option.map_none, Option.toList_none, List.append_nil]

theorem receive_of_signing (h : run.participant = .waiting signer tape seen)
    (ht : signer.update (batch.filterMap id) = t) (hcomplete : t.isComplete = true)
    {s : Signer} (hnext : t.next = .ok (.signing s)) :
    run.receive batch =
      ⟨(Participant.enter tape s).1, run.stages ++ [Stage.signing s],
        run.log ++ [Action.receive signer.number batch] ++
          ((Participant.enter tape s).2.map .post).toList⟩ := by
  rw [Run.receive, h]
  simp only [Participant.read, Participant.reached?, ht, hcomplete, if_true, hnext]
  rfl

theorem receive_of_finalizing (h : run.participant = .waiting signer tape seen)
    (ht : signer.update (batch.filterMap id) = t) (hcomplete : t.isComplete = true)
    {f : Finalization} (hnext : t.next = .ok (.finalizing f)) :
    run.receive batch =
      ⟨.ended f.finalize, run.stages ++ [Stage.finalizing f],
        run.log ++ [Action.receive signer.number batch]⟩ := by
  rw [Run.receive, h]
  simp only [Participant.read, Participant.reached?, ht, hcomplete, if_true, hnext,
    Option.map_none, Option.toList_none, List.append_nil]
  rfl

theorem receive_of_error (h : run.participant = .waiting signer tape seen)
    (ht : signer.update (batch.filterMap id) = t) (hcomplete : t.isComplete = true)
    {e : Error} (hnext : t.next = .error e) :
    run.receive batch =
      ⟨.ended (.error e), run.stages, run.log ++ [Action.receive signer.number batch]⟩ := by
  rw [Run.receive, h]
  simp only [Participant.read, Participant.reached?, ht, hcomplete, if_true, hnext,
    Option.map_none, Option.toList_none, List.append_nil]
  exact congrArg (Run.mk _ · _) (List.append_nil _)

end Batch

theorem Sound.receive (h : run.Sound a tape) (batch : List (Option Envelope)) :
    (run.receive batch).Sound a tape := by
  cases hparticipant : run.participant with
  | ended result =>
    rw [Run.receive, hparticipant]
    exact h
  | waiting signer tape' seen =>
    obtain ⟨rfl, k, hwaits⟩ := h.waits signer tape' seen hparticipant
    obtain ⟨s, hs, hstart, hupdate⟩ := hwaits.update_eq batch
    have hk := hwaits.lt_three h
    have hnumber := hwaits.number_eq h
    have hrecorded := h.toRecorded.receive hwaits.length_stages hk batch
    have hunread : ∀ j < 3, k < j →
        reads (roundNumber j) (run.log ++ [Action.receive (roundNumber k) batch]) = [] := by
      intro j hj hlt
      rw [reads_concat_receive, hwaits.unread j hj hlt, List.nil_append,
        if_neg fun heq => hlt.ne ((roundNumber_inj hk hj).mp heq)]
    have hposts : (posts (run.log ++ [Action.receive (roundNumber k) batch])).length = k + 1 := by
      rw [posts_concat_receive, hwaits.length_posts]
    have hnext : ∀ stage, (signer.update (batch.filterMap id)).next = .ok stage →
        a.stageAfter (callsOf tape' (run.log ++ [Action.receive (roundNumber k) batch])) (k + 1) =
          .ok stage := by
      intro stage hnext
      rw [Entrant.stageAfter_succ (hrecorded.stage_eq k _ hs), ← hupdate, hnext]
    generalize ht : signer.update (batch.filterMap id) = t at hupdate hnext
    -- The cases are those of the loop: wait on, fail, enter the next round, or finalize.
    cases hcomplete : t.isComplete with
    | false =>
      rw [receive_of_incomplete hparticipant ht hcomplete, hnumber]
      refine ⟨hrecorded, ?_⟩
      intro signer' tape'' seen' hparticipant'
      injection hparticipant' with hsigner htape hseen
      refine ⟨htape.symm, k, hwaits.length_stages, ⟨s, hs, hstart, ?_⟩, hposts, ?_,
        hunread⟩
      · rw [← hsigner, hupdate]
      · rw [← hseen, hwaits.seen_eq, reads_concat_receive, if_pos rfl,
          List.length_append]
    | true =>
      cases hstage : t.next with
      | error e =>
        rw [receive_of_error hparticipant ht hcomplete hstage, hnumber]
        exact hrecorded.sound_of_ended
      | ok stage =>
        cases stage with
        | signing s' =>
          rw [receive_of_signing hparticipant ht hcomplete hstage, hnumber]
          exact hrecorded.sound_enter hwaits.length_stages hposts hunread (hnext _ hstage)
        | finalizing f =>
          rw [receive_of_finalizing hparticipant ht hcomplete hstage, hnumber]
          exact (hrecorded.stage
            (hwaits.length_stages.symm ▸ hnext _ hstage)).sound_of_ended

theorem Sound.giveUp (h : run.Sound a tape) : run.giveUp.Sound a tape := by
  refine ⟨h.toRecorded, ?_⟩
  intro signer tape' seen hwaits
  cases hparticipant : run.participant with
  | waiting =>
    rw [Run.giveUp, hparticipant] at hwaits
    cases hwaits
  | ended result =>
    rw [Run.giveUp, hparticipant] at hwaits
    cases hwaits

theorem Sound.fail (h : run.Sound a tape) (e : Error) :
    (run.fail e).Sound a tape := by
  cases hparticipant : run.participant with
  | waiting =>
    rw [Run.fail, hparticipant]
    exact h.toRecorded.sound_of_ended
  | ended result =>
    rw [Run.fail, hparticipant]
    exact h

theorem Sound.respond (h : run.Sound a tape) (response : Response) :
    (run.respond response).Sound a tape := by
  cases response with
  | batch messages => exact h.receive messages
  | timeout => exact h.giveUp
  | failure e => exact h.fail e

end Receive

end Sound

end Run

theorem Entrant.sound_run (a : Entrant) (tape : Tape) (responses : List Response) :
    (a.run tape responses).Sound a tape := by
  have hfold : ∀ run : Run, run.Sound a tape →
      (responses.foldl Run.respond run).Sound a tape := by
    induction responses with
    | nil => exact fun run h => h
    | cons response responses ih => exact fun run h => ih _ (h.respond response)
  exact hfold _ (Run.sound_begin a tape)

end Quorum
