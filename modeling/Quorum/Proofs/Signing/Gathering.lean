import Mathlib
import Quorum.Relay
import Quorum.Proofs.Signing.Standing

/-!
# Gatherings

Participants that share a relay with anybody else.  Everything may happen at
any time: somebody posts a text to a mailbox, a participant joins, hands over a
message that it has ready, reads what is new to it, or loses its patience when
nothing is.  Whatever happens, a participant consumes the mailbox of a round
from the beginning, every text once and in its place, and goes on as soon as
what it has consumed holds a message of every peer.
-/

namespace Quorum

/-! ## Mailboxes -/

namespace Relay

theorem mailbox_post (relay : Relay) (key key' : MailboxKey) (text : String) :
    (relay.post key' text).mailbox key =
      relay.mailbox key ++ if key' = key then [text] else [] := by
  rw [mailbox, post, List.filterMap_append, mailbox]
  split_ifs with h
  · simp [h]
  · simp [h]

theorem mailbox_prefix_post (relay : Relay) (key key' : MailboxKey) (text : String) :
    relay.mailbox key <+: (relay.post key' text).mailbox key := by
  rw [mailbox_post]
  exact List.prefix_append _ _

theorem receive?_eq_some {relay : Relay} {key : MailboxKey} {seen : Nat}
    {batch : List (Option Envelope)} :
    relay.receive? key seen = some batch ↔
      batch ≠ [] ∧ batch = ((relay.mailbox key).drop seen).map (Wire.read? Envelope) := by
  rw [receive?]
  cases hunseen : (relay.mailbox key).drop seen with
  | nil => simp
  | cons text texts =>
    rw [List.isEmpty_cons, if_neg Bool.false_ne_true, Option.some.injEq, List.map_cons]
    constructor
    · rintro rfl
      exact ⟨List.cons_ne_nil _ _, rfl⟩
    · rintro ⟨-, rfl⟩
      rfl

theorem receive?_eq_none {relay : Relay} {key : MailboxKey} {seen : Nat} :
    relay.receive? key seen = none ↔ (relay.mailbox key).length ≤ seen := by
  rw [receive?, ← List.drop_eq_nil_iff]
  cases (relay.mailbox key).drop seen with
  | nil => simp
  | cons text texts => simp

end Relay

/-! ## Gatherings -/

/-- A participant with how the relay has responded to it. -/
structure Member where
  entrant : Entrant
  tape : Tape
  /-- The responses of the relay, first one first. -/
  responses : List Response
  /-- The number of its messages that it has handed over to the relay. -/
  posted : Nat

namespace Member

def run (m : Member) : Run :=
  m.entrant.run m.tape m.responses

/-- The mailbox of a round in its session. -/
def mailboxKey (m : Member) (round : UInt32) : MailboxKey :=
  ⟨m.entrant.config.sessionId, round⟩

/-- The message that it has to hand over next. -/
def pending? (m : Member) : Option Envelope :=
  (posts m.run.log)[m.posted]?

/--
The mailbox that it waits for and how much it has seen of it, once all its
messages are handed over.
-/
def awaited? (m : Member) : Option (MailboxKey × Nat) :=
  match m.pending?, m.run.participant with
  | none, .waiting signer _ seen => some (m.mailboxKey signer.number, seen)
  | _, _ => none

def handOver (m : Member) : Member :=
  { m with posted := m.posted + 1 }

def respond (m : Member) (response : Response) : Member :=
  { m with responses := m.responses ++ [response] }

/-- The participant after it read what is new to it. -/
def read (relay : Relay) (m : Member) : Member :=
  match m.awaited?.bind fun (key, seen) => relay.receive? key seen with
  | some batch => m.respond (.batch batch)
  | none => m

/-- The participant after its patience ended, unless something is new to it. -/
def expire (relay : Relay) (m : Member) : Member :=
  match m.awaited? with
  | some (key, seen) =>
    if (relay.receive? key seen).isSome then m else m.respond .timeout
  | none => m

end Member

/-- A relay with participants of any sessions. -/
structure Gathering where
  relay : Relay
  members : List Member

namespace Gathering

/-- What may happen. -/
inductive Event
  /-- Somebody posts a text. -/
  | post (key : MailboxKey) (text : String)
  /-- One more participant joins. -/
  | join (a : Entrant) (tape : Tape)
  /-- A participant hands over a message. -/
  | deliver (i : Nat)
  /-- A participant reads. -/
  | read (i : Nat)
  /-- The patience of a participant ends. -/
  | expire (i : Nat)

/-- The gathering after one more event. -/
def step (g : Gathering) : Event → Gathering
  | .post key text => { g with relay := g.relay.post key text }
  | .join a tape => { g with members := g.members ++ [⟨a, tape, [], 0⟩] }
  | .deliver i =>
    match g.members[i]?.bind fun m => m.pending?.map fun e => (m.mailboxKey e.round, e) with
    | some (key, e) =>
      ⟨g.relay.post key (Wire.write e), g.members.modify i Member.handOver⟩
    | none => g
  | .read i => { g with members := g.members.modify i (Member.read g.relay) }
  | .expire i => { g with members := g.members.modify i (Member.expire g.relay) }

def after (events : List Event) : Gathering :=
  events.foldl step ⟨.empty, []⟩

theorem after_concat (events : List Event) (event : Event) :
    after (events ++ [event]) = (after events).step event :=
  List.foldl_concat ..

/-- What an event makes of a participant. -/
inductive Moves (g : Gathering) (i : Nat) (event : Event) (m : Member) : Member → Prop
  | stay : Moves g i event m m
  /-- Its next message is in the mailbox. -/
  | handOver (e : Envelope) (pending : m.pending? = some e)
    (relay : (g.step event).relay = g.relay.post (m.mailboxKey e.round) (Wire.write e)) :
    Moves g i event m m.handOver
  /-- It received all that is new in the mailbox that it waits for. -/
  | read (key : MailboxKey) (seen : Nat) (batch : List (Option Envelope))
    (awaited : m.awaited? = some (key, seen))
    (received : g.relay.receive? key seen = some batch) :
    Moves g i event m (m.respond (.batch batch))
  /-- Its patience ended, and there is nothing new in the mailbox that it waits for. -/
  | expire (key : MailboxKey) (seen : Nat) (expired : event = .expire i)
    (awaited : m.awaited? = some (key, seen))
    (nothing : g.relay.receive? key seen = none) :
    Moves g i event m (m.respond .timeout)

theorem mailbox_prefix_step (g : Gathering) (event : Event) (key : MailboxKey) :
    g.relay.mailbox key <+: (g.step event).relay.mailbox key := by
  cases event with
  | post key' text => exact g.relay.mailbox_prefix_post key key' text
  | join a tape => exact List.prefix_rfl
  | read i => exact List.prefix_rfl
  | expire i => exact List.prefix_rfl
  | deliver i =>
    rw [step]
    split
    · exact g.relay.mailbox_prefix_post key _ _
    · exact List.prefix_rfl

theorem moves_read (g : Gathering) (i : Nat) (event : Event) (m : Member) :
    g.Moves i event m (m.read g.relay) := by
  rw [Member.read]
  split
  · next batch hbatch =>
    obtain ⟨⟨key, seen⟩, hawaited, hreceived⟩ := Option.bind_eq_some_iff.mp hbatch
    exact .read key seen batch hawaited hreceived
  · exact .stay

theorem moves_expire (g : Gathering) (i : Nat) (m : Member) :
    g.Moves i (.expire i) m (m.expire g.relay) := by
  rw [Member.expire]
  split
  · next key seen hawaited =>
    split_ifs with hsome
    · exact .stay
    · exact .expire key seen rfl hawaited (Option.not_isSome_iff_eq_none.mp hsome)
  · exact .stay

/-- After an event a participant has just joined, or was there and moved. -/
theorem exists_moves {g : Gathering} {event : Event} {i : Nat} {m' : Member}
    (h : (g.step event).members[i]? = some m') :
    (∃ a tape, m' = ⟨a, tape, [], 0⟩) ∨
      ∃ m, g.members[i]? = some m ∧ g.Moves i event m m' := by
  -- An event that concerns one participant leaves the others as they are.
  have hmodify : ∀ {f : Member → Member} {i' : Nat},
      (g.members.modify i' f)[i]? = some m' →
        ∃ m, g.members[i]? = some m ∧ m' = if i' = i then f m else m := by
    intro f i' hget
    rw [List.getElem?_modify] at hget
    obtain ⟨m, hm, rfl⟩ := Option.map_eq_some_iff.mp hget
    exact ⟨m, hm, rfl⟩
  cases event with
  | post key text => exact Or.inr ⟨m', h, .stay⟩
  | join a tape =>
    rcases getElem?_concat_eq_some h with hold | ⟨-, rfl⟩
    · exact Or.inr ⟨m', hold, .stay⟩
    · exact Or.inl ⟨a, tape, rfl⟩
  | deliver i' =>
    rw [step] at h
    split at h
    · next key e hdeliver =>
      obtain ⟨m₀, hm₀, he⟩ := Option.bind_eq_some_iff.mp hdeliver
      obtain ⟨e', hpending, heq⟩ := Option.map_eq_some_iff.mp he
      obtain ⟨rfl, rfl⟩ := Prod.mk.inj heq
      obtain ⟨m, hm, rfl⟩ := hmodify h
      refine Or.inr ⟨m, hm, ?_⟩
      split_ifs with hi
      · subst hi
        obtain rfl : m₀ = m := Option.some.inj (hm₀.symm.trans hm)
        refine .handOver e' hpending ?_
        rw [step, hdeliver]
      · exact .stay
    · exact Or.inr ⟨m', h, .stay⟩
  | read i' =>
    obtain ⟨m, hm, rfl⟩ := hmodify h
    refine Or.inr ⟨m, hm, ?_⟩
    split_ifs
    · exact g.moves_read i _ m
    · exact .stay
  | expire i' =>
    obtain ⟨m, hm, rfl⟩ := hmodify h
    refine Or.inr ⟨m, hm, ?_⟩
    split_ifs with hi
    · subst hi
      exact g.moves_expire i' m
    · exact .stay

end Gathering

/-! ## What participants consume -/

namespace Member

open Gathering (Event)

/-- A participant of a gathering awaits more of the mailbox of the round it waits in. -/
theorem exists_of_awaited {m : Member} {key : MailboxKey} {seen : Nat}
    (h : m.awaited? = some (key, seen)) :
    ∃ k signer, k < 3 ∧ key = m.mailboxKey (roundNumber k) ∧
      m.run.participant = .waiting signer m.tape seen ∧ signer.number = roundNumber k ∧
      m.run.WaitsIn m.entrant m.tape k signer seen := by
  have hsound : m.run.Sound m.entrant m.tape :=
    m.entrant.sound_run m.tape m.responses
  rw [awaited?] at h
  split at h
  · next signer tape' seen' hpending hwaiting =>
    obtain ⟨rfl, rfl⟩ := Prod.mk.inj (Option.some.inj h)
    obtain ⟨rfl, k, hwaits⟩ := hsound.waits signer tape' seen' hwaiting
    have hnumber := hwaits.number_eq hsound
    obtain ⟨s, hs, -⟩ := hwaits.signer_eq
    have hk := Entrant.lt_three_of_stageAfter (hsound.stage_eq k _ hs)
    exact ⟨k, signer, hk, by rw [hnumber], hwaiting, hnumber, hwaits⟩
  · cases h

theorem run_respond (m : Member) (response : Response) :
    (m.respond response).run = m.run.respond response :=
  m.entrant.run_concat m.tape m.responses response

theorem log_respond_batch {m : Member} {signer : Signer} {tape : Tape} {seen : Nat}
    (h : m.run.participant = .waiting signer tape seen)
    (batch : List (Option Envelope)) :
    ∃ sent : Option Envelope, (m.respond (.batch batch)).run.log =
      m.run.log ++ [.receive signer.number batch] ++ (sent.map .post).toList := by
  rw [run_respond, Run.respond, Run.receive, h]
  exact ⟨_, rfl⟩

/-- What a participant consumed so far. -/
structure Consistent (events : List Event) (i : Nat) (m : Member) : Prop where
  /-- What it received in a round is the beginning of the mailbox. -/
  reads_prefix : ∀ k < 3, reads (roundNumber k) m.run.log <+:
    ((Gathering.after events).relay.mailbox (m.mailboxKey (roundNumber k))).map
      (Wire.read? Envelope)
  batch_ne_nil : ∀ round batch, .receive round batch ∈ m.run.log → batch ≠ []
  posted_le : m.posted ≤ (posts m.run.log).length
  /-- The mailboxes hold what it has handed over. -/
  delivered : ∀ (k : Nat) e, k < m.posted → (posts m.run.log)[k]? = some e →
    Wire.write e ∈ (Gathering.after events).relay.mailbox (m.mailboxKey e.round)
  /-- The relay does not fail. -/
  reliable : ∀ e, .failure e ∉ m.responses
  /-- When its patience ended, there was nothing that it had not received. -/
  quiet : .timeout ∈ m.responses → ∃ k before after, k < 3 ∧
    m.run.stages.length = k + 1 ∧ events = before ++ .expire i :: after ∧
    ((Gathering.after before).relay.mailbox (m.mailboxKey (roundNumber k))).length =
      (reads (roundNumber k) m.run.log).length

namespace Consistent

variable {events : List Event} {i : Nat} {m : Member} {event : Event}

theorem joined (events : List Event) (i : Nat) (a : Entrant) (tape : Tape) :
    Consistent events i ⟨a, tape, [], 0⟩ := by
  have hlog : ∀ action ∈ (Run.begin a tape).log, ∃ e, action = .post e := by
    intro action haction
    rw [Run.begin, Option.mem_toList] at haction
    obtain ⟨e, -, rfl⟩ := Option.map_eq_some_iff.mp haction
    exact ⟨e, rfl⟩
  constructor
  case reads_prefix =>
    intro k _
    have hnothing : reads (roundNumber k) (Run.begin a tape).log = [] := by
      rw [reads, List.flatMap_eq_nil_iff]
      intro action haction
      obtain ⟨e, rfl⟩ := hlog action haction
      rfl
    exact hnothing ▸ List.nil_prefix
  case batch_ne_nil =>
    intro round batch hreceive
    obtain ⟨e, he⟩ := hlog _ hreceive
    cases he
  case posted_le => exact Nat.zero_le _
  case delivered =>
    intro k e hk
    exact absurd hk (Nat.not_lt_zero k)
  case reliable => exact fun e => List.not_mem_nil
  case quiet => exact fun h => absurd h List.not_mem_nil

/-- What happens elsewhere only makes mailboxes longer. -/
theorem stay (h : m.Consistent events i) (event : Event) :
    m.Consistent (events ++ [event]) i := by
  have hmailbox := fun key => (Gathering.after events).mailbox_prefix_step event key
  rw [← Gathering.after_concat] at hmailbox
  constructor
  case reads_prefix =>
    intro k hk
    exact (h.reads_prefix k hk).trans ((hmailbox _).map _)
  case batch_ne_nil => exact h.batch_ne_nil
  case posted_le => exact h.posted_le
  case delivered =>
    intro k e hk he
    exact (hmailbox _).mem (h.delivered k e hk he)
  case reliable => exact h.reliable
  case quiet =>
    intro htimeout
    obtain ⟨k, before, after, hk, hstages, rfl, hlength⟩ := h.quiet htimeout
    exact ⟨k, before, after ++ [event], hk, hstages, by simp, hlength⟩

theorem handOver (h : m.Consistent events i) {e : Envelope}
    (hpending : m.pending? = some e)
    (hrelay : (Gathering.after (events ++ [event])).relay =
      (Gathering.after events).relay.post (m.mailboxKey e.round) (Wire.write e)) :
    m.handOver.Consistent (events ++ [event]) i := by
  have hstay := h.stay event
  have hlt : m.posted < (posts m.run.log).length :=
    (List.getElem?_eq_some_iff.mp hpending).1
  refine ⟨hstay.reads_prefix, hstay.batch_ne_nil, hlt, ?_, hstay.reliable, hstay.quiet⟩
  intro k e' hk he'
  by_cases hbefore : k < m.posted
  · exact hstay.delivered k e' hbefore he'
  · obtain rfl : k = m.posted := by
      have hle : k < m.posted + 1 := hk
      omega
    obtain rfl : e = e' := Option.some.inj (hpending.symm.trans he')
    have hkey : m.handOver.mailboxKey e.round = m.mailboxKey e.round := rfl
    rw [hrelay, Relay.mailbox_post, hkey, if_pos rfl]
    exact List.mem_concat_self ..

theorem read (h : m.Consistent events i) {key : MailboxKey} {seen : Nat}
    {batch : List (Option Envelope)} (hawaited : m.awaited? = some (key, seen))
    (hreceived : (Gathering.after events).relay.receive? key seen = some batch) :
    (m.respond (.batch batch)).Consistent (events ++ [event]) i := by
  have hstay := h.stay event
  obtain ⟨k, signer, hk, rfl, hwaiting, hnumber, hwaits⟩ := exists_of_awaited hawaited
  obtain ⟨hne, hbatch⟩ := Relay.receive?_eq_some.mp hreceived
  obtain ⟨sent, hlog⟩ := log_respond_batch hwaiting batch
  rw [hnumber] at hlog
  have hposts : posts (m.respond (.batch batch)).run.log =
      posts m.run.log ++ sent.toList := by
    rw [hlog, posts_append, posts_concat_receive]
    cases sent <;> rfl
  constructor
  case reads_prefix =>
    intro j hj
    have hreads : reads (roundNumber j) (m.respond (.batch batch)).run.log =
        reads (roundNumber j) m.run.log ++
          if roundNumber k = roundNumber j then batch else [] := by
      rw [hlog, reads_append, reads_concat_receive]
      cases sent <;> exact List.append_nil _
    rw [hreads]
    split_ifs with heq
    · -- What was received before is the part of the mailbox that was seen.
      have hmailbox := (Gathering.after events).mailbox_prefix_step event
        (m.mailboxKey (roundNumber k))
      rw [← Gathering.after_concat] at hmailbox
      have hbefore := List.prefix_iff_eq_take.mp (h.reads_prefix k hk)
      rw [← hwaits.seen_eq, ← List.map_take] at hbefore
      rw [← heq, hbefore, hbatch, ← List.map_append, List.take_append_drop]
      exact hmailbox.map _
    · rw [List.append_nil]
      exact hstay.reads_prefix j hj
  case batch_ne_nil =>
    intro round batch' hreceive
    rw [hlog, List.mem_append, List.mem_append, List.mem_singleton] at hreceive
    rcases hreceive with (hold | hnew) | hsent
    · exact h.batch_ne_nil round batch' hold
    · injection hnew with _ hnew
      rw [hnew]
      exact hne
    · cases sent with
      | none => cases hsent
      | some e => cases List.mem_singleton.mp hsent
  case posted_le =>
    rw [hposts, List.length_append]
    exact h.posted_le.trans (Nat.le_add_right _ _)
  case delivered =>
    intro j e hj he
    rw [hposts, List.getElem?_append_left (hj.trans_le h.posted_le)] at he
    exact hstay.delivered j e hj he
  case reliable =>
    intro e hfailure
    rcases List.mem_append.mp hfailure with hold | hnew
    · exact h.reliable e hold
    · cases List.mem_singleton.mp hnew
  case quiet =>
    intro htimeout
    rcases List.mem_append.mp htimeout with hold | hnew
    · obtain ⟨result, hended⟩ := m.entrant.exists_ended_of_timeout m.tape hold
      cases hwaiting.symm.trans hended
    · cases List.mem_singleton.mp hnew

theorem expire (h : m.Consistent events i) {key : MailboxKey} {seen : Nat}
    (hawaited : m.awaited? = some (key, seen))
    (hnothing : (Gathering.after events).relay.receive? key seen = none) :
    (m.respond .timeout).Consistent (events ++ [Event.expire i]) i := by
  have hstay := h.stay (.expire i)
  obtain ⟨k, signer, hk, rfl, -, -, hwaits⟩ := exists_of_awaited hawaited
  have hlog : (m.respond .timeout).run.log = m.run.log := by
    rw [run_respond]
    rfl
  constructor
  case reads_prefix =>
    rw [hlog]
    exact hstay.reads_prefix
  case batch_ne_nil =>
    rw [hlog]
    exact hstay.batch_ne_nil
  case posted_le =>
    rw [hlog]
    exact hstay.posted_le
  case delivered =>
    rw [hlog]
    exact hstay.delivered
  case reliable =>
    intro e hfailure
    rcases List.mem_append.mp hfailure with hold | hnew
    · exact h.reliable e hold
    · cases List.mem_singleton.mp hnew
  case quiet =>
    intro _
    have hle := (h.reads_prefix k hk).length_le
    rw [List.length_map, ← hwaits.seen_eq] at hle
    have hge := Relay.receive?_eq_none.mp hnothing
    refine ⟨k, events, [], hk, ?_, rfl, ?_⟩
    · rw [run_respond]
      exact hwaits.length_stages
    · rw [hlog, ← hwaits.seen_eq]
      exact le_antisymm hge hle

end Consistent

end Member

theorem Gathering.consistent {events : List Event} {i : Nat} {m : Member}
    (h : (after events).members[i]? = some m) : m.Consistent events i := by
  induction events using List.reverseRecOn generalizing m with
  | nil => cases h
  | append_singleton events event ih =>
    rw [after_concat] at h
    rcases exists_moves h with ⟨a, tape, rfl⟩ | ⟨m₀, hm₀, hmoves⟩
    · exact .joined _ i a tape
    · have hbefore := ih hm₀
      cases hmoves with
      | stay => exact hbefore.stay event
      | handOver e pending relay =>
        rw [← after_concat] at relay
        exact hbefore.handOver pending relay
      | read key seen batch awaited received => exact hbefore.read awaited received
      | expire key seen expired awaited nothing =>
        subst expired
        exact hbefore.expire awaited nothing

/--
What a participant consumes of the mailboxes of its session, and what comes of
each round in which it has posted its message.
-/
structure Member.Consumes (events : List Gathering.Event) (i : Nat) (m : Member) :
    Prop where
  /-- What it received in a round is the beginning of the mailbox, each text in its place. -/
  reads_eq : ∀ k < 3,
    ∃ seen ≤ ((Gathering.after events).relay.mailbox (m.mailboxKey (roundNumber k))).length,
      reads (roundNumber k) m.run.log =
        (((Gathering.after events).relay.mailbox (m.mailboxKey (roundNumber k))).take seen).map
          (Wire.read? Envelope)
  batch_ne_nil : ∀ round batch, .receive round batch ∈ m.run.log → batch ≠ []
  /-- The mailboxes hold what it has handed over. -/
  delivered : ∀ (k : Nat) e, k < m.posted → (posts m.run.log)[k]? = some e →
    Wire.write e ∈ (Gathering.after events).relay.mailbox (m.mailboxKey e.round)
  /-- It is past a round with the first message of each peer once all of them were heard. -/
  completes : ∀ k < (posts m.run.log).length, m.entrant.Heard m.run.log k →
    ∃ stage, m.run.stages[k + 1]? = some stage ∧
      ∀ j < m.entrant.config.parties.length, j ≠ m.entrant.config.partyIndex.toNat →
        stage.contents[j]? = firstFrom? m.run.log k j
  /--
  Until then it waits for what follows what it has received, unless its patience
  ended when nothing followed.
  -/
  waits : ∀ k < (posts m.run.log).length, ¬ m.entrant.Heard m.run.log k →
    m.run.stages.length = k + 1 ∧ ∃ seen, seen = (reads (roundNumber k) m.run.log).length ∧
      ((∃ signer, m.run.participant = .waiting signer m.tape seen ∧
          signer.number = roundNumber k) ∨
        m.run.participant = .ended (.error (.timeout (.broadcasts (k + 1) seen))) ∧
          ∃ before after, events = before ++ .expire i :: after ∧
            ((Gathering.after before).relay.mailbox
              (m.mailboxKey (roundNumber k))).length = seen)
  /-- When it reads, it receives everything that is new. -/
  reads_next : ∀ key seen, m.awaited? = some (key, seen) →
    seen < ((Gathering.after events).relay.mailbox key).length →
      (Gathering.after (events ++ [.read i])).members[i]? = some (m.respond (.batch
        ((((Gathering.after events).relay.mailbox key).drop seen).map
          (Wire.read? Envelope))))
  /-- When its patience ends and nothing is new, its run ends for this reason. -/
  expires : ∀ key seen, m.awaited? = some (key, seen) →
    ((Gathering.after events).relay.mailbox key).length ≤ seen →
      ∃ m', (Gathering.after (events ++ [.expire i])).members[i]? = some m' ∧
        m'.run.participant =
          .ended (.error (.timeout (.broadcasts key.round.toNat seen)))

namespace Gathering

variable {events : List Event} {i : Nat} {m : Member}

theorem getElem?_after_read (h : (after events).members[i]? = some m) :
    (after (events ++ [Event.read i])).members[i]? = some (m.read (after events).relay) := by
  rw [after_concat, step, List.getElem?_modify, h]
  exact congrArg some (if_pos rfl)

theorem getElem?_after_expire (h : (after events).members[i]? = some m) :
    (after (events ++ [Event.expire i])).members[i]? =
      some (m.expire (after events).relay) := by
  rw [after_concat, step, List.getElem?_modify, h]
  exact congrArg some (if_pos rfl)

/-- Every participant consumes each entry of its mailboxes once, and goes on when it can. -/
theorem consumption (h : (after events).members[i]? = some m) : m.Consumes events i := by
  have hconsistent := consistent h
  have hsound : m.run.Sound m.entrant m.tape :=
    m.entrant.sound_run m.tape m.responses
  have hstands : m.run.Stands m.entrant m.tape m.responses :=
    m.entrant.stands_run m.tape m.responses
  have haccepted := (m.entrant.release m.tape m.responses).accepted
  have hlt : ∀ k < (posts m.run.log).length, k < 3 := by
    intro k hk
    exact (hsound.getElem?_posts (List.getElem?_eq_getElem hk)).1
  constructor
  case reads_eq =>
    intro k hk
    have hprefix := hconsistent.reads_prefix k hk
    refine ⟨(reads (roundNumber k) m.run.log).length,
      hprefix.length_le.trans (List.length_map ..).le, ?_⟩
    rw [List.map_take]
    exact List.prefix_iff_eq_take.mp hprefix
  case batch_ne_nil => exact hconsistent.batch_ne_nil
  case delivered => exact hconsistent.delivered
  case completes =>
    intro k hk hheard
    rcases hstands.of_posted hk with ⟨stage, hstage⟩ | ⟨signer, seen, -, hunheard, -⟩
    · refine ⟨stage, hstage, fun j hj hne => ?_⟩
      obtain ⟨content, hfirst, hcontent⟩ := haccepted k (hlt k hk) stage hstage j hj hne
      exact hcontent.trans hfirst.symm
    · exact absurd hheard hunheard
  case waits =>
    intro k hk hunheard
    rcases hstands.of_posted hk with ⟨stage, hstage⟩ | ⟨signer, seen, hwaits, -, hresult⟩
    · refine absurd (fun j hj hne => ?_) hunheard
      obtain ⟨content, hfirst, -⟩ := haccepted k (hlt k hk) stage hstage j hj hne
      exact Option.isSome_iff_exists.mpr ⟨content, hfirst⟩
    · refine ⟨hwaits.length_stages, seen, hwaits.seen_eq, ?_⟩
      rcases hresult with hwaiting | ⟨e, hended, ⟨rfl, htimeout⟩ | hfailure⟩
      · exact Or.inl ⟨signer, hwaiting, hwaits.number_eq hsound⟩
      · obtain ⟨k', before, after, -, hstages, hevents, hlength⟩ :=
          hconsistent.quiet htimeout
        obtain rfl : k' = k := by
          have hlast := hwaits.length_stages
          omega
        exact Or.inr ⟨hended, before, after, hevents, hlength.trans hwaits.seen_eq.symm⟩
      · exact absurd hfailure (hconsistent.reliable e)
  case reads_next =>
    intro key seen hawaited hnew
    have hreceived : (after events).relay.receive? key seen =
        some ((((after events).relay.mailbox key).drop seen).map (Wire.read? Envelope)) := by
      rw [Relay.receive?_eq_some]
      refine ⟨?_, rfl⟩
      rw [Ne, List.map_eq_nil_iff, List.drop_eq_nil_iff]
      exact not_le.mpr hnew
    rw [getElem?_after_read h, Member.read, hawaited, Option.bind_some]
    dsimp only
    rw [hreceived]
  case expires =>
    intro key seen hawaited hnothing
    obtain ⟨k, signer, -, rfl, hwaiting, hnumber, -⟩ := Member.exists_of_awaited hawaited
    refine ⟨m.respond .timeout, ?_, ?_⟩
    · rw [getElem?_after_expire h, Member.expire, hawaited]
      dsimp only
      rw [Relay.receive?_eq_none.mpr hnothing, Option.isSome_none,
        if_neg Bool.false_ne_true]
    · rw [Member.run_respond, Run.respond, Run.giveUp, hwaiting, Participant.giveUp,
        hnumber]
      rfl

end Gathering

end Quorum
