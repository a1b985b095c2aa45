import Mathlib
import Quorum.Proofs.Signing.Agreement
import Quorum.Proofs.Signing.Correctness
import Quorum.Proofs.Wire.RoundTrip

/-!
# Ceremonies on a relay

The participants of a valid ceremony meet on a relay that nobody disturbs.  In
every round all of them hand over their messages before all of them read.  Each
of them gets through its three rounds and ends with the signature.
-/

namespace Quorum

namespace Ceremony

variable {c : Ceremony}

/-- What a participant receives in a round: the messages of all. -/
def batch (c : Ceremony) (k : Nat) : List (Option Envelope) :=
  (List.range c.parties.length).map fun i => some (c.sent k i)

/-- How the relay responds in a number of rounds. -/
def responses (c : Ceremony) (rounds : Nat) : List Response :=
  (List.range rounds).map fun k => .batch (c.batch k)

theorem responses_succ (c : Ceremony) (k : Nat) :
    c.responses (k + 1) = c.responses k ++ [.batch (c.batch k)] := by
  rw [responses, List.range_succ, List.map_append]
  rfl

theorem filterMap_batch (c : Ceremony) (k : Nat) :
    (c.batch k).filterMap id = (List.range c.parties.length).map (c.sent k) := by
  rw [batch, List.filterMap_map]
  exact congrFun List.filterMap_eq_map _

/-! ## Runs -/

theorem number_signer (c : Ceremony) {k : Nat} (hk : k < 3) (i : Nat) :
    (c.signer k i).number = roundNumber k := by
  match k, hk with
  | 0, _ => rfl
  | 1, _ => rfl
  | 2, _ => rfl

theorem Valid.two_le_length (h : c.Valid) : 2 ≤ c.parties.length :=
  h.two_le_threshold.trans h.threshold_le_parties

theorem Valid.enter_signer (h : c.Valid) {i : Nat} (hi : i < c.parties.length) {k : Nat}
    (hk : k < 3) :
    Participant.enter (c.tape i) (c.signer k i) =
      (.waiting ((c.signer k i).start (c.tape i)).2 (c.tape i) 0, some (c.sent k i)) := by
  have htape : [Call.start (c.tape i)].findSome? Call.tape? = some (c.tape i) := rfl
  have hsent : ((c.signer k i).start (c.tape i)).1 = .ok (c.sent k i) :=
    Option.some.inj (h.firstOutcome?_signer hi hk htape fun _ => rfl)
  rw [Participant.enter]
  cases hstart : (c.signer k i).start (c.tape i) with
  | mk sent s =>
    rw [hstart] at hsent
    dsimp only at hsent
    rw [hsent]

/-- A participant that got through some rounds and waits in the next one. -/
structure WaitsAfter (c : Ceremony) (k i : Nat) (run : Run) : Prop where
  stages_eq : run.stages = (List.range (k + 1)).map (c.stage · i)
  posts_eq : posts run.log = (List.range (k + 1)).map (c.sent · i)
  /-- It has just started its round. -/
  waiting : run.participant =
    .waiting ((c.signer k i).start (c.tape i)).2 (c.tape i) 0

/-- A participant that got through all rounds. -/
structure EndsAfter (c : Ceremony) (i : Nat) (run : Run) : Prop where
  stages_eq : run.stages = (List.range 4).map (c.stage · i)
  posts_eq : posts run.log = (List.range 3).map (c.sent · i)
  ended : run.participant = .ended (c.finalization i).finalize

/-- With the messages of all signers a participant can leave its round. -/
theorem Valid.next_batch (h : c.Valid) {i : Nat} (hi : i < c.parties.length) {k : Nat}
    (hk : k < 3) :
    ∃ t, ((c.signer k i).start (c.tape i)).2.update ((c.batch k).filterMap id) = t ∧
      t.isComplete = true ∧ t.next = .ok (c.stage (k + 1) i) := by
  have hafter : ((c.signer k i).start (c.tape i)).2.update
      ((List.range c.parties.length).map (c.sent k)) =
        (c.signer k i).after (c.lockstep k i) := rfl
  have htape : (c.lockstep k i).findSome? Call.tape? = some (c.tape i) := rfl
  have hnext := h.next_signer hi hk htape (fun _ => rfl) (h.receives_lockstep k i)
  have hown : (c.signer k i).own.toNat < c.parties.length := by
    rw [own_signer, h.toNat_ofNat hi]
    exact hi
  refine ⟨(c.signer k i).after (c.lockstep k i), by rw [filterMap_batch, hafter], ?_, hnext⟩
  have hlives := (c.isNew_signer (k := k) i).lifecycle_of_own_lt hown (c.lockstep k i)
  exact ((c.isNew_signer i).phase_eq_completed_iff hown _).mp
    (hlives.next_iff.mp ⟨_, hnext⟩)

theorem Valid.waitsAfter_run (h : c.Valid) {i : Nat} (hi : i < c.parties.length) {k : Nat}
    (hk : k < 3) :
    c.WaitsAfter k i ((c.entrant i).run (c.tape i) (c.responses k)) := by
  induction k with
  | zero =>
    have hround : (c.entrant i).commitRound = .ok (.ofSession (c.session i)) :=
      Entrant.commitRound_eq_ok.mpr ⟨h.admissible hi, rfl⟩
    have hbegin := Run.begin_of_ok hround (c.tape i)
    rw [← signer_zero, h.enter_signer hi hk] at hbegin
    change c.WaitsAfter 0 i (Run.begin (c.entrant i) (c.tape i))
    rw [hbegin]
    constructor
    case stages_eq => rfl
    case posts_eq => rfl
    case waiting => rfl
  | succ k ih =>
    have hwaits := ih (by omega)
    obtain ⟨t, ht, hcomplete, hnext⟩ := h.next_batch hi (by omega : k < 3)
    rw [stage, if_pos hk] at hnext
    have hreceive := Run.receive_of_signing hwaits.waiting ht hcomplete hnext
    rw [h.enter_signer hi hk] at hreceive
    rw [responses_succ, Entrant.run_concat, Run.respond, hreceive]
    constructor
    case stages_eq =>
      rw [hwaits.stages_eq, List.range_succ (n := k + 1), List.map_append,
        List.map_singleton, stage, if_pos hk]
    case posts_eq =>
      rw [posts_append, posts_concat_receive, hwaits.posts_eq, List.range_succ (n := k + 1),
        List.map_append]
      rfl
    case waiting => rfl

theorem Valid.endsAfter_run (h : c.Valid) {i : Nat} (hi : i < c.parties.length) :
    c.EndsAfter i ((c.entrant i).run (c.tape i) (c.responses 3)) := by
  have hwaits := h.waitsAfter_run hi (by decide : 2 < 3)
  obtain ⟨t, ht, hcomplete, hnext⟩ := h.next_batch hi (by decide : 2 < 3)
  have hreceive := Run.receive_of_finalizing hwaits.waiting ht hcomplete hnext
  rw [responses_succ, Entrant.run_concat, Run.respond, hreceive]
  constructor
  case stages_eq =>
    rw [hwaits.stages_eq]
    rfl
  case posts_eq => rw [posts_concat_receive, hwaits.posts_eq]
  case ended => rfl

/-! ## Gatherings -/

open Gathering (Event)

/-- A participant after some rounds, with a number of messages handed over. -/
def member (c : Ceremony) (rounds posted i : Nat) : Member :=
  ⟨c.entrant i, c.tape i, c.responses rounds, posted⟩

/-- All participants hand over a message, and then all read. -/
def turn (c : Ceremony) : List Event :=
  (List.range c.parties.length).map .deliver ++ (List.range c.parties.length).map .read

/-- All participants join, and then go through a number of rounds. -/
def meeting (c : Ceremony) : (rounds : Nat) → List Event
  | 0 => (List.range c.parties.length).map fun i => .join (c.entrant i) (c.tape i)
  | k + 1 => c.meeting k ++ c.turn

/-- The mailbox of a round. -/
def mailboxKey (c : Ceremony) (k : Nat) : MailboxKey :=
  ⟨c.sessionId, roundNumber k⟩

/-- What is posted in a round. -/
def entries (c : Ceremony) (k : Nat) : List (MailboxKey × String) :=
  (List.range c.parties.length).map fun i => (c.mailboxKey k, Wire.write (c.sent k i))

/-- The relay after some rounds. -/
def relay (c : Ceremony) (rounds : Nat) : Relay :=
  ⟨(List.range rounds).flatMap c.entries⟩

theorem relay_succ (c : Ceremony) (k : Nat) :
    c.relay (k + 1) = ⟨(c.relay k).log ++ c.entries k⟩ := by
  rw [relay, List.range_succ, List.flatMap_append, List.flatMap_singleton]
  rfl

theorem mailbox_relay (c : Ceremony) {rounds k : Nat} (hrounds : rounds ≤ 3) (hk : k < 3) :
    (c.relay rounds).mailbox (c.mailboxKey k) =
      if k < rounds then
        (List.range c.parties.length).map fun i => Wire.write (c.sent k i)
      else [] := by
  induction rounds with
  | zero => rfl
  | succ rounds ih =>
    -- Of the entries that a round adds, a mailbox gets all or none.
    have hentries : (c.entries rounds).filterMap
        (fun entry => if entry.1 = c.mailboxKey k then some entry.2 else none) =
          if k = rounds then
            (List.range c.parties.length).map fun i => Wire.write (c.sent k i)
          else [] := by
      have hkey : c.mailboxKey rounds = c.mailboxKey k ↔ k = rounds := by
        rw [mailboxKey, mailboxKey, MailboxKey.mk.injEq, roundNumber_inj hrounds hk]
        exact ⟨fun h => h.2.symm, fun h => ⟨rfl, h.symm⟩⟩
      rw [entries, List.filterMap_map]
      split_ifs with heq
      · subst heq
        simp only [Function.comp_def, if_true]
        exact congrFun List.filterMap_eq_map _
      · have hne : ¬ c.mailboxKey rounds = c.mailboxKey k := fun h => heq (hkey.mp h)
        simp [hne]
    have hmailbox : (c.relay (rounds + 1)).mailbox (c.mailboxKey k) =
        (c.relay rounds).mailbox (c.mailboxKey k) ++ (c.entries rounds).filterMap
          (fun entry => if entry.1 = c.mailboxKey k then some entry.2 else none) := by
      rw [relay_succ, Relay.mailbox, List.filterMap_append]
      rfl
    rw [hmailbox, hentries, ih (by omega)]
    by_cases hlt : k < rounds
    · rw [if_pos hlt, if_neg (by omega), if_pos (by omega), List.append_nil]
    · by_cases heq : k = rounds
      · rw [if_neg hlt, if_pos heq, if_pos (by omega), List.nil_append]
      · rw [if_neg hlt, if_neg heq, if_neg (by omega), List.nil_append]

/-- After a round its mailbox holds the messages of all. -/
theorem map_read?_relay (c : Ceremony) {rounds k : Nat} (hrounds : rounds ≤ 3)
    (hk : k < rounds) :
    ((c.relay rounds).mailbox (c.mailboxKey k)).map (Wire.read? Envelope) = c.batch k := by
  rw [c.mailbox_relay hrounds (hk.trans_le hrounds), if_pos hk, List.map_map, batch]
  refine List.map_congr_left fun i _ => ?_
  rw [Function.comp_apply, Wire.read?_write]

theorem modify_map_range {α : Type} (n : Nat) {m : Nat} {f g : Nat → α} {F : α → α}
    (hF : F (f m) = g m) :
    ((List.range n).map fun i => if i < m then g i else f i).modify m F =
      (List.range n).map fun i => if i < m + 1 then g i else f i := by
  apply List.ext_getElem?
  intro j
  rw [List.getElem?_modify, List.getElem?_map, List.getElem?_map]
  by_cases hj : j < n
  · rw [List.getElem?_range hj]
    simp only [Option.map_some, Option.map_eq_map]
    congr 1
    by_cases heq : m = j
    · subst heq
      rw [if_pos rfl, if_neg (lt_irrefl m), if_pos m.lt_succ_self, hF]
    · rw [if_neg heq]
      by_cases hlt : j < m
      · rw [if_pos hlt, if_pos (by omega)]
      · rw [if_neg hlt, if_neg (by omega)]
  · rw [List.getElem?_eq_none (by rw [List.length_range]; omega)]
    rfl

theorem foldl_join (c : Ceremony) (n : Nat) :
    ((List.range n).map fun i => Event.join (c.entrant i) (c.tape i)).foldl Gathering.step
        ⟨.empty, []⟩ =
      ⟨c.relay 0, (List.range n).map (c.member 0 0)⟩ := by
  induction n with
  | zero => rfl
  | succ n ih =>
    rw [List.range_succ, List.map_append, List.foldl_append, ih, List.map_append]
    rfl

theorem Valid.pending?_member (h : c.Valid) {i : Nat} (hi : i < c.parties.length) {k : Nat}
    (hk : k < 3) : (c.member k k i).pending? = some (c.sent k i) := by
  have hposts := (h.waitsAfter_run hi hk).posts_eq
  change (posts ((c.entrant i).run (c.tape i) (c.responses k)).log)[k]? = _
  rw [hposts, List.getElem?_map, List.getElem?_range (by omega)]
  rfl

theorem Valid.foldl_deliver (h : c.Valid) {k n : Nat} (hk : k < 3)
    (hn : n ≤ c.parties.length) :
    ((List.range n).map Event.deliver).foldl Gathering.step
        ⟨c.relay k, (List.range c.parties.length).map (c.member k k)⟩ =
      ⟨⟨(c.relay k).log ++ (c.entries k).take n⟩, (List.range c.parties.length).map
        fun i => if i < n then c.member k (k + 1) i else c.member k k i⟩ := by
  induction n with
  | zero => simp
  | succ n ih =>
    have hn' : n < c.parties.length := hn
    -- The first `n` have handed over, so this one is still as it was.
    have hget : ((List.range c.parties.length).map fun i =>
        if i < n then c.member k (k + 1) i else c.member k k i)[n]? =
          some (c.member k k n) := by
      rw [List.getElem?_map, List.getElem?_range hn', Option.map_some,
        if_neg (lt_irrefl n)]
    have hround : (c.sent k n).round = roundNumber k := c.number_signer hk n
    rw [List.range_succ, List.map_append, List.foldl_append, ih hn'.le, List.map_singleton,
      List.foldl_cons, List.foldl_nil, Gathering.step]
    dsimp only
    rw [hget, Option.bind_some, h.pending?_member hn' hk, Option.map_some, hround]
    dsimp only
    rw [modify_map_range _ rfl]
    congr 1
    rw [Relay.post, entries, ← List.map_take, ← List.map_take, List.take_range,
      List.take_range, Nat.min_eq_left hn'.le, Nat.min_eq_left hn, List.range_succ,
      List.map_append, List.append_assoc]
    rfl

/-- A participant that has handed over its message reads those of all. -/
theorem Valid.read_member (h : c.Valid) {i : Nat} (hi : i < c.parties.length) {k : Nat}
    (hk : k < 3) :
    (c.member k (k + 1) i).read (c.relay (k + 1)) = c.member (k + 1) (k + 1) i := by
  have hwaits := h.waitsAfter_run hi hk
  have hrun : (c.member k (k + 1) i).run =
      (c.entrant i).run (c.tape i) (c.responses k) := rfl
  have hpending : (c.member k (k + 1) i).pending? = none := by
    rw [Member.pending?, hrun, hwaits.posts_eq, List.getElem?_eq_none_iff]
    exact (length_map_range _ _).le
  have hnumber : ((c.signer k i).start (c.tape i)).2.number = roundNumber k :=
    ((c.signer k i).number_after [.start (c.tape i)]).trans (c.number_signer hk i)
  have hawaited : (c.member k (k + 1) i).awaited? = some (c.mailboxKey k, 0) := by
    rw [Member.awaited?, hpending, hrun, hwaits.waiting]
    dsimp only
    rw [hnumber]
    rfl
  have hreceived : (c.relay (k + 1)).receive? (c.mailboxKey k) 0 = some (c.batch k) := by
    rw [Relay.receive?_eq_some, List.drop_zero, c.map_read?_relay (by omega) k.lt_succ_self]
    refine ⟨?_, rfl⟩
    rw [batch, Ne, List.map_eq_nil_iff, List.range_eq_nil]
    have htwo := h.two_le_length
    omega
  rw [Member.read, hawaited, Option.bind_some]
  dsimp only
  rw [hreceived]
  dsimp only
  rw [Member.respond, member, member, responses_succ]

theorem Valid.foldl_read (h : c.Valid) {k n : Nat} (hk : k < 3)
    (hn : n ≤ c.parties.length) :
    ((List.range n).map Event.read).foldl Gathering.step
        ⟨c.relay (k + 1), (List.range c.parties.length).map (c.member k (k + 1))⟩ =
      ⟨c.relay (k + 1), (List.range c.parties.length).map
        fun i => if i < n then c.member (k + 1) (k + 1) i else c.member k (k + 1) i⟩ := by
  induction n with
  | zero => simp
  | succ n ih =>
    have hn' : n < c.parties.length := hn
    rw [List.range_succ, List.map_append, List.foldl_append, ih hn'.le, List.map_singleton,
      List.foldl_cons, List.foldl_nil, Gathering.step]
    dsimp only
    rw [modify_map_range _ (h.read_member hn' hk)]

theorem map_range_if_lt {α : Type} (n : Nat) (f g : Nat → α) :
    ((List.range n).map fun i => if i < n then g i else f i) = (List.range n).map g := by
  refine List.map_congr_left fun i hi => ?_
  rw [if_pos (List.mem_range.mp hi)]

/-- Where the participants of a ceremony stand after some rounds. -/
theorem Valid.after_meeting (h : c.Valid) {k : Nat} (hk : k ≤ 3) :
    Gathering.after (c.meeting k) =
      ⟨c.relay k, (List.range c.parties.length).map (c.member k k)⟩ := by
  induction k with
  | zero => exact c.foldl_join c.parties.length
  | succ k ih =>
    have hrelay : (⟨(c.relay k).log ++ (c.entries k).take c.parties.length⟩ : Relay) =
        c.relay (k + 1) := by
      rw [relay_succ, List.take_of_length_le]
      exact (length_map_range _ _).le
    rw [meeting, Gathering.after, List.foldl_append]
    change c.turn.foldl Gathering.step (Gathering.after (c.meeting k)) = _
    rw [ih (by omega), turn, List.foldl_append, h.foldl_deliver hk le_rfl, map_range_if_lt,
      hrelay, h.foldl_read hk le_rfl, map_range_if_lt]

theorem Valid.getElem?_members (h : c.Valid) {i : Nat} (hi : i < c.parties.length) {k : Nat}
    (hk : k ≤ 3) : (Gathering.after (c.meeting k)).members[i]? = some (c.member k k i) := by
  rw [h.after_meeting hk]
  exact getElem?_map_range.mpr ⟨hi, rfl⟩

/-- Participants whose messages nobody disturbs all end with one signature. -/
theorem Valid.ended_meeting (h : c.Valid) {i : Nat} (hi : i < c.parties.length) :
    ∃ m, (Gathering.after (c.meeting 3)).members[i]? = some m ∧
      m.entrant = c.entrant i ∧ m.tape = c.tape i ∧
      m.run.participant = .ended (.ok ⟨c.jointNonce.encode,
        (Scalar.sum ((List.range c.parties.length).map c.share)).encode⟩) := by
  refine ⟨c.member 3 3 i, h.getElem?_members hi le_rfl, rfl, rfl, ?_⟩
  rw [← h.finalize_finalization hi]
  exact (h.endsAfter_run hi).ended

/-- The first message by the position of a participant is the one that it sent. -/
theorem Valid.first?_relay (h : c.Valid) {k j : Nat} (hk : k < 3)
    (hj : j < c.parties.length) :
    (c.relay 3).first? (c.mailboxKey k) k j = some (c.sent k j) := by
  have hdelivered : delivered (c.lockstep k j) =
      (List.range c.parties.length).map (c.sent k) :=
    List.append_nil _
  have hstage := h.stageAfter_lockstep hk.le hj
  rw [stage, if_pos hk] at hstage
  rw [Relay.first?, c.map_read?_relay le_rfl hk, filterMap_batch, ← hdelivered,
    ← Entrant.expects_of_stageAfter hstage]
  exact h.find?_lockstep k j hj

/-- Nobody else has posted by the position of a participant. -/
theorem Valid.authentic_member (h : c.Valid) {i : Nat} (hi : i < c.parties.length) :
    (c.member 3 3 i).Authentic (Gathering.after (c.meeting 3)).relay := by
  intro k hk e he
  have hindex : (c.member 3 3 i).entrant.config.partyIndex.toNat = i := h.toNat_ofNat hi
  have hkey : (c.member 3 3 i).mailboxKey (roundNumber k) = c.mailboxKey k := rfl
  have hposts : posts (c.member 3 3 i).run.log = (List.range 3).map (c.sent · i) :=
    (h.endsAfter_run hi).posts_eq
  rw [h.after_meeting le_rfl, hindex, hkey, h.first?_relay hk hi] at he
  rw [hposts, ← he]
  exact getElem?_map_range.mpr ⟨hk, rfl⟩

theorem Valid.length_stages_member (h : c.Valid) {i : Nat} (hi : i < c.parties.length) :
    (c.member 3 3 i).run.stages.length = 4 := by
  have hstages : (c.member 3 3 i).run.stages = (List.range 4).map (c.stage · i) :=
    (h.endsAfter_run hi).stages_eq
  rw [hstages, length_map_range]

theorem members_smallest : (Gathering.after (smallest.meeting 3)).members =
    [smallest.member 3 3 0, smallest.member 3 3 1] :=
  congrArg Gathering.members (valid_smallest.after_meeting (le_refl 3))

/-- Both participants of the smallest ceremony consume their mailboxes and get to the end. -/
theorem consumption_smallest :
    ∃ m m', (Gathering.after (smallest.meeting 3)).members = [m, m'] ∧
      (m.run.stages.length = 4 ∧ m.Consumes (smallest.meeting 3) 0) ∧
      m'.run.stages.length = 4 ∧ m'.Consumes (smallest.meeting 3) 1 := by
  have hzero : 0 < smallest.parties.length := by decide
  have hone : 1 < smallest.parties.length := by decide
  exact ⟨_, _, members_smallest,
    ⟨valid_smallest.length_stages_member hzero,
      Gathering.consumption (valid_smallest.getElem?_members hzero le_rfl)⟩,
    valid_smallest.length_stages_member hone,
    Gathering.consumption (valid_smallest.getElem?_members hone le_rfl)⟩

/-- Both participants of the smallest ceremony come to the end and agree. -/
theorem agreement_smallest :
    ∃ m m', (Gathering.after (smallest.meeting 3)).members = [m, m'] ∧
      m.run.stages.length = 4 ∧ m'.run.stages.length = 4 ∧ m.Agrees m' := by
  have hzero : 0 < smallest.parties.length := by decide
  have hone : 1 < smallest.parties.length := by decide
  exact ⟨_, _, members_smallest, valid_smallest.length_stages_member hzero,
    valid_smallest.length_stages_member hone,
    Gathering.agreement (valid_smallest.getElem?_members hzero le_rfl)
      (valid_smallest.getElem?_members hone le_rfl) (smallest.partners 0 1) (by decide)
      (valid_smallest.authentic_member hzero) (valid_smallest.authentic_member hone)⟩

end Ceremony

end Quorum
