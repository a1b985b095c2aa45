import Mathlib
import Quorum.Proofs.Signing.Run

/-!
# What a participant lets go of

A participant posts a commitment to its nonce, then the opening, and then its
share of the signature.  Whatever the relay does, the opening is only posted
once a commitment of every peer was accepted, and the share only once every
peer has opened, by a verified proof, the very commitment that it was bound to
before the own opening was posted.  What is posted in the first two rounds does
not depend on the peers at all.
-/

namespace Quorum

/-- The number of rounds before the one that a content belongs to. -/
def Content.place : Content → Nat
  | commitment _ => 0
  | reveal _ => 1
  | share _ => 2

/--
Whether an envelope is a broadcast by the sender at position `j`, and belongs
to the round after `k` others.
-/
def Envelope.isFrom (k j : Nat) : Envelope → Bool
  | broadcast sender round content =>
    sender.toNat == j && round == roundNumber k && content.place == k
  | direct .. => false

/-- The first message of the sender at position `j` that was received in a round. -/
def firstFrom? (log : List Action) (k j : Nat) : Option Content :=
  (((reads (roundNumber k) log).filterMap id).find? (Envelope.isFrom k j)).map
    Envelope.content

/-! ## What is received first -/

theorem delivered_callsOf (tape : Tape) (log : List Action) (k : Nat) :
    delivered (callsOf tape log k) = (reads (roundNumber k) log).filterMap id :=
  List.append_nil _

/-- What was received first stays what was received first. -/
theorem firstFrom?_append {log : List Action} {k j : Nat} {content : Content}
    (h : firstFrom? log k j = some content) (later : List Action) :
    firstFrom? (log ++ later) k j = some content := by
  obtain ⟨e, hfind, rfl⟩ := Option.map_eq_some_iff.mp h
  rw [firstFrom?, reads_append, List.filterMap_append, List.find?_append, hfind]
  rfl

theorem place_of_firstFrom? {log : List Action} {k j : Nat} {content : Content}
    (h : firstFrom? log k j = some content) : content.place = k := by
  obtain ⟨e, hfind, rfl⟩ := Option.map_eq_some_iff.mp h
  have hfrom := List.find?_some hfind
  cases e with
  | direct => cases hfrom
  | broadcast sender round content =>
    rw [Envelope.isFrom, Bool.and_eq_true, beq_iff_eq] at hfrom
    exact hfrom.2

theorem exists_of_place_zero {content : Content} (h : content.place = 0) :
    ∃ c, content = .commitment c := by
  cases content with
  | commitment c => exact ⟨c, rfl⟩
  | reveal v => cases h
  | share s => cases h

namespace Entrant

variable {a : Entrant} {tape : Tape} {log : List Action} {k : Nat}

theorem three_le_of_stageAfter {calls : Nat → List Call} {f : Finalization}
    (h : a.stageAfter calls k = .ok (.finalizing f)) : 3 ≤ k := by
  induction k generalizing f with
  | zero =>
    obtain ⟨r, -, hs⟩ := map_eq_ok.mp h
    cases hs
  | succ k ih =>
    obtain ⟨stage, hstage, hnext⟩ := bind_eq_ok.mp h
    cases stage with
    | finalizing f' => exact (ih hstage).trans k.le_succ
    | signing s =>
      obtain ⟨r, hafter, -⟩ := Signer.next_eq_finalizing hnext
      obtain ⟨r₀, rfl, -⟩ := Signer.eq_sharing_of_after hafter
      have hk := lt_three_of_stageAfter hstage
      have hnumber : roundNumber 2 = roundNumber k := number_of_stageAfter hstage
      have htwo := (roundNumber_inj (by decide) hk).mp hnumber
      omega

/-- What a signer expects from a peer is told by the number of rounds before. -/
theorem expects_of_stageAfter {calls : Nat → List Call} {s : Signer}
    (h : a.stageAfter calls k = .ok (.signing s)) : s.expects = Envelope.isFrom k := by
  have hnumber := number_of_stageAfter h
  have hexchanges : ∀ content, s.exchanges content = (content.place == k) := by
    match k, lt_three_of_stageAfter h with
    | 0, _ =>
      obtain ⟨r, rfl⟩ := exists_of_stageAfter_zero h
      intro content
      cases content <;> rfl
    | 1, _ =>
      obtain ⟨r, _, _, rfl, -⟩ := exists_of_stageAfter_one h
      intro content
      cases content <;> rfl
    | 2, _ =>
      obtain ⟨r, rfl⟩ := exists_of_stageAfter_two h
      intro content
      cases content <;> rfl
  funext j e
  cases e with
  | direct => rfl
  | broadcast sender round content =>
    rw [Signer.expects, Envelope.isFrom, hnumber, hexchanges]

/-- What comes after at most three rounds comes after a round. -/
theorem exists_signing_of_stageAfter_succ {calls : Nat → List Call} {stage : Stage}
    (hk : k < 3) (h : a.stageAfter calls (k + 1) = .ok stage) :
    ∃ s, a.stageAfter calls k = .ok (.signing s) := by
  obtain ⟨stage', hstage', -⟩ := bind_eq_ok.mp h
  cases stage' with
  | signing s => exact ⟨s, hstage'⟩
  | finalizing f => exact absurd hk (not_lt.mpr (three_le_of_stageAfter hstage'))

/-- A round that was left hands on what was received first from each peer. -/
theorem contents_of_stageAfter {s : Signer} {stage : Stage}
    (h : a.stageAfter (callsOf tape log) k = .ok (.signing s))
    (hnext : a.stageAfter (callsOf tape log) (k + 1) = .ok stage) {j : Nat}
    (hj : j < a.config.parties.length) (hne : j ≠ a.config.partyIndex.toNat) :
    ∃ content, firstFrom? log k j = some content ∧
      stage.contents[j]? = some content := by
  have henters := enters_of_stageAfter h
  rw [stageAfter_succ h] at hnext
  obtain ⟨-, -, hpeers⟩ := henters.isNew.contents_of_next henters.own_lt hnext
  rw [← henters.own_eq] at hne
  obtain ⟨e, hfind, hcontent⟩ := hpeers j hj hne
  rw [delivered_callsOf, expects_of_stageAfter h] at hfind
  exact ⟨e.content, by rw [firstFrom?, hfind, Option.map_some], hcontent⟩

theorem commitments_of_stageAfter {calls : Nat → List Call} {r₁ : RevealRound}
    {r : ShareRound} (h₁ : a.stageAfter calls 1 = .ok (.signing (.revealing r₁)))
    (h : a.stageAfter calls 2 = .ok (.signing (.sharing r))) :
    r.commitments = r₁.commitments := by
  rw [stageAfter_succ h₁] at h
  rcases Signer.next_eq_signing h with ⟨_, _, -, -, heq⟩ | ⟨r₂, r', hr₂, hr', heq⟩
  · cases heq
  · injection heq with heq
    obtain ⟨r₃, hr₃, rfl⟩ := Signer.eq_revealing_of_after hr₂
    obtain ⟨reveals, -, rfl⟩ := RevealRound.next_eq_ok.mp hr'
    injection hr₃ with hr₃
    rw [heq, hr₃]

end Entrant

theorem exists_of_posts {log : List Action} {k : Nat} {e : Envelope}
    (h : (posts log)[k]? = some e) :
    ∃ before after, log = before ++ Action.post e :: after ∧ (posts before).length = k := by
  induction log generalizing k with
  | nil => cases h
  | cons action log ih =>
    cases action with
    | receive round batch =>
      obtain ⟨before, after, rfl, hlength⟩ := ih h
      exact ⟨.receive round batch :: before, after, rfl, hlength⟩
    | post e' =>
      cases k with
      | zero =>
        obtain rfl := Option.some.inj h
        exact ⟨[], log, rfl, rfl⟩
      | succ k =>
        obtain ⟨before, after, rfl, hlength⟩ := ih h
        exact ⟨.post e' :: before, after, rfl, congrArg (· + 1) hlength⟩

/-! ## What is due -/

/-- The nonce drawn from a tape takes the tag and the position from the session. -/
theorem Session.nonceOf_congr {s s' : Session} (hssid : s.ssid = s'.ssid)
    (hown : s.own = s'.own) : s.nonceOf = s'.nonceOf := by
  funext tape
  rw [nonceOf, nonceOf, hssid, hown]

/--
The opening of a peer is accepted: it opens the commitment to the coordinates
of a point, and the point without its component of small order comes with a
proof for the peer's position.
-/
structure Entrant.Verifies (a : Entrant) (j : Nat) (c : NonceCommitment)
    (v : NonceReveal) (P : Point) : Prop where
  opens : v.decommitment.commitment = c.commitment
  /-- The commitment is opened to the coordinates of a point. -/
  exists_point : ∃ Q : Point,
    v.decommitment.values = [Q.x.encode.toList, Q.y.encode.toList] ∧ P = Q.clearCofactor
  ne_zero : P ≠ 0
  proof : v.proof.verify (partyContext (a.config.ssid a.key.publicKey) j) P = true

theorem Entrant.verifies_of_openNonce {a : Entrant} {j : Nat} {c : NonceCommitment}
    {v : NonceReveal} {P : Point}
    (h : a.session.openNonce j c.commitment v = .ok P) : a.Verifies j c v P := by
  obtain ⟨hopen, hpoint, hzero, hproof⟩ := Session.openNonce_eq_ok.mp h
  exact ⟨of_decide_eq_true hopen, Decommitment.point?_eq_some.mp hpoint, hzero, hproof⟩

namespace Run.Due

variable {a : Entrant} {tape : Tape} {log : List Action} {e : Envelope}

theorem sends (h : Due a tape log e) :
    a.Sends (callsOf tape log) (posts log).length e := by
  obtain ⟨s, hs, hstart⟩ := h.sent
  exact ⟨s, hs, congrArg some hstart⟩

/-- It is a broadcast by the participant, of the round after those that it posted in. -/
theorem eq_broadcast (h : Due a tape log e) :
    (posts log).length < 3 ∧
      e = .broadcast a.config.partyIndex (roundNumber (posts log).length) e.content ∧
        e.content.place = (posts log).length := by
  obtain ⟨s, hs, hsent⟩ := h.sends
  have henters := Entrant.enters_of_stageAfter hs
  obtain ⟨he, hexchanges⟩ := henters.isNew.sent_eq hsent
  have hself : s.expects s.own.toNat e = true := by
    rw [he, Signer.expects, hexchanges, beq_self_eq_true, beq_self_eq_true]
    rfl
  rw [Entrant.number_of_stageAfter hs, henters.own_eq] at he
  rw [Entrant.expects_of_stageAfter hs, he, Envelope.isFrom, Bool.and_eq_true,
    beq_iff_eq] at hself
  exact ⟨Entrant.lt_three_of_stageAfter hs, he, hself.2⟩

/-- First comes the commitment to the nonce of the tape. -/
theorem content_eq_commitment (h : Due a tape log e) (hfirst : (posts log).length = 0) :
    e.content =
      .commitment ⟨(a.session.nonceOf tape).reveal.decommitment.commitment⟩ := by
  have hsends := h.sends
  rw [hfirst] at hsends
  obtain ⟨tape', commitment, nonce, htape, hdraw, hcontent⟩ := hsends.exists_draw
  obtain rfl : tape = tape' := Option.some.inj htape
  obtain ⟨-, rfl, rfl⟩ := Session.drawNonce_eq_ok.mp hdraw
  exact hcontent

/-- Then comes its opening. -/
theorem content_eq_reveal (h : Due a tape log e) (hsecond : (posts log).length = 1) :
    e.content = .reveal (a.session.nonceOf tape).reveal := by
  have hsends := h.sends
  rw [hsecond] at hsends
  obtain ⟨s, hs, -⟩ := id hsends
  obtain ⟨r, tape', commitment, rfl, htape, hdraw⟩ := Entrant.exists_of_stageAfter_one hs
  obtain rfl : tape = tape' := Option.some.inj htape
  obtain ⟨-, -, hnonce⟩ := Session.drawNonce_eq_ok.mp hdraw
  rw [hsends.content_eq_reveal hs, hnonce]

/-- In all rounds before, a message of every peer was received. -/
theorem exists_firstFrom? (h : Due a tape log e) {k : Nat} (hk : k < (posts log).length)
    {j : Nat} (hj : j < a.config.parties.length) (hne : j ≠ a.config.partyIndex.toNat) :
    ∃ content, firstFrom? log k j = some content ∧ content.place = k := by
  obtain ⟨s, hs, -⟩ := h.sent
  obtain ⟨s', hs'⟩ := Entrant.exists_of_stageAfter_le (Nat.succ_le_of_lt hk) hs
  obtain ⟨s₀, hs₀, -⟩ := Entrant.exists_of_stageAfter_succ hs'
  obtain ⟨content, hfirst, -⟩ := Entrant.contents_of_stageAfter hs₀ hs' hj hne
  exact ⟨content, hfirst, place_of_firstFrom? hfirst⟩

/-- A share is due once what was received first from every peer is verified. -/
theorem verifies (h : Due a tape log e) (hthird : (posts log).length = 2) {j : Nat}
    (hj : j < a.config.parties.length) (hne : j ≠ a.config.partyIndex.toNat) :
    ∃ c v P, firstFrom? log 0 j = some (.commitment c) ∧
      firstFrom? log 1 j = some (.reveal v) ∧ a.Verifies j c v P := by
  have hsends := h.sends
  rw [hthird] at hsends
  obtain ⟨s, hs, -⟩ := id hsends
  obtain ⟨r, rfl⟩ := Entrant.exists_of_stageAfter_two hs
  obtain ⟨share, aggregate, hprepare, -⟩ := hsends.exists_prepare hs
  obtain ⟨s₁, hs₁, -⟩ := Entrant.exists_of_stageAfter_succ hs
  obtain ⟨s₀, hs₀, -⟩ := Entrant.exists_of_stageAfter_succ hs₁
  obtain ⟨r₁, _, _, rfl, -⟩ := Entrant.exists_of_stageAfter_one hs₁
  obtain ⟨content₀, hfirst₀, hcontent₀⟩ :=
    Entrant.contents_of_stageAfter hs₀ hs₁ hj hne
  obtain ⟨content₁, hfirst₁, hcontent₁⟩ := Entrant.contents_of_stageAfter hs₁ hs hj hne
  change (r₁.commitments.map fun c => Content.commitment ⟨c⟩)[j]? = _ at hcontent₀
  change (r.reveals.map Content.reveal)[j]? = _ at hcontent₁
  rw [List.getElem?_map, Option.map_eq_some_iff] at hcontent₀ hcontent₁
  obtain ⟨c, hc, rfl⟩ := hcontent₀
  obtain ⟨v, hv, rfl⟩ := hcontent₁
  rw [← Entrant.commitments_of_stageAfter hs₁ hs] at hc
  obtain ⟨tape', hopened⟩ := (Entrant.enters_of_stageAfter hs).sharing_opened
  obtain ⟨hopen, -⟩ := ShareRound.prepare_eq_ok.mp hprepare
  obtain ⟨P, -, hP⟩ :=
    ((ShareRound.openNonces_eq_ok hopened.lengths_eq).mp hopen).2 j c v hc hv
  rw [if_neg (by rwa [hopened.own_eq]), hopened.session_eq] at hP
  exact ⟨⟨c⟩, v, P, hfirst₀, hfirst₁, Entrant.verifies_of_openNonce hP⟩

end Run.Due

/-! ## The order of release -/

/-- What a participant lets go of in a run, and after what. -/
structure Run.Releases (a : Entrant) (tape : Tape) (run : Run) : Prop where
  /-- It posts a commitment, then its opening, then a share, and nothing else. -/
  posts_prefix : ∃ share, posts run.log <+:
    [.broadcast a.config.partyIndex commitKind.number
        (.commitment ⟨(a.session.nonceOf tape).reveal.decommitment.commitment⟩),
      .broadcast a.config.partyIndex revealKind.number
        (.reveal (a.session.nonceOf tape).reveal),
      .broadcast a.config.partyIndex shareKind.number (.share share)]
  /-- What a round accepts from a peer is what was received first from it. -/
  accepted : ∀ k < 3, ∀ stage, run.stages[k + 1]? = some stage →
    ∀ j < a.config.parties.length, j ≠ a.config.partyIndex.toNat →
      ∃ content, firstFrom? run.log k j = some content ∧
        stage.contents[j]? = some content
  /-- Before the opening is posted, a commitment of every peer is accepted. -/
  reveal_due : ∀ before e after, run.log = before ++ .post e :: after →
    e.content.place = 1 →
      ∀ j < a.config.parties.length, j ≠ a.config.partyIndex.toNat →
        ∃ c, firstFrom? before 0 j = some (.commitment c)
  /-- Before the share is posted, these commitments are opened, and all is verified. -/
  share_due : ∀ before e after, run.log = before ++ .post e :: after →
    e.content.place = 2 →
      ∃ earlier e' between, before = earlier ++ .post e' :: between ∧
        e'.content.place = 1 ∧
        ∀ j < a.config.parties.length, j ≠ a.config.partyIndex.toNat →
          ∃ c v P, firstFrom? earlier 0 j = some (.commitment c) ∧
            firstFrom? before 1 j = some (.reveal v) ∧ a.Verifies j c v P
  /-- What is posted in the first two rounds is settled by the tape alone. -/
  independent : ∀ (b : Entrant) (responses : List Response),
    b.config = a.config → b.key = a.key → ∀ k < 2, ∀ e e',
      (posts run.log)[k]? = some e →
        (posts (b.run tape responses).log)[k]? = some e' → e = e'

namespace Run.Sound

variable {a : Entrant} {tape : Tape} {run : Run}

/-- Every post is a broadcast of the next round, with what is to be said there. -/
theorem getElem?_posts (h : run.Sound a tape) {k : Nat} {e : Envelope}
    (he : (posts run.log)[k]? = some e) :
    k < 3 ∧ e = .broadcast a.config.partyIndex (roundNumber k) e.content ∧
      e.content.place = k ∧
      (k = 0 → e.content =
        .commitment ⟨(a.session.nonceOf tape).reveal.decommitment.commitment⟩) ∧
      (k = 1 → e.content = .reveal (a.session.nonceOf tape).reveal) := by
  obtain ⟨before, after, hlog, rfl⟩ := exists_of_posts he
  have hdue := h.due before e after hlog
  obtain ⟨hlt, heq, hplace⟩ := hdue.eq_broadcast
  exact ⟨hlt, heq, hplace, hdue.content_eq_commitment, hdue.content_eq_reveal⟩

theorem exists_share (h : run.Sound a tape) {e : Envelope}
    (he : (posts run.log)[2]? = some e) :
    ∃ share, e =
      .broadcast a.config.partyIndex shareKind.number (.share share) := by
  obtain ⟨-, heq, hplace, -⟩ := h.getElem?_posts he
  cases hcontent : e.content with
  | commitment c =>
    rw [hcontent] at hplace
    cases hplace
  | reveal v =>
    rw [hcontent] at hplace
    cases hplace
  | share share =>
    rw [hcontent] at heq
    exact ⟨share, heq⟩

theorem posts_prefix (h : run.Sound a tape) :
    ∃ share, posts run.log <+:
      [.broadcast a.config.partyIndex commitKind.number
          (.commitment ⟨(a.session.nonceOf tape).reveal.decommitment.commitment⟩),
        .broadcast a.config.partyIndex revealKind.number
          (.reveal (a.session.nonceOf tape).reveal),
        .broadcast a.config.partyIndex shareKind.number (.share share)] := by
  obtain ⟨share, hshare⟩ : ∃ share, ∀ e, (posts run.log)[2]? = some e →
      e = .broadcast a.config.partyIndex shareKind.number (.share share) := by
    cases hthird : (posts run.log)[2]? with
    | none => exact ⟨⟨0⟩, fun e he => by cases he⟩
    | some e =>
      obtain ⟨share, hshare⟩ := h.exists_share hthird
      exact ⟨share, fun e' he' => Option.some.inj he' ▸ hshare⟩
  refine ⟨share, List.prefix_iff_getElem?.mpr fun k hk => ?_⟩
  have hget := List.getElem?_eq_getElem hk
  obtain ⟨hlt, heq, -, hzero, hone⟩ := h.getElem?_posts hget
  match k, hlt with
  | 0, _ =>
    rw [hzero rfl] at heq
    rw [heq]
    rfl
  | 1, _ =>
    rw [hone rfl] at heq
    rw [heq]
    rfl
  | 2, _ => exact congrArg some (hshare _ hget).symm

theorem share_due (h : run.Sound a tape) {before after : List Action} {e : Envelope}
    (hlog : run.log = before ++ Action.post e :: after) (he : e.content.place = 2) :
    ∃ earlier e' between, before = earlier ++ Action.post e' :: between ∧
      e'.content.place = 1 ∧
      ∀ j < a.config.parties.length, j ≠ a.config.partyIndex.toNat →
        ∃ c v P, firstFrom? earlier 0 j = some (.commitment c) ∧
          firstFrom? before 1 j = some (.reveal v) ∧ a.Verifies j c v P := by
  have hdue := h.due before e after hlog
  have hcount : (posts before).length = 2 := by
    rw [← hdue.eq_broadcast.2.2, he]
  obtain ⟨e', he'⟩ : ∃ e', (posts before)[1]? = some e' :=
    ⟨_, List.getElem?_eq_getElem (by omega)⟩
  obtain ⟨earlier, between, hbefore, hone⟩ := exists_of_posts he'
  have hlog' : run.log = earlier ++ Action.post e' :: (between ++ Action.post e :: after) := by
    rw [hlog, hbefore, List.append_assoc, List.cons_append]
  have hdue' := h.due earlier e' _ hlog'
  refine ⟨earlier, e', between, hbefore, by rw [hdue'.eq_broadcast.2.2, hone], ?_⟩
  intro j hj hne
  obtain ⟨c, v, P, hc, hv, hverifies⟩ := hdue.verifies hcount hj hne
  refine ⟨c, v, P, ?_, hv, hverifies⟩
  -- What was received first before the opening was posted is still the first.
  obtain ⟨content, hcontent, -⟩ :=
    hdue'.exists_firstFrom? (k := 0) (by omega) hj hne
  have hstill := firstFrom?_append hcontent (.post e' :: between)
  rw [← hbefore, hc] at hstill
  rw [hcontent, hstill]

end Run.Sound

/-- However the relay behaves, a participant releases its messages in order. -/
theorem Entrant.release (a : Entrant) (tape : Tape) (responses : List Response) :
    (a.run tape responses).Releases a tape := by
  have hsound := a.sound_run tape responses
  constructor
  case posts_prefix => exact hsound.posts_prefix
  case accepted =>
    intro k hk stage hstage j hj hne
    have hnext := hsound.stage_eq _ _ hstage
    obtain ⟨s, hs⟩ := exists_signing_of_stageAfter_succ hk hnext
    exact contents_of_stageAfter hs hnext hj hne
  case reveal_due =>
    intro before e after hlog he j hj hne
    have hdue := hsound.due before e after hlog
    have hcount : 0 < (posts before).length := by
      rw [← hdue.eq_broadcast.2.2, he]
      exact Nat.one_pos
    obtain ⟨content, hfirst, hplace⟩ := hdue.exists_firstFrom? hcount hj hne
    obtain ⟨c, rfl⟩ := exists_of_place_zero hplace
    exact ⟨c, hfirst⟩
  case share_due =>
    intro before e after hlog he
    exact hsound.share_due hlog he
  case independent =>
    intro b responses' hconfig hkey k hk e e' he he'
    have hsound' := b.sound_run tape responses'
    obtain ⟨-, heq, -, hzero, hone⟩ := hsound.getElem?_posts he
    obtain ⟨-, heq', -, hzero', hone'⟩ := hsound'.getElem?_posts he'
    have hssid : b.session.ssid = a.session.ssid := by
      have hssid_eq : ∀ x : Entrant, x.session.ssid = x.config.ssid x.key.publicKey :=
        fun _ => rfl
      rw [hssid_eq, hssid_eq, hconfig, hkey]
    have hown : b.session.own = a.session.own := by
      have hown_eq : ∀ x : Entrant, x.session.own = x.config.partyIndex.toNat :=
        fun _ => rfl
      rw [hown_eq, hown_eq, hconfig]
    rw [Session.nonceOf_congr hssid hown] at hzero' hone'
    rw [heq, heq', hconfig]
    match k, hk with
    | 0, _ => rw [hzero rfl, hzero' rfl]
    | 1, _ => rw [hone rfl, hone' rfl]

end Quorum
