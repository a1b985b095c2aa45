import Mathlib
import Quorum.Proofs.Signing.Gathering
import Quorum.Proofs.Signing.Views

/-!
# Agreement

Participants of one session that share a relay agree with each other if only
what goes by their positions is theirs: in the mailbox of every round the first
message that can be accepted from the position of an honest participant is the
one that it posted.  Those that complete a round hold the same messages of it,
those of the dishonest signers included; hence they start the last round with
the same result or the same failure, and come to the same end.
-/

namespace Quorum

/-- The first message in a mailbox that can be accepted from the sender at position `j`. -/
def Relay.first? (relay : Relay) (key : MailboxKey) (k j : Nat) : Option Envelope :=
  (((relay.mailbox key).map (Wire.read? Envelope)).filterMap id).find?
    (Envelope.isFrom k j)

/-- What goes by the position of a participant is what it posted. -/
def Member.Authentic (relay : Relay) (m : Member) : Prop :=
  ∀ k < 3, ∀ e, relay.first? (m.mailboxKey (roundNumber k)) k
    m.entrant.config.partyIndex.toNat = some e → (posts m.run.log)[k]? = some e

/-- Two third rounds are started with the same aggregate, or fail in the same way. -/
def ShareRound.StartsAlike (r r' : ShareRound) : Prop :=
  (∃ e e' aggregate, r.start.1 = .ok e ∧ r'.start.1 = .ok e' ∧
    r.start.2.round.output = some aggregate ∧
      r'.start.2.round.output = some aggregate) ∨
    ∃ e, r.start.1 = .error e ∧ r'.start.1 = .error e

/-- Two participants agree on everything that they have both come to. -/
structure Member.Agrees (m m' : Member) : Prop where
  /-- After the first two rounds they hold the same messages and start alike. -/
  sharing : ∀ stage stage', m.run.stages[2]? = some stage →
    m'.run.stages[2]? = some stage' → ∃ r r',
      stage = .signing (.sharing r) ∧ stage' = .signing (.sharing r') ∧
        r.commitments = r'.commitments ∧ r.reveals = r'.reveals ∧ r.StartsAlike r'
  /-- After the third round they end in the same way. -/
  finalizing : ∀ stage stage', m.run.stages[3]? = some stage →
    m'.run.stages[3]? = some stage' → ∃ f f',
      stage = .finalizing f ∧ stage' = .finalizing f' ∧ f.finalize = f'.finalize ∧
        m.run.participant = .ended f.finalize ∧ m'.run.participant = .ended f'.finalize

/-! ## What both have come to -/

/-- The signature depends on the aggregate, the shares and the public keys only. -/
theorem Finalization.finalize_congr {f f' : Finalization}
    (haggregate : f.aggregate = f'.aggregate) (hshares : f.shares = f'.shares)
    (hkey : f.session.publicKey = f'.session.publicKey)
    (hweighted : f.session.weightedShares = f'.session.weightedShares) :
    f.finalize = f'.finalize := by
  rw [finalize, finalize, findInvalidShare?, findInvalidShare?, haggregate, hshares, hkey,
    hweighted]

theorem ShareRound.startsAlike_of_map_prepare {r r' : ShareRound}
    (hnew : r.round.started = false) (hnew' : r'.round.started = false)
    (h : r.prepare.map Prod.snd = r'.prepare.map Prod.snd) : r.StartsAlike r' := by
  rw [StartsAlike, start_eq, start_eq]
  cases hprepare : r.prepare with
  | error e =>
    rw [hprepare] at h
    rw [map_eq_error.mp h.symm, Round.start_error hnew, Round.start_error hnew']
    exact Or.inr ⟨e, rfl, rfl⟩
  | ok prepared =>
    obtain ⟨share, aggregate⟩ := prepared
    rw [hprepare] at h
    obtain ⟨⟨share', aggregate'⟩, hprepare', heq⟩ := map_eq_ok.mp h.symm
    obtain rfl : aggregate' = aggregate := heq
    rw [hprepare', Round.start_ok hnew, Round.start_ok hnew']
    exact Or.inl ⟨_, _, aggregate', rfl, rfl, rfl, rfl⟩

namespace Member

variable {m m' : Member} {events : List Gathering.Event} {i i' : Nat}

theorem sound (m : Member) : m.run.Sound m.entrant m.tape :=
  m.entrant.sound_run m.tape m.responses

theorem stands (m : Member) : m.run.Stands m.entrant m.tape m.responses :=
  m.entrant.stands_run m.tape m.responses

/-- What was received first is what the mailbox holds first. -/
theorem Consistent.exists_first? (h : m.Consistent events i) {k j : Nat} (hk : k < 3)
    {content : Content} (hfirst : firstFrom? m.run.log k j = some content) :
    ∃ e, (Gathering.after events).relay.first? (m.mailboxKey (roundNumber k)) k j =
      some e ∧ e.content = content := by
  obtain ⟨e, hfind, hcontent⟩ := Option.map_eq_some_iff.mp hfirst
  obtain ⟨later, hlater⟩ := h.reads_prefix k hk
  refine ⟨e, ?_, hcontent⟩
  rw [Relay.first?, ← hlater, List.filterMap_append, List.find?_append, hfind]
  rfl

/-- A participant holds its own message, and of each peer the first one in the mailbox. -/
theorem Consistent.contents_eq (h : m.Consistent events i) {k : Nat} (hk : k < 3)
    {stage : Stage} (hstage : m.run.stages[k + 1]? = some stage) :
    stage.contents.length = m.entrant.config.parties.length ∧
      ∀ j < m.entrant.config.parties.length, ∃ e,
        stage.contents[j]? = some e.content ∧
          if j = m.entrant.config.partyIndex.toNat then (posts m.run.log)[k]? = some e
          else (Gathering.after events).relay.first? (m.mailboxKey (roundNumber k)) k j =
            some e := by
  have hnext := m.sound.stage_eq _ _ hstage
  obtain ⟨s, hs⟩ := Entrant.exists_signing_of_stageAfter_succ hk hnext
  have henters := Entrant.enters_of_stageAfter hs
  have hafter := hnext
  rw [Entrant.stageAfter_succ hs] at hafter
  obtain ⟨hlength, ⟨e, hsent, hown⟩, -⟩ :=
    henters.isNew.contents_of_next henters.own_lt hafter
  refine ⟨hlength, fun j hj => ?_⟩
  by_cases hself : j = m.entrant.config.partyIndex.toNat
  · refine ⟨e, ?_, ?_⟩
    · rw [hself, ← henters.own_eq]
      exact hown
    · -- What fills the own slot is what the start sent, and this was posted.
      have hposted : k < (posts m.run.log).length := by
        have hle := m.stands.length_stages_le
        have hlt := (List.getElem?_eq_some_iff.mp hstage).1
        omega
      have hget := List.getElem?_eq_getElem hposted
      obtain ⟨s', hs', hstart⟩ := m.sound.sent k _ hget
      have hsame := m.sound.stage_eq k _ hs'
      rw [hs] at hsame
      injection hsame with hsame
      injection hsame with hsame
      have hstart' : (s.start m.tape).1 = .ok e := Option.some.inj hsent
      rw [hsame, hstart] at hstart'
      rw [if_pos hself, hget]
      exact congrArg some (Except.ok.inj hstart')
  · obtain ⟨content, hfirst, hcontent⟩ :=
      (m.entrant.release m.tape m.responses).accepted k hk stage hstage j hj hself
    obtain ⟨e, he, rfl⟩ := h.exists_first? hk hfirst
    exact ⟨e, hcontent, by rwa [if_neg hself]⟩

theorem eq_sharing (m : Member) {stage : Stage} (hstage : m.run.stages[2]? = some stage) :
    ∃ r, stage = Stage.signing (.sharing r) := by
  have hafter := m.sound.stage_eq _ _ hstage
  cases stage with
  | finalizing f => exact absurd (Entrant.three_le_of_stageAfter hafter) (by decide)
  | signing s =>
    obtain ⟨r, rfl⟩ := Entrant.exists_of_stageAfter_two hafter
    exact ⟨r, rfl⟩

/-- After three rounds a participant has ended with what the finalization yields. -/
theorem eq_finalizing (m : Member) {stage : Stage}
    (hstage : m.run.stages[3]? = some stage) :
    ∃ f, stage = Stage.finalizing f ∧ m.run.participant = .ended f.finalize := by
  have hlt := (List.getElem?_eq_some_iff.mp hstage).1
  have hafter := m.sound.stage_eq _ _ hstage
  -- Only a run that has come to the finalization has that many stages.
  cases m.stands with
  | refused e admission stages log result =>
    rw [stages] at hlt
    cases hlt
  | stuck k s e stages stage' posts start result =>
    have hk := Entrant.lt_three_of_stageAfter (m.sound.stage_eq _ _ stage')
    omega
  | waiting k signer seen waits unheard result =>
    have hk := waits.lt_three m.sound
    have hlast := waits.length_stages
    omega
  | stopped k signer seen e waits unheard result cause =>
    have hk := waits.lt_three m.sound
    have hlast := waits.length_stages
    omega
  | finished f stages stage' posts result =>
    exact ⟨f, Option.some.inj (hstage.symm.trans stage'), result⟩

theorem exists_stage_le (m : Member) {j k : Nat} {stage : Stage} (hj : j ≤ k)
    (hstage : m.run.stages[k]? = some stage) :
    ∃ stage', m.run.stages[j]? = some stage' := by
  have hlt := (List.getElem?_eq_some_iff.mp hstage).1
  exact ⟨_, List.getElem?_eq_getElem (hj.trans_lt hlt)⟩

/-- The second round that a third one follows. -/
theorem exists_revealing (m : Member) {r : ShareRound}
    (hr : m.run.stages[2]? = some (Stage.signing (.sharing r))) :
    ∃ r₁, m.run.stages[1]? = some (Stage.signing (.revealing r₁)) ∧
      r.commitments = r₁.commitments := by
  obtain ⟨stage₁, hstage₁⟩ := m.exists_stage_le (by decide : 1 ≤ 2) hr
  have hafter₁ := m.sound.stage_eq _ _ hstage₁
  have hafter := m.sound.stage_eq _ _ hr
  obtain ⟨s₁, hs₁⟩ := Entrant.exists_signing_of_stageAfter_succ (by decide) hafter
  obtain ⟨r₁, _, _, rfl, -⟩ := Entrant.exists_of_stageAfter_one hs₁
  obtain rfl := Except.ok.inj (hafter₁.symm.trans hs₁)
  exact ⟨r₁, hstage₁, Entrant.commitments_of_stageAfter hs₁ hafter⟩

/-- The third round that a finalization follows, and what it has prepared. -/
theorem exists_prepare (m : Member) {f : Finalization}
    (hf : m.run.stages[3]? = some (Stage.finalizing f)) :
    ∃ r share, m.run.stages[2]? = some (Stage.signing (.sharing r)) ∧
      r.prepare = .ok (share, f.aggregate) ∧ f.session = m.entrant.session := by
  obtain ⟨stage₂, hstage₂⟩ := m.exists_stage_le (by decide : 2 ≤ 3) hf
  obtain ⟨r, rfl⟩ := m.eq_sharing hstage₂
  have hafter₂ := m.sound.stage_eq _ _ hstage₂
  have hafter := m.sound.stage_eq _ _ hf
  rw [Entrant.stageAfter_succ hafter₂] at hafter
  obtain ⟨tape, share, -, hprepare, hsession, -⟩ :=
    (Entrant.enters_of_stageAfter hafter₂).exists_prepare hafter
  exact ⟨r, share, hstage₂, hprepare, hsession⟩

section Partners

variable (h : m.Consistent events i) (h' : m'.Consistent events i')
  (hpartners : m.entrant.Partners m'.entrant)
  (hindex : m.entrant.config.partyIndex ≠ m'.entrant.config.partyIndex)
  (hauthentic : m.Authentic (Gathering.after events).relay)
  (hauthentic' : m'.Authentic (Gathering.after events).relay)

include h h' hpartners hindex hauthentic hauthentic'

/-- Participants that completed a round hold the same messages of it. -/
theorem contents_eq_of_authentic {k : Nat} (hk : k < 3) {stage stage' : Stage}
    (hstage : m.run.stages[k + 1]? = some stage)
    (hstage' : m'.run.stages[k + 1]? = some stage') :
    stage.contents = stage'.contents := by
  have hkey : m'.mailboxKey (roundNumber k) = m.mailboxKey (roundNumber k) := by
    rw [mailboxKey, mailboxKey, hpartners.sessionId_eq]
  have hne : m.entrant.config.partyIndex.toNat ≠ m'.entrant.config.partyIndex.toNat :=
    fun heq => hindex (UInt64.toNat_inj.mp heq)
  obtain ⟨hlength, hcontents⟩ := h.contents_eq hk hstage
  obtain ⟨hlength', hcontents'⟩ := h'.contents_eq hk hstage'
  rw [← hpartners.parties_eq] at hlength' hcontents'
  apply List.ext_getElem?
  intro j
  by_cases hj : j < m.entrant.config.parties.length
  · obtain ⟨e, hcontent, hcase⟩ := hcontents j hj
    obtain ⟨e', hcontent', hcase'⟩ := hcontents' j hj
    rw [hcontent, hcontent']
    rw [hkey] at hcase'
    split_ifs at hcase hcase' with hself hself' hself'
    · exact absurd (hself.symm.trans hself') hne
    · have hposted := hauthentic k hk e' (hself ▸ hcase')
      rw [hcase] at hposted
      exact congrArg (some ·.content) (Option.some.inj hposted)
    · have hposted := hauthentic' k hk e (by rwa [hkey, ← hself'])
      rw [hcase'] at hposted
      exact congrArg (some ·.content) (Option.some.inj hposted).symm
    · rw [hcase] at hcase'
      exact congrArg (some ·.content) (Option.some.inj hcase')
  · rw [List.getElem?_eq_none (by omega), List.getElem?_eq_none (by omega)]

/-- Participants that completed two rounds hold the same messages and prepare the same. -/
theorem sameView_of_authentic {r r' : ShareRound}
    (hr : m.run.stages[2]? = some (Stage.signing (.sharing r)))
    (hr' : m'.run.stages[2]? = some (Stage.signing (.sharing r'))) :
    r.SameView r' ∧ r.prepare.map Prod.snd = r'.prepare.map Prod.snd := by
  obtain ⟨r₁, hr₁, hcommitments⟩ := m.exists_revealing hr
  obtain ⟨r₁', hr₁', hcommitments'⟩ := m'.exists_revealing hr'
  have hfirst := contents_eq_of_authentic h h' hpartners hindex hauthentic hauthentic'
    (k := 0) (by decide) hr₁ hr₁'
  have hsecond := contents_eq_of_authentic h h' hpartners hindex hauthentic hauthentic'
    (k := 1) (by decide) hr hr'
  have hview : r.SameView r' := by
    constructor
    · rw [hcommitments, hcommitments']
      refine List.map_injective_iff.mpr ?_ hfirst
      intro c c' hc
      injection hc with hc
      injection hc
    · refine List.map_injective_iff.mpr ?_ hsecond
      intro v v' hv
      injection hv
  obtain ⟨tape, hopened⟩ :=
    (Entrant.enters_of_stageAfter (m.sound.stage_eq _ _ hr)).sharing_opened
  obtain ⟨tape', hopened'⟩ :=
    (Entrant.enters_of_stageAfter (m'.sound.stage_eq _ _ hr')).sharing_opened
  exact ⟨hview, hpartners.map_prepare_eq hopened hopened' hview⟩

/-- Participants that completed three rounds come to the same end. -/
theorem finalize_eq_of_authentic {f f' : Finalization}
    (hf : m.run.stages[3]? = some (Stage.finalizing f))
    (hf' : m'.run.stages[3]? = some (Stage.finalizing f')) : f.finalize = f'.finalize := by
  obtain ⟨r, share, hr, hprepare, hsession⟩ := m.exists_prepare hf
  obtain ⟨r', share', hr', hprepare', hsession'⟩ := m'.exists_prepare hf'
  have hthird := contents_eq_of_authentic h h' hpartners hindex hauthentic hauthentic'
    (k := 2) (by decide) hf hf'
  have hsame := (sameView_of_authentic h h' hpartners hindex hauthentic hauthentic'
    hr hr').2
  apply Finalization.finalize_congr
  case haggregate =>
    rw [hprepare, hprepare'] at hsame
    exact Except.ok.inj hsame
  case hshares =>
    refine List.map_injective_iff.mpr ?_ hthird
    intro s s' hs
    injection hs with hs
    injection hs
  case hkey =>
    rw [hsession, hsession']
    exact hpartners.sessionKey_eq
  case hweighted =>
    rw [hsession, hsession']
    exact hpartners.weightedShares_eq

theorem agrees_of_authentic : m.Agrees m' := by
  constructor
  case sharing =>
    intro stage stage' hstage hstage'
    obtain ⟨r, rfl⟩ := m.eq_sharing hstage
    obtain ⟨r', rfl⟩ := m'.eq_sharing hstage'
    obtain ⟨hview, hsame⟩ := sameView_of_authentic h h' hpartners hindex hauthentic
      hauthentic' hstage hstage'
    have henters := Entrant.enters_of_stageAfter (m.sound.stage_eq _ _ hstage)
    have henters' := Entrant.enters_of_stageAfter (m'.sound.stage_eq _ _ hstage')
    exact ⟨r, r', rfl, rfl, hview.commitments_eq, hview.reveals_eq,
      ShareRound.startsAlike_of_map_prepare henters.isNew.not_started
        henters'.isNew.not_started hsame⟩
  case finalizing =>
    intro stage stage' hstage hstage'
    obtain ⟨f, rfl, hresult⟩ := m.eq_finalizing hstage
    obtain ⟨f', rfl, hresult'⟩ := m'.eq_finalizing hstage'
    exact ⟨f, f', rfl, rfl, finalize_eq_of_authentic h h' hpartners hindex hauthentic
      hauthentic' hstage hstage', hresult, hresult'⟩

end Partners

end Member

/--
Two participants of one session at different positions agree, whatever has
happened, if only what goes by their positions is theirs.
-/
theorem Gathering.agreement {events : List Event} {i i' : Nat} {m m' : Member}
    (hm : (after events).members[i]? = some m)
    (hm' : (after events).members[i']? = some m')
    (hpartners : m.entrant.Partners m'.entrant)
    (hindex : m.entrant.config.partyIndex ≠ m'.entrant.config.partyIndex)
    (hauthentic : m.Authentic (after events).relay)
    (hauthentic' : m'.Authentic (after events).relay) : m.Agrees m' :=
  Member.agrees_of_authentic (consistent hm) (consistent hm') hpartners hindex hauthentic
    hauthentic'

end Quorum
