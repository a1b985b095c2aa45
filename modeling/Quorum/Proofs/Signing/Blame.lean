import Mathlib
import Quorum.Proofs.Signing.Correctness
import Quorum.Proofs.Signing.Views

/-!
# Nobody is blamed for following the protocol

A signer blames a partner for the opening of its nonce or for its share.  The
opening of a nonce that the partner drew succeeds, and its share satisfies the
equation that shares are checked by, as long as the two signers hold the same
messages of the first two rounds.  The own position is never blamed.
-/

namespace Quorum

/-- A third round has the messages that a signer sent in the first two rounds. -/
def ShareRound.Holds (r : ShareRound) (b : Entrant) (calls : Nat → List Call) : Prop :=
  ∃ e e' c v, b.Sends calls 0 e ∧ e.content = .commitment ⟨c⟩ ∧
    b.Sends calls 1 e' ∧ e'.content = .reveal v ∧
    r.commitments[b.config.partyIndex.toNat]? = some c ∧
    r.reveals[b.config.partyIndex.toNat]? = some v

theorem SigningMessage.culprit_of_encode {m : SigningMessage} {e : Error}
    (h : m.encode = .error e) : e.culprit = none := by
  rw [encode] at h
  split at h
  · cases h
  · split_ifs at h
    cases h
    rfl

theorem Session.culprit_of_drawNonce {s : Session} {tape : Tape} {e : Error}
    (h : s.drawNonce tape = .error e) : e.culprit = none := by
  rw [drawNonce_eq] at h
  split_ifs at h
  cases h
  rfl

/-- The third round blames a peer whose nonce does not open. -/
theorem ShareRound.exists_of_culprit {r : ShareRound} {e : Error} {j : Nat}
    (h : r.prepare = .error e) (hculprit : e.culprit = some j) :
    ∃ c v, r.commitments[j]? = some c ∧ r.reveals[j]? = some v ∧
      j ≠ r.session.own ∧ r.session.openNonce j c v = .error e := by
  rcases prepare_eq_error.mp h with hopen | ⟨-, hmessage | ⟨-, rfl⟩⟩
  · obtain ⟨k, c, v, hc, hv, hne, herror, -⟩ := openNonces_eq_error.mp hopen
    have hk := Session.culprit_of_openNonce herror
    rw [hculprit, Option.some.injEq] at hk
    subst hk
    exact ⟨c, v, hc, hv, hne, herror⟩
  · rw [SigningMessage.culprit_of_encode hmessage] at hculprit
    cases hculprit
  · cases hculprit

theorem Round.finish_eq_error {α β : Type} {r : Round α β} {e : Error}
    (h : r.finish = .error e) : e = .roundIncomplete r.kind.number.toNat := by
  rw [finish] at h
  split at h
  · cases h
  · exact (Except.error.inj h).symm

namespace Signer

variable {s : Signer} {n : Nat}

theorem culprit_of_next {e : Error} (h : s.next = .error e) : e.culprit = none := by
  cases hfinish : s.current.round.finish with
  | error e' =>
    rw [next_of_error hfinish, Except.error.injEq] at h
    rw [← h, Round.finish_eq_error hfinish]
    rfl
  | ok result =>
    obtain ⟨stage, hstage⟩ := s.exists_next_iff.mpr ⟨result, hfinish⟩
    rw [hstage] at h
    cases h

/-- Starting a round is blamed on somebody in the third round only. -/
theorem IsNew.exists_of_culprit (h : s.IsNew n) {calls : List Call} {tape : Tape}
    {e : Error} {j : Nat} (hstart : ((s.after calls).start tape).1 = .error e)
    (hculprit : e.culprit = some j) : ∃ r, s = .sharing r ∧ r.prepare = .error e := by
  cases hfirst : s.firstOutcome? calls with
  | some outcome =>
    rw [h.start_again hfirst, Except.error.injEq] at hstart
    rw [← hstart] at hculprit
    cases hculprit
  | none =>
    rw [h.start_fst hfirst, RoundKind.outcome] at hstart
    have hprepare := map_eq_error.mp hstart
    cases s with
    | committing r =>
      dsimp only [current_committing] at hprepare
      rw [Session.culprit_of_drawNonce hprepare] at hculprit
      cases hculprit
    | revealing r => cases hprepare
    | sharing r => exact ⟨r, rfl, hprepare⟩

end Signer

namespace Entrant

/-- A signer fails when it starts a round, leaves it, or assembles the signature. -/
inductive Fails (a : Entrant) (calls : Nat → List Call) (e : Error) : Prop
  /-- Starting a round fails. -/
  | start {k : Nat} {s : Signer} {tape : Tape}
    (hs : a.stageAfter calls k = .ok (.signing s))
    (h : ((s.after (calls k)).start tape).1 = .error e)
  /-- Leaving a round fails. -/
  | next {k : Nat} {s : Signer} (hs : a.stageAfter calls k = .ok (.signing s))
    (h : (s.after (calls k)).next = .error e)
  /-- Assembling the signature fails. -/
  | finalize {k : Nat} {f : Finalization}
    (hf : a.stageAfter calls k = .ok (.finalizing f)) (h : f.finalize = .error e)

/-- Which failures of a signer are not blamed on a partner that follows the protocol. -/
structure Blameless (a b : Entrant) (calls calls' : Nat → List Call) : Prop where
  /-- The partner is not blamed for its commitment and opening if they are as it sent them. -/
  start : ∀ r, a.stageAfter calls 2 = .ok (.signing (.sharing r)) →
    r.Holds b calls' → ∀ tape e,
      (((Signer.sharing r).after (calls 2)).start tape).1 = .error e →
        e.culprit ≠ some b.config.partyIndex.toNat
  /-- Nor for its share, if both held the same messages of the first two rounds. -/
  finalize : ∀ r r' f e s, a.stageAfter calls 2 = .ok (.signing (.sharing r)) →
    b.stageAfter calls' 2 = .ok (.signing (.sharing r')) → r.SameView r' →
      b.Sends calls' 2 e → e.content = .share ⟨s⟩ →
        a.stageAfter calls 3 = .ok (.finalizing f) →
          f.shares[b.config.partyIndex.toNat]? = some s →
            f.finalize ≠ .error (.invalidShare b.config.partyIndex.toNat)
  /-- The signer blames nothing on itself. -/
  self : ∀ e, a.Fails calls e → e.culprit ≠ some a.config.partyIndex.toNat

variable {a b : Entrant}

/-- The weighted public share of an admitted signer is that of its secret share. -/
theorem getD_weightedShares_own (h : Admissible b.config b.key) :
    b.session.weightedShares.getD b.config.partyIndex.toNat 0 =
      b.weightAt b.config.partyIndex.toNat • b.key.secretShare • Point.generator ∧
    b.session.signingShare =
      b.weightAt b.config.partyIndex.toNat * b.key.secretShare := by
  have hparty : b.partyAt b.config.partyIndex.toNat = b.key.partyId := by
    rw [partyAt, List.getD_eq_getElem?_getD, h.own_party, Option.getD_some]
  constructor
  · rw [getD_weightedShares h.own_lt, hparty, List.getD_eq_getElem?_getD, h.own_share,
      Option.getD_some]
  · rw [weightAt, hparty]
    rfl

/-- The share that a signer prepares fits at every partner with the same view. -/
theorem Partners.shareError_eq_zero {r r' : ShareRound} {tape tape' : Tape}
    (hpartners : a.Partners b) (h : a.Opened tape r) (h' : b.Opened tape' r')
    (hview : r.SameView r') (hadmissible : Admissible b.config b.key)
    {f : Finalization} {own share : Scalar} {aggregate : Aggregate}
    (hf : r.prepare = .ok (own, f.aggregate)) (hsession : f.session = a.session)
    (hprepare : r'.prepare = .ok (share, aggregate))
    (hshare : f.shares[b.config.partyIndex.toNat]? = some share) :
    f.shareError b.config.partyIndex.toNat = 0 := by
  have haggregate : f.aggregate = aggregate := by
    have hsame := hpartners.map_prepare_eq h h' hview
    rw [hf, hprepare] at hsame
    exact Except.ok.inj hsame
  obtain ⟨hopen, -, -, -, hvalue⟩ := ShareRound.prepare_eq_ok.mp hprepare
  obtain ⟨P, hP, hpoint⟩ := ((ShareRound.openNonces_eq_ok h'.lengths_eq).mp hopen).2 _ _ _
    h'.committed.own_eq h'.own_reveal
  rw [if_pos h'.own_eq.symm, h'.committed.point_eq] at hpoint
  have hnonce : f.aggregate.noncePoints.getD b.config.partyIndex.toNat 0 =
      r'.nonce.secret • Point.generator := by
    rw [haggregate, List.getD_eq_getElem?_getD, hP, Option.getD_some, hpoint]
  obtain ⟨hweighted, hsigning⟩ := getD_weightedShares_own hadmissible
  rw [← hpartners.weightedShares_eq, ← hsession] at hweighted
  rw [Finalization.shareError_eq_zero_iff hnonce hweighted, List.getD_eq_getElem?_getD,
    hshare, Option.getD_some, hvalue, h'.session_eq, hsigning, haggregate]

/-- What a start fails with is not blamed on a partner whose messages are as it sent them. -/
theorem Partners.culprit_start_ne (h : a.Partners b) {calls : List Call}
    {calls' : Nat → List Call} {r : ShareRound} (hr : a.Enters (.sharing r))
    (hholds : r.Holds b calls') {tape : Tape} {e : Error}
    (hstart : (((Signer.sharing r).after calls).start tape).1 = .error e) :
    e.culprit ≠ some b.config.partyIndex.toNat := by
  intro hculprit
  obtain ⟨r', hr', hprepare⟩ := hr.isNew.exists_of_culprit hstart hculprit
  injection hr' with hr'
  subst hr'
  obtain ⟨c, v, hc, hv, -, herror⟩ := ShareRound.exists_of_culprit hprepare hculprit
  obtain ⟨e₀, e₁, c', v', hsent, hcontent, hsent', hcontent', hc', hv'⟩ := hholds
  obtain ⟨drawn, hne, hcommitment, hreveal⟩ := hsent.exists_nonce hsent'
  rw [hcontent] at hcommitment
  injection hcommitment with hcommitment
  injection hcommitment with hcommitment
  rw [hcontent'] at hreveal
  injection hreveal with hreveal
  rw [hc', hcommitment, Option.some.injEq] at hc
  rw [hv', hreveal, Option.some.injEq] at hv
  have hopen := Session.openNonce_nonceOf h.ssid_eq hne
  have hsession : r.session = a.session := hr.session_eq
  have hown : b.session.own = b.config.partyIndex.toNat := rfl
  rw [hown, hc, hv, ← hsession, herror] at hopen
  cases hopen

theorem Partners.finalize_ne (h : a.Partners b) {calls calls' : Nat → List Call}
    {r r' : ShareRound} {f : Finalization} {e : Envelope} {s : Scalar}
    (hr : a.stageAfter calls 2 = .ok (.signing (.sharing r)))
    (hr' : b.stageAfter calls' 2 = .ok (.signing (.sharing r')))
    (hview : r.SameView r') (hsent : b.Sends calls' 2 e)
    (hcontent : e.content = .share ⟨s⟩)
    (hf : a.stageAfter calls 3 = .ok (.finalizing f))
    (hshare : f.shares[b.config.partyIndex.toNat]? = some s) :
    f.finalize ≠ .error (.invalidShare b.config.partyIndex.toNat) := by
  intro herror
  rw [stageAfter_succ hr] at hf
  have hfinalizes : a.Finalizes f := ⟨_, _, enters_of_stageAfter hr, hf⟩
  obtain ⟨tape, share, hopened, hprepare, hsession, -⟩ :=
    (enters_of_stageAfter hr).exists_prepare hf
  have henters' := enters_of_stageAfter hr'
  obtain ⟨tape', hopened'⟩ := henters'.sharing_opened
  obtain ⟨share', aggregate, hprepare', hcontent'⟩ := hsent.exists_prepare hr'
  rw [hcontent] at hcontent'
  injection hcontent' with hcontent'
  injection hcontent' with hcontent'
  rw [hcontent'] at hshare
  obtain ⟨-, -, hne, -⟩ := (hfinalizes.aligned.decides.invalidShare_iff _).mp herror
  exact hne (h.shareError_eq_zero hopened hopened' hview henters'.admissible hprepare
    hsession hprepare' hshare)

theorem Finalizes.finalize_ne_own {f : Finalization} (h : a.Finalizes f) :
    f.finalize ≠ .error (.invalidShare a.config.partyIndex.toNat) := by
  intro herror
  obtain ⟨r, tape, share, hs, hopened, hprepare, hsession, -, hshare⟩ :=
    h.exists_prepare
  obtain ⟨-, -, hne, -⟩ := (h.aligned.decides.invalidShare_iff _).mp herror
  exact hne ((Partners.refl a).shareError_eq_zero hopened hopened (.refl r)
    hs.admissible hprepare hsession hprepare hshare)

theorem Fails.culprit_ne {calls : Nat → List Call} {e : Error} (h : a.Fails calls e) :
    e.culprit ≠ some a.config.partyIndex.toNat := by
  intro hculprit
  cases h with
  | start hs hstart =>
    have henters := enters_of_stageAfter hs
    obtain ⟨r, rfl, hprepare⟩ := henters.isNew.exists_of_culprit hstart hculprit
    obtain ⟨_, _, -, -, hne, -⟩ := ShareRound.exists_of_culprit hprepare hculprit
    have hsession : r.session = a.session := henters.session_eq
    rw [hsession] at hne
    exact hne rfl
  | next hs hnext =>
    rw [Signer.culprit_of_next hnext] at hculprit
    cases hculprit
  | finalize hf herror =>
    have hfinalizes := finalizes_of_stageAfter hf
    rcases hfinalizes.aligned.decides.error_cases _ herror with ⟨j, rfl⟩ | rfl
    · rw [Error.culprit, Option.some.injEq] at hculprit
      rw [hculprit] at herror
      exact hfinalizes.finalize_ne_own herror
    · cases hculprit

/-- A signer blames neither itself nor a partner that follows the protocol. -/
theorem Partners.blameless (h : a.Partners b) (calls calls' : Nat → List Call) :
    a.Blameless b calls calls' where
  start _ hr hholds _ _ hstart :=
    h.culprit_start_ne (enters_of_stageAfter hr) hholds hstart
  finalize _ _ _ _ _ hr hr' hview hsent hcontent hf hshare :=
    h.finalize_ne hr hr' hview hsent hcontent hf hshare
  self _ hfails := hfails.culprit_ne

end Entrant

namespace Ceremony

variable {c : Ceremony}

/-- In lockstep every third round has the messages that each signer sent. -/
theorem Valid.holds_lockstep (h : c.Valid) {j : Nat} (hj : j < c.parties.length)
    (s : Session) (nonce : Nonce) (round : Round Scalar Aggregate) :
    ShareRound.Holds ⟨s, nonce, c.commitments, c.reveals, round⟩ (c.entrant j)
      (c.lockstep · j) := by
  have hown : (c.entrant j).config.partyIndex.toNat = j := h.toNat_ofNat hj
  refine ⟨_, _, _, _, h.sends_lockstep (by decide) hj, rfl,
    h.sends_lockstep (by decide) hj, rfl, ?_, ?_⟩
  · rw [hown]
    exact getElem?_map_range.mpr ⟨hj, rfl⟩
  · rw [hown]
    exact getElem?_map_range.mpr ⟨hj, rfl⟩

/-- The signers of the smallest ceremony do not blame each other. -/
theorem blameless_smallest :
    (∃ r r' f e s, (smallest.entrant 0).stageAfter (smallest.lockstep · 0) 2 =
          .ok (.signing (.sharing r)) ∧
        (smallest.entrant 1).stageAfter (smallest.lockstep · 1) 2 =
          .ok (.signing (.sharing r')) ∧
        r.Holds (smallest.entrant 1) (smallest.lockstep · 1) ∧ r.SameView r' ∧
        (smallest.entrant 1).Sends (smallest.lockstep · 1) 2 e ∧ e.content = .share ⟨s⟩ ∧
        (smallest.entrant 0).stageAfter (smallest.lockstep · 0) 3 =
          .ok (.finalizing f) ∧ f.shares[1]? = some s) ∧
      (smallest.entrant 0).Blameless (smallest.entrant 1) (smallest.lockstep · 0)
        (smallest.lockstep · 1) := by
  have hzero : 0 < smallest.parties.length := by decide
  have hone : 1 < smallest.parties.length := by decide
  have h := valid_smallest
  refine ⟨⟨_, _, _, _, _, h.stageAfter_lockstep (by decide) hzero,
    h.stageAfter_lockstep (by decide) hone, h.holds_lockstep hone _ _ _, ⟨rfl, rfl⟩,
    h.sends_lockstep (by decide) hone, rfl, h.stageAfter_lockstep le_rfl hzero,
    getElem?_map_range.mpr ⟨hone, rfl⟩⟩, ?_⟩
  exact (smallest.partners 0 1).blameless _ _

end Ceremony

end Quorum
