import Mathlib
import Quorum.Proofs.Signing.Aggregate
import Quorum.Proofs.Signing.Entrant

/-!
# What a signer has when it gets to a round

Whatever the peers sent, a signer that gets to a later round has the nonce that
it drew in the first one and finds its own messages in its own slots.  When it
gets to the finalization, the aggregate is the one that its third round
prepared, and its own share is among the shares.
-/

namespace Quorum

namespace Signer

variable {s : Signer} {calls : List Call}

theorem eq_committing_of_after {r : CommitRound}
    (h : s.after calls = .committing r) :
    ∃ r₀, s = .committing r₀ ∧ r = { r₀ with
      round := r₀.round.after (Round.eventsOf r₀.session.drawNonce calls) } := by
  cases s with
  | committing r₀ =>
    rw [after_committing] at h
    injection h with h
    exact ⟨r₀, rfl, h.symm⟩
  | revealing r₀ =>
    rw [after_revealing] at h
    cases h
  | sharing r₀ =>
    rw [after_sharing] at h
    cases h

theorem eq_revealing_of_after {r : RevealRound}
    (h : s.after calls = .revealing r) :
    ∃ r₀, s = .revealing r₀ ∧ r = { r₀ with
      round := r₀.round.after
        (Round.eventsOf (fun _ => .ok (r₀.nonce.reveal, ())) calls) } := by
  cases s with
  | committing r₀ =>
    rw [after_committing] at h
    cases h
  | revealing r₀ =>
    rw [after_revealing] at h
    injection h with h
    exact ⟨r₀, rfl, h.symm⟩
  | sharing r₀ =>
    rw [after_sharing] at h
    cases h

theorem eq_sharing_of_after {r : ShareRound} (h : s.after calls = .sharing r) :
    ∃ r₀, s = .sharing r₀ ∧ r = { r₀ with
      round := r₀.round.after (Round.eventsOf (fun _ => r₀.prepare) calls) } := by
  cases s with
  | committing r₀ =>
    rw [after_committing] at h
    cases h
  | revealing r₀ =>
    rw [after_revealing] at h
    cases h
  | sharing r₀ =>
    rw [after_sharing] at h
    injection h with h
    exact ⟨r₀, rfl, h.symm⟩

end Signer

namespace Entrant

variable {a : Entrant}

/-- A nonce that the signer drew from a tape, with its commitment in the own slot. -/
structure Committed (a : Entrant) (tape : Tape) (nonce : Nonce)
    (commitments : List HashCommitment) : Prop where
  ne_zero : tape.scalar.1 ≠ 0
  nonce_eq : nonce = a.session.nonceOf tape
  length_eq : commitments.length = a.config.parties.length
  /-- The own one is a commitment to the nonce. -/
  own_eq : commitments[a.config.partyIndex.toNat]? =
    some nonce.reveal.decommitment.commitment

/-- A third round with the messages of the first two. -/
structure Opened (a : Entrant) (tape : Tape) (r : ShareRound) : Prop where
  session_eq : r.session = a.session
  /-- The nonce is the one committed to. -/
  committed : a.Committed tape r.nonce r.commitments
  length_reveals : r.reveals.length = a.config.parties.length
  /-- The own one opens the own commitment. -/
  own_reveal : r.reveals[a.config.partyIndex.toNat]? = some r.nonce.reveal

/-- The first round is that of the session. -/
theorem Enters.eq_of_committing {r : CommitRound} (h : a.Enters (.committing r)) :
    r = CommitRound.ofSession a.session := by
  cases h with
  | admitted h => exact (commitRound_eq_ok.mp h).2
  | next h calls hnext =>
    rcases Signer.next_eq_signing hnext with ⟨_, _, -, -, heq⟩ | ⟨_, _, -, -, heq⟩
    · cases heq
    · cases heq

/-- A second round follows a completed first one. -/
theorem Enters.exists_of_revealing {r : RevealRound} (h : a.Enters (.revealing r)) :
    ∃ calls, ((CommitRound.ofSession a.session).round.after
        (Round.eventsOf a.session.drawNonce calls)).finish =
          .ok (r.commitments, r.nonce) ∧
      r = ⟨a.session, r.nonce, r.commitments,
        .new revealKind a.config.partyIndex a.config.parties.length⟩ := by
  cases h with
  | next h calls hnext =>
    rcases Signer.next_eq_signing hnext with
      ⟨r₁, r₂, hafter, hr, heq⟩ | ⟨r₁, r₂, -, -, heq⟩
    · cases heq
      obtain ⟨r₀, rfl, rfl⟩ := Signer.eq_committing_of_after hafter
      obtain ⟨commitments, nonce, hfinish, rfl⟩ := CommitRound.next_eq_ok.mp hr
      rw [h.eq_of_committing] at hfinish ⊢
      exact ⟨calls, hfinish, rfl⟩
    · cases heq

theorem Enters.exists_of_sharing {r : ShareRound} (h : a.Enters (.sharing r)) :
    ∃ r₀ calls, a.Enters (.revealing r₀) ∧
      (r₀.round.after (Round.eventsOf (fun _ => .ok (r₀.nonce.reveal, ())) calls)).finish =
        .ok (r.reveals, ()) ∧
      r = ⟨r₀.session, r₀.nonce, r₀.commitments, r.reveals,
        .new shareKind r₀.session.config.partyIndex r₀.session.size⟩ := by
  cases h with
  | next h calls hnext =>
    rcases Signer.next_eq_signing hnext with
      ⟨r₁, r₂, -, -, heq⟩ | ⟨r₁, r₂, hafter, hr, heq⟩
    · cases heq
    · cases heq
      obtain ⟨r₀, rfl, rfl⟩ := Signer.eq_revealing_of_after hafter
      obtain ⟨reveals, hfinish, rfl⟩ := RevealRound.next_eq_ok.mp hr
      exact ⟨r₀, calls, h, hfinish, rfl⟩

theorem Enters.revealing_committed {r : RevealRound} (h : a.Enters (.revealing r)) :
    r.session = a.session ∧ ∃ tape, a.Committed tape r.nonce r.commitments := by
  obtain ⟨calls, hfinish, hr⟩ := h.exists_of_revealing
  have hown : a.config.partyIndex.toNat < a.config.parties.length :=
    h.admissible.own_lt
  obtain ⟨tape, commitment, -, hdraw, hlength, hslot⟩ :=
    Round.prepared_of_finish hown hfinish
  obtain ⟨hne, rfl, hnonce⟩ := Session.drawNonce_eq_ok.mp hdraw
  refine ⟨by rw [hr], tape, hne, hnonce, hlength, hslot⟩

theorem Enters.sharing_opened {r : ShareRound} (h : a.Enters (.sharing r)) :
    ∃ tape, a.Opened tape r := by
  obtain ⟨r₀, calls, h₀, hfinish, hr⟩ := h.exists_of_sharing
  obtain ⟨hsession, tape, hcommitted⟩ := h₀.revealing_committed
  have hown : a.config.partyIndex.toNat < a.config.parties.length :=
    h.admissible.own_lt
  have hround : r₀.round =
      .new revealKind a.config.partyIndex a.config.parties.length := by
    obtain ⟨_, -, hr₀⟩ := h₀.exists_of_revealing
    rw [hr₀]
  rw [hround] at hfinish
  obtain ⟨_, reveal, -, hreveal, hlength, hslot⟩ := Round.prepared_of_finish hown hfinish
  cases hreveal
  rw [hr]
  exact ⟨tape, hsession, hcommitted, hlength, hslot⟩

theorem Committed.point_eq {tape : Tape} {nonce : Nonce}
    {commitments : List HashCommitment} (h : a.Committed tape nonce commitments) :
    nonce.point = nonce.secret • Point.generator := by
  rw [h.nonce_eq, Session.point_nonceOf]

theorem Committed.isValid_point {tape : Tape} {nonce : Nonce}
    {commitments : List HashCommitment} (h : a.Committed tape nonce commitments) :
    nonce.point.isValid = true := by
  rw [h.point_eq, Point.isValid_smul_generator, h.nonce_eq, Session.secret_nonceOf]
  exact h.ne_zero

theorem Opened.own_eq {tape : Tape} {r : ShareRound} (h : a.Opened tape r) :
    r.session.own = a.config.partyIndex.toNat := by
  rw [h.session_eq]
  rfl

theorem Opened.lengths_eq {tape : Tape} {r : ShareRound} (h : a.Opened tape r) :
    r.commitments.length = r.reveals.length :=
  h.committed.length_eq.trans h.length_reveals.symm

/-- All nonce points generate the subgroup of prime order, the own one included. -/
theorem Opened.isValid_of_openNonces {tape : Tape} {r : ShareRound}
    (h : a.Opened tape r) {Ps : List Point} (hopen : r.openNonces = .ok Ps) :
    Ps.length = a.config.parties.length ∧ ∀ P ∈ Ps, P.isValid = true := by
  obtain ⟨hlength, hentries⟩ := (ShareRound.openNonces_eq_ok h.lengths_eq).mp hopen
  refine ⟨hlength.trans h.committed.length_eq, fun P hP => ?_⟩
  obtain ⟨j, hj, rfl⟩ := List.mem_iff_getElem.mp hP
  have hj' : j < r.commitments.length := hlength ▸ hj
  obtain ⟨P, hget, hcase⟩ := hentries j _ _ (List.getElem?_eq_getElem hj')
    (List.getElem?_eq_getElem (h.lengths_eq ▸ hj'))
  rw [List.getElem?_eq_getElem hj, Option.some.injEq] at hget
  rw [hget]
  split_ifs at hcase with hown
  · rw [hcase]
    exact h.committed.isValid_point
  · exact Session.isValid_of_openNonce hcase

/-- The aggregate of given nonce points does not depend on the position. -/
theorem Partners.aggregateOf_eq {b : Entrant} (h : a.Partners b) (Ps : List Point)
    (message : Bytes) :
    a.session.aggregateOf Ps message = b.session.aggregateOf Ps message := by
  have hhash : a.session.hash = b.session.hash := h.hash_eq
  rw [Session.aggregateOf, Session.aggregateOf, Session.challenge, Session.challenge,
    hhash, h.sessionKey_eq]

/-- What a signer prepared is what it gets to the finalization with. -/
theorem Enters.exists_prepare {r : ShareRound} {calls : List Call} {f : Finalization}
    (h : a.Enters (.sharing r))
    (hnext : ((Signer.sharing r).after calls).next = .ok (.finalizing f)) :
    ∃ tape share, a.Opened tape r ∧ r.prepare = .ok (share, f.aggregate) ∧
      f.session = a.session ∧ f.shares.length = a.config.parties.length ∧
      f.shares[a.config.partyIndex.toNat]? = some share := by
  obtain ⟨r₁, hafter, hr⟩ := Signer.next_eq_finalizing hnext
  obtain ⟨r₂, hr₂, rfl⟩ := Signer.eq_sharing_of_after hafter
  injection hr₂ with hr₂
  subst hr₂
  obtain ⟨shares, aggregate, hfinish, rfl⟩ := ShareRound.next_eq_ok.mp hr
  obtain ⟨tape, hopened⟩ := h.sharing_opened
  have hown : a.config.partyIndex.toNat < a.config.parties.length :=
    h.admissible.own_lt
  have hround : r.round =
      .new shareKind a.config.partyIndex a.config.parties.length := by
    obtain ⟨r₀, -, h₀, -, hr₀⟩ := h.exists_of_sharing
    rw [hr₀, h₀.revealing_committed.1]
    rfl
  dsimp only at hfinish
  rw [hround] at hfinish
  obtain ⟨_, share, -, hprepare, hlength, hslot⟩ := Round.prepared_of_finish hown hfinish
  exact ⟨tape, share, hopened, hprepare, hopened.session_eq, hlength, hslot⟩

theorem Finalizes.exists_prepare {f : Finalization} (h : a.Finalizes f) :
    ∃ r tape share, a.Enters (.sharing r) ∧ a.Opened tape r ∧
      r.prepare = .ok (share, f.aggregate) ∧ f.session = a.session ∧
      f.shares.length = a.config.parties.length ∧
      f.shares[a.config.partyIndex.toNat]? = some share := by
  obtain ⟨s, calls, hs, hnext⟩ := h
  obtain ⟨r₁, hafter, -⟩ := Signer.next_eq_finalizing hnext
  obtain ⟨r, rfl, -⟩ := Signer.eq_sharing_of_after hafter
  obtain ⟨tape, share, hprepare⟩ := hs.exists_prepare hnext
  exact ⟨r, tape, share, hs, hprepare⟩

end Entrant

end Quorum
