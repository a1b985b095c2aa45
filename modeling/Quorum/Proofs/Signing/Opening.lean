import Mathlib
import Quorum.Proofs.Curve.Codec
import Quorum.Proofs.Signing.Honest
import Quorum.Proofs.Signing.Lifecycle

/-!
# Which openings the third round accepts

The nonce of a peer is refused by the first of five checks that fails, and a
start fails with the refusal of the first peer that is refused.  Only when no
peer is refused does the message matter.  This module says so independently of
how the checks are carried out, and what a start that succeeds has found: the
nonces are cleared of their component of small order before the proofs are
checked, so that everything accepted belongs to the subgroup of prime order.
-/

namespace Quorum

namespace Session

/-! ## One peer -/

/--
Why the nonce of the peer at position `j` is refused, which committed to `c`
and revealed `v`.  Each reason presupposes that those before it do not apply.
-/
inductive Refuses (s : Session) (j : Nat) (c : HashCommitment) (v : NonceReveal) :
    Error → Prop
  /-- The decommitment does not open the commitment. -/
  | unopened (hopen : v.decommitment.commitment ≠ c) :
    Refuses s j c v (.decommitmentFailed j 3)
  /-- It opens it to something other than two values. -/
  | malformed (hopen : v.decommitment.commitment = c)
    (hcount : v.decommitment.values.length ≠ 2) :
    Refuses s j c v (.malformedDecommitment j 3 v.decommitment.values.length)
  /-- The two values are not the canonical coordinates of a point. -/
  | offCurve {x y : Bytes} (hopen : v.decommitment.commitment = c)
    (hvalues : v.decommitment.values = [x, y]) (hpair : ¬ IsCoordinatePair x y) :
    Refuses s j c v (.invalidPoint j 3)
  /-- Nothing is left of the point when the cofactor is cleared. -/
  | smallOrder {Q : Point} (hopen : v.decommitment.commitment = c)
    (hvalues : v.decommitment.values = [Q.x.encode.toList, Q.y.encode.toList])
    (hzero : Q.clearCofactor = 0) :
    Refuses s j c v (.invalidPoint j 3)
  /-- The proof does not verify on what is left, in the context of the position. -/
  | unproved {Q : Point} (hopen : v.decommitment.commitment = c)
    (hvalues : v.decommitment.values = [Q.x.encode.toList, Q.y.encode.toList])
    (hne : Q.clearCofactor ≠ 0)
    (hproof : v.proof.verify (partyContext s.ssid j) Q.clearCofactor = false) :
    Refuses s j c v (.proofVerificationFailed j 3)

/-- What the nonce of a peer opens to when it is not refused. -/
structure Opens (s : Session) (j : Nat) (c : HashCommitment) (v : NonceReveal)
    (P : Point) : Prop where
  opens : v.decommitment.commitment = c
  /-- It holds the coordinates of a point, and what is left of it is used. -/
  exists_point : ∃ Q : Point,
    v.decommitment.values = [Q.x.encode.toList, Q.y.encode.toList] ∧ P = Q.clearCofactor
  proof : v.proof.verify (partyContext s.ssid j) P = true
  ne_zero : P ≠ 0
  mem : P ∈ Point.primeSubgroup
  /-- So does the first message of the proof. -/
  alpha_mem : v.proof.alpha ∈ Point.primeSubgroup

section OpenNonce

variable {s : Session} {j : Nat} {c : HashCommitment} {v : NonceReveal}

theorem openNonce_of_ne (hopen : v.decommitment.commitment ≠ c) :
    s.openNonce j c v = .error (.decommitmentFailed j 3) := by
  rw [openNonce, HashCommitment.open?, HashCommitment.verify, if_neg]
  · rfl
  · rw [decide_eq_true_iff]
    exact hopen

theorem openNonce_of_length_ne (hopen : v.decommitment.commitment = c)
    (hcount : v.decommitment.values.length ≠ 2) :
    s.openNonce j c v =
      .error (.malformedDecommitment j 3 v.decommitment.values.length) := by
  rw [openNonce, HashCommitment.open?, HashCommitment.verify, decide_eq_true hopen,
    if_pos rfl]
  split
  · next hnone => cases hnone
  · next x y hvalues =>
    rw [Option.some.injEq] at hvalues
    exact absurd (congrArg List.length hvalues) hcount
  · next values hvalues =>
    rw [Option.some.injEq] at hvalues
    rw [hvalues]
    rfl

theorem openNonce_of_values {x y : Bytes} (hopen : v.decommitment.commitment = c)
    (hvalues : v.decommitment.values = [x, y]) :
    s.openNonce j c v =
      match (Point.ofAffine? x y).map Point.clearCofactor with
      | none => .error (.invalidPoint j 3)
      | some point =>
        if point = 0 then .error (.invalidPoint j 3)
        else if v.proof.verify (partyContext s.ssid j) point then .ok point
        else .error (.proofVerificationFailed j 3) := by
  rw [openNonce, HashCommitment.open?, HashCommitment.verify, decide_eq_true hopen,
    if_pos rfl, hvalues]
  rfl

theorem openNonce_of_not_isCoordinatePair {x y : Bytes}
    (hopen : v.decommitment.commitment = c)
    (hvalues : v.decommitment.values = [x, y]) (hpair : ¬ IsCoordinatePair x y) :
    s.openNonce j c v = .error (.invalidPoint j 3) := by
  have hnone : Point.ofAffine? x y = none := by
    rw [Option.eq_none_iff_forall_ne_some]
    intro Q hQ
    obtain ⟨rfl, rfl⟩ := Point.ofAffine?_eq_some.mp hQ
    exact hpair Q.isCoordinatePair
  rw [openNonce_of_values hopen hvalues, hnone]
  rfl

theorem openNonce_of_point {Q : Point} (hopen : v.decommitment.commitment = c)
    (hvalues : v.decommitment.values = [Q.x.encode.toList, Q.y.encode.toList]) :
    s.openNonce j c v =
      if Q.clearCofactor = 0 then .error (.invalidPoint j 3)
      else if v.proof.verify (partyContext s.ssid j) Q.clearCofactor then
        .ok Q.clearCofactor
      else .error (.proofVerificationFailed j 3) := by
  rw [openNonce_of_values hopen hvalues, Point.ofAffine?_encode, Option.map_some]

/-- The reasons for which a nonce is refused, and the errors that report them. -/
theorem openNonce_eq_error {e : Error} :
    s.openNonce j c v = .error e ↔ s.Refuses j c v e := by
  constructor
  · intro h
    by_cases hopen : v.decommitment.commitment = c
    · by_cases hcount : v.decommitment.values.length = 2
      · obtain ⟨x, y, hvalues⟩ := List.length_eq_two.mp hcount
        by_cases hpair : IsCoordinatePair x y
        · obtain ⟨Q, rfl, rfl⟩ := Point.exists_of_isCoordinatePair hpair
          rw [openNonce_of_point hopen hvalues] at h
          split_ifs at h with hzero hproof
          · cases h
            exact .smallOrder hopen hvalues hzero
          · cases h
            exact .unproved hopen hvalues hzero (Bool.eq_false_iff.mpr hproof)
        · rw [openNonce_of_not_isCoordinatePair hopen hvalues hpair] at h
          cases h
          exact .offCurve hopen hvalues hpair
      · rw [openNonce_of_length_ne hopen hcount] at h
        cases h
        exact .malformed hopen hcount
    · rw [openNonce_of_ne hopen] at h
      cases h
      exact .unopened hopen
  · intro h
    cases h with
    | unopened hopen => exact openNonce_of_ne hopen
    | malformed hopen hcount => exact openNonce_of_length_ne hopen hcount
    | offCurve hopen hvalues hpair =>
      exact openNonce_of_not_isCoordinatePair hopen hvalues hpair
    | smallOrder hopen hvalues hzero =>
      rw [openNonce_of_point hopen hvalues, if_pos hzero]
    | unproved hopen hvalues hne hproof =>
      rw [openNonce_of_point hopen hvalues, if_neg hne, hproof,
        if_neg Bool.false_ne_true]

theorem opens_of_openNonce {P : Point} (h : s.openNonce j c v = .ok P) :
    s.Opens j c v P := by
  obtain ⟨hopen, hpoint, hne, hproof⟩ := openNonce_eq_ok.mp h
  obtain ⟨-, hmem⟩ := Point.isValid_iff.mp (isValid_of_openNonce h)
  exact ⟨of_decide_eq_true hopen, Decommitment.point?_eq_some.mp hpoint, hproof, hne,
    hmem, DlogProof.alpha_mem hproof⟩

theorem exists_openNonce_eq_ok :
    (∃ P, s.openNonce j c v = .ok P) ↔ ∀ e, ¬ s.Refuses j c v e := by
  simp only [← openNonce_eq_error]
  cases s.openNonce j c v with
  | error e => exact iff_of_false (by rintro ⟨P, ⟨⟩⟩) fun h => h e rfl
  | ok P => exact iff_of_true ⟨P, rfl⟩ fun e => by rintro ⟨⟩

end OpenNonce

end Session

/-! ## All peers, and the message -/

/-- Why a message cannot be signed. -/
inductive SigningMessage.Unsignable (m : SigningMessage) : Error → Prop
  /-- It does not fit its fixed length. -/
  | tooLong {max : UInt64} (hfixed : m.fixedLength = some max)
    (hlong : max.toNat < m.value.dropLeadingZeros.length) :
    Unsignable m (.messageTooLong m.value.dropLeadingZeros.length max.toNat)
  /-- Its encoding, the third segment of the challenge, is empty. -/
  | empty (hempty : m.encode = .ok []) : Unsignable m (.emptyHashSegment 2)

theorem SigningMessage.encode_eq_error {m : SigningMessage} {e : Error} :
    m.encode = .error e ↔ ∃ max, m.fixedLength = some max ∧
      max.toNat < m.value.dropLeadingZeros.length ∧
        e = .messageTooLong m.value.dropLeadingZeros.length max.toNat := by
  rw [encode]
  cases m.fixedLength with
  | none => simp
  | some max =>
    dsimp only
    split_ifs with hlong
    · simp [hlong, eq_comm]
    · simp [hlong]

theorem SigningMessage.unsignable_iff {m : SigningMessage} {e : Error} :
    m.Unsignable e ↔
      m.encode = .error e ∨ m.encode = .ok [] ∧ e = .emptyHashSegment 2 := by
  rw [encode_eq_error]
  constructor
  · intro h
    cases h with
    | tooLong hfixed hlong => exact Or.inl ⟨_, hfixed, hlong, rfl⟩
    | empty hempty => exact Or.inr ⟨hempty, rfl⟩
  · rintro (⟨max, hfixed, hlong, rfl⟩ | ⟨hempty, rfl⟩)
    · exact .tooLong hfixed hlong
    · exact .empty hempty

namespace ShareRound

/-- The peer at position `j` committed to `c` and revealed `v`. -/
structure HasPeer (r : ShareRound) (j : Nat) (c : HashCommitment) (v : NonceReveal) :
    Prop where
  ne_own : j ≠ r.session.own
  /-- The commitment is the one accepted in the first round. -/
  commitment : r.commitments[j]? = some c
  /-- The opening is the one accepted in the second round. -/
  reveal : r.reveals[j]? = some v

/-- Why a first start of the round fails. -/
inductive Fails (r : ShareRound) : Error → Prop
  /-- A peer is refused, and none before it is. -/
  | peer {j : Nat} {c : HashCommitment} {v : NonceReveal} {e : Error}
    (hpeer : r.HasPeer j c v) (hrefuses : r.session.Refuses j c v e)
    (hfirst : ∀ k < j, ∀ c' v' e', r.HasPeer k c' v' →
      ¬ r.session.Refuses k c' v' e') : Fails r e
  /-- No peer is refused, but the message cannot be signed. -/
  | message {e : Error}
    (hpeers : ∀ j c v e', r.HasPeer j c v → ¬ r.session.Refuses j c v e')
    (hmessage : r.session.message.Unsignable e) : Fails r e

/-- What is sent and kept by a start that succeeds among `n` signers. -/
structure Yields (r : ShareRound) (n : Nat) (share : Scalar) (aggregate : Aggregate) :
    Prop where
  length_noncePoints : aggregate.noncePoints.length = n
  /-- That of the signer itself is its own one. -/
  own : aggregate.noncePoints[r.session.own]? = some r.nonce.point
  /-- That of a peer is what its commitment opens to. -/
  peer : ∀ j c v, r.HasPeer j c v →
    ∃ P, aggregate.noncePoints[j]? = some P ∧ r.session.Opens j c v P
  valid : ∀ P ∈ aggregate.noncePoints, P ≠ 0 ∧ P ∈ Point.primeSubgroup
  nonce_eq : aggregate.nonce = aggregate.noncePoints.sum
  nonce_mem : aggregate.nonce ∈ Point.primeSubgroup
  message_eq : r.session.message.encode = .ok aggregate.message
  message_ne : aggregate.message ≠ []
  /-- The challenge is that of the aggregate nonce, the key and the message. -/
  challenge_eq : aggregate.challenge =
    r.session.challenge aggregate.nonce aggregate.message
  /-- The share is what the challenge asks for. -/
  share_eq : share =
    aggregate.challenge * r.session.signingShare + r.nonce.secret

variable {r : ShareRound}

/-- Opening the nonces fails with the refusal of the first peer that is refused. -/
theorem openNonces_eq_error_iff_refuses {e : Error} :
    r.openNonces = .error e ↔ ∃ j c v, r.HasPeer j c v ∧ r.session.Refuses j c v e ∧
      ∀ k < j, ∀ c' v' e', r.HasPeer k c' v' → ¬ r.session.Refuses k c' v' e' := by
  rw [openNonces_eq_error]
  constructor
  · rintro ⟨j, c, v, hc, hv, hne, hopen, hbefore⟩
    refine ⟨j, c, v, ⟨hne, hc, hv⟩, Session.openNonce_eq_error.mp hopen, ?_⟩
    intro k hk c' v' e' hpeer
    exact Session.exists_openNonce_eq_ok.mp
      (hbefore k hk hpeer.ne_own c' v' hpeer.commitment hpeer.reveal) e'
  · rintro ⟨j, c, v, hpeer, hrefuses, hfirst⟩
    refine ⟨j, c, v, hpeer.commitment, hpeer.reveal, hpeer.ne_own,
      Session.openNonce_eq_error.mpr hrefuses, ?_⟩
    intro k hk hne c' v' hc' hv'
    exact Session.exists_openNonce_eq_ok.mpr fun e' => hfirst k hk c' v' e' ⟨hne, hc', hv'⟩

theorem exists_openNonces_eq_ok :
    (∃ Ps, r.openNonces = .ok Ps) ↔
      ∀ j c v e, r.HasPeer j c v → ¬ r.session.Refuses j c v e := by
  cases hopen : r.openNonces with
  | error e =>
    obtain ⟨j, c, v, hpeer, hrefuses, -⟩ := openNonces_eq_error_iff_refuses.mp hopen
    exact iff_of_false (by rintro ⟨Ps, ⟨⟩⟩) fun h => h j c v e hpeer hrefuses
  | ok Ps =>
    refine iff_of_true ⟨Ps, rfl⟩ fun j c v e hpeer => ?_
    obtain ⟨P, -, hP⟩ := mapM_zipIdx_eq_ok.mp hopen |>.2 j (c, v)
      (List.getElem?_zip_eq_some.mpr ⟨hpeer.commitment, hpeer.reveal⟩)
    dsimp only at hP
    rw [if_neg hpeer.ne_own] at hP
    exact Session.exists_openNonce_eq_ok.mp ⟨P, hP⟩ e

/-- Preparing the share fails for the reasons listed, with the error that goes with them. -/
theorem prepare_eq_error_iff_fails {e : Error} :
    r.prepare = .error e ↔ r.Fails e := by
  rw [prepare_eq_error, exists_openNonces_eq_ok, ← SigningMessage.unsignable_iff,
    openNonces_eq_error_iff_refuses]
  constructor
  · rintro (⟨j, c, v, hpeer, hrefuses, hfirst⟩ | ⟨hpeers, hmessage⟩)
    · exact .peer hpeer hrefuses hfirst
    · exact .message hpeers hmessage
  · intro h
    cases h with
    | peer hpeer hrefuses hfirst => exact Or.inl ⟨_, _, _, hpeer, hrefuses, hfirst⟩
    | message hpeers hmessage => exact Or.inr ⟨hpeers, hmessage⟩

end ShareRound

namespace Entrant

variable {a : Entrant} {r : ShareRound}

theorem Opened.exists_hasPeer {tape : Tape} (h : a.Opened tape r) {j : Nat}
    (hj : j < a.config.parties.length) (hne : j ≠ r.session.own) :
    ∃ c v, r.HasPeer j c v :=
  ⟨_, _, hne,
    List.getElem?_eq_getElem (h.committed.length_eq ▸ hj),
    List.getElem?_eq_getElem (h.length_reveals ▸ hj)⟩

/-- What a third round prepares has been checked throughout. -/
theorem Opened.yields_of_prepare {tape : Tape} (h : a.Opened tape r) {share : Scalar}
    {aggregate : Aggregate} (hprepare : r.prepare = .ok (share, aggregate)) :
    r.Yields a.config.parties.length share aggregate := by
  obtain ⟨hopen, hmessage, hne, haggregate, hshare⟩ :=
    ShareRound.prepare_eq_ok.mp hprepare
  obtain ⟨hlength, hvalid⟩ := h.isValid_of_openNonces hopen
  obtain ⟨-, hentries⟩ := (ShareRound.openNonces_eq_ok h.lengths_eq).mp hopen
  have hnonce : aggregate.nonce = aggregate.noncePoints.sum :=
    congrArg Aggregate.nonce haggregate
  have hprime : ∀ P ∈ aggregate.noncePoints, P ≠ 0 ∧ P ∈ Point.primeSubgroup :=
    fun P hP => Point.isValid_iff.mp (hvalid P hP)
  constructor
  case length_noncePoints => exact hlength
  case own =>
    have hown := h.own_reveal
    rw [← h.own_eq] at hown
    have hcommitment := h.committed.own_eq
    rw [← h.own_eq] at hcommitment
    obtain ⟨P, hP, hcase⟩ := hentries _ _ _ hcommitment hown
    rw [if_pos rfl] at hcase
    rw [hP, hcase]
  case peer =>
    intro j c v hpeer
    obtain ⟨P, hP, hcase⟩ := hentries j c v hpeer.commitment hpeer.reveal
    rw [if_neg hpeer.ne_own] at hcase
    exact ⟨P, hP, Session.opens_of_openNonce hcase⟩
  case valid => exact hprime
  case nonce_eq => exact hnonce
  case nonce_mem =>
    rw [hnonce]
    exact Point.primeSubgroup.list_sum_mem fun P hP => (hprime P hP).2
  case message_eq => exact hmessage
  case message_ne => exact hne
  case challenge_eq =>
    rw [hnonce]
    exact congrArg Aggregate.challenge haggregate
  case share_eq => exact hshare

end Entrant

/-! ## The start -/

/-- How a first start of the third round comes out among `n` signers. -/
structure ShareRound.FirstStart (r : ShareRound) (n : Nat) : Prop where
  has_peer : ∀ j < n, j ≠ r.session.own → ∃ c v, r.HasPeer j c v
  /-- It fails for the reasons listed, with the error that goes with them. -/
  error_iff : ∀ e, r.start.1 = .error e ↔ r.Fails e
  /-- Otherwise it succeeds. -/
  ok_iff : (∃ e, r.start.1 = .ok e) ↔ ∀ e, ¬ r.Fails e
  /-- What it sends and keeps then has been checked. -/
  yields : ∀ e, r.start.1 = .ok e → ∃ share aggregate,
    r.Yields n share aggregate ∧
      e = .broadcast r.session.config.partyIndex 3 (.share ⟨share⟩) ∧
      r.start.2.share? = some share ∧ r.start.2.round.output = some aggregate
  /-- If it fails, it keeps nothing of what it opened. -/
  keeps_nothing : ∀ e, r.start.1 = .error e →
    r.start.2 = { r with round := { r.round with started := true } } ∧
      r.start.2.share? = none ∧ r.start.2.round.output = none

namespace Entrant

variable {a : Entrant}

/-- A third round after some calls still has the messages of the first two. -/
theorem Enters.exists_opened_of_after {s : Signer} {r : ShareRound} (h : a.Enters s)
    {calls : List Call} (hafter : s.after calls = .sharing r) :
    (∃ tape, a.Opened tape r) ∧ ∃ events : List (Round.Event Scalar Aggregate),
      r.round.HasHistory shareKind a.config.partyIndex a.config.parties.length events := by
  obtain ⟨r₀, rfl, rfl⟩ := Signer.eq_sharing_of_after hafter
  obtain ⟨tape, hopened⟩ := h.sharing_opened
  have hhistory := h.isNew.hasHistory calls
  rw [h.own_eq] at hhistory
  exact ⟨⟨tape, hopened.session_eq, hopened.committed, hopened.length_reveals,
    hopened.own_reveal⟩, _, hhistory⟩

/--
A third round that was not started accepts exactly the well-formed openings, and
its start reports the first failure.
-/
theorem Enters.opening {s : Signer} {r : ShareRound} (h : a.Enters s)
    {calls : List Call} (hafter : s.after calls = .sharing r)
    (hphase : r.round.phase = .notStarted) :
    r.FirstStart a.config.parties.length := by
  obtain ⟨⟨tape, hopened⟩, events, hhistory⟩ := h.exists_opened_of_after hafter
  have hown : a.config.partyIndex.toNat < a.config.parties.length :=
    h.admissible.own_lt
  have hstarted : r.round.started = false := Round.phase_eq_notStarted_iff.mp hphase
  obtain ⟨hfirst, houtput, hslot⟩ := hhistory.of_not_started hown hstarted
  have hanswer : r.start.1 = shareKind.outcome a.config.partyIndex r.prepare := by
    rw [r.start_eq, Round.start_fst hstarted, hhistory.kind_eq, hhistory.own_eq]
  constructor
  case has_peer =>
    intro j hj hne
    exact hopened.exists_hasPeer hj hne
  case error_iff =>
    intro e
    rw [hanswer, ← ShareRound.prepare_eq_error_iff_fails, RoundKind.outcome,
      map_eq_error]
  case ok_iff =>
    simp only [hanswer, ← ShareRound.prepare_eq_error_iff_fails, RoundKind.outcome,
      map_eq_ok]
    cases r.prepare with
    | error e => simp
    | ok prepared => simp
  case yields =>
    intro e he
    rw [hanswer] at he
    obtain ⟨⟨share, aggregate⟩, hprepare, rfl⟩ := map_eq_ok.mp he
    have hlater := hhistory.start (.ok (share, aggregate))
    have hfirst' : Round.firstStart? (events ++ [.start (.ok (share, aggregate))]) =
        some (.ok (share, aggregate)) := by
      rw [Round.firstStart?_concat, hfirst]
      rfl
    refine ⟨share, aggregate, hopened.yields_of_prepare hprepare, ?_, ?_, ?_⟩
    · rw [hopened.session_eq]
      rfl
    · rw [ShareRound.share?, r.start_eq, hprepare]
      dsimp only
      rw [hopened.own_eq, hlater.own_slot hown, hfirst']
      rfl
    · rw [r.start_eq, hprepare]
      dsimp only
      rw [hlater.output_eq, hfirst']
      rfl
  case keeps_nothing =>
    intro e he
    rw [hanswer] at he
    have hprepare : r.prepare = .error e := map_eq_error.mp he
    have hleft : r.start.2 = { r with round := { r.round with started := true } } := by
      rw [r.start_eq, hprepare, Round.start_error hstarted]
    refine ⟨hleft, ?_, ?_⟩
    · rw [hleft, ShareRound.share?]
      dsimp only
      rw [hopened.own_eq]
      exact hslot
    · rw [hleft]
      exact houtput

end Entrant

/-- The third round of the first signer of the smallest ceremony, after its phase was asked. -/
theorem Ceremony.opening_smallest :
    (smallest.entrant 0).Enters (smallest.signer 2 0) ∧
      (smallest.signer 2 0).after [.phase] = .sharing ⟨smallest.session 0,
        smallest.nonce 0, smallest.commitments, smallest.reveals,
        .new shareKind 0 2⟩ ∧
      (Round.new shareKind 0 2 : Round Scalar Aggregate).phase = .notStarted ∧
      (ShareRound.mk (smallest.session 0) (smallest.nonce 0) smallest.commitments
        smallest.reveals (.new shareKind 0 2)).FirstStart 2 := by
  have henters : (smallest.entrant 0).Enters (smallest.signer 2 0) :=
    valid_smallest.enters_signer (by decide) (by decide)
  have hafter : (smallest.signer 2 0).after [.phase] = .sharing ⟨smallest.session 0,
      smallest.nonce 0, smallest.commitments, smallest.reveals,
      .new shareKind 0 2⟩ := rfl
  exact ⟨henters, hafter, rfl, henters.opening hafter rfl⟩

end Quorum
