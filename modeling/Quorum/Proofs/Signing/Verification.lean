import Mathlib
import Quorum.Proofs.Signing.Attribution

/-!
# The own check and the standard verifier

The signers check the sum of the shares against points that they hold, while a
verifier decodes the signature, computes the challenge anew and compares bytes.
With the hash of standard signatures both test the same equation, because
encodings are read back and tell points apart.  Only a nonce point that is
neutral makes a difference: it passes the own check, and a strict verifier
refuses it.
-/

namespace Quorum

/-- In the subgroup of prime order only the neutral element has small order. -/
theorem Point.isSmallOrder_iff {P : Point} (hP : P ∈ primeSubgroup) :
    P.isSmallOrder = true ↔ P = 0 := by
  have height : P.times 8 = (8 : Scalar) • P := rfl
  have hne : (8 : Scalar) ≠ 0 := by
    decide
  rw [isSmallOrder, decide_eq_true_iff, height, smul_eq_zero_iff hP,
    or_iff_right hne]

/-- What is tested of a signature both parts of which are read back. -/
theorem Signature.verifies_of_decode {sig : Signature} {A R : Point} {S : Scalar}
    {message : Bytes} (hs : Scalar.decode? sig.s.toList = some S)
    (hr : Point.decode? sig.r.toList = some R) :
    sig.verifies A message =
      (!R.isSmallOrder && !A.isSmallOrder &&
        decide ((S • Point.generator - sig.challenge A message • A).encode = sig.r)) := by
  rw [verifies, hs, hr]

/-- When a signature with a nonce point and a key of prime order is accepted. -/
theorem Signature.verifies_iff {sig : Signature} {R A : Point} {S : Scalar}
    {message : Bytes} (hs : sig.s = S.encode) (hr : sig.r = R.encode)
    (hR : R ∈ Point.primeSubgroup) (hA : A.isValid = true) :
    sig.verifies A message = true ↔
      R ≠ 0 ∧ S • Point.generator - R - sig.challenge A message • A = 0 := by
  obtain ⟨hne, hmem⟩ := Point.isValid_iff.mp hA
  have hsmallR : R.isSmallOrder = false ↔ R ≠ 0 := by
    rw [← Bool.not_eq_true, Point.isSmallOrder_iff hR]
  have hsmallA : A.isSmallOrder = false := by
    rw [← Bool.not_eq_true, Point.isSmallOrder_iff hmem]
    exact hne
  have hdecodeS : Scalar.decode? sig.s.toList = some S := by
    rw [hs, Scalar.decode?_encode]
  have hdecodeR : Point.decode? sig.r.toList = some R := by
    rw [hr, Point.decode?_encode]
  rw [verifies_of_decode hdecodeS hdecodeR, hsmallA, Bool.not_false, Bool.and_true,
    Bool.and_eq_true, Bool.not_eq_true', hsmallR, decide_eq_true_iff, hr,
    Point.encode_injective.eq_iff]
  generalize sig.challenge A message • A = kA
  generalize S • Point.generator = sG
  rw [sub_right_comm, sub_eq_zero]

/-- The key is always read back, so that only the signature is judged. -/
theorem Signature.verify_eq (sig : Signature) (A : Point) (message : Bytes) :
    sig.verify A message =
      if sig.verifies A message then .ok () else .error .invalidSignature := by
  rw [verify, Point.decode?_encode, Option.elim_some]

theorem Signature.verify_eq_ok {sig : Signature} {A : Point} {message : Bytes} :
    sig.verify A message = .ok () ↔ sig.verifies A message = true := by
  rw [verify_eq]
  split_ifs with h
  · exact iff_of_true rfl h
  · exact iff_of_false (by rintro ⟨⟩) h

theorem Signature.verify_eq_error {sig : Signature} {A : Point} {message : Bytes} :
    sig.verify A message = .error .invalidSignature ↔
      ¬ sig.verifies A message = true := by
  rw [verify_eq]
  split_ifs with h
  · exact iff_of_false (by rintro ⟨⟩) (not_not.mpr h)
  · exact iff_of_true rfl h

theorem ChallengeHash.preimage_standard : standard.preimage = sha512 :=
  rfl

/-- The signature that the shares make up, whether it is handed out or not. -/
def Finalization.candidate (f : Finalization) : Signature :=
  ⟨f.aggregate.nonce.encode, (Scalar.sum f.shares).encode⟩

/-- How the own check of a finalization relates to a verifier's. -/
structure Finalization.AgreesWithVerifier (f : Finalization) : Prop where
  /-- A signature handed out is accepted, unless the aggregate nonce is neutral. -/
  accepted : ∀ sig, f.finalize = .ok sig → f.aggregate.nonce ≠ 0 →
    sig.verify f.session.publicKey f.aggregate.message = .ok ()
  /-- If it is, the signature handed out is refused. -/
  refused : ∀ sig, f.finalize = .ok sig → f.aggregate.nonce = 0 →
    sig.verify f.session.publicKey f.aggregate.message = .error .invalidSignature
  /-- A signature that is not handed out would be refused. -/
  withheld : ∀ e, f.finalize = .error e →
    f.candidate.verify f.session.publicKey f.aggregate.message =
      .error .invalidSignature
  /-- The two checks disagree exactly on signatures handed out with a neutral nonce. -/
  disagree_iff : ¬ ((∃ sig, f.finalize = .ok sig) ↔
      f.candidate.verify f.session.publicKey f.aggregate.message = .ok ()) ↔
    (∃ sig, f.finalize = .ok sig) ∧ f.aggregate.nonce = 0

theorem Finalization.finalize_eq_ok {f : Finalization} {sig : Signature} :
    f.finalize = .ok sig ↔
      Scalar.sum f.shares • Point.generator - f.aggregate.nonce -
        f.aggregate.challenge • f.session.publicKey = 0 ∧ sig = f.candidate := by
  rw [finalize, ← fits_iff]
  split_ifs with hok
  · simp [hok, candidate, eq_comm]
  · cases f.findInvalidShare? <;> simp [hok]

namespace Entrant

variable {a : Entrant} {f : Finalization}

theorem Finalizes.nonce_mem (h : a.Finalizes f) :
    f.aggregate.nonce ∈ Point.primeSubgroup := by
  rw [h.aligned.nonce_eq]
  exact Point.primeSubgroup.list_sum_mem h.noncePoints_mem

/-- The challenge of a finalization is the one that belongs to nonce, key and message. -/
theorem Finalizes.challenge_eq (h : a.Finalizes f) :
    f.aggregate.challenge =
      a.session.challenge f.aggregate.nonce f.aggregate.message := by
  obtain ⟨r, tape, share, -, hopened, hprepare, -⟩ := h.exists_prepare
  obtain ⟨-, -, -, haggregate, -⟩ := ShareRound.prepare_eq_ok.mp hprepare
  rw [haggregate, hopened.session_eq]
  rfl

/-- A verifier accepts what the signers do, but for a neutral nonce. -/
theorem Finalizes.verifies_candidate_iff (h : a.Finalizes f)
    (hhash : a.hash = .standard) :
    f.candidate.verifies f.session.publicKey f.aggregate.message = true ↔
      (∃ sig, f.finalize = .ok sig) ∧ f.aggregate.nonce ≠ 0 := by
  have hpublic : f.session.publicKey = a.key.publicKey := by
    rw [h.session_eq]
    rfl
  have hchallenge : f.aggregate.challenge =
      f.candidate.challenge f.session.publicKey f.aggregate.message := by
    rw [h.challenge_eq, Session.challenge, h.session_eq]
    have hsession : a.session.hash = .standard := hhash
    rw [hsession, Signature.challenge, ChallengeHash.preimage_standard,
      Finalization.candidate]
  have hvalid : f.session.publicKey.isValid = true := by
    rw [hpublic]
    exact h.admissible.key_valid
  have hverifies :
      f.candidate.verifies f.session.publicKey f.aggregate.message = true ↔ _ :=
    Signature.verifies_iff rfl rfl h.nonce_mem hvalid
  simp only [Finalization.finalize_eq_ok, exists_and_left, exists_eq, and_true,
    hchallenge]
  rw [and_comm]
  exact hverifies

/--
With the hash of standard signatures, the own check and a strict verifier
disagree exactly on a neutral aggregate nonce.
-/
theorem Finalizes.verification (h : a.Finalizes f) (hhash : a.hash = .standard) :
    f.AgreesWithVerifier := by
  have hiff := h.verifies_candidate_iff hhash
  constructor
  case accepted =>
    intro sig hsig hne
    obtain ⟨-, rfl⟩ := Finalization.finalize_eq_ok.mp hsig
    exact Signature.verify_eq_ok.mpr (hiff.mpr ⟨⟨_, hsig⟩, hne⟩)
  case refused =>
    intro sig hsig hzero
    obtain ⟨-, rfl⟩ := Finalization.finalize_eq_ok.mp hsig
    exact Signature.verify_eq_error.mpr fun hverifies => (hiff.mp hverifies).2 hzero
  case withheld =>
    intro e he
    refine Signature.verify_eq_error.mpr fun hverifies => ?_
    obtain ⟨⟨sig, hsig⟩, -⟩ := hiff.mp hverifies
    rw [he] at hsig
    cases hsig
  case disagree_iff =>
    rw [Signature.verify_eq_ok, hiff, iff_self_and, Classical.not_imp, ne_eq, not_not]

end Entrant

/-- The finalization of the first signer of the smallest ceremony. -/
theorem Ceremony.verification_smallest :
    (smallest.entrant 0).Finalizes (smallest.finalization 0) ∧
      (smallest.entrant 0).hash = .standard ∧
      (smallest.finalization 0).AgreesWithVerifier := by
  have hfinalizes : (smallest.entrant 0).Finalizes (smallest.finalization 0) :=
    valid_smallest.finalizes (by decide)
  exact ⟨hfinalizes, rfl, hfinalizes.verification rfl⟩

end Quorum
