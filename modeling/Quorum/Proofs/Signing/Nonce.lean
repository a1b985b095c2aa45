import Mathlib
import Quorum.Signing.Share
import Quorum.Proofs.Outcome
import Quorum.Proofs.Curve.Codec
import Quorum.Proofs.Sigma.Dlog

/-!
# Nonces of honest signers

A signer commits to its nonce, and whoever opens the commitment later gets the
nonce point back.  This module follows a nonce on that way: drawing fails for
the nonce zero only, the commitment opens to the coordinates, the coordinates
are those of the point, clearing the cofactor does not change it, and the proof
verifies in the context of the signer's position.
-/

namespace Quorum

/--
The point whose coordinates a decommitment holds, without its component of
small order.
-/
def Decommitment.point? (d : Decommitment) : Option Point :=
  match d.values with
  | [x, y] => (Point.ofAffine? x y).map Point.clearCofactor
  | _ => none

theorem Decommitment.point?_eq_some {d : Decommitment} {P : Point} :
    d.point? = some P ↔
      ∃ Q : Point, d.values = [Q.x.encode.toList, Q.y.encode.toList] ∧
        P = Q.clearCofactor := by
  rw [point?]
  constructor
  · intro h
    split at h
    · next x y hvalues =>
      obtain ⟨Q, hQ, rfl⟩ := Option.map_eq_some_iff.mp h
      obtain ⟨rfl, rfl⟩ := Point.ofAffine?_eq_some.mp hQ
      exact ⟨Q, hvalues, rfl⟩
    · cases h
  · rintro ⟨Q, hvalues, hP⟩
    rw [hvalues, hP]
    dsimp only
    rw [Point.ofAffine?_encode, Option.map_some]

namespace Session

/-- The nonce that a signer draws from a tape, unless it is zero. -/
def nonceOf (s : Session) (tape : Tape) : Nonce :=
  let secret := tape.scalar.1
  let point := secret • Point.generator
  let opening := Decommitment.draw [point.x.encode.toList, point.y.encode.toList]
    tape.scalar.2
  { secret, point
    reveal :=
      { decommitment := opening.1
        proof := .ofExponent (partyContext s.ssid s.own) secret
          opening.2.scalar.1 point } }

theorem secret_nonceOf (s : Session) (tape : Tape) :
    (s.nonceOf tape).secret = tape.scalar.1 :=
  rfl

theorem point_nonceOf (s : Session) (tape : Tape) :
    (s.nonceOf tape).point = (s.nonceOf tape).secret • Point.generator :=
  rfl

/-- The nonce is drawn first, then the randomness of the commitment, then the proof. -/
theorem drawNonce_of_affine {s : Session} {tape : Tape} {c : AffineCoordinates}
    (h : (tape.scalar.1 • Point.generator).affine? = some c) :
    s.drawNonce tape =
      (DlogProof.prove (partyContext s.ssid s.own) tape.scalar.1
        (tape.scalar.1 • Point.generator)
        (Decommitment.draw c.toValues tape.scalar.2).2).bind fun proof =>
        .ok ((Decommitment.draw c.toValues tape.scalar.2).1.commitment,
          ⟨tape.scalar.1, tape.scalar.1 • Point.generator,
            ⟨(Decommitment.draw c.toValues tape.scalar.2).1, proof.1⟩⟩) := by
  rw [drawNonce]
  generalize tape.scalar = drawn at h ⊢
  obtain ⟨secret, tape⟩ := drawn
  dsimp only at h ⊢
  generalize secret • Point.generator = point at h ⊢
  rw [h]
  rfl

/-- Drawing a nonce fails exactly if the nonce is zero. -/
theorem drawNonce_eq (s : Session) (tape : Tape) :
    s.drawNonce tape =
      if tape.scalar.1 = 0 then .error (.invalidWitness .dlogStatement)
      else .ok ((s.nonceOf tape).reveal.decommitment.commitment,
        s.nonceOf tape) := by
  rw [drawNonce_of_affine (Point.affine?_eq_some _)]
  by_cases hzero : tape.scalar.1 = 0
  · have hinvalid : (tape.scalar.1 • Point.generator).isValid = false := by
      rw [Bool.eq_false_iff, Ne, Point.isValid_smul_generator, not_not]
      exact hzero
    rw [if_pos hzero, DlogProof.prove_of_not_isValid hinvalid]
    rfl
  · rw [if_neg hzero,
      DlogProof.prove_of_isValid (Point.isValid_smul_generator.mpr hzero)]
    rfl

theorem drawNonce_eq_ok {s : Session} {tape : Tape} {c : HashCommitment}
    {nonce : Nonce} :
    s.drawNonce tape = .ok (c, nonce) ↔
      tape.scalar.1 ≠ 0 ∧ c = nonce.reveal.decommitment.commitment ∧
        nonce = s.nonceOf tape := by
  rw [drawNonce_eq]
  by_cases hzero : tape.scalar.1 = 0
  · simp [hzero]
  · rw [if_neg hzero, Except.ok.injEq, Prod.mk.injEq]
    constructor
    · rintro ⟨rfl, rfl⟩
      exact ⟨hzero, rfl, rfl⟩
    · rintro ⟨-, rfl, rfl⟩
      exact ⟨rfl, rfl⟩

theorem exists_drawNonce_eq_error (s : Session) (tape : Tape) :
    (∃ e, s.drawNonce tape = .error e) ↔ tape.scalar.1 = 0 := by
  rw [drawNonce_eq]
  generalize tape.scalar.1 = secret
  split_ifs with hzero
  · exact iff_of_true ⟨_, rfl⟩ hzero
  · refine iff_of_false ?_ hzero
    rintro ⟨e, he⟩
    cases he

/-! ## Opening a nonce -/

/-- What is checked before the nonce of a peer is used. -/
theorem openNonce_eq_ok {s : Session} {j : Nat} {c : HashCommitment}
    {reveal : NonceReveal} {P : Point} :
    s.openNonce j c reveal = .ok P ↔
      c.verify reveal.decommitment = true ∧
        reveal.decommitment.point? = some P ∧ P ≠ 0 ∧
        reveal.proof.verify (partyContext s.ssid j) P = true := by
  rw [openNonce, HashCommitment.open?, Decommitment.point?]
  -- The cases are those of the checks, in the order in which they are made.
  by_cases hopen : c.verify reveal.decommitment = true
  · rw [if_pos hopen]
    split
    · next hnone => cases hnone
    · next x y hvalues =>
      rw [Option.some.injEq] at hvalues
      rw [hvalues]
      dsimp only
      split
      · next hpoint => simp [hpoint]
      · next Q hpoint =>
        rw [hpoint]
        split_ifs with hzero hproof
        · constructor
          · intro h
            cases h
          · rintro ⟨-, hQ, hP, -⟩
            cases hQ
            exact absurd hzero hP
        · constructor
          · intro h
            cases h
            exact ⟨hopen, rfl, hzero, hproof⟩
          · rintro ⟨-, hQ, -⟩
            cases hQ
            rfl
        · constructor
          · intro h
            cases h
          · rintro ⟨-, hQ, -, hverify⟩
            cases hQ
            exact absurd hverify hproof
    · next values hother hvalues =>
      rw [Option.some.injEq] at hvalues
      rw [hvalues]
      split
      · next x y => exact absurd rfl (hother x y)
      · simp
  · rw [if_neg hopen]
    simp [hopen]

theorem culprit_of_openNonce {s : Session} {j : Nat} {c : HashCommitment}
    {reveal : NonceReveal} {e : Error} (h : s.openNonce j c reveal = .error e) :
    e.culprit = some j := by
  rw [openNonce] at h
  split at h
  · cases h
    rfl
  · split at h
    · cases h
      rfl
    · split_ifs at h with hzero hproof
      · cases h
        rfl
      · cases h
        rfl
  · cases h
    rfl

theorem isValid_of_openNonce {s : Session} {j : Nat} {c : HashCommitment}
    {reveal : NonceReveal} {P : Point} (h : s.openNonce j c reveal = .ok P) :
    P.isValid = true := by
  obtain ⟨-, -, -, hverify⟩ := openNonce_eq_ok.mp h
  rw [DlogProof.verify, Bool.and_eq_true] at hverify
  exact hverify.1

/-- What an honest signer reveals opens its commitment to its nonce point. -/
theorem openNonce_nonceOf {s s' : Session} {tape : Tape}
    (hssid : s.ssid = s'.ssid) (hne : tape.scalar.1 ≠ 0) :
    s.openNonce s'.own (s'.nonceOf tape).reveal.decommitment.commitment
      (s'.nonceOf tape).reveal = .ok (s'.nonceOf tape).point := by
  have hvalid : (s'.nonceOf tape).point.isValid = true :=
    Point.isValid_smul_generator.mpr hne
  obtain ⟨hzero, hmem⟩ := Point.isValid_iff.mp hvalid
  rw [openNonce_eq_ok]
  refine ⟨decide_eq_true rfl, ?_, hzero, ?_⟩
  · have hpoint : Point.ofAffine? (s'.nonceOf tape).point.x.encode.toList
        (s'.nonceOf tape).point.y.encode.toList =
          some (s'.nonceOf tape).point :=
      Point.ofAffine?_encode _
    change (Point.ofAffine? (s'.nonceOf tape).point.x.encode.toList
        (s'.nonceOf tape).point.y.encode.toList).map Point.clearCofactor = _
    rw [hpoint, Option.map_some, Point.clearCofactor_eq_self hmem]
  · rw [hssid]
    exact DlogProof.verify_ofExponent _ _ hne

end Session

end Quorum
