import Mathlib
import Quorum.Proofs.Curve.Cofactor
import Quorum.Proofs.Signing.Opening

/-!
# Nonces with a component of small order

A peer can add a point whose order divides eight to its nonce before it commits
to it.  Clearing the cofactor projects onto the subgroup of prime order, and the
third round looks at nothing of a revealed point but its projection.  So the
added point makes no difference: the nonce is accepted as the same point or
refused with the same error, and the round is started in the same way.
-/

namespace Quorum

/-- A map that projects onto the subgroup of prime order and drops the points of small order. -/
structure Point.ProjectsOntoPrimeOrder (f : Point → Point) : Prop where
  torsionFree : ∀ P, (f P).isTorsionFree = true
  /-- The points of the subgroup are those that it fixes. -/
  fixes_iff : ∀ P, f P = P ↔ P.isTorsionFree = true
  map_add : ∀ P Q, f (P + Q) = f P + f Q
  idempotent : ∀ P, f (f P) = f P
  /-- It annihilates the points whose order divides eight. -/
  eq_zero_iff : ∀ P, f P = 0 ↔ P.times 8 = 0
  /-- Of the other points it makes valid ones. -/
  isValid_iff : ∀ P, (f P).isValid = true ↔ P.times 8 ≠ 0

theorem Point.clearCofactor_projects : ProjectsOntoPrimeOrder clearCofactor where
  torsionFree P := isTorsionFree_iff.mpr P.clearCofactor_mem
  fixes_iff P := by rw [clearCofactor_eq_self_iff, isTorsionFree_iff]
  map_add := clearCofactor_add
  idempotent := clearCofactor_clearCofactor
  eq_zero_iff _ := clearCofactor_eq_zero
  isValid_iff _ := isValid_clearCofactor

/-- What a peer reveals that committed to the coordinates of a point. -/
def NonceReveal.ofPoint (randomness : Octets 32) (P : Point) (proof : DlogProof) :
    NonceReveal where
  decommitment := ⟨randomness, [P.x.encode.toList, P.y.encode.toList]⟩
  proof := proof

theorem Session.openNonce_ofPoint (s : Session) (j : Nat) (randomness : Octets 32)
    (P : Point) (proof : DlogProof) :
    s.openNonce j (NonceReveal.ofPoint randomness P proof).decommitment.commitment
        (.ofPoint randomness P proof) =
      if P.clearCofactor = 0 then .error (.invalidPoint j 3)
      else if proof.verify (partyContext s.ssid j) P.clearCofactor then
        .ok P.clearCofactor
      else .error (.proofVerificationFailed j 3) :=
  openNonce_of_point rfl rfl

/-- A point of small order makes no difference to the opening of a nonce. -/
theorem Session.openNonce_add_smallOrder (s : Session) (j : Nat)
    (randomness randomness' : Octets 32) (P : Point) (proof : DlogProof) {T : Point}
    (hT : T.times 8 = 0) :
    s.openNonce j
        (NonceReveal.ofPoint randomness (P + T) proof).decommitment.commitment
        (.ofPoint randomness (P + T) proof) =
      s.openNonce j (NonceReveal.ofPoint randomness' P proof).decommitment.commitment
        (.ofPoint randomness' P proof) := by
  rw [openNonce_ofPoint, openNonce_ofPoint, P.clearCofactor_add_smallOrder hT]

namespace ShareRound

/-- The round, had the signer at position `j` committed to `v` and revealed it. -/
def withReveal (r : ShareRound) (j : Nat) (v : NonceReveal) : ShareRound :=
  { r with
    commitments := r.commitments.set j v.decommitment.commitment
    reveals := r.reveals.set j v }

variable {r : ShareRound} {j : Nat} {v w : NonceReveal}

section Alike

variable (h : r.session.openNonce j v.decommitment.commitment v =
  r.session.openNonce j w.decommitment.commitment w)

include h

/-- How the nonces open depends on what a signer revealed through its own nonce only. -/
theorem openNonces_withReveal :
    (r.withReveal j v).openNonces = (r.withReveal j w).openNonces := by
  apply mapM_congr_map
  apply List.ext_getElem
  · simp [withReveal]
  · intro k hk hk'
    simp only [withReveal, List.getElem_map, List.getElem_zipIdx, List.getElem_zip,
      List.getElem_set, Nat.zero_add]
    split_ifs with hown hjk
    · rfl
    · rw [← hjk, h]
    · rfl

theorem prepare_withReveal : (r.withReveal j v).prepare = (r.withReveal j w).prepare := by
  rw [prepare, prepare, openNonces_withReveal h]
  rfl

theorem start_withReveal :
    (r.withReveal j v).start.1 = (r.withReveal j w).start.1 ∧
      (r.withReveal j v).start.2.round = (r.withReveal j w).start.2.round := by
  rw [start_eq, start_eq, prepare_withReveal h]
  exact ⟨rfl, rfl⟩

end Alike

end ShareRound

/--
Clearing the cofactor projects the `8 L` points onto the subgroup of prime order.
Hence a nonce that a peer commits to and reveals with a point of small order
added opens like the nonce itself, and the third round is started in the same
way: with the same answer, share and aggregate, or with the same error.
-/
theorem cofactor_cleared (r : ShareRound) (j : Nat) (randomness randomness' : Octets 32)
    (P T : Point) (proof : DlogProof) (hT : T.isSmallOrder = true) :
    (Nat.card Point = 8 * groupOrder ∧ Point.ProjectsOntoPrimeOrder Point.clearCofactor) ∧
      r.session.openNonce j
          (NonceReveal.ofPoint randomness (P + T) proof).decommitment.commitment
          (.ofPoint randomness (P + T) proof) =
        r.session.openNonce j
          (NonceReveal.ofPoint randomness' P proof).decommitment.commitment
          (.ofPoint randomness' P proof) ∧
      (r.withReveal j (.ofPoint randomness (P + T) proof)).start.1 =
        (r.withReveal j (.ofPoint randomness' P proof)).start.1 ∧
      (r.withReveal j (.ofPoint randomness (P + T) proof)).start.2.round =
        (r.withReveal j (.ofPoint randomness' P proof)).start.2.round := by
  have hsame := r.session.openNonce_add_smallOrder j randomness randomness' P proof
    (of_decide_eq_true hT)
  exact ⟨⟨Point.card_eq, Point.clearCofactor_projects⟩, hsame,
    ShareRound.start_withReveal hsame⟩

/--
In the smallest ceremony the second signer's nonce is accepted as it is, although
it is committed to and revealed with a point of order eight added.
-/
theorem Ceremony.cofactor_cleared_smallest :
    Point.orderEight.isSmallOrder = true ∧ Point.orderEight ≠ 0 ∧
      (smallest.session 0).openNonce 1
          (NonceReveal.ofPoint (.ofNatLE 32 0) ((smallest.nonce 1).point + .orderEight)
            (smallest.nonce 1).reveal.proof).decommitment.commitment
          (.ofPoint (.ofNatLE 32 0) ((smallest.nonce 1).point + .orderEight)
            (smallest.nonce 1).reveal.proof) =
        .ok (smallest.nonce 1).point := by
  have hsmall : Point.orderEight.isSmallOrder = true := by
    decide +kernel
  have hne : Point.orderEight ≠ 0 := by
    decide
  have hhonest : (smallest.session 0).openNonce (smallest.session 1).own
      (smallest.nonce 1).reveal.decommitment.commitment (smallest.nonce 1).reveal =
        .ok (smallest.nonce 1).point :=
    Session.openNonce_nonceOf (smallest.partners 0 1).ssid_eq
      (valid_smallest.nonce_ne_zero 1 (by decide))
  rw [valid_smallest.session_own (by decide)] at hhonest
  obtain ⟨-, hopen, -⟩ := cofactor_cleared
    ⟨smallest.session 0, smallest.nonce 0, smallest.commitments, smallest.reveals,
      .new shareKind 0 2⟩ 1 (.ofNatLE 32 0)
    (smallest.nonce 1).reveal.decommitment.randomness (smallest.nonce 1).point .orderEight
    (smallest.nonce 1).reveal.proof hsmall
  exact ⟨hsmall, hne, hopen.trans hhonest⟩

end Quorum
