import Mathlib
import Quorum.Sigma.Dlog
import Quorum.Proofs.Curve.DiscreteLog
import Quorum.Proofs.Sigma.Answer

/-!
# Completeness and soundness of the proof of one exponent

The prover refuses unusable statements only.  What it makes with a wrong exponent
is accepted under the challenge zero alone, and what it makes with the right one
is accepted whatever it draws, zero included.

The verifier looks at the statement and not at the first message.  The equation
makes up for that: it places the first message in the subgroup of prime order,
and there it leaves one response to each of them.  A proof is accepted in a
second session exactly if that session draws the same challenge, and two proofs
that share a first message show the exponent once their challenges differ.
-/

namespace Quorum.DlogProof

theorem verify_iff {proof : DlogProof} {session : Bytes} {X : Point} :
    proof.verify session X = true ↔
      X.isValid = true ∧ Point.Answers proof.alpha X
        (challenge session X proof.alpha) (proof.t • Point.generator) := by
  rw [verify, Bool.and_eq_true, decide_eq_true_iff, Point.Answers]

/-! ## Completeness -/

/-- The proof that is made with a given first exponent. -/
def ofExponent (session : Bytes) (x a : Scalar) (X : Point) : DlogProof :=
  ⟨a • Point.generator,
    a + challenge session X (a • Point.generator) * x⟩

theorem prove_of_isValid {session : Bytes} {x : Scalar} {X : Point} {tape : Tape}
    (h : X.isValid = true) :
    prove session x X tape =
      .ok (ofExponent session x tape.scalar.1 X, tape.scalar.2) := by
  rw [prove, if_pos h]
  rfl

theorem prove_of_not_isValid {session : Bytes} {x : Scalar} {X : Point}
    {tape : Tape} (h : X.isValid = false) :
    prove session x X tape = .error (.invalidWitness .dlogStatement) := by
  rw [prove, h]
  rfl

theorem prove_eq_error_iff {session : Bytes} {x : Scalar} {X : Point}
    {tape : Tape} {e : Error} :
    prove session x X tape = .error e ↔
      X.isValid = false ∧ e = .invalidWitness .dlogStatement := by
  cases hvalid : X.isValid with
  | false =>
    rw [prove_of_not_isValid hvalid, Except.error.injEq, eq_comm,
      and_iff_right rfl]
  | true =>
    rw [prove_of_isValid hvalid]
    simp

theorem verify_ofExponent_iff {session : Bytes} {x a : Scalar} {X : Point}
    (hvalid : X.isValid = true) :
    (ofExponent session x a X).verify session X = true ↔
      X = x • Point.generator ∨ challenge session X (a • Point.generator) = 0 := by
  obtain ⟨-, hX⟩ := Point.isValid_iff.mp hvalid
  have hG := Point.generator_mem
  rw [verify_iff, and_iff_right hvalid, ofExponent, Point.add_smul hG,
    Point.mul_smul hG, Point.answers_add_smul_iff hX (Point.smul_generator_mem x)]

/-- A proof of a true statement verifies, whatever its first exponent is. -/
theorem verify_ofExponent (session : Bytes) {x : Scalar} (a : Scalar)
    (hx : x ≠ 0) :
    (ofExponent session x a (x • Point.generator)).verify session
      (x • Point.generator) = true :=
  (verify_ofExponent_iff (Point.isValid_smul_generator.mpr hx)).mpr (Or.inl rfl)

/--
The prover fails on unusable statements only, and what it returns is accepted if
its exponent is right or the challenge is zero; a right exponent other than zero
is always proved.
-/
theorem completeness (session : Bytes) (x : Scalar) (X : Point) (tape : Tape) :
    (prove session x X tape = .error (.invalidWitness .dlogStatement) ↔
      X = 0 ∨ X ∉ Point.primeSubgroup) ∧
    (X ≠ 0 → X ∈ Point.primeSubgroup →
      ∃ proof, prove session x X tape = .ok (proof, tape.scalar.2) ∧
        proof.alpha = tape.scalar.1 • Point.generator ∧
        (proof.verify session X = true ↔
          X = x • Point.generator ∨ challenge session X proof.alpha = 0)) ∧
    (X = x • Point.generator → x ≠ 0 →
      ∃ proof, prove session x X tape = .ok (proof, tape.scalar.2) ∧
        proof.verify session X = true) := by
  refine ⟨?refused, ?proved, ?honest⟩
  case refused =>
    rw [prove_eq_error_iff, and_iff_left rfl, Point.isValid_eq_false_iff]
  case proved =>
    intro hne hX
    have hvalid : X.isValid = true := Point.isValid_iff.mpr ⟨hne, hX⟩
    exact ⟨_, prove_of_isValid hvalid, rfl, verify_ofExponent_iff hvalid⟩
  case honest =>
    rintro rfl hx
    exact ⟨_, prove_of_isValid (Point.isValid_smul_generator.mpr hx),
      verify_ofExponent session _ hx⟩

/-- A tape that draws the first exponent zero proves a true statement. -/
theorem completeness_zero_tape :
    (Tape.repeating []).scalar.1 = 0 ∧
      ∃ proof, prove [] 1 Point.generator (Tape.repeating []) =
          .ok (proof, (Tape.repeating []).scalar.2) ∧
        proof.verify [] Point.generator = true := by
  refine ⟨by decide, ?_⟩
  have hone : Point.generator = (1 : Scalar) • Point.generator :=
    (one_nsmul Point.generator).symm
  obtain ⟨-, -, honest⟩ :=
    completeness [] 1 Point.generator (Tape.repeating [])
  exact honest hone (by decide)

/-! ## Soundness -/

section Soundness

variable {proof : DlogProof} {session session' : Bytes} {X alpha : Point}

theorem alpha_eq (h : proof.verify session X = true) :
    proof.alpha = proof.t • Point.generator - challenge session X proof.alpha • X :=
  Point.answers_iff_eq_sub.mp (verify_iff.mp h).2

/-- The first message of a proof that verifies combines the generator and the statement. -/
theorem alpha_mem (h : proof.verify session X = true) :
    proof.alpha ∈ Point.primeSubgroup := by
  obtain ⟨hvalid, -⟩ := verify_iff.mp h
  obtain ⟨-, hX⟩ := Point.isValid_iff.mp hvalid
  rw [alpha_eq h]
  exact Point.primeSubgroup.sub_mem (Point.smul_generator_mem _) (Point.smul_mem _ hX)

theorem existsUnique_response (session : Bytes) (hvalid : X.isValid = true)
    (halpha : alpha ∈ Point.primeSubgroup) :
    ∃! t : Scalar, (⟨alpha, t⟩ : DlogProof).verify session X = true := by
  obtain ⟨-, hX⟩ := Point.isValid_iff.mp hvalid
  have hanswer : alpha + challenge session X alpha • X ∈ Point.primeSubgroup :=
    Point.primeSubgroup.add_mem halpha (Point.smul_mem _ hX)
  have hverify : ∀ t : Scalar, (⟨alpha, t⟩ : DlogProof).verify session X = true ↔
      t • Point.generator = alpha + challenge session X alpha • X := by
    intro t
    rw [verify_iff, and_iff_right hvalid, Point.Answers]
  simp only [hverify]
  exact Point.existsUnique_smul_generator hanswer

theorem verify_session_iff (h : proof.verify session X = true) :
    proof.verify session' X = true ↔
      challenge session X proof.alpha = challenge session' X proof.alpha := by
  obtain ⟨hvalid, hanswer⟩ := verify_iff.mp h
  obtain ⟨hne, hX⟩ := Point.isValid_iff.mp hvalid
  rw [verify_iff, and_iff_right hvalid, hanswer.challenge_eq_iff hX hne]

theorem statement_eq {t t' : Scalar}
    (h : (⟨alpha, t⟩ : DlogProof).verify session X = true)
    (h' : (⟨alpha, t'⟩ : DlogProof).verify session' X = true)
    (hc : challenge session X alpha ≠ challenge session' X alpha) :
    X = ((t - t') *
      (challenge session X alpha - challenge session' X alpha).inverse) •
        Point.generator := by
  obtain ⟨hvalid, hanswer⟩ := verify_iff.mp h
  obtain ⟨-, hanswer'⟩ := verify_iff.mp h'
  obtain ⟨-, hX⟩ := Point.isValid_iff.mp hvalid
  have hG := Point.generator_mem
  rw [Point.mul_smul' hG, Point.sub_smul hG]
  exact hanswer.statement_eq hanswer' hX hc

end Soundness

/--
What acceptance says about a statement: the first message is where it has to be,
its response is the only one, a replay draws the same challenge, and two
challenges give the exponent away.
-/
theorem special_soundness (X : Point) :
    (∀ (session : Bytes) (proof : DlogProof), proof.verify session X = true →
      (X ≠ 0 ∧ X ∈ Point.primeSubgroup) ∧
        proof.alpha = proof.t • Point.generator -
          challenge session X proof.alpha • X ∧
        proof.alpha ∈ Point.primeSubgroup) ∧
    (X ≠ 0 → X ∈ Point.primeSubgroup → ∀ (session : Bytes) (alpha : Point),
      (alpha ∈ Point.primeSubgroup →
        ∃! t : Scalar, (⟨alpha, t⟩ : DlogProof).verify session X = true) ∧
      (alpha ∉ Point.primeSubgroup →
        ∀ t : Scalar, (⟨alpha, t⟩ : DlogProof).verify session X = false)) ∧
    (∀ (session session' : Bytes) (proof : DlogProof),
      proof.verify session X = true →
        (proof.verify session' X = true ↔
          challenge session X proof.alpha = challenge session' X proof.alpha)) ∧
    ∀ (session session' : Bytes) (alpha : Point) (t t' : Scalar),
      (⟨alpha, t⟩ : DlogProof).verify session X = true →
      (⟨alpha, t'⟩ : DlogProof).verify session' X = true →
      challenge session X alpha ≠ challenge session' X alpha →
        X = ((t - t') *
          (challenge session X alpha - challenge session' X alpha).inverse) •
            Point.generator := by
  refine ⟨?accepted, ?responses, fun _ _ _ => verify_session_iff,
    fun _ _ _ _ _ => statement_eq⟩
  case accepted =>
    intro session proof h
    exact ⟨Point.isValid_iff.mp (verify_iff.mp h).1, alpha_eq h, alpha_mem h⟩
  case responses =>
    intro hne hX session alpha
    have hvalid : X.isValid = true := Point.isValid_iff.mpr ⟨hne, hX⟩
    refine ⟨existsUnique_response session hvalid, ?_⟩
    intro halpha t
    rw [Bool.eq_false_iff]
    intro h
    have hmem := alpha_mem h
    exact halpha hmem

/-- A first message that is used in two sessions gives the exponent two away. -/
theorem special_soundness_of_two_sessions :
    let X := (2 : Scalar) • Point.generator
    let proof := ofExponent [] 2 1 X
    let proof' := ofExponent [1] 2 1 X
    let c := challenge [] X proof.alpha
    let c' := challenge [1] X proof.alpha
    proof.verify [] X = true ∧ proof'.verify [1] X = true ∧ c ≠ c' ∧
      X = ((proof.t - proof'.t) * (c - c').inverse) • Point.generator := by
  intro X proof proof' c c'
  have htwo : (2 : Scalar) ≠ 0 := by
    decide
  have hverify : proof.verify [] X = true := verify_ofExponent [] 1 htwo
  have hverify' : proof'.verify [1] X = true := verify_ofExponent [1] 1 htwo
  have hne : c ≠ c' := by
    decide +kernel
  obtain ⟨-, -, -, hextract⟩ := special_soundness X
  exact ⟨hverify, hverify', hne, hextract _ _ _ _ _ hverify hverify' hne⟩

end Quorum.DlogProof
