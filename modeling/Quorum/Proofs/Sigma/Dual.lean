import Mathlib
import Quorum.Sigma.Dual
import Quorum.Proofs.Curve.DiscreteLog
import Quorum.Proofs.Sigma.Answer

/-!
# Completeness and soundness of the proof of two exponents

Prover and verifier do not check the same things here.  The prover looks at the
two public points, the verifier at the first message too, so that a true statement
is rejected when the two exponents drawn first cancel in `a R + b G`: for each
value of `a` that happens for one value of `b`.

The responses are not unique.  Two of them that are accepted after one first
message differ by exponents that cancel, and after two challenges they still give
a pair of exponents of the statement away.
-/

namespace Quorum.DualProof

variable {proof : DualProof} {session session' : Bytes} {V R alpha : Point}

theorem verify_iff :
    proof.verify session V R = true ↔
      (V.isValid = true ∧ R.isValid = true) ∧ proof.alpha.isValid = true ∧
        Point.Answers proof.alpha V (challenge session V R proof.alpha)
          (proof.t • R + proof.u • Point.generator) := by
  rw [verify, Bool.and_eq_true, Bool.and_eq_true, Bool.and_eq_true,
    decide_eq_true_iff, Point.Answers]
  constructor
  · rintro ⟨⟨⟨halpha, hV⟩, hR⟩, hanswer⟩
    exact ⟨⟨hV, hR⟩, halpha, hanswer⟩
  · rintro ⟨⟨hV, hR⟩, halpha, hanswer⟩
    exact ⟨⟨⟨halpha, hV⟩, hR⟩, hanswer⟩

section Combinations

variable (hR : R ∈ Point.primeSubgroup)
include hR

theorem combination_mem (s l : Scalar) :
    s • R + l • Point.generator ∈ Point.primeSubgroup :=
  Point.primeSubgroup.add_mem (Point.smul_mem s hR) (Point.smul_generator_mem l)

theorem combination_sub (t t' u u' : Scalar) :
    (t - t') • R + (u - u') • Point.generator =
      t • R + u • Point.generator - (t' • R + u' • Point.generator) := by
  rw [Point.sub_smul hR, Point.sub_smul Point.generator_mem, add_sub_add_comm]

theorem combination_mul (s l k : Scalar) :
    (s * k) • R + (l * k) • Point.generator = k • (s • R + l • Point.generator) := by
  rw [Point.mul_smul' hR, Point.mul_smul' Point.generator_mem, Point.smul_add]

theorem combination_add_mul (a b c s l : Scalar) :
    (a + c * s) • R + (b + c * l) • Point.generator =
      a • R + b • Point.generator + c • (s • R + l • Point.generator) := by
  have hG := Point.generator_mem
  rw [Point.add_smul hR, Point.add_smul hG, Point.mul_smul hR, Point.mul_smul hG,
    Point.smul_add, add_add_add_comm]

end Combinations

/-! ## Completeness -/

/-- The proof that is made with given first exponents. -/
def ofExponents (session : Bytes) (s l a b : Scalar) (V R : Point) : DualProof :=
  ⟨a • R + b • Point.generator,
    a + challenge session V R (a • R + b • Point.generator) * s,
    b + challenge session V R (a • R + b • Point.generator) * l⟩

theorem prove_of_isValid {s l : Scalar} {tape : Tape} (hV : V.isValid = true)
    (hR : R.isValid = true) :
    prove session s l V R tape =
      .ok (ofExponents session s l tape.scalar.1 tape.scalar.2.scalar.1 V R,
        tape.scalar.2.scalar.2) := by
  rw [prove, hV, hR]
  rfl

theorem prove_eq_error_iff {s l : Scalar} {tape : Tape} {e : Error} :
    prove session s l V R tape = .error e ↔
      (V.isValid = false ∨ R.isValid = false) ∧
        e = .invalidWitness .dualStatement := by
  rw [prove]
  cases V.isValid <;> cases R.isValid <;> simp [eq_comm]

theorem verify_ofExponents_iff {s l a b : Scalar} (hV : V.isValid = true)
    (hR : R.isValid = true) :
    (ofExponents session s l a b V R).verify session V R = true ↔
      a • R + b • Point.generator ≠ 0 ∧
        (V = s • R + l • Point.generator ∨
          challenge session V R (a • R + b • Point.generator) = 0) := by
  obtain ⟨-, hVmem⟩ := Point.isValid_iff.mp hV
  obtain ⟨-, hRmem⟩ := Point.isValid_iff.mp hR
  have halpha : (a • R + b • Point.generator).isValid = true ↔
      a • R + b • Point.generator ≠ 0 := by
    rw [Point.isValid_iff, and_iff_left (combination_mem hRmem a b)]
  rw [verify_iff, and_iff_right ⟨hV, hR⟩, ofExponents, halpha,
    combination_add_mul hRmem,
    Point.answers_add_smul_iff hVmem (combination_mem hRmem s l)]

/-- A true statement is rejected for one second exponent, whatever the first one is. -/
theorem existsUnique_rejected (session : Bytes) {s l : Scalar} (a : Scalar)
    (hV : V.isValid = true) (hR : R.isValid = true)
    (htrue : V = s • R + l • Point.generator) :
    ∃! b : Scalar, (ofExponents session s l a b V R).verify session V R = false := by
  obtain ⟨-, hmem⟩ := Point.isValid_iff.mp hR
  have hrejected : ∀ b : Scalar,
      (ofExponents session s l a b V R).verify session V R = false ↔
        b • Point.generator = -(a • R) := by
    intro b
    rw [Bool.eq_false_iff, Ne, verify_ofExponents_iff hV hR,
      and_iff_left (Or.inl htrue), not_not, add_eq_zero_iff_neg_eq, eq_comm]
  simp only [hrejected]
  exact Point.existsUnique_smul_generator
    (Point.primeSubgroup.neg_mem (Point.smul_mem a hmem))

/--
The prover fails on unusable public points only, and what it returns is accepted
if the first exponents do not cancel and either the exponents are right or the
challenge is zero; a true statement is rejected exactly if they cancel.
-/
theorem dual_completeness (session : Bytes) (s l : Scalar) (V R : Point)
    (tape : Tape) :
    (prove session s l V R tape = .error (.invalidWitness .dualStatement) ↔
      (V = 0 ∨ V ∉ Point.primeSubgroup) ∨ R = 0 ∨ R ∉ Point.primeSubgroup) ∧
    (V ≠ 0 ∧ V ∈ Point.primeSubgroup → R ≠ 0 ∧ R ∈ Point.primeSubgroup →
      ∃ proof,
        prove session s l V R tape = .ok (proof, tape.scalar.2.scalar.2) ∧
        proof.alpha =
          tape.scalar.1 • R + tape.scalar.2.scalar.1 • Point.generator ∧
        (proof.verify session V R = true ↔
          proof.alpha ≠ 0 ∧
            (V = s • R + l • Point.generator ∨
              challenge session V R proof.alpha = 0)) ∧
        (V = s • R + l • Point.generator →
          (proof.verify session V R = false ↔
            tape.scalar.1 • R + tape.scalar.2.scalar.1 • Point.generator = 0))) := by
  refine ⟨?refused, ?proved⟩
  case refused =>
    rw [prove_eq_error_iff, and_iff_left rfl, Point.isValid_eq_false_iff,
      Point.isValid_eq_false_iff]
  case proved =>
    intro hVvalid hRvalid
    have hV : V.isValid = true := Point.isValid_iff.mpr hVvalid
    have hR : R.isValid = true := Point.isValid_iff.mpr hRvalid
    refine ⟨_, prove_of_isValid hV hR, rfl, verify_ofExponents_iff hV hR, ?_⟩
    intro htrue
    rw [Bool.eq_false_iff, Ne, verify_ofExponents_iff hV hR,
      and_iff_left (Or.inl htrue), not_not]

/-- A tape that draws two zeros has a true statement rejected. -/
theorem dual_completeness_zero_tape :
    let V := (2 : Scalar) • Point.generator
    ∃ proof,
      prove [] 1 1 V Point.generator (Tape.repeating []) =
        .ok (proof, (Tape.repeating []).scalar.2.scalar.2) ∧
      proof.verify [] V Point.generator = false := by
  intro V
  have hR : Point.generator ≠ 0 ∧ Point.generator ∈ Point.primeSubgroup :=
    ⟨Point.generator_ne_zero, Point.generator_mem⟩
  have hV : V ≠ 0 ∧ V ∈ Point.primeSubgroup :=
    Point.isValid_iff.mp (Point.isValid_smul_generator.mpr (by decide))
  have htrue : V = (1 : Scalar) • Point.generator + (1 : Scalar) • Point.generator :=
    Point.add_smul Point.generator_mem 1 1
  obtain ⟨-, hproved⟩ :=
    dual_completeness [] 1 1 V Point.generator (Tape.repeating [])
  obtain ⟨proof, hprove, -, -, hrejected⟩ := hproved hV hR
  exact ⟨proof, hprove, (hrejected htrue).mpr (by decide +kernel)⟩

/-! ## Soundness -/

theorem verify_session_iff (h : proof.verify session V R = true) :
    proof.verify session' V R = true ↔
      challenge session V R proof.alpha = challenge session' V R proof.alpha := by
  obtain ⟨hpublic, halpha, hanswer⟩ := verify_iff.mp h
  obtain ⟨hne, hV⟩ := Point.isValid_iff.mp hpublic.1
  rw [verify_iff, and_iff_right hpublic, and_iff_right halpha,
    hanswer.challenge_eq_iff hV hne]

/-- What is accepted after a first message is one response up to exponents that cancel. -/
theorem verify_response_iff {t t' u u' : Scalar}
    (h : (⟨alpha, t, u⟩ : DualProof).verify session V R = true) :
    (⟨alpha, t', u'⟩ : DualProof).verify session V R = true ↔
      (t - t') • R + (u - u') • Point.generator = 0 := by
  obtain ⟨hpublic, halpha, hanswer⟩ := verify_iff.mp h
  obtain ⟨-, hR⟩ := Point.isValid_iff.mp hpublic.2
  rw [Point.Answers] at hanswer
  rw [verify_iff, and_iff_right hpublic, and_iff_right halpha, Point.Answers,
    combination_sub hR, sub_eq_zero, hanswer, eq_comm]

theorem statement_eq {t t' u u' : Scalar}
    (h : (⟨alpha, t, u⟩ : DualProof).verify session V R = true)
    (h' : (⟨alpha, t', u'⟩ : DualProof).verify session' V R = true)
    (hc : challenge session V R alpha ≠ challenge session' V R alpha) :
    V = ((t - t') *
        (challenge session V R alpha - challenge session' V R alpha).inverse) • R +
      ((u - u') *
        (challenge session V R alpha - challenge session' V R alpha).inverse) •
          Point.generator := by
  obtain ⟨⟨hvalidV, hvalidR⟩, -, hanswer⟩ := verify_iff.mp h
  obtain ⟨-, -, hanswer'⟩ := verify_iff.mp h'
  obtain ⟨-, hV⟩ := Point.isValid_iff.mp hvalidV
  obtain ⟨-, hR⟩ := Point.isValid_iff.mp hvalidR
  rw [combination_mul hR, combination_sub hR]
  exact hanswer.statement_eq hanswer' hV hc

/--
What acceptance says about two public points: all three points are usable, a
replay draws the same challenge, two responses after one first message and
challenge differ by exponents that cancel, and two challenges give exponents of
the statement away.
-/
theorem dual_special_soundness (V R : Point) :
    (∀ (session : Bytes) (proof : DualProof), proof.verify session V R = true →
      (V ≠ 0 ∧ V ∈ Point.primeSubgroup) ∧ (R ≠ 0 ∧ R ∈ Point.primeSubgroup) ∧
        proof.alpha ≠ 0 ∧ proof.alpha ∈ Point.primeSubgroup) ∧
    (∀ (session session' : Bytes) (proof : DualProof),
      proof.verify session V R = true →
        (proof.verify session' V R = true ↔
          challenge session V R proof.alpha = challenge session' V R proof.alpha)) ∧
    (∀ (session : Bytes) (alpha : Point) (t u t' u' : Scalar),
      (⟨alpha, t, u⟩ : DualProof).verify session V R = true →
        ((⟨alpha, t', u'⟩ : DualProof).verify session V R = true ↔
          (t - t') • R + (u - u') • Point.generator = 0)) ∧
    ∀ (session session' : Bytes) (alpha : Point) (t u t' u' : Scalar),
      (⟨alpha, t, u⟩ : DualProof).verify session V R = true →
      (⟨alpha, t', u'⟩ : DualProof).verify session' V R = true →
      challenge session V R alpha ≠ challenge session' V R alpha →
        V = ((t - t') *
            (challenge session V R alpha - challenge session' V R alpha).inverse) • R +
          ((u - u') *
            (challenge session V R alpha - challenge session' V R alpha).inverse) •
              Point.generator := by
  refine ⟨?accepted, fun _ _ _ => verify_session_iff,
    fun _ _ _ _ _ _ => verify_response_iff, fun _ _ _ _ _ _ _ => statement_eq⟩
  intro session proof h
  obtain ⟨⟨hV, hR⟩, halpha, -⟩ := verify_iff.mp h
  exact ⟨Point.isValid_iff.mp hV, Point.isValid_iff.mp hR, Point.isValid_iff.mp halpha⟩

/-- A first message that is used in two sessions gives exponents away. -/
theorem dual_special_soundness_of_two_sessions :
    let G := Point.generator
    let proof := ofExponents [] 2 (-1) 1 0 G G
    let proof' := ofExponents [1] 2 (-1) 1 0 G G
    let c := challenge [] G G proof.alpha
    let c' := challenge [1] G G proof.alpha
    proof.verify [] G G = true ∧ proof'.verify [1] G G = true ∧ c ≠ c' ∧
      G = ((proof.t - proof'.t) * (c - c').inverse) • G +
        ((proof.u - proof'.u) * (c - c').inverse) • G := by
  intro G proof proof' c c'
  have hG : G.isValid = true :=
    Point.isValid_iff.mpr ⟨Point.generator_ne_zero, Point.generator_mem⟩
  have htrue : G = (2 : Scalar) • G + (-1 : Scalar) • G := by
    decide +kernel
  have halpha : proof.alpha = Point.generator := by
    decide +kernel
  have hne : proof.alpha ≠ 0 := by
    rw [halpha]
    exact Point.generator_ne_zero
  have hverify : proof.verify [] G G = true :=
    (verify_ofExponents_iff hG hG).mpr ⟨hne, Or.inl htrue⟩
  have hverify' : proof'.verify [1] G G = true :=
    (verify_ofExponents_iff hG hG).mpr ⟨hne, Or.inl htrue⟩
  have hchallenge : c ≠ c' := by
    change challenge [] G G proof.alpha ≠ challenge [1] G G proof.alpha
    rw [halpha]
    decide +kernel
  obtain ⟨-, -, -, hextract⟩ := dual_special_soundness G G
  exact ⟨hverify, hverify', hchallenge,
    hextract _ _ _ _ _ _ _ hverify hverify' hchallenge⟩

end Quorum.DualProof
