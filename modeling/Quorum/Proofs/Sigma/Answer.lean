import Mathlib
import Quorum.Proofs.Curve.PrimeSubgroup

/-!
# Answers to challenges

Both proofs of knowledge are checked by one equation: the point that the
verifier forms from the response has to be the prover's first message plus the
statement times the challenge.  How the point is formed does not matter here.

In the subgroup of prime order a first message and an answer fit one challenge
only, answers to two challenges give the statement away, and an answer that is
made with the wrong exponents fits no challenge but zero.
-/

namespace Quorum.Point

/-- `Y` answers the challenge `c` to the statement `X` after the first message `alpha`. -/
def Answers (alpha X : Point) (c : Scalar) (Y : Point) : Prop :=
  Y = alpha + c • X

variable {alpha X W Y Y' : Point} {c c' : Scalar}

theorem answers_iff_eq_sub : Answers alpha X c Y ↔ alpha = Y - c • X := by
  rw [Answers, eq_sub_iff_add_eq, eq_comm]

theorem Answers.challenge_eq_iff (h : Answers alpha X c Y)
    (hX : X ∈ primeSubgroup) (hne : X ≠ 0) :
    Answers alpha X c' Y ↔ c = c' := by
  rw [Answers, h, add_right_inj, smul_inj hX hne]

/-- The statement is the quotient of the answers' difference by the challenges'. -/
theorem Answers.statement_eq (h : Answers alpha X c Y)
    (h' : Answers alpha X c' Y') (hX : X ∈ primeSubgroup) (hc : c ≠ c') :
    X = (c - c').inverse • (Y - Y') := by
  have hdiff : Y - Y' = (c - c') • X := by
    rw [h, h', add_sub_add_left_eq_sub, sub_smul hX]
  have hne : c - c' ≠ 0 := Residue.sub_eq_zero_iff.not.mpr hc
  rw [hdiff, inverse_smul_smul hX hne]

/-- An answer that is made for `W` serves `X` only under the challenge zero. -/
theorem answers_add_smul_iff (hX : X ∈ primeSubgroup) (hW : W ∈ primeSubgroup) :
    Answers alpha X c (alpha + c • W) ↔ X = W ∨ c = 0 := by
  have hdiff : W - X ∈ primeSubgroup := primeSubgroup.sub_mem hW hX
  calc
    Answers alpha X c (alpha + c • W) ↔ c • W = c • X := by
      rw [Answers, add_right_inj]
    _ ↔ c • (W - X) = 0 := by
      rw [smul_sub, sub_eq_zero]
    _ ↔ c = 0 ∨ W - X = 0 := smul_eq_zero_iff hdiff
    _ ↔ X = W ∨ c = 0 := by
      rw [sub_eq_zero, or_comm, eq_comm]

end Quorum.Point
