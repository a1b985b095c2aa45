import Quorum.Curve.Scalar

/-!
# Polynomials over the scalars

A polynomial is its list of coefficients, the constant one first.
-/

namespace Quorum.Polynomial

/-- The value at `x`, by Horner's rule. -/
def evaluate (coefficients : List Scalar) (x : Scalar) : Scalar :=
  coefficients.foldr (fun c value => value * x + c) 0

end Quorum.Polynomial
