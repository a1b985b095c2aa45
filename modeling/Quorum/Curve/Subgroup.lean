import Quorum.Curve.Point

/-!
# The prime-order subgroup

The curve has `8 L` points, and only those of the subgroup of order `L` are
used as keys and nonces.  `Point.clearCofactor` projects onto that subgroup,
and `Point.isValid` recognises its members other than the neutral element.
-/

namespace Quorum.Point

/-- Whether a point lies in the subgroup of order `L`. -/
def isTorsionFree (P : Point) : Bool :=
  P.times groupOrder = 0

/-- Whether a point lies in the subgroup of order eight. -/
def isSmallOrder (P : Point) : Bool :=
  P.times 8 = 0

/-- Whether a point is a generator of the subgroup of order `L`. -/
def isValid (P : Point) : Bool :=
  P ≠ 0 && P.isTorsionFree

/-- The component of a point in the subgroup of order `L`. -/
def clearCofactor (P : Point) : Point :=
  (8 : Scalar).inverse • P.times 8

end Quorum.Point
