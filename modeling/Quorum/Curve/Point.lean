import Quorum.Curve.Field
import Quorum.Curve.Scalar

/-!
# Points of the twisted Edwards curve

A point is a pair of coordinates with `y² - x² = 1 + d x² y²`.  Sums and
multiples are computed in extended coordinates, where the addition law needs
no division and has no exceptional cases, and are brought back to affine form
at the end; the curve equation is checked again on the way back, so that the
type of points needs no algebra to be trusted.
-/

namespace Quorum

/-- The curve equation. -/
def OnCurve (x y : Coordinate) : Prop :=
  y * y - x * x = 1 + Coordinate.curveD * (x * x) * (y * y)

instance (x y : Coordinate) : Decidable (OnCurve x y) :=
  inferInstanceAs (Decidable (_ = _))

/-- A point of the curve. -/
structure Point where
  x : Coordinate
  y : Coordinate
  onCurve : OnCurve x y
deriving DecidableEq

namespace Point

/-- The point with the given coordinates, if they satisfy the curve equation. -/
def ofCoordinates? (x y : Coordinate) : Option Point :=
  if h : OnCurve x y then some ⟨x, y, h⟩ else none

/-- The neutral element `(0, 1)`. -/
instance : Zero Point :=
  ⟨⟨0, 1, by decide⟩⟩

/-- Extended coordinates: `x = X / Z`, `y = Y / Z` and `x y = T / Z`. -/
structure Extended where
  X : Coordinate
  Y : Coordinate
  Z : Coordinate
  T : Coordinate

/-- A point in extended coordinates, with denominator one. -/
def extend (P : Point) : Extended :=
  ⟨P.x, P.y, 1, P.x * P.y⟩

namespace Extended

def neutral : Extended :=
  ⟨0, 1, 1, 0⟩

/-- The unified addition law, valid for equal and for distinct summands. -/
def add (P Q : Extended) : Extended :=
  let a := (P.Y - P.X) * (Q.Y - Q.X)
  let b := (P.Y + P.X) * (Q.Y + Q.X)
  let c := P.T * Coordinate.curveD * Q.T
  let c := c + c
  let d := P.Z * Q.Z
  let d := d + d
  let e := b - a
  let f := d - c
  let g := d + c
  let h := b + a
  ⟨e * f, g * h, f * g, e * h⟩

/-- The `k`-fold sum, by doubling from the leading binary digit of `k` down. -/
def times (k : Nat) (P : Extended) : Extended :=
  (binaryDigits k).foldr
    (fun bit Q => if bit then (Q.add Q).add P else Q.add Q) neutral

/-- The affine point, by one inversion of the denominator. -/
def toPoint (P : Extended) : Point :=
  let w := P.Z.inverse
  (ofCoordinates? (P.X * w) (P.Y * w)).getD 0

end Extended

instance : Add Point :=
  ⟨fun P Q => (P.extend.add Q.extend).toPoint⟩

instance : Neg Point :=
  ⟨fun P => (ofCoordinates? (-P.x) P.y).getD 0⟩

instance : Sub Point :=
  ⟨fun P Q => P + -Q⟩

/-- The sum of `k` copies of a point. -/
def times (k : Nat) (P : Point) : Point :=
  (P.extend.times k).toPoint

instance : SMul Scalar Point :=
  ⟨fun s P => P.times s.val⟩

def sum (Ps : List Point) : Point :=
  Ps.foldr (· + ·) 0

def generator : Point :=
  ⟨15112221349535400772501151409588531511454012693041857206046113283949847762202,
    46316835694926478169428394003475163141307993866256225615783033603165251855960,
    by decide⟩

end Point

end Quorum
