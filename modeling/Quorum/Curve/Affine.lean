import Quorum.Curve.Encoding

/-!
# Affine coordinates as byte strings

Nonces are committed to by their affine coordinates, each written as 32 bytes,
least significant first.  The coordinates of a point are read off its encoding
by the strict rule, and a revealed pair enters as a point only after both
numbers are found reduced and the curve equation holds.
-/

namespace Quorum

/-- The coordinates of a point, each as 32 bytes, least significant first. -/
structure AffineCoordinates where
  x : Octets 32
  y : Octets 32
deriving DecidableEq

namespace AffineCoordinates

/-- The coordinates as the list of values that a commitment covers. -/
def toValues (c : AffineCoordinates) : List Bytes :=
  [c.x.toList, c.y.toList]

end AffineCoordinates

namespace Point

/-- The coordinates of a point, if its encoding is read back by the strict rule. -/
def affine? (P : Point) : Option AffineCoordinates :=
  let k := P.encode.toList.toNatLE
  (recoverX? (k % parityPlace) (k.testBit 255)).map fun x =>
    ⟨x.encode, Octets.ofNatLE 32 (k % parityPlace)⟩

/--
The point with the given coordinates.  Both must be 32 bytes long and reduced,
and satisfy the curve equation; the point is then decoded from the encoding
that the pair determines, so that points have a single way in.
-/
def ofAffine? (x y : Bytes) : Option Point := do
  let x ← Coordinate.decode? x
  let y ← Coordinate.decode? y
  if OnCurve x y then decompress? (compress x y) else none

end Point

end Quorum
