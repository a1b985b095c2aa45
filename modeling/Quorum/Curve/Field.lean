import Quorum.Bytes
import Quorum.Residue

/-!
# The coordinate field

Coordinates of curve points are residues modulo `p = 2 ^ 255 - 19`.  Besides
the curve constant, this module provides the square root of a quotient that
decoding a point needs: since `p` is five modulo eight, one exponentiation
yields a root of the quotient, of its negative, or of neither.
-/

namespace Quorum

/-- The number of elements of the coordinate field. -/
def fieldOrder : Nat :=
  Nat.pow 2 255 - 19

instance : Modulus fieldOrder :=
  ⟨by decide⟩

/-- An affine coordinate. -/
abbrev Coordinate := Residue fieldOrder

namespace Coordinate

/-- The 32 bytes of the least representative, least significant first. -/
def encode (a : Coordinate) : Octets 32 :=
  Octets.ofNatLE 32 a.val

/-- The coordinate that 32 bytes write, if the number they denote is reduced. -/
def decode? (bs : Bytes) : Option Coordinate :=
  if bs.length = 32 then Residue.ofNat? fieldOrder bs.toNatLE else none

/-- The constant `d = -121665 / 121666` of the curve equation. -/
def curveD : Coordinate :=
  37095705934669439343138083508754565189542113879843219016388785533085940283555

/-- The square root `2 ^ ((p - 1) / 4)` of minus one. -/
def rootOfMinusOne : Coordinate :=
  19681161376707505956807079304988542015446066515923890162744021073123829784752

/-- Whether the least representative is odd. -/
def isOdd (a : Coordinate) : Bool :=
  a.val % 2 == 1

/-- The element with the requested parity among `a` and its negative. -/
def withParity (odd : Bool) (a : Coordinate) : Coordinate :=
  if a.isOdd = odd then a else -a

/-- A square root by the power `(p + 3) / 8`, if there is one. -/
def root? (a : Coordinate) : Option Coordinate :=
  let r := a.pow ((fieldOrder + 3) / 8)
  if r * r = a then some r
  else
    let s := r * rootOfMinusOne
    if s * s = a then some s else none

/-- The square of the first coordinate that goes with the second coordinate `y`. -/
def squareOfFirst (y : Coordinate) : Coordinate :=
  (y * y - 1) * (curveD * (y * y) + 1).inverse

/-- The even square root of `u / v`, for a nonzero `v`, if `u / v` is a square. -/
def evenRootOfQuotient? (u v : Coordinate) : Option Coordinate :=
  let v3 := v * v * v
  let v7 := v3 * v3 * v
  let r := u * v3 * (u * v7).pow ((fieldOrder - 5) / 8)
  let check := v * (r * r)
  if check = u then some (withParity false r)
  else if check = -u then some (withParity false (r * rootOfMinusOne))
  else none

end Coordinate

end Quorum
