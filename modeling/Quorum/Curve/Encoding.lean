import Quorum.Curve.Point

/-!
# Encoded points

A point is written as 32 bytes: its second coordinate, least significant byte
first, with the parity of the first coordinate in the topmost bit.

Two readers go with this form.  `Point.decode?` is the lenient one used on
every incoming point: it takes the second coordinate modulo the field order
and ignores the parity bit where the first coordinate is zero.  `recoverX?` is
the strict one, which finds the first coordinate of a canonical encoding only.
-/

namespace Quorum

/--
The first coordinate that goes with the second coordinate `y` and the parity
`odd`.  An unreduced `y` is refused, and so is an odd parity when the first
coordinate is zero.
-/
def recoverX? (y : Nat) (odd : Bool) : Option Coordinate :=
  if y < fieldOrder then
    match Coordinate.root?
      (Coordinate.squareOfFirst (Residue.ofNat fieldOrder y)) with
    | none => none
    | some x =>
      if x = 0 then if odd then none else some x
      else some (Coordinate.withParity odd x)
  else none

namespace Point

/-- The value of bit 255, which carries a parity. -/
def parityPlace : Nat :=
  Nat.pow 2 255

/-- The second coordinate with the parity of the first one in bit 255. -/
def compress (x y : Coordinate) : Nat :=
  y.val + if x.isOdd then parityPlace else 0

/-- The canonical 32 bytes of a point. -/
def encode (P : Point) : Octets 32 :=
  Octets.ofNatLE 32 (compress P.x P.y)

/-- The point whose second coordinate and parity are written in a number. -/
def decompress? (k : Nat) : Option Point := do
  let y := Residue.ofNat fieldOrder (k % parityPlace)
  let root ← Coordinate.evenRootOfQuotient? (y * y - 1)
    (Coordinate.curveD * (y * y) + 1)
  ofCoordinates? (if k.testBit 255 then -root else root) y

/-- The point that 32 bytes write, if they write one. -/
def decode? (bs : Bytes) : Option Point :=
  if bs.length = 32 then decompress? bs.toNatLE else none

end Point

end Quorum
