import Quorum.Bytes
import Quorum.Residue

/-!
# Scalars

Scalars are residues modulo the order `L` of the prime-order subgroup.  They
are written as 32 bytes, least significant first, and read strictly: a number
that is not reduced is refused.
-/

namespace Quorum

/-- The order `L` of the prime-order subgroup. -/
def groupOrder : Nat :=
  Nat.pow 2 252 + 27742317777372353535851937790883648493

instance : Modulus groupOrder :=
  ⟨by decide⟩

/-- An exponent of the prime-order subgroup. -/
abbrev Scalar := Residue groupOrder

namespace Scalar

/-- The 32 bytes of the least representative, least significant first. -/
def encode (s : Scalar) : Octets 32 :=
  Octets.ofNatLE 32 s.val

/-- The scalar that 32 bytes write, if the number they denote is reduced. -/
def decode? (bs : Bytes) : Option Scalar :=
  if bs.length = 32 then Residue.ofNat? groupOrder bs.toNatLE else none

/-- The number that the bytes denote, reduced modulo the group order. -/
def reduce (bs : Bytes) : Scalar :=
  Residue.ofNat groupOrder bs.toNatLE

/-- The residue of a number modulo the group order. -/
def ofNat (k : Nat) : Scalar :=
  Residue.ofNat groupOrder k

def sum (ss : List Scalar) : Scalar :=
  ss.foldr (· + ·) 0

def product (ss : List Scalar) : Scalar :=
  ss.foldr (· * ·) 1

end Scalar

end Quorum
