/-!
# Residues

Field elements, scalars and the elements of the algebraic hash are residues
modulo a fixed number.  A residue is held as its least representative, so that
equality of residues is equality of numbers.

Powers are taken by squaring over the binary digits of the exponent, and the
inverse is the power that Fermat's little theorem gives for a prime modulus;
the inverse of zero is zero.
-/

namespace Quorum

/-- The binary digits of `k`, least significant first. -/
def binaryDigits (k : Nat) : List Bool :=
  (List.range (k.log2 + 1)).map k.testBit

/-- Numbers modulo which residues are taken. -/
class Modulus (n : Nat) : Prop where
  pos : 0 < n

/-- A residue modulo `n`, as its least representative. -/
structure Residue (n : Nat) where
  /-- The least representative. -/
  val : Nat
  isLt : val < n
deriving DecidableEq

namespace Residue

variable {n : Nat} [Modulus n]

/-- The residue of a number. -/
def ofNat (n : Nat) [Modulus n] (k : Nat) : Residue n :=
  ⟨k % n, Nat.mod_lt k Modulus.pos⟩

/-- The residue with representative `k`, if `k` is below the modulus. -/
def ofNat? (n k : Nat) : Option (Residue n) :=
  if h : k < n then some ⟨k, h⟩ else none

instance (k : Nat) : OfNat (Residue n) k :=
  ⟨ofNat n k⟩

instance : Add (Residue n) :=
  ⟨fun a b => ofNat n (a.val + b.val)⟩

instance : Sub (Residue n) :=
  ⟨fun a b => ofNat n (a.val + (n - b.val))⟩

instance : Neg (Residue n) :=
  ⟨fun a => ofNat n (n - a.val)⟩

instance : Mul (Residue n) :=
  ⟨fun a b => ofNat n (a.val * b.val)⟩

/-- The `k`-th power, by squaring from the leading binary digit of `k` down. -/
def pow (a : Residue n) (k : Nat) : Residue n :=
  (binaryDigits k).foldr (fun bit r => if bit then r * r * a else r * r) 1

/-- The inverse modulo a prime `n`; zero for zero. -/
def inverse (a : Residue n) : Residue n :=
  a.pow (n - 2)

end Residue

end Quorum
