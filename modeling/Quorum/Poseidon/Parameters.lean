import Quorum.Residue

/-!
# Parameters of the algebraic hash

The permutation works on thirteen elements of the prime field of 254 bits
below.  Its round constants and its mixing matrix are not tables: both are
drawn from a self-shrinking bit generator whose initial register spells out
the shape of the permutation, so that the numbers can be rederived from the
shape alone.
-/

namespace Quorum.Poseidon

/-- The order of the field the permutation works in. -/
def modulus : Nat :=
  21888242871839275222246405745257275088548364400416034343698204186575808495617

instance : Modulus modulus :=
  ⟨by decide⟩

/-- A field element of the permutation. -/
abbrev Element := Residue modulus

/-- The number of elements in a state. -/
def width : Nat :=
  13

/-- The number of rounds that apply the power map to every element. -/
def fullRounds : Nat :=
  8

/-- The number of rounds that apply the power map to the first element only. -/
def partialRounds : Nat :=
  65

/-- The number of bits of a field element. -/
def elementBits : Nat :=
  254

/-- A feedback register of 80 bits; bit `i` of `low` is the `i`-th oldest. -/
structure Register where
  /-- The 64 oldest bits. -/
  low : UInt64
  /-- The sixteen newest bits. -/
  high : UInt64

namespace Register

/-- The register after one step, and the bit that was appended. -/
def step (r : Register) : Bool × Register :=
  let taps := (r.low >>> 62) ^^^ (r.low >>> 51) ^^^ (r.low >>> 38)
    ^^^ (r.low >>> 23) ^^^ (r.low >>> 13) ^^^ r.low
  let bit := taps &&& 1
  (bit == 1,
    ⟨(r.low >>> 1) ||| ((r.high &&& 1) <<< 63), (r.high >>> 1) ||| (bit <<< 15)⟩)

/-- The register after a number of steps whose bits are discarded. -/
def discard : (steps : Nat) → Register → Register
  | 0, r => r
  | steps + 1, r => discard steps r.step.2

/-- The register that holds the given bits, the oldest first. -/
def ofBits (bits : List Bool) : Register :=
  let word := fun bs : List Bool =>
    UInt64.ofNat (bs.foldr (fun b k => b.toNat + 2 * k) 0)
  ⟨word (bits.take 64), word (bits.drop 64)⟩

/--
One output bit.  Steps are taken in pairs, and the second bit of the first
pair that begins with a one is the output.  A register that is not all zeros
meets such a pair long before the bound on the number of pairs.
-/
def outputBit : (pairs : Nat) → Register → Bool × Register
  | 0, r => (false, r)
  | pairs + 1, r =>
    let (select, r) := r.step
    let (bit, r) := r.step
    if select then (bit, r) else outputBit pairs r

/-- The bound on the number of pairs that one output bit may take. -/
def maxPairs : Nat :=
  1024

/-- A number of `count` output bits, most significant first, after `acc`. -/
def number : (count : Nat) → (acc : Nat) → Register → Nat × Register
  | 0, acc, r => (acc, r)
  | count + 1, acc, r =>
    let (bit, r) := outputBit maxPairs r
    number count (2 * acc + bit.toNat) r

/-- The first number of `elementBits` bits that is reduced, in `tries` draws. -/
def reducedNumber : (tries : Nat) → Register → Nat × Register
  | 0, r => (0, r)
  | tries + 1, r =>
    let (k, r) := number elementBits 0 r
    if k < modulus then (k, r) else reducedNumber tries r

/-- The bound on the number of draws for one reduced number. -/
def maxTries : Nat :=
  1024

/-- A list of elements, each drawn anew until it is reduced. -/
def reducedElements : (count : Nat) → Register → List Element × Register
  | 0, r => ([], r)
  | count + 1, r =>
    let (k, r) := reducedNumber maxTries r
    let (es, r) := reducedElements count r
    (Residue.ofNat modulus k :: es, r)

/-- A list of elements, each the residue of a single draw. -/
def elements : (count : Nat) → Register → List Element × Register
  | 0, r => ([], r)
  | count + 1, r =>
    let (k, r) := number elementBits 0 r
    let (es, r) := elements count r
    (Residue.ofNat modulus k :: es, r)

/-- The lowest `count` bits of a number, most significant first. -/
def bitsOf (count k : Nat) : List Bool :=
  ((List.range count).map k.testBit).reverse

/-- The register that spells out the shape of the permutation. -/
def initial : Register :=
  ofBits
    (bitsOf 2 1 ++ bitsOf 4 0 ++ bitsOf 12 elementBits ++ bitsOf 12 width
      ++ bitsOf 10 fullRounds ++ bitsOf 10 partialRounds ++ List.replicate 30 true)

end Register

/-- What a permutation needs besides its shape. -/
structure Parameters where
  /-- The constants that each round adds, one list a round. -/
  roundConstants : List (List Element)
  /-- The rows of the mixing matrix. -/
  mixing : List (List Element)

/-- A list cut into `count` rows of `width` elements. -/
def rows : (count : Nat) → List Element → List (List Element)
  | 0, _ => []
  | count + 1, es => es.take width :: rows count (es.drop width)

/-- The matrix of the inverses of all sums of an element of `xs` and one of `ys`. -/
def inverseSums (xs ys : List Element) : List (List Element) :=
  xs.map fun x => ys.map fun y => (x + y).inverse

/-- The parameters drawn from the generator for this shape. -/
def parameters : Parameters :=
  let rounds := fullRounds + partialRounds
  let (constants, r) :=
    Register.reducedElements (width * rounds) (Register.initial.discard 160)
  let (xs, r) := Register.elements width r
  let (ys, _) := Register.elements width r
  ⟨rows rounds constants, inverseSums xs ys⟩

end Quorum.Poseidon
