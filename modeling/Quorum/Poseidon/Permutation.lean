import Quorum.Bytes
import Quorum.Poseidon.Parameters

/-!
# The permutation of the algebraic hash

A round adds its constants, raises elements to the fifth power, and mixes the
state by a matrix.  The first and the last few rounds raise every element, the
rounds between them only the first.  A frame of twelve elements is hashed by
permuting it behind a zero element and keeping the first element.
-/

namespace Quorum.Poseidon

/-- The power map. -/
def fifthPower (e : Element) : Element :=
  let e2 := e * e
  e2 * e2 * e

/-- The sum of the products of corresponding elements. -/
def dot (es fs : List Element) : Element :=
  (es.zip fs).foldl (fun sum p => sum + p.1 * p.2) 0

/-- Applies the power map to the first element. -/
def raiseFirst : List Element → List Element
  | [] => []
  | e :: es => fifthPower e :: es

/-- One round with the given constants and mixing matrix. -/
def round (mixing : List (List Element)) (full : Bool)
    (constants state : List Element) : List Element :=
  let state := List.zipWith (· + ·) state constants
  let state := if full then state.map fifthPower else raiseFirst state
  mixing.map fun row => dot row state

/-- Whether the round at a position raises every element. -/
def isFullRound (position : Nat) : Bool :=
  position < fullRounds / 2 || fullRounds / 2 + partialRounds ≤ position

/-- The permutation, with parameters that are passed in. -/
def permuteWith (ps : Parameters) (state : List Element) : List Element :=
  ps.roundConstants.zipIdx.foldl
    (fun state c => round ps.mixing (isFullRound c.2) c.1 state) state

/-- The hash of a list of elements: the first element of the permuted state. -/
def compress (inputs : List Element) : Element :=
  (permuteWith parameters (0 :: inputs)).headD 0

/-- The number of elements that one call of the permutation takes in. -/
def frameSize : Nat :=
  width - 1

/-- The 32 bytes of an element, most significant first. -/
def Element.encode (e : Element) : Octets 32 :=
  Octets.ofNatBE 32 e.val

/-- The element that 32 bytes write, if the number they denote is reduced. -/
def Element.decode? (bs : Octets 32) : Option Element :=
  Residue.ofNat? modulus bs.toList.toNatBE

/-- The hash of a full frame of encoded elements, if all of them are reduced. -/
def hashFrame? (frame : List (Octets 32)) : Option (Octets 32) :=
  if frame.length = frameSize then do
    let inputs ← frame.mapM Element.decode?
    return (compress inputs).encode
  else none

end Quorum.Poseidon
