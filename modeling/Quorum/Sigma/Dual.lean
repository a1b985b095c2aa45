import Quorum.Curve.Encoding
import Quorum.Curve.Subgroup
import Quorum.Error
import Quorum.Tape
import Quorum.Transcript

/-!
# Proof of knowledge of two exponents

A non-interactive proof that the prover knows `s` and `l` with
`V = s R + l G`.  Unlike the proof of one exponent, the verifier also checks
that the prover's first message is a valid point.
-/

namespace Quorum

/-- A proof of knowledge of two exponents. -/
structure DualProof where
  /-- The prover's first message `a R + b G`. -/
  alpha : Point
  /-- The response `a + c s`. -/
  t : Scalar
  /-- The response `b + c l`. -/
  u : Scalar
deriving DecidableEq

namespace DualProof

def segments (session : Bytes) (V R alpha : Point) : List Bytes :=
  [session, V.encode.toList, R.encode.toList, Point.generator.encode.toList,
    alpha.encode.toList]

def challenge (session : Bytes) (V R alpha : Point) : Scalar :=
  Transcript.challenge Transcript.Purpose.dual.tag (segments session V R alpha)

/-- A proof that `V = s R + l G`; both public points have to be valid. -/
def prove (session : Bytes) (s l : Scalar) (V R : Point) (tape : Tape) :
    Except Error (DualProof × Tape) :=
  if V.isValid && R.isValid then
    let (a, tape) := tape.scalar
    let (b, tape) := tape.scalar
    let alpha := a • R + b • Point.generator
    let c := challenge session V R alpha
    .ok (⟨alpha, a + c * s, b + c * l⟩, tape)
  else .error (.invalidWitness .dualStatement)

/-- Whether a proof shows knowledge of the exponents of `V` in a session. -/
def verify (proof : DualProof) (session : Bytes) (V R : Point) : Bool :=
  proof.alpha.isValid && V.isValid && R.isValid
    && proof.t • R + proof.u • Point.generator
      = proof.alpha + challenge session V R proof.alpha • V

end DualProof

end Quorum
