import Quorum.Curve.Encoding
import Quorum.Curve.Subgroup
import Quorum.Error
import Quorum.Tape
import Quorum.Transcript

/-!
# Proof of knowledge of one exponent

A non-interactive proof that the prover knows `x` with `X = x G`.  The
challenge binds a session, the statement and the prover's first message, so
that a proof made in one session does not verify in another.
-/

namespace Quorum

/-- A proof of knowledge of one exponent. -/
structure DlogProof where
  /-- The prover's first message `a G`. -/
  alpha : Point
  /-- The response `a + c x`. -/
  t : Scalar
deriving DecidableEq

namespace DlogProof

/-- The segments that the challenge is drawn from. -/
def segments (session : Bytes) (X alpha : Point) : List Bytes :=
  [session, X.encode.toList, Point.generator.encode.toList, alpha.encode.toList]

/-- The challenge of a session, a statement and a first message. -/
def challenge (session : Bytes) (X alpha : Point) : Scalar :=
  Transcript.challenge Transcript.Purpose.dlog.tag (segments session X alpha)

/-- A proof that `X = x G`; the statement has to be a valid point. -/
def prove (session : Bytes) (x : Scalar) (X : Point) (tape : Tape) :
    Except Error (DlogProof × Tape) :=
  if X.isValid then
    let (a, tape) := tape.scalar
    let alpha := a • Point.generator
    .ok (⟨alpha, a + challenge session X alpha * x⟩, tape)
  else .error (.invalidWitness .dlogStatement)

/-- Whether a proof shows knowledge of the exponent of `X` in a session. -/
def verify (proof : DlogProof) (session : Bytes) (X : Point) : Bool :=
  X.isValid
    && proof.t • Point.generator
      = proof.alpha + challenge session X proof.alpha • X

end DlogProof

end Quorum
