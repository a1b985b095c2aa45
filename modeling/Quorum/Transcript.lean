import Quorum.Curve.Scalar
import Quorum.Hash.Sha512

/-!
# Tagged transcripts

Commitments, session identifiers and the challenges of the proofs are digests
of a list of byte segments under a tag.  The digest of the tag is absorbed
twice ahead of the segments, and each segment is preceded by its length, so
that the bytes absorbed determine the segments.

A digest becomes a number below a modulus by rejection sampling: blocks are
expanded from the digest by a counter, each is cut to the width of the
modulus, and the first one below the modulus is taken.
-/

namespace Quorum.Transcript

/-- What a transcript is used for. -/
inductive Purpose
  /-- A commitment to a list of values. -/
  | commitment
  /-- The identifier that binds a session to its signers and key. -/
  | session
  /-- The challenge of a proof of one exponent. -/
  | dlog
  /-- The challenge of a proof of two exponents. -/
  | dual
deriving DecidableEq

/-- The text that keeps the uses of transcripts apart. -/
def Purpose.label : Purpose → String
  | commitment => "tss-eddsa/hash-commitment"
  | session => "tss-eddsa/ssid"
  | dlog => "tss-eddsa/zkp/dlog"
  | dual => "tss-eddsa/zkp/dual"

/-- The tag of a use: the bytes of its label. -/
def Purpose.tag (purpose : Purpose) : Bytes :=
  purpose.label.toList.map fun c => UInt8.ofNat c.toNat

/-- A segment preceded by its length. -/
def frame (segment : Bytes) : Bytes :=
  segment.lengthBE ++ segment

/-- The bytes absorbed for a list of segments under a tag. -/
def input (tag : Bytes) (segments : List Bytes) : Bytes :=
  let t := (sha512t256 tag).toList
  t ++ t ++ segments.flatMap frame

/-- The digest of a list of segments under a tag. -/
def digest (tag : Bytes) (segments : List Bytes) : Octets 32 :=
  sha512t256 (input tag segments)

/-- The number of binary digits of a number; zero has none. -/
def bitLength (k : Nat) : Nat :=
  if k = 0 then 0 else k.log2 + 1

/-- The block that a seed and a counter expand to. -/
def block (seed : Octets 32) (counter : Nat) : Octets 32 :=
  sha512t256 (seed.toList ++ Bytes.ofNatBE 4 counter)

/-- The leading bits of a block, as many as the modulus has. -/
def leadingBits (modulus : Nat) (b : Octets 32) : Nat :=
  b.toList.toNatBE >>> (256 - bitLength modulus)

/-- The first number below the modulus among `tries` blocks from `counter` on. -/
def sampleFrom? (modulus : Nat) (seed : Octets 32) : (tries counter : Nat) → Option Nat
  | 0, _ => none
  | tries + 1, counter =>
    let k := leadingBits modulus (block seed counter)
    if k < modulus then some k else sampleFrom? modulus seed tries (counter + 1)

/-- The first number below the modulus among the blocks of all 32-bit counters. -/
def sample? (modulus : Nat) (seed : Octets 32) : Option Nat :=
  sampleFrom? modulus seed UInt32.size 0

/-- The scalar drawn from the digest of a list of segments under a tag. -/
def challenge (tag : Bytes) (segments : List Bytes) : Scalar :=
  Scalar.ofNat ((sample? groupOrder (digest tag segments)).getD 0)

end Quorum.Transcript
