import Quorum.Curve.Scalar

/-!
# Random tapes

Randomness enters as an endless tape of bytes that operations read from its
current position on.  An operation that draws returns the tape behind what it
has read, so that the order of the draws is visible in its definition.
-/

namespace Quorum

/-- An endless tape of bytes and a position on it. -/
structure Tape where
  /-- The byte at each place. -/
  byteAt : Nat → UInt8
  /-- The place of the next byte to be read. -/
  position : Nat

namespace Tape

/-- The tape that repeats a byte string without end; zeros if it is empty. -/
def repeating (bs : Bytes) : Tape :=
  let period := bs.toArray
  ⟨fun i => period.getD (i % period.size) 0, 0⟩

/-- The next bytes, and the tape behind them. -/
def bytes (count : Nat) (tape : Tape) : Bytes × Tape :=
  ((List.range count).map fun i => tape.byteAt (tape.position + i),
    { tape with position := tape.position + count })

/-- The next bytes as a string of fixed length, and the tape behind them. -/
def octets (count : Nat) (tape : Tape) : Octets count × Tape :=
  (⟨(tape.bytes count).1, by simp [bytes]⟩, (tape.bytes count).2)

/-- A scalar reduced from the next 64 bytes, and the tape behind them. -/
def scalar (tape : Tape) : Scalar × Tape :=
  (Scalar.reduce (tape.bytes 64).1, (tape.bytes 64).2)

/-- The next scalars, first drawn first, and the tape behind them. -/
def scalars : (count : Nat) → Tape → List Scalar × Tape
  | 0, tape => ([], tape)
  | count + 1, tape =>
    let (s, tape) := tape.scalar
    let (ss, tape) := scalars count tape
    (s :: ss, tape)

end Tape

end Quorum
