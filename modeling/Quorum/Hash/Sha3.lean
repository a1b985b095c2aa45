import Quorum.Bytes

/-!
# SHA3-512

The sponge over the 1600-bit permutation with a rate of 72 bytes.  The state
is a list of 25 lanes, the lane in column `x` and row `y` at `x + 5 * y`, and
each step mapping says what the lane at a place becomes.
-/

namespace Quorum.Sha3

/-- The constants added to the first lane, one for each round. -/
def roundConstants : List UInt64 :=
  [0x0000000000000001, 0x0000000000008082, 0x800000000000808a,
   0x8000000080008000, 0x000000000000808b, 0x0000000080000001,
   0x8000000080008081, 0x8000000000008009, 0x000000000000008a,
   0x0000000000000088, 0x0000000080008009, 0x000000008000000a,
   0x000000008000808b, 0x800000000000008b, 0x8000000000008089,
   0x8000000000008003, 0x8000000000008002, 0x8000000000000080,
   0x000000000000800a, 0x800000008000000a, 0x8000000080008081,
   0x8000000000008080, 0x0000000080000001, 0x8000000080008008]

/-- The amount by which each lane is rotated. -/
def rotations : List UInt64 :=
  [0, 1, 62, 28, 27, 36, 44, 6, 55, 20, 3, 10, 43,
   25, 39, 41, 45, 15, 21, 8, 18, 2, 61, 56, 14]

/-- The lanes of a state, column by column within a row. -/
abbrev State := Array UInt64

/-- The lane in column `x` and row `y`. -/
def lane (s : State) (x y : Nat) : UInt64 :=
  s.getD (x + 5 * y) 0

/-- The state whose lane in column `x` and row `y` is `f x y`. -/
def ofLanes (f : Nat → Nat → UInt64) : State :=
  ((List.range 25).map fun i => f (i % 5) (i / 5)).toArray

/-- Rotation of a lane to the left. -/
def rotateLeft (w k : UInt64) : UInt64 :=
  if k = 0 then w else (w <<< k) ||| (w >>> (64 - k))

def columnParity (s : State) (x : Nat) : UInt64 :=
  lane s x 0 ^^^ lane s x 1 ^^^ lane s x 2 ^^^ lane s x 3 ^^^ lane s x 4

/-- Adds to each lane the parities of two neighbouring columns. -/
def theta (s : State) : State :=
  let parities := ((List.range 5).map (columnParity s)).toArray
  ofLanes fun x y =>
    lane s x y ^^^ parities.getD ((x + 4) % 5) 0
      ^^^ rotateLeft (parities.getD ((x + 1) % 5) 0) 1

/-- Rotates every lane by its own amount. -/
def rho (s : State) : State :=
  (List.zipWith rotateLeft s.toList rotations).toArray

/-- Moves the lanes to new places. -/
def pi (s : State) : State :=
  ofLanes fun x y => lane s ((x + 3 * y) % 5) x

/-- Combines each lane with the next two of its row. -/
def chi (s : State) : State :=
  ofLanes fun x y =>
    lane s x y ^^^ (~~~lane s ((x + 1) % 5) y &&& lane s ((x + 2) % 5) y)

/-- Adds the round constant to the first lane. -/
def iota (constant : UInt64) (s : State) : State :=
  s.modify 0 (· ^^^ constant)

/-- The permutation of 24 rounds. -/
def permute (s : State) : State :=
  roundConstants.foldl
    (fun s constant => iota constant (chi (pi (rho (theta s))))) s

/-- The number of bytes absorbed between two calls of the permutation. -/
def rate : Nat :=
  72

/-- The message with its padding to whole blocks. -/
def pad (message : Bytes) : Bytes :=
  let free := rate - message.length % rate
  if free = 1 then message ++ [0x86]
  else message ++ 0x06 :: (List.replicate (free - 2) 0 ++ [0x80])

/-- The state after one more block. -/
def absorbBlock (s : State) (block : Bytes) : State :=
  let words := ((Bytes.chunks 8 block).map fun bs => UInt64.ofNat bs.toNatLE).toArray
  permute (ofLanes fun x y => lane s x y ^^^ lane words x y)

/-- The state after all blocks of the padded message. -/
def absorb (message : Bytes) : State :=
  (Bytes.chunks rate (pad message)).foldl absorbBlock (ofLanes fun _ _ => 0)

end Quorum.Sha3

namespace Quorum

/-- The SHA3-512 digest: the first eight lanes of the final state. -/
def sha3x512 (message : Bytes) : Octets 64 :=
  let s := Sha3.absorb message
  Octets.zeroExtend 64
    ((s.toList.take 8).flatMap fun w => Bytes.ofNatLE 8 w.toNat)

end Quorum
