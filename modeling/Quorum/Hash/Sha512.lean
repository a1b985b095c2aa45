import Quorum.Bytes

/-!
# SHA-512 and SHA-512/256

The two members of the SHA-2 family that the protocol uses.  They share the
padding rule and the compression of 128-byte blocks, and differ in the initial
state and in the length of the digest.
-/

namespace Quorum.Sha512

/-- The round constants: fractional parts of the cube roots of the first primes. -/
def roundConstants : List UInt64 :=
  [0x428a2f98d728ae22, 0x7137449123ef65cd, 0xb5c0fbcfec4d3b2f,
   0xe9b5dba58189dbbc, 0x3956c25bf348b538, 0x59f111f1b605d019,
   0x923f82a4af194f9b, 0xab1c5ed5da6d8118, 0xd807aa98a3030242,
   0x12835b0145706fbe, 0x243185be4ee4b28c, 0x550c7dc3d5ffb4e2,
   0x72be5d74f27b896f, 0x80deb1fe3b1696b1, 0x9bdc06a725c71235,
   0xc19bf174cf692694, 0xe49b69c19ef14ad2, 0xefbe4786384f25e3,
   0x0fc19dc68b8cd5b5, 0x240ca1cc77ac9c65, 0x2de92c6f592b0275,
   0x4a7484aa6ea6e483, 0x5cb0a9dcbd41fbd4, 0x76f988da831153b5,
   0x983e5152ee66dfab, 0xa831c66d2db43210, 0xb00327c898fb213f,
   0xbf597fc7beef0ee4, 0xc6e00bf33da88fc2, 0xd5a79147930aa725,
   0x06ca6351e003826f, 0x142929670a0e6e70, 0x27b70a8546d22ffc,
   0x2e1b21385c26c926, 0x4d2c6dfc5ac42aed, 0x53380d139d95b3df,
   0x650a73548baf63de, 0x766a0abb3c77b2a8, 0x81c2c92e47edaee6,
   0x92722c851482353b, 0xa2bfe8a14cf10364, 0xa81a664bbc423001,
   0xc24b8b70d0f89791, 0xc76c51a30654be30, 0xd192e819d6ef5218,
   0xd69906245565a910, 0xf40e35855771202a, 0x106aa07032bbd1b8,
   0x19a4c116b8d2d0c8, 0x1e376c085141ab53, 0x2748774cdf8eeb99,
   0x34b0bcb5e19b48a8, 0x391c0cb3c5c95a63, 0x4ed8aa4ae3418acb,
   0x5b9cca4f7763e373, 0x682e6ff3d6b2b8a3, 0x748f82ee5defb2fc,
   0x78a5636f43172f60, 0x84c87814a1f0ab72, 0x8cc702081a6439ec,
   0x90befffa23631e28, 0xa4506cebde82bde9, 0xbef9a3f7b2c67915,
   0xc67178f2e372532b, 0xca273eceea26619c, 0xd186b8c721c0c207,
   0xeada7dd6cde0eb1e, 0xf57d4f7fee6ed178, 0x06f067aa72176fba,
   0x0a637dc5a2c898a6, 0x113f9804bef90dae, 0x1b710b35131c471b,
   0x28db77f523047d84, 0x32caab7b40c72493, 0x3c9ebe0a15c9bebc,
   0x431d67c49c100d4c, 0x4cc5d4becb3e42b6, 0x597f299cfc657e2a,
   0x5fcb6fab3ad6faec, 0x6c44198c4a475817]

/-- The eight chaining words. -/
structure State where
  a : UInt64
  b : UInt64
  c : UInt64
  d : UInt64
  e : UInt64
  f : UInt64
  g : UInt64
  h : UInt64

def initial512 : State :=
  ⟨0x6a09e667f3bcc908, 0xbb67ae8584caa73b, 0x3c6ef372fe94f82b,
   0xa54ff53a5f1d36f1, 0x510e527fade682d1, 0x9b05688c2b3e6c1f,
   0x1f83d9abfb41bd6b, 0x5be0cd19137e2179⟩

def initial256 : State :=
  ⟨0x22312194fc2bf72c, 0x9f555fa3c84c64c2, 0x2393b86b6f53b151,
   0x963877195940eabd, 0x96283ee2a88effe3, 0xbe5e1e2553863992,
   0x2b0199fc2c85b8aa, 0x0eb72ddc81c52ca2⟩

/-- Rotation of a word to the right, for an amount between one and 63. -/
def rotateRight (w k : UInt64) : UInt64 :=
  (w >>> k) ||| (w <<< (64 - k))

/-- The message with its padding: a one bit, zero bits, and the length in bits. -/
def pad (message : Bytes) : Bytes :=
  message ++ 0x80 :: List.replicate ((239 - message.length % 128) % 128) 0
    ++ Bytes.ofNatBE 16 (8 * message.length)

/--
The words of the message schedule from a window of sixteen words on: each new
word is formed from the second, seventh, fifteenth and sixteenth before it.
-/
def expand : (count : Nat) → List UInt64 → List UInt64
  | 0, window => window
  | count + 1, window =>
    let w := fun i => window.getD i 0
    let s0 := rotateRight (w 1) 1 ^^^ rotateRight (w 1) 8 ^^^ (w 1 >>> 7)
    let s1 := rotateRight (w 14) 19 ^^^ rotateRight (w 14) 61 ^^^ (w 14 >>> 6)
    w 0 :: expand count (window.drop 1 ++ [w 0 + s0 + w 9 + s1])

/-- The eighty words of the message schedule of a block. -/
def schedule (block : Bytes) : List UInt64 :=
  expand 64 ((Bytes.chunks 8 block).map fun bs => UInt64.ofNat bs.toNatBE)

/-- One round, with the round constant and the schedule word added in. -/
def round (s : State) (k w : UInt64) : State :=
  let sum1 := rotateRight s.e 14 ^^^ rotateRight s.e 18 ^^^ rotateRight s.e 41
  let choice := (s.e &&& s.f) ^^^ (~~~s.e &&& s.g)
  let t1 := s.h + sum1 + choice + k + w
  let sum0 := rotateRight s.a 28 ^^^ rotateRight s.a 34 ^^^ rotateRight s.a 39
  let majority := (s.a &&& s.b) ^^^ (s.a &&& s.c) ^^^ (s.b &&& s.c)
  ⟨t1 + (sum0 + majority), s.a, s.b, s.c, s.d + t1, s.e, s.f, s.g⟩

/-- The state after one more block. -/
def compress (s : State) (block : Bytes) : State :=
  let t := (roundConstants.zip (schedule block)).foldl
    (fun t kw => round t kw.1 kw.2) s
  ⟨s.a + t.a, s.b + t.b, s.c + t.c, s.d + t.d,
    s.e + t.e, s.f + t.f, s.g + t.g, s.h + t.h⟩

/-- The state after all blocks of the padded message. -/
def absorb (initial : State) (message : Bytes) : State :=
  (Bytes.chunks 128 (pad message)).foldl compress initial

/-- A word as eight bytes, most significant first. -/
def wordBytes (w : UInt64) : Bytes :=
  Bytes.ofNatBE 8 w.toNat

/-- The first four words of a state. -/
def State.firstHalf (s : State) : Bytes :=
  wordBytes s.a ++ wordBytes s.b ++ wordBytes s.c ++ wordBytes s.d

/-- The last four words of a state. -/
def State.secondHalf (s : State) : Bytes :=
  wordBytes s.e ++ wordBytes s.f ++ wordBytes s.g ++ wordBytes s.h

end Quorum.Sha512

namespace Quorum

def sha512 (message : Bytes) : Octets 64 :=
  let s := Sha512.absorb Sha512.initial512 message
  ⟨s.firstHalf ++ s.secondHalf, by
    simp [Sha512.State.firstHalf, Sha512.State.secondHalf, Sha512.wordBytes]⟩

def sha512t256 (message : Bytes) : Octets 32 :=
  ⟨(Sha512.absorb Sha512.initial256 message).firstHalf, by
    simp [Sha512.State.firstHalf, Sha512.wordBytes]⟩

end Quorum
