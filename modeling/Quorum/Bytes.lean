/-!
# Byte strings

Everything that is hashed, committed to or sent is a byte string.  This module
fixes their representation, reads and writes numbers in both byte orders, and
introduces byte strings of a fixed length.

The main facts are that a written number has the requested width and that
reading it back gives the number modulo the number of strings of that width.
-/

namespace Quorum

/-- A byte string, first byte first. -/
abbrev Bytes := List UInt8

namespace Bytes

/-- The number of byte strings of a given length. -/
def count (length : Nat) : Nat :=
  Nat.pow 256 length

/-- The number whose base-256 digits are the bytes, least significant first. -/
def toNatLE : Bytes → Nat
  | [] => 0
  | b :: bs => b.toNat + 256 * toNatLE bs

/-- The lowest `width` base-256 digits of `k`, least significant first. -/
def ofNatLE : (width k : Nat) → Bytes
  | 0, _ => []
  | width + 1, k => UInt8.ofNat k :: ofNatLE width (k / 256)

/-- The number whose base-256 digits are the bytes, most significant first. -/
def toNatBE (bs : Bytes) : Nat :=
  toNatLE bs.reverse

/-- The lowest `width` base-256 digits of `k`, most significant first. -/
def ofNatBE (width k : Nat) : Bytes :=
  (ofNatLE width k).reverse

theorem count_zero : count 0 = 1 :=
  rfl

theorem count_succ (length : Nat) : count (length + 1) = 256 * count length :=
  Nat.mul_comm (count length) 256

@[simp]
theorem length_ofNatLE (width k : Nat) : (ofNatLE width k).length = width := by
  induction width generalizing k with
  | zero => rfl
  | succ width ih => simp [ofNatLE, ih]

@[simp]
theorem length_ofNatBE (width k : Nat) : (ofNatBE width k).length = width := by
  simp [ofNatBE]

/-- Writing keeps a number modulo the number of strings of the width. -/
theorem toNatLE_ofNatLE (width k : Nat) :
    toNatLE (ofNatLE width k) = k % count width := by
  induction width generalizing k with
  | zero => rw [count_zero, Nat.mod_one, ofNatLE, toNatLE]
  | succ width ih =>
    rw [count_succ, Nat.mod_mul, ofNatLE, toNatLE, ih, UInt8.toNat_ofNat']

theorem toNatLE_lt (bs : Bytes) : toNatLE bs < count bs.length := by
  induction bs with
  | nil => exact Nat.one_pos
  | cons b bs ih =>
    have hb := b.toNat_lt
    rw [toNatLE, List.length_cons, count_succ]
    omega

theorem toNatLE_append (bs cs : Bytes) :
    toNatLE (bs ++ cs) = toNatLE bs + count bs.length * toNatLE cs := by
  induction bs with
  | nil => rw [List.nil_append, toNatLE, List.length_nil, count_zero,
      Nat.one_mul, Nat.zero_add]
  | cons b bs ih =>
    rw [List.cons_append, toNatLE, toNatLE, ih, List.length_cons, count_succ,
      Nat.mul_add, Nat.mul_assoc, Nat.add_assoc]

/-- Writing keeps a number modulo the number of strings of the width. -/
theorem toNatBE_ofNatBE (width k : Nat) :
    toNatBE (ofNatBE width k) = k % count width := by
  rw [toNatBE, ofNatBE, List.reverse_reverse, toNatLE_ofNatLE]

/-- A leading zero byte adds nothing. -/
theorem toNatBE_zero_cons (bs : Bytes) :
    toNatBE (0 :: bs) < count bs.length := by
  have h := toNatLE_lt bs.reverse
  rw [List.length_reverse] at h
  rw [toNatBE, List.reverse_cons, toNatLE_append]
  simpa [toNatLE] using h

/-- The bytes cut into pieces of `size`, the last one possibly shorter. -/
def chunks (size : Nat) (bs : Bytes) : List Bytes :=
  (List.range ((bs.length + size - 1) / size)).map fun i =>
    (bs.drop (i * size)).take size

/-- A length as eight bytes, most significant first. -/
def lengthBE (bs : Bytes) : Bytes :=
  ofNatBE 8 bs.length

/-- The bytes without the zero bytes they begin with. -/
def dropLeadingZeros (bs : Bytes) : Bytes :=
  bs.dropWhile (· == 0)

end Bytes

/-- A byte string of exactly `n` bytes. -/
structure Octets (n : Nat) where
  /-- The bytes, first byte first. -/
  toList : Bytes
  length_eq : toList.length = n
deriving DecidableEq

namespace Octets

/-- The bytes as a string of the fixed length, if they have that length. -/
def ofBytes? (n : Nat) (bs : Bytes) : Option (Octets n) :=
  if h : bs.length = n then some ⟨bs, h⟩ else none

/-- The lowest `n` base-256 digits of `k`, least significant first. -/
def ofNatLE (n k : Nat) : Octets n :=
  ⟨Bytes.ofNatLE n k, Bytes.length_ofNatLE n k⟩

/-- The lowest `n` base-256 digits of `k`, most significant first. -/
def ofNatBE (n k : Nat) : Octets n :=
  ⟨Bytes.ofNatBE n k, Bytes.length_ofNatBE n k⟩

/-- The first `n` bytes of `bs`, followed by zero bytes where `bs` is shorter. -/
def zeroExtend (n : Nat) (bs : Bytes) : Octets n :=
  ⟨bs.take n ++ List.replicate (n - bs.length) 0, by simp; omega⟩

end Octets

end Quorum
