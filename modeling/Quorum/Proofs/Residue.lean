import Mathlib
import Quorum.Residue

/-!
# Residues and the ring they represent

The arithmetic of residues is the arithmetic of the ring of integers modulo
`n`: a residue denotes an element of `ZMod n`, distinct residues denote distinct
elements, and every operation on residues is the operation of the ring.

Powers are computed by squaring.  They agree with the powers of the ring, and
for a prime modulus the inverse is the inverse of the field.  The same powers
serve as witnesses of primality: if some residue has order exactly `n - 1`,
then `n` is prime.
-/

namespace Quorum

/-- The number with the given binary digits, least significant first. -/
def ofBinaryDigits (bits : List Bool) : Nat :=
  bits.foldr (fun bit k => 2 * k + bit.toNat) 0

theorem ofBinaryDigits_map_testBit (k m : Nat) :
    ofBinaryDigits ((List.range m).map k.testBit) = k % 2 ^ m := by
  induction m generalizing k with
  | zero => simp [ofBinaryDigits, Nat.mod_one]
  | succ m ih =>
    have htail : (List.range m).map (k.testBit ∘ Nat.succ) =
        (List.range m).map (k / 2).testBit := by
      refine List.map_congr_left fun i _ => ?_
      exact Nat.testBit_succ k i
    have hhead : (k.testBit 0).toNat = k % 2 := by
      rw [Nat.testBit_zero]
      rcases Nat.mod_two_eq_zero_or_one k with h | h <;> simp [h]
    rw [List.range_succ_eq_map, List.map_cons, List.map_map, htail]
    change 2 * ofBinaryDigits ((List.range m).map (k / 2).testBit) +
      (k.testBit 0).toNat = _
    rw [ih, hhead, pow_succ, Nat.mul_comm (2 ^ m) 2, Nat.mod_mul, Nat.add_comm]

theorem ofBinaryDigits_binaryDigits (k : Nat) :
    ofBinaryDigits (binaryDigits k) = k := by
  rw [binaryDigits, ofBinaryDigits_map_testBit]
  exact Nat.mod_eq_of_lt Nat.lt_log2_self

namespace Residue

variable {n : Nat}

/-- The element of the ring of integers modulo `n` that a residue denotes. -/
def toZMod (a : Residue n) : ZMod n :=
  (a.val : ZMod n)

theorem toZMod_injective : Function.Injective (toZMod (n := n)) := by
  intro a b h
  have hval : a.val % n = b.val % n :=
    (ZMod.natCast_eq_natCast_iff' a.val b.val n).mp h
  rw [Nat.mod_eq_of_lt a.isLt, Nat.mod_eq_of_lt b.isLt] at hval
  cases a
  cases b
  cases hval
  rfl

@[simp]
theorem toZMod_inj {a b : Residue n} : a.toZMod = b.toZMod ↔ a = b :=
  toZMod_injective.eq_iff

theorem ofNat?_eq_some {k : Nat} {a : Residue n} :
    ofNat? n k = some a ↔ k = a.val := by
  rw [ofNat?]
  split
  · next h =>
    rw [Option.some.injEq]
    constructor
    · rintro rfl
      rfl
    · rintro rfl
      rfl
  · next h =>
    constructor
    · intro hnone
      cases hnone
    · rintro rfl
      exact absurd a.isLt h

section Arithmetic

variable [Modulus n]

@[simp]
theorem toZMod_ofNat (k : Nat) : (ofNat n k).toZMod = (k : ZMod n) :=
  ZMod.natCast_mod k n

@[simp]
theorem toZMod_zero : (0 : Residue n).toZMod = 0 :=
  (toZMod_ofNat 0).trans Nat.cast_zero

@[simp]
theorem toZMod_one : (1 : Residue n).toZMod = 1 :=
  (toZMod_ofNat 1).trans Nat.cast_one

@[simp]
theorem toZMod_literal (k : Nat) [k.AtLeastTwo] :
    (OfNat.ofNat k : Residue n).toZMod = OfNat.ofNat k :=
  (toZMod_ofNat k).trans Nat.cast_ofNat

@[simp]
theorem toZMod_add (a b : Residue n) :
    (a + b).toZMod = a.toZMod + b.toZMod :=
  (toZMod_ofNat _).trans (Nat.cast_add _ _)

@[simp]
theorem toZMod_mul (a b : Residue n) :
    (a * b).toZMod = a.toZMod * b.toZMod :=
  (toZMod_ofNat _).trans (Nat.cast_mul _ _)

@[simp]
theorem toZMod_sub (a b : Residue n) :
    (a - b).toZMod = a.toZMod - b.toZMod := by
  refine (toZMod_ofNat _).trans ?_
  rw [Nat.cast_add, Nat.cast_sub b.isLt.le, ZMod.natCast_self, zero_sub,
    ← sub_eq_add_neg]
  rfl

@[simp]
theorem toZMod_neg (a : Residue n) : (-a).toZMod = -a.toZMod := by
  refine (toZMod_ofNat _).trans ?_
  rw [Nat.cast_sub a.isLt.le, ZMod.natCast_self, zero_sub]
  rfl

theorem toZMod_eq_zero {a : Residue n} : a.toZMod = 0 ↔ a = 0 := by
  rw [← toZMod_zero (n := n), toZMod_inj]

theorem sub_eq_zero_iff {a b : Residue n} : a - b = 0 ↔ a = b := by
  rw [← toZMod_eq_zero, toZMod_sub, sub_eq_zero, toZMod_inj]

/-- Squaring over the binary digits of the exponent yields the power. -/
@[simp]
theorem toZMod_pow (a : Residue n) (k : Nat) :
    (a.pow k).toZMod = a.toZMod ^ k := by
  have hbits : ∀ bits : List Bool,
      (bits.foldr (fun bit r => if bit then r * r * a else r * r)
        (1 : Residue n)).toZMod = a.toZMod ^ ofBinaryDigits bits := by
    intro bits
    induction bits with
    | nil => exact toZMod_one.trans (pow_zero _).symm
    | cons bit bits ih =>
      have hstep : ofBinaryDigits (bit :: bits) =
          2 * ofBinaryDigits bits + bit.toNat := rfl
      rw [List.foldr_cons, hstep, pow_add, pow_mul', sq, ← ih]
      cases bit <;> simp
  rw [pow, hbits, ofBinaryDigits_binaryDigits]

/-- For a prime modulus the inverse is the inverse of the field. -/
@[simp]
theorem toZMod_inverse [Fact n.Prime] (hn : n ≠ 2) (a : Residue n) :
    a.inverse.toZMod = a.toZMod⁻¹ := by
  have htwo : 2 < n := lt_of_le_of_ne (Fact.out : n.Prime).two_le hn.symm
  rw [inverse, toZMod_pow]
  by_cases ha : a.toZMod = 0
  · rw [ha, inv_zero, zero_pow (by omega)]
  · have hpow : a.toZMod ^ (n - 2) * a.toZMod = a.toZMod ^ (n - 1) := by
      rw [← pow_succ]
      congr 1
      omega
    rw [ZMod.pow_card_sub_one_eq_one ha] at hpow
    exact eq_inv_of_mul_eq_one_left hpow

theorem inverse_mul_cancel [Fact n.Prime] (hn : n ≠ 2) {a : Residue n}
    (ha : a ≠ 0) : a.inverse * a = 1 := by
  have hne : a.toZMod ≠ 0 := toZMod_eq_zero.not.mpr ha
  rw [← toZMod_inj, toZMod_mul, toZMod_inverse hn, toZMod_one]
  exact inv_mul_cancel₀ hne

end Arithmetic

/-- A modulus is prime if some residue has order exactly one less. -/
theorem prime_of_order [Modulus n] (a : Residue n) (factors : List Nat)
    (hprime : ∀ q ∈ factors, q.Prime) (hprod : factors.prod = n - 1)
    (hone : a.pow (n - 1) = 1) (hne : ∀ q ∈ factors, a.pow ((n - 1) / q) ≠ 1) :
    n.Prime := by
  refine lucas_primality n a.toZMod ?_ ?_
  · rw [← toZMod_pow, hone, toZMod_one]
  · intro q hq hdvd
    rw [← hprod] at hdvd
    obtain ⟨r, hr, hqr⟩ := (Prime.dvd_prod_iff hq.prime).mp hdvd
    have hmem : q ∈ factors := by
      rwa [(Nat.prime_dvd_prime_iff_eq hq (hprime r hr)).mp hqr]
    rw [← toZMod_pow, ← toZMod_one, Ne, toZMod_inj]
    exact hne q hmem

end Residue

end Quorum
