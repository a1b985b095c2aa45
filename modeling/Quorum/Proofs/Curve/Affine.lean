import Mathlib
import Quorum.Curve.Affine
import Quorum.Proofs.Curve.Group

/-!
# Points and their affine coordinates

A point's coordinates are recovered from its encoding, and the point is rebuilt
from its coordinates.  Both directions take a square root, each in its own way:
one inverts the denominator and raises to `(p + 3) / 8`, the other computes the
root of the quotient with a single power.  In both, the power is a root up to a
fourth root of unity, which the square root of `-1` repairs, and the parity
selects the root that was meant.
-/

namespace Quorum

open Coordinate (d)

namespace Coordinate

theorem fieldOrder_ne_two : fieldOrder ≠ 2 := by
  decide

/-- The power that Euler's criterion asks about is a sign. -/
theorem pow_half_eq_or {t : ZMod fieldOrder} (ht : t ≠ 0) :
    t ^ ((fieldOrder - 1) / 2) = 1 ∨ t ^ ((fieldOrder - 1) / 2) = -1 := by
  have hsq := pow_half_of_mul_self ht
  rw [mul_pow] at hsq
  exact mul_self_eq_one_iff.mp hsq

/-- The denominator of the quotient that is the square of the first coordinate. -/
theorem denominator_ne_zero (y : ZMod fieldOrder) : d * (y * y) + 1 ≠ 0 := by
  intro h0
  have hy : y ≠ 0 := by
    rintro rfl
    rw [mul_zero, mul_zero, zero_add] at h0
    exact one_ne_zero h0
  -- Otherwise `d` would be the square of the quotient of a root of `-1` by `y`.
  obtain ⟨i, hi⟩ := complete.exists_root
  apply complete.nonsquare (i / y)
  rw [div_mul_div_comm, hi, div_eq_iff (mul_ne_zero hy hy)]
  linear_combination -h0

theorem numerator_eq {x y : Coordinate} (h : OnCurve x y) :
    y.toZMod * y.toZMod - 1 =
      x.toZMod * x.toZMod * (d * (y.toZMod * y.toZMod) + 1) := by
  rw [onCurve_iff] at h
  simp only [Edwards.Equation] at h
  linear_combination h

theorem eq_or_neg_of_mul_self {a x : Coordinate}
    (h : a.toZMod * a.toZMod = x.toZMod * x.toZMod) : a = x ∨ a = -x := by
  rcases mul_self_eq_mul_self_iff.mp h with heq | hneg
  · exact Or.inl (Residue.toZMod_inj.mp heq)
  · right
    rw [← Residue.toZMod_inj, Residue.toZMod_neg]
    exact hneg

protected theorem neg_neg (a : Coordinate) : -(-a) = a := by
  rw [← Residue.toZMod_inj, Residue.toZMod_neg, Residue.toZMod_neg, neg_neg]

protected theorem neg_zero : -(0 : Coordinate) = 0 := by
  decide

theorem eq_zero_iff_of_eq_or_neg {a x : Coordinate} (h : a = x ∨ a = -x) :
    a = 0 ↔ x = 0 := by
  rcases h with rfl | rfl
  · exact Iff.rfl
  · constructor
    · intro hneg
      rw [← Coordinate.neg_neg x, hneg, Coordinate.neg_zero]
    · rintro rfl
      exact Coordinate.neg_zero

theorem isOdd_neg {a : Coordinate} (ha : a ≠ 0) : (-a).isOdd = !a.isOdd := by
  have hpos : a.val ≠ 0 := by
    intro h0
    apply ha
    rw [← Residue.toZMod_eq_zero, Residue.toZMod, h0, Nat.cast_zero]
  have hlt := a.isLt
  have hval : (-a).val = fieldOrder - a.val :=
    Nat.mod_eq_of_lt (by omega)
  have hodd : fieldOrder % 2 = 1 := by
    decide
  have hmod : (fieldOrder - a.val) % 2 = 1 - a.val % 2 := by
    omega
  rw [isOdd, isOdd, hval, hmod]
  rcases Nat.mod_two_eq_zero_or_one a.val with h | h <;> simp [h]

/-- Of a root and its negative, the parity selects the one that was meant. -/
theorem withParity_of_eq_or_neg {a x : Coordinate} (h : a = x ∨ a = -x) :
    withParity x.isOdd a = x := by
  rcases h with rfl | rfl
  · rw [withParity, if_pos rfl]
  · rw [withParity]
    split
    · next hparity =>
      by_contra hne
      have hx : x ≠ 0 := by
        rintro rfl
        exact hne Coordinate.neg_zero
      rw [isOdd_neg hx] at hparity
      simp at hparity
    · exact Coordinate.neg_neg x

/-- The even root, negated where an odd one was meant. -/
theorem evenRoot_of_eq_or_neg {a x : Coordinate} (h : a = x ∨ a = -x) :
    (if x.isOdd then -withParity false a else withParity false a) = x := by
  by_cases hodd : x.isOdd = true
  · have hx : x ≠ 0 := by
      rintro rfl
      exact absurd hodd (by decide)
    have hneg : (-x).isOdd = false := by
      rw [isOdd_neg hx, hodd]
      rfl
    have h' : a = -x ∨ a = -(-x) := by
      rw [Coordinate.neg_neg]
      exact h.symm
    have hroot := withParity_of_eq_or_neg h'
    rw [hneg] at hroot
    rw [if_pos hodd, hroot, Coordinate.neg_neg]
  · have hroot := withParity_of_eq_or_neg h
    rw [Bool.not_eq_true] at hodd
    rw [hodd] at hroot ⊢
    rw [if_neg Bool.false_ne_true, hroot]

/-- Raising a square to `(p + 3) / 8` yields a root of it or of its negative. -/
theorem root_mul_self (x : ZMod fieldOrder) :
    (x * x) ^ ((fieldOrder + 3) / 8) * (x * x) ^ ((fieldOrder + 3) / 8) =
        x * x ∨
      (x * x) ^ ((fieldOrder + 3) / 8) * (x * x) ^ ((fieldOrder + 3) / 8) =
        -(x * x) := by
  have hexp : 2 * (2 * ((fieldOrder + 3) / 8)) = (fieldOrder - 1) / 2 + 2 := by
    decide +kernel
  have hpow : (x * x) ^ ((fieldOrder + 3) / 8) * (x * x) ^ ((fieldOrder + 3) / 8) =
      x ^ ((fieldOrder - 1) / 2) * (x * x) := by
    calc
      (x * x) ^ ((fieldOrder + 3) / 8) * (x * x) ^ ((fieldOrder + 3) / 8) =
          x ^ (2 * (2 * ((fieldOrder + 3) / 8))) := by
        rw [← sq x, ← pow_mul, ← pow_add, ← two_mul, Nat.mul_left_comm]
      _ = x ^ ((fieldOrder - 1) / 2) * (x * x) := by
        rw [hexp, pow_add, sq]
  rw [hpow]
  by_cases hx : x = 0
  · left
    simp [hx]
  · rcases pow_half_eq_or hx with h | h
    · left
      rw [h, one_mul]
    · right
      rw [h, neg_one_mul]

theorem mul_rootOfMinusOne_mul_self (r : ZMod fieldOrder) :
    r * rootOfMinusOne.toZMod * (r * rootOfMinusOne.toZMod) = -(r * r) := by
  linear_combination r * r * rootOfMinusOne_mul_self

theorem ofNat_val (a : Coordinate) : Residue.ofNat fieldOrder a.val = a := by
  rw [← Residue.toZMod_inj, Residue.toZMod_ofNat]
  rfl

/-- The even root of the quotient, for a denominator that does not vanish. -/
theorem evenRootOfQuotient?_of_square {u v x : Coordinate}
    (hv : v.toZMod ≠ 0) (hu : u.toZMod = x.toZMod * x.toZMod * v.toZMod) :
    ∃ a : Coordinate, (a = x ∨ a = -x) ∧
      evenRootOfQuotient? u v = some (withParity false a) := by
  set w := v.toZMod with hw
  set r := u * (v * v * v) *
    (u * (v * v * v * (v * v * v) * v)).pow ((fieldOrder - 5) / 8) with hr
  have hexp : 2 * (2 * ((fieldOrder - 5) / 8) + 1) = (fieldOrder - 1) / 2 := by
    decide +kernel
  have hrZ : r.toZMod = u.toZMod * w ^ 3 *
      (u.toZMod * w ^ 7) ^ ((fieldOrder - 5) / 8) := by
    simp only [hr, Residue.toZMod_mul, Residue.toZMod_pow, ← hw]
    ring
  -- The tested value is `u` times a sign, as `u v⁷` is the square of `x v⁴`.
  have hcheck : (v * (r * r)).toZMod =
      u.toZMod * (x.toZMod * w ^ 4) ^ ((fieldOrder - 1) / 2) := by
    have hsq : u.toZMod * w ^ 7 = (x.toZMod * w ^ 4) ^ 2 := by
      rw [hu]
      ring
    have hodd (t : ZMod fieldOrder) (k : Nat) :
        t ^ (2 * k + 1) = t ^ k * t ^ k * t := by
      rw [pow_succ, pow_mul', sq]
    rw [Residue.toZMod_mul, Residue.toZMod_mul, ← hw, hrZ, ← hexp,
      pow_mul (x.toZMod * w ^ 4) 2, ← hsq, hodd]
    ring
  have hroot : v.toZMod * (r.toZMod * r.toZMod) = u.toZMod →
      r.toZMod * r.toZMod = x.toZMod * x.toZMod := by
    intro h
    apply mul_left_cancel₀ hv
    rw [h, hu, mul_comm]
  have hroot' : v.toZMod * (r.toZMod * r.toZMod) = -u.toZMod →
      (r * rootOfMinusOne).toZMod * (r * rootOfMinusOne).toZMod =
        x.toZMod * x.toZMod := by
    intro h
    rw [Residue.toZMod_mul, mul_rootOfMinusOne_mul_self]
    apply mul_left_cancel₀ hv
    rw [mul_neg, h, hu]
    ring
  have hsign : v * (r * r) = u ∨ v * (r * r) = -u := by
    rw [← Residue.toZMod_inj, ← Residue.toZMod_inj, Residue.toZMod_neg, hcheck]
    by_cases hx : x.toZMod = 0
    · left
      rw [hu, hx]
      ring
    · have ht : x.toZMod * w ^ 4 ≠ 0 := mul_ne_zero hx (pow_ne_zero 4 hv)
      rcases pow_half_eq_or ht with h | h
      · left
        rw [h, mul_one]
      · right
        rw [h, mul_neg_one]
  have hunfold : evenRootOfQuotient? u v =
      if v * (r * r) = u then some (withParity false r)
      else if v * (r * r) = -u then
        some (withParity false (r * rootOfMinusOne))
      else none := rfl
  rw [hunfold]
  by_cases hplus : v * (r * r) = u
  · refine ⟨r, ?_, if_pos hplus⟩
    have h := congrArg Residue.toZMod hplus
    rw [Residue.toZMod_mul, Residue.toZMod_mul] at h
    exact eq_or_neg_of_mul_self (hroot h)
  · have hminus := hsign.resolve_left hplus
    refine ⟨r * rootOfMinusOne, ?_, by rw [if_neg hplus, if_pos hminus]⟩
    have h := congrArg Residue.toZMod hminus
    rw [Residue.toZMod_mul, Residue.toZMod_mul, Residue.toZMod_neg] at h
    exact eq_or_neg_of_mul_self (hroot' h)

end Coordinate

/-- The power is a root of a square, or becomes one by a root of minus one. -/
theorem Coordinate.root?_of_square {s x : Coordinate}
    (h : s.toZMod = x.toZMod * x.toZMod) :
    ∃ a : Coordinate, (a = x ∨ a = -x) ∧ root? s = some a := by
  have hsign : (s.pow ((fieldOrder + 3) / 8)).toZMod *
        (s.pow ((fieldOrder + 3) / 8)).toZMod = s.toZMod ∨
      (s.pow ((fieldOrder + 3) / 8)).toZMod *
        (s.pow ((fieldOrder + 3) / 8)).toZMod = -s.toZMod := by
    rw [Residue.toZMod_pow, h]
    exact root_mul_self x.toZMod
  simp only [root?]
  generalize s.pow ((fieldOrder + 3) / 8) = r at hsign ⊢
  by_cases hplus : r * r = s
  · refine ⟨r, ?_, if_pos hplus⟩
    apply eq_or_neg_of_mul_self
    rw [← Residue.toZMod_mul, hplus, h]
  · have hminus : r.toZMod * r.toZMod = -s.toZMod := by
      apply hsign.resolve_left
      rw [← Residue.toZMod_mul, Residue.toZMod_inj]
      exact hplus
    have hsecond : (r * rootOfMinusOne).toZMod * (r * rootOfMinusOne).toZMod =
        s.toZMod := by
      rw [Residue.toZMod_mul, mul_rootOfMinusOne_mul_self, hminus, neg_neg]
    refine ⟨r * rootOfMinusOne, ?_, ?_⟩
    · apply eq_or_neg_of_mul_self
      rw [hsecond, h]
    · rw [← Residue.toZMod_mul, Residue.toZMod_inj] at hsecond
      rw [if_neg hplus, if_pos hsecond]

theorem Coordinate.toZMod_squareOfFirst {x y : Coordinate} (h : OnCurve x y) :
    (squareOfFirst y).toZMod = x.toZMod * x.toZMod := by
  simp only [squareOfFirst, Residue.toZMod_mul, Residue.toZMod_sub,
    Residue.toZMod_add, Residue.toZMod_one,
    Residue.toZMod_inverse fieldOrder_ne_two, numerator_eq h]
  exact mul_inv_cancel_right₀ (denominator_ne_zero _) _

/-- The strict rule finds the first coordinate of a point. -/
theorem recoverX?_eq (P : Point) : recoverX? P.y.val P.x.isOdd = some P.x := by
  obtain ⟨a, ha, hroot⟩ := Coordinate.root?_of_square
    (Coordinate.toZMod_squareOfFirst P.onCurve)
  rw [recoverX?, if_pos P.y.isLt, Coordinate.ofNat_val, hroot]
  by_cases h0 : a = 0
  · have hx : P.x = 0 := (Coordinate.eq_zero_iff_of_eq_or_neg ha).mp h0
    have heven : (0 : Coordinate).isOdd = false := by
      decide
    simp [h0, hx, heven]
  · simp [h0, Coordinate.withParity_of_eq_or_neg ha]

theorem Octets.toList_injective {n : Nat} :
    Function.Injective (Octets.toList : Octets n → Bytes) := by
  rintro ⟨bs, hbs⟩ ⟨cs, hcs⟩ h
  simpa using h

namespace Point

theorem compress_mod (x y : Coordinate) : compress x y % parityPlace = y.val := by
  have hy : y.val < parityPlace := y.isLt.trans (by decide)
  rw [compress]
  split
  · rw [Nat.add_mod_right, Nat.mod_eq_of_lt hy]
  · exact Nat.mod_eq_of_lt hy

theorem testBit_compress (x y : Coordinate) :
    (compress x y).testBit 255 = x.isOdd := by
  have hy : y.val < parityPlace := y.isLt.trans (by decide)
  have hplace : parityPlace = 2 ^ 255 := rfl
  rw [compress]
  cases hodd : x.isOdd
  · exact Nat.testBit_lt_two_pow hy
  · rw [if_pos rfl, hplace, Nat.add_comm, Nat.testBit_two_pow_add_eq,
      Nat.testBit_lt_two_pow hy, Bool.not_false]

theorem compress_lt (x y : Coordinate) : compress x y < Bytes.count 32 := by
  have hy : y.val < parityPlace := y.isLt.trans (by decide)
  have hcount : Bytes.count 32 = parityPlace + parityPlace := by
    decide
  rw [compress, hcount]
  split <;> omega

theorem toNatLE_encode (P : Point) :
    P.encode.toList.toNatLE = compress P.x P.y := by
  change Bytes.toNatLE (Bytes.ofNatLE 32 (compress P.x P.y)) = _
  rw [Bytes.toNatLE_ofNatLE, Nat.mod_eq_of_lt (compress_lt P.x P.y)]

/-- Decoding takes the even one among the first coordinate and its negative. -/
theorem exists_evenRootOfQuotient? (P : Point) :
    ∃ a : Coordinate, (a = P.x ∨ a = -P.x) ∧
      Coordinate.evenRootOfQuotient? (P.y * P.y - 1)
        (Coordinate.curveD * (P.y * P.y) + 1) =
          some (Coordinate.withParity false a) := by
  apply Coordinate.evenRootOfQuotient?_of_square
  · simpa using Coordinate.denominator_ne_zero P.y.toZMod
  · simpa using Coordinate.numerator_eq P.onCurve

theorem decompress?_compress (P : Point) :
    decompress? (compress P.x P.y) = some P := by
  obtain ⟨a, ha, hroot⟩ := P.exists_evenRootOfQuotient?
  have hsome : (some P : Option Point) = ofCoordinates? P.x P.y :=
    (ofCoordinates?_eq_some.mpr ⟨rfl, rfl⟩).symm
  rw [decompress?, compress_mod, testBit_compress, Coordinate.ofNat_val, hroot]
  change ofCoordinates? _ P.y = _
  rw [Coordinate.evenRoot_of_eq_or_neg ha, hsome]

theorem decode?_encode (P : Point) : decode? P.encode.toList = some P := by
  rw [decode?, if_pos P.encode.length_eq, toNatLE_encode, decompress?_compress]

theorem encode_injective : Function.Injective encode := by
  intro P Q h
  have hdecode := decode?_encode P
  rw [h, decode?_encode, Option.some.injEq] at hdecode
  exact hdecode.symm

/-- Every point has affine coordinates: the bytes of its two coordinates. -/
theorem affine?_eq_some (P : Point) :
    P.affine? = some ⟨P.x.encode, P.y.encode⟩ := by
  rw [affine?, toNatLE_encode, compress_mod, testBit_compress, recoverX?_eq]
  rfl

theorem decode?_encode_coordinate (a : Coordinate) :
    Coordinate.decode? a.encode.toList = some a := by
  have hlt : a.val < Bytes.count 32 := a.isLt.trans (by decide)
  have hval : a.encode.toList.toNatLE = a.val := by
    change Bytes.toNatLE (Bytes.ofNatLE 32 a.val) = _
    rw [Bytes.toNatLE_ofNatLE, Nat.mod_eq_of_lt hlt]
  rw [Coordinate.decode?, if_pos a.encode.length_eq, Residue.ofNat?_eq_some]
  exact hval

theorem ofAffine?_encode (P : Point) :
    ofAffine? P.x.encode.toList P.y.encode.toList = some P := by
  have hunfold (x y : Bytes) : ofAffine? x y =
      (Coordinate.decode? x).bind fun x => (Coordinate.decode? y).bind fun y =>
        if OnCurve x y then decompress? (compress x y) else none := rfl
  rw [hunfold, decode?_encode_coordinate, Option.bind_some,
    decode?_encode_coordinate, Option.bind_some, if_pos P.onCurve,
    decompress?_compress]

end Point

end Quorum
