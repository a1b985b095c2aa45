import Mathlib
import Quorum.Curve.Point
import Quorum.Proofs.Primality
import Quorum.Proofs.Curve.AdditionLaw

/-!
# The group of points

The points of the curve form an abelian group under the computed sum.  Extended
coordinates denote a pair of affine coordinates, the unified addition law adds
what they denote, and the way back to affine form always finds a point of the
curve; hence the computed sum is the sum of the addition law, and computed
multiples are the multiples of the group.
-/

namespace Quorum

open Edwards (Coordinates Equation)

namespace Coordinate

/-- The constant of the curve in the field. -/
abbrev d : ZMod fieldOrder :=
  curveD.toZMod

theorem rootOfMinusOne_mul_self :
    rootOfMinusOne.toZMod * rootOfMinusOne.toZMod = -1 := by
  have h : rootOfMinusOne * rootOfMinusOne = -1 := by
    decide +kernel
  rw [← Residue.toZMod_mul, h, Residue.toZMod_neg, Residue.toZMod_one]

theorem two_ne_zero : (2 : ZMod fieldOrder) ≠ 0 := by
  have h : (2 : Coordinate) ≠ 0 := by
    decide
  rw [← Residue.toZMod_literal, Ne, Residue.toZMod_eq_zero]
  exact h

/-- A square is one after raising to half the order of the field less one. -/
theorem pow_half_of_mul_self {t : ZMod fieldOrder} (ht : t ≠ 0) :
    (t * t) ^ ((fieldOrder - 1) / 2) = 1 := by
  have heven : 2 * ((fieldOrder - 1) / 2) = fieldOrder - 1 := by
    decide +kernel
  rw [← sq, ← pow_mul, heven]
  exact ZMod.pow_card_sub_one_eq_one ht

/-- The addition law of the curve has no exceptions. -/
theorem complete : Edwards.Complete d where
  two_ne_zero := two_ne_zero
  exists_root := ⟨rootOfMinusOne.toZMod, rootOfMinusOne_mul_self⟩
  nonsquare := by
    have hpow : curveD.pow ((fieldOrder - 1) / 2) = -1 := by
      decide +kernel
    have hne : (-1 : Coordinate) ≠ 1 := by
      decide
    have hd : d ^ ((fieldOrder - 1) / 2) = -1 := by
      rw [← Residue.toZMod_pow, hpow, Residue.toZMod_neg, Residue.toZMod_one]
    intro t ht
    rw [← ht] at hd
    by_cases h0 : t = 0
    · subst h0
      have hhalf : (fieldOrder - 1) / 2 ≠ 0 := by
        decide +kernel
      rw [mul_zero, zero_pow hhalf] at hd
      exact one_ne_zero (neg_eq_zero.mp hd.symm)
    · rw [pow_half_of_mul_self h0] at hd
      apply hne
      rw [← Residue.toZMod_inj, Residue.toZMod_neg, Residue.toZMod_one]
      exact hd.symm

end Coordinate

open Coordinate (d)

theorem onCurve_iff (x y : Coordinate) :
    OnCurve x y ↔ Equation d ⟨x.toZMod, y.toZMod⟩ := by
  rw [OnCurve, ← Residue.toZMod_inj]
  simp only [Residue.toZMod_sub, Residue.toZMod_mul, Residue.toZMod_add,
    Residue.toZMod_one, Equation]

namespace Point

/-- The coordinates of a point in the field. -/
def coordinates (P : Point) : Coordinates (ZMod fieldOrder) :=
  ⟨P.x.toZMod, P.y.toZMod⟩

theorem equation_coordinates (P : Point) : Equation d P.coordinates :=
  (onCurve_iff P.x P.y).mp P.onCurve

theorem coordinates_injective : Function.Injective coordinates := by
  intro P Q h
  have hx : P.x = Q.x := Residue.toZMod_inj.mp (congrArg Coordinates.x h)
  have hy : P.y = Q.y := Residue.toZMod_inj.mp (congrArg Coordinates.y h)
  cases P
  cases Q
  cases hx
  cases hy
  rfl

theorem coordinates_zero : (0 : Point).coordinates = Edwards.neutral := by
  ext
  · exact Residue.toZMod_zero
  · exact Residue.toZMod_one

theorem ofCoordinates?_eq_some {x y : Coordinate} {P : Point} :
    ofCoordinates? x y = some P ↔ x = P.x ∧ y = P.y := by
  rw [ofCoordinates?]
  split
  · next h =>
    rw [Option.some.injEq]
    constructor
    · rintro rfl
      exact ⟨rfl, rfl⟩
    · rintro ⟨rfl, rfl⟩
      rfl
  · next h =>
    constructor
    · intro hnone
      cases hnone
    · rintro ⟨rfl, rfl⟩
      exact absurd P.onCurve h

theorem coordinates_neg (P : Point) :
    (-P).coordinates = Edwards.neg P.coordinates := by
  have hcurve : OnCurve (-P.x) P.y := by
    have h := Edwards.equation_neg P.equation_coordinates
    rw [onCurve_iff, Residue.toZMod_neg]
    simpa only [Edwards.neg, coordinates] using h
  have hneg : -P = ⟨-P.x, P.y, hcurve⟩ := by
    change (ofCoordinates? (-P.x) P.y).getD 0 = _
    rw [ofCoordinates?, dif_pos hcurve, Option.getD_some]
  rw [hneg]
  ext
  · simp only [coordinates, Edwards.neg, Residue.toZMod_neg]
  · simp only [coordinates, Edwards.neg]

namespace Extended

/-- The affine coordinates that extended coordinates stand for. -/
structure Denotes (E : Extended) (C : Coordinates (ZMod fieldOrder)) :
    Prop where
  denominator_ne_zero : E.Z.toZMod ≠ 0
  x_eq : E.X.toZMod = C.x * E.Z.toZMod
  y_eq : E.Y.toZMod = C.y * E.Z.toZMod
  t_eq : E.T.toZMod = C.x * C.y * E.Z.toZMod

theorem denotes_extend (P : Point) : P.extend.Denotes P.coordinates where
  denominator_ne_zero := by
    rw [extend, Residue.toZMod_one]
    exact one_ne_zero
  x_eq := by simp [extend, coordinates]
  y_eq := by simp [extend, coordinates]
  t_eq := by simp [extend, coordinates]

theorem denotes_neutral : neutral.Denotes Edwards.neutral where
  denominator_ne_zero := by
    rw [neutral, Residue.toZMod_one]
    exact one_ne_zero
  x_eq := by simp [neutral, Edwards.neutral]
  y_eq := by simp [neutral, Edwards.neutral]
  t_eq := by simp [neutral, Edwards.neutral]

theorem Denotes.add {E F : Extended} {C D : Coordinates (ZMod fieldOrder)}
    (hE : E.Denotes C) (hF : F.Denotes D) (hC : Equation d C)
    (hD : Equation d D) : (E.add F).Denotes (Edwards.add d C D) := by
  have hplus := Edwards.one_add_twist_ne_zero Coordinate.complete hC hD
  have hminus := Edwards.one_sub_twist_ne_zero Coordinate.complete hC hD
  have hscale : 2 * (E.Z.toZMod * F.Z.toZMod) ≠ 0 :=
    mul_ne_zero Coordinate.two_ne_zero
      (mul_ne_zero hE.denominator_ne_zero hF.denominator_ne_zero)
  obtain ⟨-, hEX, hEY, hET⟩ := hE
  obtain ⟨-, hFX, hFY, hFT⟩ := hF
  -- Each coordinate is a product of a numerator and a denominator of the addition law,
  -- both scaled by twice the product of the denominators.
  have hX : (E.add F).X.toZMod =
      2 * (E.Z.toZMod * F.Z.toZMod) * (C.x * D.y + D.x * C.y) *
        (2 * (E.Z.toZMod * F.Z.toZMod) * (1 - Edwards.twist d C D)) := by
    simp only [Extended.add, Residue.toZMod_mul, Residue.toZMod_sub,
      Residue.toZMod_add, hEX, hEY, hET, hFX, hFY, hFT, Edwards.twist]
    ring
  have hY : (E.add F).Y.toZMod =
      2 * (E.Z.toZMod * F.Z.toZMod) * (1 + Edwards.twist d C D) *
        (2 * (E.Z.toZMod * F.Z.toZMod) * (C.y * D.y + C.x * D.x)) := by
    simp only [Extended.add, Residue.toZMod_mul, Residue.toZMod_sub,
      Residue.toZMod_add, hEX, hEY, hET, hFX, hFY, hFT, Edwards.twist]
    ring
  have hZ : (E.add F).Z.toZMod =
      2 * (E.Z.toZMod * F.Z.toZMod) * (1 - Edwards.twist d C D) *
        (2 * (E.Z.toZMod * F.Z.toZMod) * (1 + Edwards.twist d C D)) := by
    simp only [Extended.add, Residue.toZMod_mul, Residue.toZMod_sub,
      Residue.toZMod_add, hET, hFT, Edwards.twist]
    ring
  have hT : (E.add F).T.toZMod =
      2 * (E.Z.toZMod * F.Z.toZMod) * (C.x * D.y + D.x * C.y) *
        (2 * (E.Z.toZMod * F.Z.toZMod) * (C.y * D.y + C.x * D.x)) := by
    simp only [Extended.add, Residue.toZMod_mul, Residue.toZMod_sub,
      Residue.toZMod_add, hEX, hEY, hFX, hFY]
    ring
  constructor
  · rw [hZ]
    exact mul_ne_zero (mul_ne_zero hscale hminus) (mul_ne_zero hscale hplus)
  · rw [hX, hZ, Edwards.add]
    field_simp
  · rw [hY, hZ, Edwards.add]
    field_simp
  · rw [hT, hZ, Edwards.add]
    field_simp

/-- The way back to affine form finds the point that is denoted. -/
theorem Denotes.coordinates_toPoint {E : Extended}
    {C : Coordinates (ZMod fieldOrder)} (hE : E.Denotes C)
    (hC : Equation d C) : E.toPoint.coordinates = C := by
  have hinv : E.Z.toZMod * E.Z.inverse.toZMod = 1 := by
    rw [Residue.toZMod_inverse (by decide)]
    exact mul_inv_cancel₀ hE.denominator_ne_zero
  have hx : (E.X * E.Z.inverse).toZMod = C.x := by
    rw [Residue.toZMod_mul, hE.x_eq, mul_assoc, hinv, mul_one]
  have hy : (E.Y * E.Z.inverse).toZMod = C.y := by
    rw [Residue.toZMod_mul, hE.y_eq, mul_assoc, hinv, mul_one]
  have hcurve : OnCurve (E.X * E.Z.inverse) (E.Y * E.Z.inverse) := by
    rw [onCurve_iff, hx, hy]
    exact hC
  have hpoint : E.toPoint = ⟨_, _, hcurve⟩ := by
    rw [toPoint, ofCoordinates?, dif_pos hcurve, Option.getD_some]
  rw [hpoint]
  ext
  · exact hx
  · exact hy

end Extended

theorem coordinates_add (P Q : Point) :
    (P + Q).coordinates = Edwards.add d P.coordinates Q.coordinates := by
  have hP := P.equation_coordinates
  have hQ := Q.equation_coordinates
  exact ((Extended.denotes_extend P).add (Extended.denotes_extend Q) hP
    hQ).coordinates_toPoint (Edwards.equation_add Coordinate.complete hP hQ)

protected theorem add_assoc (P Q R : Point) : P + Q + R = P + (Q + R) := by
  apply coordinates_injective
  simp only [coordinates_add]
  exact Edwards.add_assoc Coordinate.complete P.equation_coordinates
    Q.equation_coordinates R.equation_coordinates

protected theorem add_comm (P Q : Point) : P + Q = Q + P := by
  apply coordinates_injective
  simp only [coordinates_add]
  exact Edwards.add_comm _ _

protected theorem zero_add (P : Point) : 0 + P = P := by
  apply coordinates_injective
  rw [coordinates_add, coordinates_zero]
  exact Edwards.neutral_add _

protected theorem neg_add_cancel (P : Point) : -P + P = 0 := by
  apply coordinates_injective
  rw [coordinates_add, coordinates_neg, coordinates_zero]
  exact Edwards.neg_add Coordinate.complete P.equation_coordinates

theorem nsmulRec_add (m k : Nat) (P : Point) :
    nsmulRec (m + k) P = nsmulRec m P + nsmulRec k P := by
  induction k with
  | zero =>
    rw [Nat.add_zero]
    exact (Point.zero_add _).symm.trans (Point.add_comm _ _)
  | succ k ih =>
    change nsmulRec (m + k) P + P = nsmulRec m P + (nsmulRec k P + P)
    rw [ih, Point.add_assoc]

/-- Doubling over the binary digits denotes the repeated sum. -/
theorem denotes_times (k : Nat) (P : Point) :
    (P.extend.times k).Denotes (nsmulRec k P).coordinates := by
  have hbits : ∀ bits : List Bool,
      (bits.foldr (fun bit Q => if bit then (Q.add Q).add P.extend
        else Q.add Q) Extended.neutral).Denotes
        (nsmulRec (ofBinaryDigits bits) P).coordinates := by
    -- The digits are listed from the lowest one on, so that the fold doubles them up.
    intro bits
    induction bits with
    | nil =>
      have hzero : (nsmulRec 0 P).coordinates = Edwards.neutral :=
        coordinates_zero
      change Extended.neutral.Denotes (nsmulRec 0 P).coordinates
      rw [hzero]
      exact Extended.denotes_neutral
    | cons bit bits ih =>
      have hstep : ofBinaryDigits (bit :: bits) =
          ofBinaryDigits bits + ofBinaryDigits bits + bit.toNat := by
        change 2 * ofBinaryDigits bits + bit.toNat = _
        omega
      have hdouble := ih.add ih (equation_coordinates _)
        (equation_coordinates _)
      rw [← coordinates_add, ← nsmulRec_add] at hdouble
      rw [List.foldr_cons, hstep]
      cases bit with
      | false => exact hdouble
      | true =>
        have hodd := hdouble.add (Extended.denotes_extend P)
          (equation_coordinates _) P.equation_coordinates
        rwa [← coordinates_add] at hodd
  have h := hbits (binaryDigits k)
  rwa [ofBinaryDigits_binaryDigits] at h

theorem times_eq_nsmulRec (k : Nat) (P : Point) :
    P.times k = nsmulRec k P := by
  apply coordinates_injective
  exact (denotes_times k P).coordinates_toPoint (equation_coordinates _)

theorem times_zero (P : Point) : P.times 0 = 0 :=
  times_eq_nsmulRec 0 P

theorem times_succ (k : Nat) (P : Point) : P.times (k + 1) = P.times k + P := by
  simp only [times_eq_nsmulRec, nsmulRec]

theorem zsmulRec_natCast (k : Nat) (P : Point) :
    zsmulRec nsmulRec (k : Int) P = nsmulRec k P :=
  rfl

theorem zsmulRec_succ (k : Nat) (P : Point) :
    zsmulRec nsmulRec (k.succ : Int) P =
      zsmulRec nsmulRec (k : Int) P + P := by
  rw [zsmulRec_natCast, zsmulRec_natCast, nsmulRec]

theorem zsmulRec_negSucc (k : Nat) (P : Point) :
    zsmulRec nsmulRec (Int.negSucc k) P =
      -zsmulRec nsmulRec (k.succ : Int) P := by
  rw [zsmulRec_natCast, zsmulRec]

/-- The points of the curve form an abelian group. -/
instance : AddCommGroup Point where
  add_assoc := Point.add_assoc
  zero_add := Point.zero_add
  add_zero P := (Point.add_comm P 0).trans (Point.zero_add P)
  nsmul k P := P.times k
  nsmul_zero := times_zero
  nsmul_succ := times_succ
  neg_add_cancel := Point.neg_add_cancel
  add_comm := Point.add_comm
  sub_eq_add_neg _ _ := rfl
  zsmul := zsmulRec
  zsmul_zero' _ := rfl
  zsmul_succ' := zsmulRec_succ
  zsmul_neg' := zsmulRec_negSucc

theorem times_eq_nsmul (k : Nat) (P : Point) : P.times k = k • P :=
  rfl

theorem sum_eq_sum (Ps : List Point) : sum Ps = Ps.sum :=
  rfl

end Point

end Quorum
