import Mathlib
import Quorum.Proofs.Bytes
import Quorum.Proofs.Curve.Affine

/-!
# The affine codec

Every point has affine coordinates, and a pair of byte strings is taken for
affine coordinates exactly if both are canonical and satisfy the curve
equation.  Reading and writing undo each other, so that the points of the curve,
whatever their order, correspond to the canonical pairs that satisfy it.
-/

namespace Quorum

open Coordinate (d)

namespace Coordinate

theorem toNatLE_encode (a : Coordinate) : a.encode.toList.toNatLE = a.val := by
  have hlt : a.val < Bytes.count 32 := a.isLt.trans (by decide)
  change Bytes.toNatLE (Bytes.ofNatLE 32 a.val) = a.val
  rw [Bytes.toNatLE_ofNatLE, Nat.mod_eq_of_lt hlt]

/-- The 32 bytes that denote a coordinate are its encoding. -/
theorem encode_toList_eq_iff {a : Coordinate} {bs : Bytes} :
    a.encode.toList = bs ↔ bs.length = 32 ∧ bs.toNatLE = a.val := by
  constructor
  · rintro rfl
    exact ⟨a.encode.length_eq, a.toNatLE_encode⟩
  · rintro ⟨hlength, hval⟩
    have hbytes := bs.ofNatLE_toNatLE
    rw [hlength, hval] at hbytes
    exact hbytes

theorem decode?_eq_some {bs : Bytes} {a : Coordinate} :
    decode? bs = some a ↔ bs.length = 32 ∧ bs.toNatLE = a.val := by
  rw [decode?]
  split_ifs with hlength
  · simp [hlength, Residue.ofNat?_eq_some]
  · simp [hlength]

theorem d_eq : d = -121665 / 121666 := by
  have hne : (121666 : Coordinate) ≠ 0 := by
    decide
  have hmul : curveD * 121666 = -121665 := by
    decide +kernel
  rw [← Residue.toZMod_inj, Residue.toZMod_mul, Residue.toZMod_neg,
    Residue.toZMod_literal, Residue.toZMod_literal] at hmul
  rw [Ne, ← Residue.toZMod_eq_zero, Residue.toZMod_literal] at hne
  exact eq_div_of_mul_eq hne hmul

end Coordinate

/-- Two byte strings write a pair of coordinates that satisfies the curve equation. -/
structure IsCoordinatePair (x y : Bytes) : Prop where
  length_x : x.length = 32
  length_y : y.length = 32
  x_lt : x.toNatLE < fieldOrder
  y_lt : y.toNatLE < fieldOrder
  /-- The curve equation holds modulo the field order. -/
  equation : -(x.toNatLE : ZMod fieldOrder) ^ 2 + (y.toNatLE : ZMod fieldOrder) ^ 2 =
    1 + -121665 / 121666 * (x.toNatLE : ZMod fieldOrder) ^ 2 *
      (y.toNatLE : ZMod fieldOrder) ^ 2

theorem onCurve_iff_equation (x y : Coordinate) :
    OnCurve x y ↔
      -(x.val : ZMod fieldOrder) ^ 2 + (y.val : ZMod fieldOrder) ^ 2 =
        1 + -121665 / 121666 * (x.val : ZMod fieldOrder) ^ 2 *
          (y.val : ZMod fieldOrder) ^ 2 := by
  have hx : x.toZMod = (x.val : ZMod fieldOrder) := rfl
  have hy : y.toZMod = (y.val : ZMod fieldOrder) := rfl
  rw [onCurve_iff, Edwards.Equation, Coordinate.d_eq, hx, hy]
  ring_nf

namespace Point

theorem isCoordinatePair (P : Point) :
    IsCoordinatePair P.x.encode.toList P.y.encode.toList where
  length_x := P.x.encode.length_eq
  length_y := P.y.encode.length_eq
  x_lt := by
    rw [Coordinate.toNatLE_encode]
    exact P.x.isLt
  y_lt := by
    rw [Coordinate.toNatLE_encode]
    exact P.y.isLt
  equation := by
    rw [Coordinate.toNatLE_encode, Coordinate.toNatLE_encode]
    exact (onCurve_iff_equation P.x P.y).mp P.onCurve

theorem exists_of_isCoordinatePair {x y : Bytes} (h : IsCoordinatePair x y) :
    ∃ P : Point, P.x.encode.toList = x ∧ P.y.encode.toList = y := by
  have hcurve : OnCurve ⟨x.toNatLE, h.x_lt⟩ ⟨y.toNatLE, h.y_lt⟩ :=
    (onCurve_iff_equation _ _).mpr h.equation
  refine ⟨⟨_, _, hcurve⟩, ?_, ?_⟩
  · exact Coordinate.encode_toList_eq_iff.mpr ⟨h.length_x, rfl⟩
  · exact Coordinate.encode_toList_eq_iff.mpr ⟨h.length_y, rfl⟩

/-- A point is rebuilt from the bytes of its coordinates, and from no others. -/
theorem ofAffine?_eq_some {x y : Bytes} {P : Point} :
    ofAffine? x y = some P ↔ P.x.encode.toList = x ∧ P.y.encode.toList = y := by
  constructor
  · intro h
    simp only [ofAffine?, Option.bind_eq_bind, Option.bind_eq_some_iff] at h
    obtain ⟨a, ha, b, hb, hpoint⟩ := h
    split_ifs at hpoint with hcurve
    have hP : P = ⟨a, b, hcurve⟩ := by
      have hsame := decompress?_compress ⟨a, b, hcurve⟩
      rw [hpoint, Option.some.injEq] at hsame
      exact hsame
    rw [hP]
    exact ⟨Coordinate.encode_toList_eq_iff.mpr (Coordinate.decode?_eq_some.mp ha),
      Coordinate.encode_toList_eq_iff.mpr (Coordinate.decode?_eq_some.mp hb)⟩
  · rintro ⟨rfl, rfl⟩
    exact ofAffine?_encode P

/-- The points of the curve correspond to the canonical pairs that satisfy its equation. -/
theorem affine_codec (P : Point) (x y : Bytes) :
    (∃ c, P.affine? = some c ∧ ofAffine? c.x.toList c.y.toList = some P) ∧
      ((∃ Q, ofAffine? x y = some Q) ↔ IsCoordinatePair x y) ∧
      (ofAffine? x y = some P ↔
        IsCoordinatePair x y ∧ P.x.val = x.toNatLE ∧ P.y.val = y.toNatLE) ∧
      (ofAffine? x y = some P ↔
        ∃ c, P.affine? = some c ∧ c.x.toList = x ∧ c.y.toList = y) := by
  refine ⟨?_, ?_, ?_, ?_⟩
  · exact ⟨_, P.affine?_eq_some, P.ofAffine?_encode⟩
  · constructor
    · rintro ⟨Q, hQ⟩
      obtain ⟨rfl, rfl⟩ := ofAffine?_eq_some.mp hQ
      exact Q.isCoordinatePair
    · intro h
      obtain ⟨Q, hQ⟩ := exists_of_isCoordinatePair h
      exact ⟨Q, ofAffine?_eq_some.mpr hQ⟩
  · rw [ofAffine?_eq_some]
    constructor
    · rintro ⟨rfl, rfl⟩
      exact ⟨P.isCoordinatePair, (Coordinate.toNatLE_encode _).symm,
        (Coordinate.toNatLE_encode _).symm⟩
    · rintro ⟨h, hx, hy⟩
      exact ⟨Coordinate.encode_toList_eq_iff.mpr ⟨h.length_x, hx.symm⟩,
        Coordinate.encode_toList_eq_iff.mpr ⟨h.length_y, hy.symm⟩⟩
  · rw [ofAffine?_eq_some, P.affine?_eq_some]
    simp

end Point

end Quorum
