import Mathlib
import Quorum.Key.Polynomial
import Quorum.Proofs.Session.Admission

/-!
# Recombination

The values of a polynomial at the evaluation points of a signing set, weighted
by the Lagrange weights of its members, add up to the value at zero.  This
holds if there are at least as many members as coefficients, and if no two
members have the same evaluation point, which for identifiers in range is the
same as no two of them being equal.
-/

namespace Quorum

/-- The polynomial with the given coefficients, the constant one first. -/
noncomputable def Polynomial.ofCoefficients (coefficients : List Scalar) :
    Polynomial (ZMod groupOrder) :=
  coefficients.foldr (fun c p => p * .X + .C c.toZMod) 0

theorem Polynomial.ofCoefficients_cons (c : Scalar) (coefficients : List Scalar) :
    ofCoefficients (c :: coefficients) =
      ofCoefficients coefficients * .X + .C c.toZMod :=
  rfl

/-- Horner's rule yields the value of the polynomial. -/
theorem Polynomial.toZMod_evaluate (coefficients : List Scalar) (x : Scalar) :
    (evaluate coefficients x).toZMod =
      (ofCoefficients coefficients).eval x.toZMod := by
  induction coefficients with
  | nil => exact Residue.toZMod_zero.trans Polynomial.eval_zero.symm
  | cons c coefficients ih =>
    change (evaluate coefficients x * x + c).toZMod = _
    rw [Residue.toZMod_add, Residue.toZMod_mul, ih, ofCoefficients_cons, Polynomial.eval_add,
      Polynomial.eval_mul, Polynomial.eval_X, Polynomial.eval_C]

theorem Polynomial.degree_ofCoefficients_lt (coefficients : List Scalar) :
    (ofCoefficients coefficients).degree < coefficients.length := by
  rw [Polynomial.degree_lt_iff_coeff_zero]
  induction coefficients with
  | nil =>
    intro k _
    exact Polynomial.coeff_zero k
  | cons c coefficients ih =>
    intro k hk
    rw [List.length_cons] at hk
    obtain ⟨k, rfl⟩ := Nat.exists_eq_succ_of_ne_zero (by omega : k ≠ 0)
    rw [ofCoefficients_cons, Polynomial.coeff_add, Polynomial.coeff_mul_X, ih k (by omega),
      Polynomial.coeff_C_succ, add_zero]

theorem Polynomial.eval_zero_ofCoefficients (coefficients : List Scalar) :
    (ofCoefficients coefficients).eval 0 = (coefficients.headD 0).toZMod := by
  cases coefficients with
  | nil => exact Polynomial.eval_zero.trans Residue.toZMod_zero.symm
  | cons c coefficients =>
    rw [ofCoefficients_cons, Polynomial.eval_add, Polynomial.eval_mul, Polynomial.eval_X, Polynomial.eval_C, mul_zero, zero_add]
    rfl

/-- Evaluation points are not reduced, as identifiers are far below the group order. -/
theorem val_evaluationPoint (id : PartyId) : (evaluationPoint id).val = id.toNat + 1 := by
  have hid : id.toNat < 2 ^ 64 := id.toNat_lt
  have horder : 2 ^ 64 + 1 ≤ groupOrder := by decide
  exact Nat.mod_eq_of_lt (by omega)

theorem evaluationPoint_injective : Function.Injective evaluationPoint := by
  intro id other h
  have hval := congrArg Residue.val h
  rw [val_evaluationPoint, val_evaluationPoint] at hval
  exact UInt64.toNat_inj.mp (Nat.succ.inj hval)

/-- No holder is evaluated at zero, where the key is. -/
theorem evaluationPoint_ne_zero (id : PartyId) : evaluationPoint id ≠ 0 := by
  intro h
  have hval := congrArg Residue.val h
  rw [val_evaluationPoint] at hval
  exact Nat.succ_ne_zero _ hval

/-- The weight of a member is the value at zero of its Lagrange basis polynomial. -/
theorem toZMod_lagrangeWeight {id : PartyId} {parties : List PartyId}
    (hnodup : parties.Nodup) :
    (lagrangeWeight id parties).toZMod =
      (Lagrange.basis parties.toFinset (fun id => (evaluationPoint id).toZMod)
        id).eval 0 := by
  have herase : parties.toFinset.erase id =
      (parties.filter (· != id)).toFinset := by
    ext other
    simp [and_comm]
  have hothers : (parties.filter (· != id)).Nodup := hnodup.filter _
  rw [lagrangeWeight, Residue.toZMod_mul, Residue.toZMod_inverse Scalar.groupOrder_ne_two,
    Scalar.toZMod_product, Scalar.toZMod_product, List.map_map, List.map_map,
    ← List.prod_toFinset _ hothers, ← List.prod_toFinset _ hothers,
    Lagrange.basis, Polynomial.eval_prod, herase, ← Finset.prod_inv_distrib,
    ← Finset.prod_mul_distrib]
  refine Finset.prod_congr rfl fun other _ => ?_
  simp only [Function.comp_apply, Lagrange.basisDivisor, Residue.toZMod_sub, Polynomial.eval_mul,
    Polynomial.eval_C, Polynomial.eval_sub, Polynomial.eval_X, zero_sub]
  rw [← neg_sub, inv_neg, mul_neg, mul_neg, mul_comm]

/-- The weighted values of a polynomial add up to its value at zero. -/
theorem sum_lagrangeWeight_mul_evaluate {parties : List PartyId}
    (hnodup : parties.Nodup) {coefficients : List Scalar}
    (henough : coefficients.length ≤ parties.length) :
    Scalar.sum (parties.map fun id => lagrangeWeight id parties *
      Polynomial.evaluate coefficients (evaluationPoint id)) =
        coefficients.headD 0 := by
  have hinjective : Set.InjOn (fun id => (evaluationPoint id).toZMod)
      parties.toFinset :=
    (Residue.toZMod_injective.comp evaluationPoint_injective).injOn
  have hdegree : (Polynomial.ofCoefficients coefficients).degree <
      parties.toFinset.card := by
    rw [List.toFinset_card_of_nodup hnodup]
    exact (Polynomial.degree_ofCoefficients_lt coefficients).trans_le
      (Nat.cast_le.mpr henough)
  rw [← Residue.toZMod_inj, ← Polynomial.eval_zero_ofCoefficients,
    Lagrange.eq_interpolate hinjective hdegree, Lagrange.interpolate_apply,
    Polynomial.eval_finsetSum, Scalar.toZMod_sum, List.map_map,
    ← List.sum_toFinset _ hnodup]
  refine Finset.sum_congr rfl fun id _ => ?_
  rw [Polynomial.eval_mul, Polynomial.eval_C, ← Polynomial.toZMod_evaluate, ← toZMod_lagrangeWeight hnodup,
    Function.comp_apply, Residue.toZMod_mul, mul_comm]

end Quorum
