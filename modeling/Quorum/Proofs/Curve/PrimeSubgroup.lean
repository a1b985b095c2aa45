import Mathlib
import Quorum.Curve.Subgroup
import Quorum.Proofs.Curve.Group

/-!
# The subgroup of prime order

On the points of order dividing `L` the scalars act as they do on a vector
space: the multiple by a sum of scalars is the sum of the multiples, and so on,
although a scalar is reduced after every operation.  The generator belongs to
this subgroup and no nonzero scalar annihilates it, and clearing the cofactor
leaves the points of the subgroup as they are.
-/

namespace Quorum

namespace Scalar

theorem groupOrder_ne_two : groupOrder ≠ 2 := by
  decide

theorem toZMod_sum (ss : List Scalar) :
    (sum ss).toZMod = (ss.map Residue.toZMod).sum := by
  induction ss with
  | nil => exact Residue.toZMod_zero
  | cons s ss ih =>
    change (s + sum ss).toZMod = _
    rw [Residue.toZMod_add, ih, List.map_cons, List.sum_cons]

theorem toZMod_product (ss : List Scalar) :
    (product ss).toZMod = (ss.map Residue.toZMod).prod := by
  induction ss with
  | nil => exact Residue.toZMod_one
  | cons s ss ih =>
    change (s * product ss).toZMod = _
    rw [Residue.toZMod_mul, ih, List.map_cons, List.prod_cons]

theorem decode?_encode (s : Scalar) : decode? s.encode.toList = some s := by
  have hlt : s.val < Bytes.count 32 := s.isLt.trans (by decide)
  have hval : s.encode.toList.toNatLE = s.val := by
    change Bytes.toNatLE (Bytes.ofNatLE 32 s.val) = _
    rw [Bytes.toNatLE_ofNatLE, Nat.mod_eq_of_lt hlt]
  rw [decode?, if_pos s.encode.length_eq, Residue.ofNat?_eq_some]
  exact hval

end Scalar

namespace Point

/-- The points whose order divides `L`. -/
def primeSubgroup : AddSubgroup Point :=
  (nsmulAddMonoidHom groupOrder : Point →+ Point).ker

theorem mem_primeSubgroup {P : Point} :
    P ∈ primeSubgroup ↔ groupOrder • P = 0 :=
  Iff.rfl

theorem isTorsionFree_iff {P : Point} :
    P.isTorsionFree = true ↔ P ∈ primeSubgroup := by
  rw [isTorsionFree, decide_eq_true_iff, mem_primeSubgroup, times_eq_nsmul]

theorem isValid_iff {P : Point} :
    P.isValid = true ↔ P ≠ 0 ∧ P ∈ primeSubgroup := by
  rw [isValid, Bool.and_eq_true, decide_eq_true_iff, isTorsionFree_iff]

theorem isValid_eq_false_iff {P : Point} :
    P.isValid = false ↔ P = 0 ∨ P ∉ primeSubgroup := by
  rw [Bool.eq_false_iff, Ne, isValid_iff, Classical.not_and_iff_not_or_not, not_not]

theorem smul_def (s : Scalar) (P : Point) : s • P = s.val • P :=
  rfl

/-- Scalars act additively on all points, of whatever order. -/
theorem smul_add (s : Scalar) (P Q : Point) : s • (P + Q) = s • P + s • Q := by
  rw [smul_def, smul_def, smul_def, nsmul_add]

theorem smul_sub (s : Scalar) (P Q : Point) : s • (P - Q) = s • P - s • Q := by
  rw [smul_def, smul_def, smul_def, nsmul_sub]

theorem smul_zero (s : Scalar) : s • (0 : Point) = 0 := by
  rw [smul_def, nsmul_zero]

theorem smul_sum (s : Scalar) (Ps : List Point) :
    s • Ps.sum = (Ps.map fun P => s • P).sum := by
  induction Ps with
  | nil => exact smul_zero s
  | cons P Ps ih => rw [List.sum_cons, smul_add, ih, List.map_cons, List.sum_cons]

theorem sum_range_eq_sum (n : Nat) (P : Nat → Point) :
    ∑ j ∈ Finset.range n, P j = ((List.range n).map P).sum := by
  induction n with
  | zero => rfl
  | succ n ih =>
    rw [Finset.sum_range_succ, ih, List.range_succ, List.map_append, List.sum_append,
      List.map_singleton, List.sum_singleton]

theorem smul_mem (s : Scalar) {P : Point} (hP : P ∈ primeSubgroup) :
    s • P ∈ primeSubgroup := by
  rw [smul_def]
  exact primeSubgroup.nsmul_mem hP s.val

section PrimeOrder

variable {P : Point} (hP : P ∈ primeSubgroup)
include hP

theorem nsmul_mod (k : Nat) : (k % groupOrder) • P = k • P := by
  conv_rhs => rw [← Nat.div_add_mod k groupOrder]
  rw [add_nsmul, Nat.mul_comm, mul_nsmul', mem_primeSubgroup.mp hP, nsmul_zero,
    zero_add]

theorem ofNat_smul (k : Nat) : Residue.ofNat groupOrder k • P = k • P :=
  nsmul_mod hP k

theorem add_smul (s t : Scalar) : (s + t) • P = s • P + t • P := by
  rw [smul_def s, smul_def t, ← add_nsmul]
  exact ofNat_smul hP (s.val + t.val)

theorem sub_smul (s t : Scalar) : (s - t) • P = s • P - t • P := by
  have hsum : s - t + t = s := by
    rw [← Residue.toZMod_inj, Residue.toZMod_add, Residue.toZMod_sub, sub_add_cancel]
  rw [eq_sub_iff_add_eq, ← add_smul hP, hsum]

theorem mul_smul (s t : Scalar) : (s * t) • P = s • t • P := by
  rw [smul_def s, smul_def t, ← mul_nsmul']
  exact ofNat_smul hP (s.val * t.val)

theorem mul_smul' (s t : Scalar) : (s * t) • P = t • s • P := by
  rw [mul_smul hP]
  exact nsmul_left_comm P t.val s.val

theorem inverse_smul_smul {s : Scalar} (hs : s ≠ 0) : s.inverse • s • P = P := by
  rw [← mul_smul hP, Residue.inverse_mul_cancel Scalar.groupOrder_ne_two hs]
  exact one_nsmul P

theorem sum_smul (ss : List Scalar) :
    Scalar.sum ss • P = (ss.map fun s => s • P).sum := by
  induction ss with
  | nil => exact zero_nsmul P
  | cons s ss ih =>
    change (s + Scalar.sum ss) • P = _
    rw [add_smul hP, ih, List.map_cons, List.sum_cons]

theorem smul_eq_zero (hne : P ≠ 0) {s : Scalar} : s • P = 0 ↔ s = 0 := by
  constructor
  · intro h
    have horder : addOrderOf P = groupOrder :=
      addOrderOf_eq_prime (mem_primeSubgroup.mp hP) hne
    have hdvd : addOrderOf P ∣ s.val := addOrderOf_dvd_of_nsmul_eq_zero h
    rw [horder] at hdvd
    have hval : s.val = 0 := Nat.eq_zero_of_dvd_of_lt hdvd s.isLt
    rw [← Residue.toZMod_eq_zero, Residue.toZMod, hval, Nat.cast_zero]
  · rintro rfl
    exact zero_nsmul P

theorem smul_eq_zero_iff {s : Scalar} : s • P = 0 ↔ s = 0 ∨ P = 0 := by
  by_cases hne : P = 0
  · rw [hne, smul_zero]
    exact iff_of_true rfl (Or.inr rfl)
  · rw [smul_eq_zero hP hne, or_iff_left hne]

theorem smul_inj (hne : P ≠ 0) {s t : Scalar} : s • P = t • P ↔ s = t := by
  rw [← sub_eq_zero, ← sub_smul hP, smul_eq_zero hP hne, Residue.sub_eq_zero_iff]

theorem clearCofactor_eq_self : P.clearCofactor = P := by
  have height : (8 : Scalar) ≠ 0 := by
    decide
  exact inverse_smul_smul hP height

end PrimeOrder

theorem generator_mem : generator ∈ primeSubgroup := by
  have h : generator.times groupOrder = 0 := by
    decide +kernel
  rw [mem_primeSubgroup, ← times_eq_nsmul]
  exact h

theorem generator_ne_zero : generator ≠ 0 := by
  decide

theorem smul_generator_mem (s : Scalar) : s • generator ∈ primeSubgroup :=
  smul_mem s generator_mem

theorem smul_generator_eq_zero {s : Scalar} : s • generator = 0 ↔ s = 0 :=
  smul_eq_zero generator_mem generator_ne_zero

/-- The public point of a nonzero scalar is usable. -/
theorem isValid_smul_generator {s : Scalar} :
    (s • generator).isValid = true ↔ s ≠ 0 := by
  rw [isValid_iff, Ne, smul_generator_eq_zero]
  exact and_iff_left (smul_generator_mem s)

end Point

end Quorum
