import Mathlib
import Quorum.Proofs.Curve.DiscreteLog

/-!
# Clearing the cofactor

There are exactly `8 L` points: the generator has order `L`, some point has order
eight, and twice as many points would not fit into 32 bytes each.  Hence the
eightfold of any point belongs to the subgroup of prime order, and dividing it
by eight there projects all points onto that subgroup.  What the projection
drops are the points whose order divides eight.
-/

namespace Quorum.Point

/-! ## The number of points -/

/-- A point of order eight. -/
def orderEight : Point :=
  ⟨14399317868200118260347934320527232580618823971194345261214217575416788799818,
    55188659117513257062467267217118295137698188065244968500265048394206261417927,
    by decide⟩

theorem addOrderOf_orderEight : addOrderOf orderEight = 8 := by
  have hfour : ¬ 2 ^ 2 • orderEight = 0 := by
    have h : orderEight.times 4 ≠ 0 := by
      decide +kernel
    exact h
  have height : 2 ^ (2 + 1) • orderEight = 0 := by
    have h : orderEight.times 8 = 0 := by
      decide +kernel
    exact h
  exact addOrderOf_eq_prime_pow hfour height

theorem addOrderOf_generator : addOrderOf generator = groupOrder :=
  addOrderOf_eq_prime (mem_primeSubgroup.mp generator_mem) generator_ne_zero

theorem card_eq : Nat.card Point = 8 * groupOrder := by
  have height : addOrderOf orderEight ∣ Nat.card Point := addOrderOf_dvd_natCard _
  have hprime : addOrderOf generator ∣ Nat.card Point := addOrderOf_dvd_natCard _
  rw [addOrderOf_orderEight] at height
  rw [addOrderOf_generator] at hprime
  have hcoprime : Nat.Coprime 8 groupOrder := by
    decide
  obtain ⟨k, hk⟩ := hcoprime.mul_dvd_of_dvd_of_dvd height hprime
  -- the two orders divide the count, and its double would not fit into 32 bytes
  have hpos : 0 < Nat.card Point := Nat.card_pos
  have hbound : Bytes.count 32 < 8 * groupOrder * 2 := by
    decide
  have hle := card_le
  rw [hk] at hpos hle ⊢
  have hlt : k < 2 := Nat.lt_of_mul_lt_mul_left (hle.trans_lt hbound)
  have hone : k = 1 := by
    have := Nat.pos_of_mul_pos_left hpos
    omega
  rw [hone, mul_one]

theorem times_eight_mem (P : Point) : P.times 8 ∈ primeSubgroup := by
  rw [mem_primeSubgroup, times_eq_nsmul, ← mul_nsmul, ← card_eq]
  exact card_nsmul_eq_zero'

/-! ## The projection -/

theorem clearCofactor_mem (P : Point) : P.clearCofactor ∈ primeSubgroup :=
  smul_mem _ P.times_eight_mem

theorem clearCofactor_eq_self_iff {P : Point} :
    P.clearCofactor = P ↔ P ∈ primeSubgroup :=
  ⟨fun h => h ▸ P.clearCofactor_mem, clearCofactor_eq_self⟩

theorem clearCofactor_add (P Q : Point) :
    (P + Q).clearCofactor = P.clearCofactor + Q.clearCofactor := by
  simp only [clearCofactor, times_eq_nsmul, nsmul_add, smul_add]

theorem clearCofactor_clearCofactor (P : Point) :
    P.clearCofactor.clearCofactor = P.clearCofactor :=
  clearCofactor_eq_self P.clearCofactor_mem

/-- Dividing by eight cannot annihilate what multiplying by eight has left. -/
theorem clearCofactor_eq_zero {P : Point} : P.clearCofactor = 0 ↔ P.times 8 = 0 := by
  have hinverse : (8 : Scalar).inverse ≠ 0 := by
    decide +kernel
  rw [clearCofactor, smul_eq_zero_iff P.times_eight_mem, or_iff_right hinverse]

theorem isValid_clearCofactor {P : Point} :
    P.clearCofactor.isValid = true ↔ P.times 8 ≠ 0 := by
  rw [isValid_iff, and_iff_left P.clearCofactor_mem, Ne, clearCofactor_eq_zero]

theorem clearCofactor_add_smallOrder (P : Point) {T : Point} (hT : T.times 8 = 0) :
    (P + T).clearCofactor = P.clearCofactor := by
  rw [clearCofactor_add, clearCofactor_eq_zero.mpr hT, add_zero]

theorem clearCofactor_sub (P Q : Point) :
    (P - Q).clearCofactor = P.clearCofactor - Q.clearCofactor := by
  simp only [clearCofactor, times_eq_nsmul, nsmul_sub, smul_sub]

theorem clearCofactor_smul (s : Scalar) (P : Point) :
    (s • P).clearCofactor = s • P.clearCofactor := by
  simp only [clearCofactor, times_eq_nsmul, smul_def]
  rw [smul_comm 8 s.val P, smul_comm _ s.val]

/-! ## What the projection drops -/

/-- The component of a point that clearing the cofactor drops. -/
def torsionPart (P : Point) : Point :=
  P - P.clearCofactor

theorem torsionPart_eq_zero {P : Point} : P.torsionPart = 0 ↔ P ∈ primeSubgroup := by
  rw [torsionPart, sub_eq_zero, eq_comm, clearCofactor_eq_self_iff]

theorem torsionPart_smul (s : Scalar) (P : Point) :
    (s • P).torsionPart = s • P.torsionPart := by
  rw [torsionPart, clearCofactor_smul, ← smul_sub, torsionPart]

theorem torsionPart_add_smallOrder {P T : Point} (hP : P ∈ primeSubgroup)
    (hT : T.times 8 = 0) : (P + T).torsionPart = T := by
  rw [torsionPart, clearCofactor_add_smallOrder P hT, clearCofactor_eq_self hP,
    add_sub_cancel_left]

theorem addOrderOf_torsionPart_dvd (P : Point) : addOrderOf P.torsionPart ∣ 8 := by
  rw [addOrderOf_dvd_iff_nsmul_eq_zero, ← times_eq_nsmul, ← clearCofactor_eq_zero,
    torsionPart, clearCofactor_sub, clearCofactor_clearCofactor, sub_self]

/-- A multiple belongs to the subgroup if the multiplier annihilates what is dropped. -/
theorem smul_mem_iff {s : Scalar} {P : Point} :
    s • P ∈ primeSubgroup ↔ addOrderOf P.torsionPart ∣ s.val := by
  rw [← torsionPart_eq_zero, torsionPart_smul, smul_def, addOrderOf_dvd_iff_nsmul_eq_zero]

end Quorum.Point
