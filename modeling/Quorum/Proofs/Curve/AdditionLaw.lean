import Mathlib

/-!
# The addition law over a field

The addition law of the curve `y² - x² = 1 + d x² y²` over any field in which
`-1` is a square and `d` is not.  Under this condition no denominator of the law
vanishes, so that sums of points of the curve are points of the curve without
exception, and the law is that of an abelian group.

Associativity is an identity between two fractions.  Once the denominators are
known not to vanish it is a polynomial identity modulo the three curve
equations, one for each coordinate.
-/

namespace Quorum.Edwards

/-- A pair of coordinates. -/
@[ext]
structure Coordinates (F : Type) where
  x : F
  y : F

variable {F : Type} [Field F] {d : F}

/-- The curve equation with the constant `d`. -/
def Equation (d : F) (P : Coordinates F) : Prop :=
  P.y * P.y - P.x * P.x = 1 + d * (P.x * P.x) * (P.y * P.y)

/-- The condition on the constant under which the addition law is complete. -/
structure Complete (d : F) : Prop where
  two_ne_zero : (2 : F) ≠ 0
  exists_root : ∃ i : F, i * i = -1
  nonsquare : ∀ t : F, t * t ≠ d

/-- The product by which the two denominators differ from one. -/
def twist (d : F) (P Q : Coordinates F) : F :=
  d * (P.x * Q.x) * (P.y * Q.y)

/-- The sum of two points. -/
def add (d : F) (P Q : Coordinates F) : Coordinates F :=
  ⟨(P.x * Q.y + Q.x * P.y) / (1 + twist d P Q),
    (P.y * Q.y + P.x * Q.x) / (1 - twist d P Q)⟩

def neutral : Coordinates F :=
  ⟨0, 1⟩

def neg (P : Coordinates F) : Coordinates F :=
  ⟨-P.x, P.y⟩

theorem twist_comm (P Q : Coordinates F) : twist d P Q = twist d Q P := by
  simp only [twist]
  ring

/-- The product of the denominators is never a square root of one. -/
theorem twist_ne_of_mul_self (hd : Complete d) {P Q : Coordinates F}
    (hP : Equation d P) (hQ : Equation d Q) {e : F} (he : e * e = 1) :
    twist d P Q ≠ e := by
  obtain ⟨i, hi⟩ := hd.exists_root
  intro h
  have he0 : e ≠ 0 := by
    rintro rfl
    simp at he
  rw [← h] at he he0
  simp only [twist] at he he0
  have hPx : P.x ≠ 0 := by
    intro h0
    simp [h0] at he0
  have hPy : P.y ≠ 0 := by
    intro h0
    simp [h0] at he0
  have hQy : Q.y ≠ 0 := by
    intro h0
    simp [h0] at he0
  simp only [Equation] at hP hQ
  -- Multiplying the equation of `Q` by `d x₁² y₁²` turns it into that of `P`,
  -- and both sides into squares; dividing would make `d` a square.
  have key : ∀ s : F, s * s = 1 →
      (i * P.x + s * twist d P Q * P.y) * (i * P.x + s * twist d P Q * P.y) =
        d * ((P.x * P.y * (i * Q.x + s * Q.y)) *
          (P.x * P.y * (i * Q.x + s * Q.y))) := by
    intro s hs
    simp only [twist]
    linear_combination
      (P.x * P.x - d * (P.x * P.x) * (P.y * P.y) * (Q.x * Q.x)) * hi +
        (P.y * P.y * (d * (P.x * Q.x) * (P.y * Q.y)) ^ 2 -
          d * (P.x * P.x) * (P.y * P.y) * (Q.y * Q.y)) * hs +
        (P.y * P.y - 1) * he + hP - d * (P.x * P.x) * (P.y * P.y) * hQ
  have hne : ∀ s : F, s * s = 1 → i * Q.x + s * Q.y = 0 := by
    intro s hs
    by_contra hsum
    have hden : P.x * P.y * (i * Q.x + s * Q.y) ≠ 0 :=
      mul_ne_zero (mul_ne_zero hPx hPy) hsum
    apply hd.nonsquare ((i * P.x + s * twist d P Q * P.y) /
      (P.x * P.y * (i * Q.x + s * Q.y)))
    rw [div_mul_div_comm, key s hs, mul_div_assoc,
      div_self (mul_ne_zero hden hden), mul_one]
  have hplus := hne 1 (one_mul 1)
  have hminus := hne (-1) (by ring)
  have htwo : 2 * Q.y = 0 := by linear_combination hplus - hminus
  exact (mul_ne_zero hd.two_ne_zero hQy) htwo

theorem one_add_twist_ne_zero (hd : Complete d) {P Q : Coordinates F}
    (hP : Equation d P) (hQ : Equation d Q) : 1 + twist d P Q ≠ 0 := by
  intro h
  apply twist_ne_of_mul_self hd hP hQ (e := -1) (by ring)
  linear_combination h

theorem one_sub_twist_ne_zero (hd : Complete d) {P Q : Coordinates F}
    (hP : Equation d P) (hQ : Equation d Q) : 1 - twist d P Q ≠ 0 := by
  intro h
  apply twist_ne_of_mul_self hd hP hQ (e := 1) (one_mul 1)
  linear_combination -h

theorem equation_neg {P : Coordinates F} (hP : Equation d P) :
    Equation d (neg P) := by
  simpa [Equation, neg] using hP

theorem equation_add (hd : Complete d) {P Q : Coordinates F}
    (hP : Equation d P) (hQ : Equation d Q) : Equation d (add d P Q) := by
  have hplus := one_add_twist_ne_zero hd hP hQ
  have hminus := one_sub_twist_ne_zero hd hP hQ
  simp only [Equation, add]
  field_simp
  simp only [Equation, twist] at hP hQ ⊢
  grind

theorem add_comm (P Q : Coordinates F) : add d P Q = add d Q P := by
  simp only [add, twist_comm P Q]
  ext <;> simp only <;> ring

theorem neutral_add (P : Coordinates F) : add d neutral P = P := by
  simp [add, neutral, twist]

theorem neg_add (hd : Complete d) {P : Coordinates F} (hP : Equation d P) :
    add d (neg P) P = neutral := by
  have hminus := one_sub_twist_ne_zero hd (equation_neg hP) hP
  ext
  · simp only [add, neg, neutral]
    rw [show -P.x * P.y + P.x * P.y = 0 by ring, zero_div]
  · simp only [add, neutral]
    rw [div_eq_one_iff_eq hminus]
    simp only [Equation, neg, twist] at hP ⊢
    linear_combination hP

section Associativity

/-!
The sum of a point with fractions as coordinates is again a pair of fractions,
without the inner denominators.
-/

variable {a b c e : F} {R : Coordinates F}

theorem add_x_of_fractions (hb : b ≠ 0) (he : e ≠ 0) :
    (add d ⟨a / b, c / e⟩ R).x =
      (a * e * R.y + R.x * (c * b)) /
        (b * e + d * (a * c) * (R.x * R.y)) := by
  have hnum : a / b * R.y + R.x * (c / e) =
      (a * e * R.y + R.x * (c * b)) / (b * e) := by
    field_simp
  have hden : 1 + d * (a / b * R.x) * (c / e * R.y) =
      (b * e + d * (a * c) * (R.x * R.y)) / (b * e) := by
    field_simp
  simp only [add, twist]
  rw [hnum, hden, div_div_div_cancel_right₀ (mul_ne_zero hb he)]

theorem add_y_of_fractions (hb : b ≠ 0) (he : e ≠ 0) :
    (add d ⟨a / b, c / e⟩ R).y =
      (c * b * R.y + a * e * R.x) /
        (b * e - d * (a * c) * (R.x * R.y)) := by
  have hnum : c / e * R.y + a / b * R.x =
      (c * b * R.y + a * e * R.x) / (b * e) := by
    field_simp
  have hden : 1 - d * (a / b * R.x) * (c / e * R.y) =
      (b * e - d * (a * c) * (R.x * R.y)) / (b * e) := by
    field_simp
  simp only [add, twist]
  rw [hnum, hden, div_div_div_cancel_right₀ (mul_ne_zero hb he)]

/-- The denominators that remain are products of denominators of the law. -/
theorem fraction_denominators_ne_zero (hd : Complete d) (hb : b ≠ 0)
    (he : e ≠ 0) (hP : Equation d ⟨a / b, c / e⟩) (hR : Equation d R) :
    b * e + d * (a * c) * (R.x * R.y) ≠ 0 ∧
      b * e - d * (a * c) * (R.x * R.y) ≠ 0 := by
  have hprod : d * (a * c) * (R.x * R.y) =
      b * e * twist d ⟨a / b, c / e⟩ R := by
    simp only [twist]
    field_simp
  rw [hprod]
  constructor
  · rw [show b * e + b * e * twist d ⟨a / b, c / e⟩ R =
      b * e * (1 + twist d ⟨a / b, c / e⟩ R) by ring]
    exact mul_ne_zero (mul_ne_zero hb he) (one_add_twist_ne_zero hd hP hR)
  · rw [show b * e - b * e * twist d ⟨a / b, c / e⟩ R =
      b * e * (1 - twist d ⟨a / b, c / e⟩ R) by ring]
    exact mul_ne_zero (mul_ne_zero hb he) (one_sub_twist_ne_zero hd hP hR)

theorem add_assoc (hd : Complete d) {P Q R : Coordinates F}
    (hP : Equation d P) (hQ : Equation d Q) (hR : Equation d R) :
    add d (add d P Q) R = add d P (add d Q R) := by
  have hPQ := one_add_twist_ne_zero hd hP hQ
  have hPQ' := one_sub_twist_ne_zero hd hP hQ
  have hQR := one_add_twist_ne_zero hd hQ hR
  have hQR' := one_sub_twist_ne_zero hd hQ hR
  have hleft := fraction_denominators_ne_zero hd hPQ hPQ'
    (equation_add hd hP hQ) hR
  have hright := fraction_denominators_ne_zero hd hQR hQR'
    (equation_add hd hQ hR) hP
  rw [add_comm P (add d Q R)]
  simp only [Equation] at hP hQ hR
  ext
  · have hl : (add d (add d P Q) R).x = _ := add_x_of_fractions hPQ hPQ'
    have hr : (add d (add d Q R) P).x = _ := add_x_of_fractions hQR hQR'
    rw [hl, hr, div_eq_div_iff hleft.1 hright.1]
    clear hl hr hleft hright hPQ hPQ' hQR hQR'
    simp only [twist]
    grind
  · have hl : (add d (add d P Q) R).y = _ := add_y_of_fractions hPQ hPQ'
    have hr : (add d (add d Q R) P).y = _ := add_y_of_fractions hQR hQR'
    rw [hl, hr, div_eq_div_iff hleft.2 hright.2]
    clear hl hr hleft hright hPQ hPQ' hQR hQR'
    simp only [twist]
    grind

end Associativity

end Quorum.Edwards
