import Mathlib
import Quorum.Proofs.Curve.Codec

/-!
# The two readers of encoded points

A string of 32 bytes writes a second coordinate and the parity of the first.
The strict reader computes one square root and the lenient reader another, and
they agree wherever both have an answer.  The strict reader answers exactly for
the encodings of points.  The lenient one also answers for strings that write
a point in another way, which are those with a second coordinate that is not
reduced, those with an odd parity where the first coordinate is zero, and
those with both.
-/

namespace Quorum

namespace Coordinate

protected theorem mul_self_neg (a : Coordinate) : -a * -a = a * a := by
  rw [← Residue.toZMod_inj, Residue.toZMod_mul, Residue.toZMod_mul,
    Residue.toZMod_neg, neg_mul_neg]

theorem mul_self_of_root? {a r : Coordinate} (h : root? a = some r) :
    r * r = a := by
  simp only [root?] at h
  split_ifs at h with hfirst hsecond
  · obtain rfl := Option.some.inj h
    exact hfirst
  · obtain rfl := Option.some.inj h
    exact hsecond

theorem withParity_eq_or_neg (odd : Bool) (a : Coordinate) :
    withParity odd a = a ∨ withParity odd a = -a := by
  rw [withParity]
  split_ifs
  · exact Or.inl rfl
  · exact Or.inr rfl

theorem withParity_mul_self (odd : Bool) (a : Coordinate) :
    withParity odd a * withParity odd a = a * a := by
  rcases withParity_eq_or_neg odd a with h | h
  · rw [h]
  · rw [h, Coordinate.mul_self_neg]

theorem isOdd_withParity (odd : Bool) {a : Coordinate} (ha : a ≠ 0) :
    (withParity odd a).isOdd = odd := by
  rw [withParity]
  split_ifs with h
  · exact h
  · rw [isOdd_neg ha]
    cases odd <;> simpa using h

theorem withParity_ne_zero (odd : Bool) {a : Coordinate} (ha : a ≠ 0) :
    withParity odd a ≠ 0 := by
  rwa [Ne, eq_zero_iff_of_eq_or_neg (withParity_eq_or_neg odd a)]

/-- The even root, negated where an odd one was meant, has the parity that was meant. -/
theorem isOdd_evenRoot (odd : Bool) {a : Coordinate} (ha : a ≠ 0) :
    (if odd then -withParity false a else withParity false a).isOdd = odd := by
  have heven := isOdd_withParity false ha
  cases odd with
  | false =>
    rw [if_neg Bool.false_ne_true]
    exact heven
  | true =>
    rw [if_pos rfl, isOdd_neg (withParity_ne_zero false ha), heven]
    rfl

/-- The curve equation, solved for the square of the first coordinate. -/
theorem onCurve_iff_mul_self {x y : Coordinate} :
    OnCurve x y ↔ x * x = squareOfFirst y := by
  constructor
  · intro h
    rw [← Residue.toZMod_inj, toZMod_squareOfFirst h, Residue.toZMod_mul]
  · intro h
    have hdenominator := denominator_ne_zero y.toZMod
    have hsquare : x.toZMod * x.toZMod * (d * (y.toZMod * y.toZMod) + 1) =
        y.toZMod * y.toZMod - 1 := by
      rw [← Residue.toZMod_mul, h]
      simp only [squareOfFirst, Residue.toZMod_mul, Residue.toZMod_sub,
        Residue.toZMod_add, Residue.toZMod_one,
        Residue.toZMod_inverse fieldOrder_ne_two]
      exact inv_mul_cancel_right₀ hdenominator _
    rw [onCurve_iff, Edwards.Equation]
    linear_combination -hsquare

end Coordinate

/-! ## The strict reader -/

/-- The strict rule finds the first coordinates of points, and nothing else. -/
theorem recoverX?_eq_some {y : Nat} {odd : Bool} {x : Coordinate} :
    recoverX? y odd = some x ↔
      ∃ P : Point, P.x = x ∧ P.y.val = y ∧ P.x.isOdd = odd := by
  constructor
  · -- Along the tests of the strict rule: reduced, a square, and the parity of zero.
    intro h
    rw [recoverX?] at h
    split at h
    · next hy =>
      have hval : (Residue.ofNat fieldOrder y).val = y := Nat.mod_eq_of_lt hy
      split at h
      · cases h
      · next r hroot =>
        have hsquare := Coordinate.mul_self_of_root? hroot
        split at h
        · next hzero =>
          split at h
          · cases h
          · next hodd =>
            obtain rfl := Option.some.inj h
            have hparity : r.isOdd = odd := by
              rw [hzero, Bool.eq_false_iff.mpr hodd]
              decide
            exact ⟨⟨_, _, Coordinate.onCurve_iff_mul_self.mpr hsquare⟩, rfl, hval,
              hparity⟩
        · next hne =>
          obtain rfl := Option.some.inj h
          rw [← Coordinate.withParity_mul_self odd] at hsquare
          exact ⟨⟨_, _, Coordinate.onCurve_iff_mul_self.mpr hsquare⟩, rfl, hval,
            Coordinate.isOdd_withParity odd hne⟩
    · cases h
  · rintro ⟨P, rfl, rfl, rfl⟩
    exact recoverX?_eq P

namespace Point

/-! ## The lenient reader -/

/-- The parity matters only where there are two first coordinates to choose from. -/
theorem decompress?_eq_some {k : Nat} {P : Point} :
    decompress? k = some P ↔
      P.y = Residue.ofNat fieldOrder (k % parityPlace) ∧
        (k.testBit 255 = P.x.isOdd ∨ P.x = 0) := by
  obtain ⟨a, ha, hroot⟩ := P.exists_evenRootOfQuotient?
  have hread : P.y = Residue.ofNat fieldOrder (k % parityPlace) →
      decompress? k = ofCoordinates?
        (if k.testBit 255 then -Coordinate.withParity false a
          else Coordinate.withParity false a) P.y := by
    intro hy
    rw [decompress?, ← hy, hroot]
    rfl
  constructor
  · intro h
    have hy : P.y = Residue.ofNat fieldOrder (k % parityPlace) := by
      simp only [decompress?, Option.bind_eq_bind, Option.bind_eq_some_iff] at h
      obtain ⟨root, -, hpoint⟩ := h
      exact (ofCoordinates?_eq_some.mp hpoint).2.symm
    refine ⟨hy, ?_⟩
    rw [hread hy, ofCoordinates?_eq_some, and_iff_left rfl] at h
    -- a root of zero is zero, whatever parity is asked for
    by_cases hzero : P.x = 0
    · exact Or.inr hzero
    · have hne : a ≠ 0 := (Coordinate.eq_zero_iff_of_eq_or_neg ha).not.mpr hzero
      left
      rw [← h, Coordinate.isOdd_evenRoot _ hne]
  · rintro ⟨hy, hsign | hzero⟩
    · rw [hread hy, hsign, Coordinate.evenRoot_of_eq_or_neg ha,
        ofCoordinates?_eq_some]
      exact ⟨rfl, rfl⟩
    · have ha0 : a = 0 := (Coordinate.eq_zero_iff_of_eq_or_neg ha).mpr hzero
      have hroot0 : Coordinate.withParity false 0 = 0 := by
        decide
      rw [hread hy, ha0, hroot0, Coordinate.neg_zero, ite_self,
        ofCoordinates?_eq_some]
      exact ⟨hzero.symm, rfl⟩

end Point

/-! ## Strings of 32 bytes -/

/-- The number in the lower 255 bits, where a second coordinate is written. -/
def Octets.lowerPart (b : Octets 32) : Nat :=
  b.toList.toNatLE % Point.parityPlace

/-- The bit above them, where a parity is written. -/
def Octets.topBit (b : Octets 32) : Bool :=
  b.toList.toNatLE.testBit 255

/-- The ways to write a point that differ from its encoding. -/
inductive Octets.Misspells (b : Octets 32) (P : Point) : Prop
  /-- The second coordinate is not reduced. -/
  | unreduced (hlower : b.lowerPart = P.y.val + fieldOrder)
    (htop : b.topBit = P.x.isOdd) : Misspells b P
  /-- The first coordinate is zero, and its parity is written as odd. -/
  | signedZero (hzero : P.x = 0) (hlower : b.lowerPart = P.y.val)
    (htop : b.topBit = true) : Misspells b P
  /-- Both. -/
  | both (hzero : P.x = 0) (hlower : b.lowerPart = P.y.val + fieldOrder)
    (htop : b.topBit = true) : Misspells b P

namespace Point

/-- A number of 256 bits is made of its lower part and its top bit. -/
theorem lowerPart_add_topBit {k : Nat} (hk : k < Bytes.count 32) :
    k % parityPlace + (if k.testBit 255 then parityPlace else 0) = k := by
  have hplace : 2 ^ 255 = parityPlace := rfl
  have hcount : Bytes.count 32 = parityPlace * 2 := by
    decide
  have hdigit : k / parityPlace < 2 := by
    rw [hcount] at hk
    exact Nat.div_lt_of_lt_mul hk
  have hk' := Nat.mod_add_div k parityPlace
  rw [Nat.testBit_eq_decide_div_mod_eq, hplace]
  generalize k / parityPlace = digit at hdigit hk'
  interval_cases digit
  · simpa using hk'
  · simpa using hk'

theorem encode_eq_iff {P : Point} {b : Octets 32} :
    P.encode = b ↔ b.lowerPart = P.y.val ∧ b.topBit = P.x.isOdd := by
  constructor
  · rintro rfl
    rw [Octets.lowerPart, Octets.topBit, toNatLE_encode, compress_mod,
      testBit_compress]
    exact ⟨rfl, rfl⟩
  · rintro ⟨hlower, htop⟩
    have hk : b.toList.toNatLE < Bytes.count 32 := by
      have hlt := Bytes.toNatLE_lt b.toList
      rwa [b.length_eq] at hlt
    have hcompress : compress P.x P.y = b.toList.toNatLE := by
      rw [compress, ← hlower, ← htop]
      exact lowerPart_add_topBit hk
    have hbytes := b.toList.ofNatLE_toNatLE
    rw [b.length_eq, ← hcompress] at hbytes
    exact Octets.toList_injective hbytes

theorem lowerPart_lt (b : Octets 32) : b.lowerPart < parityPlace :=
  Nat.mod_lt _ (by decide)

/-- The lower part of a string is reduced, or one subtraction away from it. -/
theorem eq_ofNat_lowerPart_iff {b : Octets 32} {y : Coordinate} :
    y = Residue.ofNat fieldOrder b.lowerPart ↔
      b.lowerPart = y.val ∨ b.lowerPart = y.val + fieldOrder := by
  have hb := lowerPart_lt b
  have hy := y.isLt
  have hplace : parityPlace < 2 * fieldOrder := by
    decide
  have hval : y = Residue.ofNat fieldOrder b.lowerPart ↔
      y.val = b.lowerPart % fieldOrder := by
    cases y
    rw [Residue.ofNat, Residue.mk.injEq]
  rw [hval]
  generalize b.lowerPart = k at hb ⊢
  by_cases hk : k < fieldOrder
  · rw [Nat.mod_eq_of_lt hk]
    omega
  · rw [Nat.mod_eq_sub_mod (by omega), Nat.mod_eq_of_lt (by omega)]
    omega

theorem decode?_eq_some_iff {b : Octets 32} {P : Point} :
    decode? b.toList = some P ↔
      P.y = Residue.ofNat fieldOrder b.lowerPart ∧
        (b.topBit = P.x.isOdd ∨ P.x = 0) := by
  rw [decode?, if_pos b.length_eq]
  exact decompress?_eq_some

/-- The lenient reader takes a point's encoding and its other spellings for the point. -/
theorem decode?_eq_some {b : Octets 32} {P : Point} :
    decode? b.toList = some P ↔ P.encode = b ∨ b.Misspells P := by
  rw [decode?_eq_some_iff, eq_ofNat_lowerPart_iff, encode_eq_iff]
  constructor
  · rintro ⟨hlower, htop⟩
    by_cases hsame : b.topBit = P.x.isOdd
    · exact hlower.imp (fun hlower => ⟨hlower, hsame⟩) fun hlower => .unreduced hlower hsame
    · have hzero := htop.resolve_left hsame
      have htrue : b.topBit = true := by
        rw [← Bool.not_eq_false]
        intro hfalse
        apply hsame
        rw [hfalse, hzero]
        decide
      exact Or.inr (hlower.elim (.signedZero hzero · htrue) (.both hzero · htrue))
  · rintro (⟨hlower, htop⟩ | hmisspells)
    · exact ⟨Or.inl hlower, Or.inl htop⟩
    · cases hmisspells with
      | unreduced hlower htop => exact ⟨Or.inr hlower, Or.inl htop⟩
      | signedZero hzero hlower htop => exact ⟨Or.inl hlower, Or.inr hzero⟩
      | both hzero hlower htop => exact ⟨Or.inr hlower, Or.inr hzero⟩

theorem recoverX?_lowerPart {b : Octets 32} {x : Coordinate} :
    recoverX? b.lowerPart b.topBit = some x ↔ ∃ P : Point, P.encode = b ∧ P.x = x := by
  simp only [recoverX?_eq_some, encode_eq_iff]
  constructor
  · rintro ⟨P, rfl, hlower, htop⟩
    exact ⟨P, ⟨hlower.symm, htop.symm⟩, rfl⟩
  · rintro ⟨P, ⟨hlower, htop⟩, rfl⟩
    exact ⟨P, rfl, hlower.symm, htop.symm⟩

theorem ofNatLE_lowerPart_encode (P : Point) :
    Octets.ofNatLE 32 P.encode.lowerPart = P.y.encode := by
  rw [(encode_eq_iff.mp rfl).1]
  rfl

theorem encode_ne_of_misspells {b : Octets 32} {P : Point} (h : b.Misspells P) :
    P.encode ≠ b := by
  rw [Ne, encode_eq_iff]
  rintro ⟨hreduced, hparity⟩
  have horder : fieldOrder ≠ 0 := by
    decide
  cases h with
  | unreduced hlower htop => omega
  | signedZero hzero hlower htop =>
    rw [htop, hzero] at hparity
    exact absurd hparity (by decide)
  | both hzero hlower htop => omega

/--
Every point is read back from its encoding.  The strict reader answers exactly
for the strings that are the encoding of the point which the lenient reader
finds, and it completes the coordinates of that point.  Whatever else the
lenient reader takes for a point is another spelling of that point.
-/
theorem readers_agree (b : Octets 32) :
    (∀ P : Point, decode? P.encode.toList = some P) ∧
      ((∃ x, recoverX? b.lowerPart b.topBit = some x) ↔
        ∃ P, decode? b.toList = some P ∧ P.encode = b) ∧
      (∀ x, recoverX? b.lowerPart b.topBit = some x ↔
        ∃ P, (decode? b.toList = some P ∧ P.encode = b) ∧
          P.x = x ∧ P.y.val = b.lowerPart ∧
            P.affine? = some ⟨x.encode, .ofNatLE 32 b.lowerPart⟩) ∧
      ∀ P, decode? b.toList = some P ∧ P.encode ≠ b ↔ b.Misspells P := by
  refine ⟨decode?_encode, ?_, ?_, ?_⟩
  · simp only [recoverX?_lowerPart]
    constructor
    · rintro ⟨x, P, rfl, -⟩
      exact ⟨P, P.decode?_encode, rfl⟩
    · rintro ⟨P, -, hencode⟩
      exact ⟨P.x, P, hencode, rfl⟩
  · intro x
    rw [recoverX?_lowerPart]
    constructor
    · rintro ⟨P, rfl, rfl⟩
      refine ⟨P, ⟨P.decode?_encode, rfl⟩, rfl, (encode_eq_iff.mp rfl).1.symm, ?_⟩
      rw [affine?_eq_some, ofNatLE_lowerPart_encode]
    · rintro ⟨P, ⟨-, hencode⟩, hx, -⟩
      exact ⟨P, hencode, hx⟩
  · intro P
    rw [decode?_eq_some]
    constructor
    · rintro ⟨hspelling, hne⟩
      exact hspelling.resolve_left hne
    · intro hmisspells
      exact ⟨Or.inr hmisspells, encode_ne_of_misspells hmisspells⟩

/-- The neutral element, with `p + 1` for its second coordinate and an odd parity. -/
example : decode? (Octets.ofNatLE 32 (fieldOrder + 1 + parityPlace)).toList = some 0 := by
  decide +kernel

end Point

end Quorum
