import Mathlib
import Quorum.Curve.Field
import Quorum.Curve.Scalar
import Quorum.Proofs.Residue

/-!
# The two primes of the curve

The order of the coordinate field and the order of the prime-order subgroup are
prime.  Each is certified by a residue of order exactly one less, which needs
the prime factors of the number before it; these are certified in the same way,
down to numbers that a division by the small primes settles.
-/

namespace Quorum

/-- A number with a residue whose order is to show that it is prime. -/
structure PrimeEntry where
  modulus : Nat
  /-- The representative of the residue. -/
  witness : Nat
  /-- The prime factors of the number before, with repetitions. -/
  factors : List Nat
  pos : 0 < modulus := by decide

namespace PrimeEntry

instance (e : PrimeEntry) : Modulus e.modulus :=
  ⟨e.pos⟩

/-- The residue whose order is tested. -/
def residue (e : PrimeEntry) : Residue e.modulus :=
  Residue.ofNat e.modulus e.witness

/-- The residue has order exactly one less than the number, by known primes. -/
def Holds (known : List Nat) (e : PrimeEntry) : Prop :=
  (∀ q ∈ e.factors, q ∈ known) ∧
    e.factors.prod = e.modulus - 1 ∧
    e.residue.pow (e.modulus - 1) = 1 ∧
    ∀ q ∈ e.factors, e.residue.pow ((e.modulus - 1) / q) ≠ 1

instance (known : List Nat) (e : PrimeEntry) : Decidable (e.Holds known) :=
  inferInstanceAs (Decidable (_ ∧ _ ∧ _ ∧ _))

theorem prime {known : List Nat} {e : PrimeEntry}
    (hknown : ∀ q ∈ known, q.Prime) (h : e.Holds known) : e.modulus.Prime := by
  obtain ⟨hfactors, hprod, hone, hne⟩ := h
  exact Residue.prime_of_order e.residue e.factors
    (fun q hq => hknown q (hfactors q hq)) hprod hone hne

/-- Every entry of a list holds by the known primes and the entries before it. -/
def Chain : (known : List Nat) → List PrimeEntry → Prop
  | _, [] => True
  | known, e :: es => e.Holds known ∧ Chain (e.modulus :: known) es

instance decidableChain : (known : List Nat) → (es : List PrimeEntry) →
    Decidable (Chain known es)
  | _, [] => inferInstanceAs (Decidable True)
  | known, e :: es =>
    have := decidableChain (e.modulus :: known) es
    inferInstanceAs (Decidable (_ ∧ _))

theorem prime_of_chain {known : List Nat} {es : List PrimeEntry}
    (hknown : ∀ q ∈ known, q.Prime) (h : Chain known es) :
    ∀ e ∈ es, e.modulus.Prime := by
  induction es generalizing known with
  | nil => simp
  | cons e es ih =>
    have he : e.modulus.Prime := prime hknown h.1
    have hknown' : ∀ q ∈ e.modulus :: known, q.Prime := by
      simpa using ⟨he, hknown⟩
    intro e' he'
    rcases List.mem_cons.mp he' with rfl | htail
    · exact he
    · exact ih hknown' h.2 e' htail

end PrimeEntry

/-- The primes that the certificates start from. -/
def smallPrimes : List Nat :=
  [2, 3, 5, 7, 11, 13, 19, 23, 31, 41, 43, 47, 73, 97, 103, 107, 127, 131, 223,
    269, 307, 353, 419, 991, 1361, 1723, 2437, 2551, 2851, 3727, 3797, 4153,
    5879, 17231, 22111, 30703, 34123, 57467, 65147, 75707, 82163]

theorem prime_of_mem_smallPrimes {q : Nat} (hq : q ∈ smallPrimes) : q.Prime := by
  simp only [smallPrimes, List.mem_cons, List.not_mem_nil, or_false] at hq
  rcases hq with rfl | rfl | rfl | rfl | rfl | rfl | rfl | rfl | rfl | rfl |
    rfl | rfl | rfl | rfl | rfl | rfl | rfl | rfl | rfl | rfl | rfl | rfl |
    rfl | rfl | rfl | rfl | rfl | rfl | rfl | rfl | rfl | rfl | rfl | rfl |
    rfl | rfl | rfl | rfl | rfl | rfl | rfl <;> norm_num

/-- The certificate of the order of the coordinate field, last entry last. -/
def fieldOrderCertificate : List PrimeEntry :=
  [⟨132049, 26, [2, 2, 2, 2, 3, 3, 7, 131], by decide⟩,
    ⟨430751, 17, [2, 5, 5, 5, 1723], by decide⟩,
    ⟨569003, 2, [2, 7, 97, 419], by decide⟩,
    ⟨1923133, 2, [2, 2, 3, 43, 3727], by decide⟩,
    ⟨8574133, 2, [2, 2, 3, 7, 103, 991], by decide⟩,
    ⟨2773320623, 5, [2, 2437, 569003], by decide⟩,
    ⟨72106336199, 7, [2, 13, 2773320623], by decide⟩,
    ⟨1919519569386763, 2, [2, 3, 7, 19, 47, 47, 127, 8574133], by decide⟩,
    ⟨31757755568855353, 10, [2, 2, 2, 3, 31, 107, 223, 4153, 430751],
      by decide⟩,
    ⟨75445702479781427272750846543864801, 7,
      [2, 2, 2, 2, 2, 3, 3, 5, 5, 75707, 72106336199, 1919519569386763],
      by decide⟩,
    ⟨74058212732561358302231226437062788676166966415465897661863160754340907, 2,
      [2, 3, 353, 57467, 132049, 1923133, 31757755568855353,
        75445702479781427272750846543864801], by decide⟩,
    ⟨fieldOrder, 2, [2, 2, 3, 65147,
      74058212732561358302231226437062788676166966415465897661863160754340907],
      Modulus.pos⟩]

/-- The certificate of the order of the prime-order subgroup, last entry last. -/
def groupOrderCertificate : List PrimeEntry :=
  [⟨132667, 5, [2, 3, 22111], by decide⟩,
    ⟨137849, 3, [2, 2, 2, 17231], by decide⟩,
    ⟨409477, 2, [2, 2, 3, 34123], by decide⟩,
    ⟨531581, 2, [2, 2, 5, 7, 3797], by decide⟩,
    ⟨1224481, 13, [2, 2, 2, 2, 2, 3, 5, 2551], by decide⟩,
    ⟨14741173, 2, [2, 2, 3, 3, 409477], by decide⟩,
    ⟨58964693, 2, [2, 2, 14741173], by decide⟩,
    ⟨292386187, 2, [2, 3, 3, 3, 3, 307, 5879], by decide⟩,
    ⟨213441916511, 13, [2, 5, 73, 292386187], by decide⟩,
    ⟨1257559732178653, 2, [2, 2, 3, 7, 23, 531581, 1224481], by decide⟩,
    ⟨4434155615661930479, 17, [2, 41, 43, 1257559732178653], by decide⟩,
    ⟨3044861653679985063343, 5, [2, 3, 11, 30703, 82163, 132667, 137849],
      by decide⟩,
    ⟨172054593956031949258510691, 2, [2, 5, 1361, 2851, 4434155615661930479],
      by decide⟩,
    ⟨198211423230930754013084525763697, 5,
      [2, 2, 2, 2, 3, 23, 58964693, 3044861653679985063343], by decide⟩,
    ⟨19757330305831588566944191468367130476339, 2,
      [2, 269, 213441916511, 172054593956031949258510691], by decide⟩,
    ⟨276602624281642239937218680557139826668747, 2,
      [2, 7, 19757330305831588566944191468367130476339], by decide⟩,
    ⟨groupOrder, 2, [2, 2, 3, 11, 198211423230930754013084525763697,
      276602624281642239937218680557139826668747], Modulus.pos⟩]

theorem prime_fieldOrder : fieldOrder.Prime := by
  have hchain : PrimeEntry.Chain smallPrimes fieldOrderCertificate := by
    decide +kernel
  exact PrimeEntry.prime_of_chain (fun _ => prime_of_mem_smallPrimes) hchain
    (fieldOrderCertificate.getLast (by simp [fieldOrderCertificate]))
    (List.getLast_mem _)

theorem prime_groupOrder : groupOrder.Prime := by
  have hchain : PrimeEntry.Chain smallPrimes groupOrderCertificate := by
    decide +kernel
  exact PrimeEntry.prime_of_chain (fun _ => prime_of_mem_smallPrimes) hchain
    (groupOrderCertificate.getLast (by simp [groupOrderCertificate]))
    (List.getLast_mem _)

instance : Fact fieldOrder.Prime :=
  ⟨prime_fieldOrder⟩

instance : Fact groupOrder.Prime :=
  ⟨prime_groupOrder⟩

end Quorum
