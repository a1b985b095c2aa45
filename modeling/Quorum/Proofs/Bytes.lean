import Mathlib
import Quorum.Bytes

/-!
# Byte strings and the numbers that they denote

A byte string is determined by its length and the number that it denotes, and
zero bytes in front of it change nothing but its length.  So of all byte strings
that denote a number, the one without zero bytes in front is the shortest, and
it is the only one of its length.
-/

namespace Quorum.Bytes

theorem toNatBE_lt (bs : Bytes) : bs.toNatBE < 256 ^ bs.length := by
  have hlt := toNatLE_lt bs.reverse
  rwa [List.length_reverse] at hlt

/-- The number that a byte string denotes has the bytes as its digits to the base 256. -/
theorem toNatLE_eq_ofDigits (bs : Bytes) :
    bs.toNatLE = Nat.ofDigits 256 (bs.map UInt8.toNat) := by
  induction bs with
  | nil => rfl
  | cons b bs ih =>
    rw [toNatLE, ih, List.map_cons, Nat.ofDigits_cons]

theorem ofNatLE_toNatLE (bs : Bytes) : ofNatLE bs.length bs.toNatLE = bs := by
  induction bs with
  | nil => rfl
  | cons b bs ih =>
    have hb : b.toNat < 256 := b.toNat_lt
    have hdigit : UInt8.ofNat (b.toNat + 256 * toNatLE bs) = b := by
      apply UInt8.toNat_inj.mp
      rw [UInt8.toNat_ofNat']
      omega
    have hrest : (b.toNat + 256 * toNatLE bs) / 256 = toNatLE bs := by
      omega
    rw [List.length_cons, toNatLE, ofNatLE, hdigit, hrest, ih]

theorem ofNatBE_toNatBE (bs : Bytes) : ofNatBE bs.length bs.toNatBE = bs := by
  have hdigits := ofNatLE_toNatLE bs.reverse
  rw [List.length_reverse] at hdigits
  rw [ofNatBE, toNatBE, hdigits, List.reverse_reverse]

theorem toNatBE_ofNatBE_of_lt {width k : Nat} (h : k < 256 ^ width) :
    toNatBE (ofNatBE width k) = k :=
  (toNatBE_ofNatBE width k).trans (Nat.mod_eq_of_lt h)

/-- Of the byte strings of one length, only one denotes a number. -/
theorem eq_of_toNatBE_eq {bs cs : Bytes} (hlength : bs.length = cs.length)
    (h : bs.toNatBE = cs.toNatBE) : bs = cs := by
  rw [← ofNatBE_toNatBE bs, ← ofNatBE_toNatBE cs, hlength, h]

theorem toNatBE_replicate_append (k : Nat) (bs : Bytes) :
    toNatBE (List.replicate k 0 ++ bs) = bs.toNatBE := by
  have hzeros : toNatLE (List.replicate k 0) = 0 := by
    induction k with
    | zero => rfl
    | succ k ih => rw [List.replicate_succ, toNatLE, ih]; rfl
  rw [toNatBE, List.reverse_append, List.reverse_replicate, toNatLE_append, hzeros, mul_zero,
    add_zero]
  rfl

/-- What is dropped from the front are zero bytes. -/
theorem exists_replicate_append (bs : Bytes) :
    ∃ k, bs = List.replicate k 0 ++ bs.dropLeadingZeros := by
  refine ⟨(bs.takeWhile (· == 0)).length, ?_⟩
  have hzeros : bs.takeWhile (· == 0) =
      List.replicate (bs.takeWhile (· == 0)).length 0 := by
    rw [List.eq_replicate_iff]
    exact ⟨rfl, fun b hb => by simpa using List.mem_takeWhile_imp hb⟩
  rw [← hzeros, dropLeadingZeros, List.takeWhile_append_dropWhile]

theorem toNatBE_dropLeadingZeros (bs : Bytes) :
    bs.dropLeadingZeros.toNatBE = bs.toNatBE := by
  obtain ⟨k, hk⟩ := exists_replicate_append bs
  rw [← toNatBE_replicate_append k, ← hk]

theorem zero_append_ne_dropLeadingZeros (bs cs : Bytes) :
    0 :: cs ≠ bs.dropLeadingZeros := by
  intro h
  have hhead := List.head?_dropWhile_not (fun b : UInt8 => b == 0) bs
  rw [dropLeadingZeros] at h
  rw [← h] at hhead
  simp at hhead

/-! ## The shortest encoding -/

/-- A byte string denotes a number, and no other one that does is as short. -/
structure IsShortest (bs : Bytes) (k : Nat) : Prop where
  toNatBE_eq : bs.toNatBE = k
  /-- Any other one that denotes the number is longer. -/
  eq_of_length_le : ∀ cs : Bytes, cs.toNatBE = k → cs.length ≤ bs.length → cs = bs

theorem isShortest_dropLeadingZeros (bs : Bytes) :
    bs.dropLeadingZeros.IsShortest bs.toNatBE where
  toNatBE_eq := toNatBE_dropLeadingZeros bs
  eq_of_length_le := by
    intro cs hcs hle
    obtain ⟨k, hk⟩ := Nat.exists_eq_add_of_le' hle
    -- filled up with zero bytes, the other string has the same length
    have hfilled : List.replicate k 0 ++ cs = bs.dropLeadingZeros := by
      apply eq_of_toNatBE_eq
      · rw [List.length_append, List.length_replicate, hk]
      · rw [toNatBE_replicate_append, hcs, toNatBE_dropLeadingZeros]
    cases k with
    | zero => exact hfilled
    | succ k => exact absurd hfilled (zero_append_ne_dropLeadingZeros bs _)

theorem IsShortest.unique {bs cs : Bytes} {k : Nat} (h : bs.IsShortest k)
    (h' : cs.IsShortest k) : bs = cs := by
  rcases le_total bs.length cs.length with hle | hle
  · exact h'.eq_of_length_le bs h.toNatBE_eq hle
  · exact (h.eq_of_length_le cs h'.toNatBE_eq hle).symm

section IsShortest

variable {bs : Bytes} {k : Nat} (h : bs.IsShortest k)
include h

theorem IsShortest.eq_nil (hk : k = 0) : bs = [] :=
  (h.eq_of_length_le [] hk.symm (Nat.zero_le _)).symm

/-- A number fits into a length if its shortest encoding does. -/
theorem IsShortest.length_le_iff {length : Nat} : bs.length ≤ length ↔ k < 256 ^ length := by
  constructor
  · intro hle
    rw [← h.toNatBE_eq]
    exact (toNatBE_lt bs).trans_le (Nat.pow_le_pow_right (by decide) hle)
  · intro hlt
    by_contra hlong
    have hcs := h.eq_of_length_le (ofNatBE length k) (toNatBE_ofNatBE_of_lt hlt)
      (by rw [length_ofNatBE]; omega)
    rw [← hcs, length_ofNatBE] at hlong
    exact hlong le_rfl

end IsShortest

end Quorum.Bytes
