import Mathlib
import Quorum.Transcript
import Quorum.Proofs.Bytes
import Quorum.Proofs.Curve.Affine

/-!
# Sampling below a modulus

A block is cut to as many leading bits as the modulus has, and is drawn again
unless the number left is below the modulus.  Each number below the modulus is
left by equally many blocks, because the bits that are cut off are free, and at
least half of all blocks are good, because a modulus is at least half of the
next power of two.

The candidates are stated from the digest and the digits of its bytes alone, and
the loop is shown to look at them in the order of the counters.  The counter has
32 bits.  Were a loop to go on when it starts over, it would see the same blocks
again.
-/

namespace Quorum

/-! ## Counting byte strings -/

namespace Octets

theorem toNatBE_injective (n : Nat) :
    Function.Injective fun b : Octets n => b.toList.toNatBE := by
  intro b c h
  apply toList_injective
  exact Bytes.eq_of_toNatBE_eq (b.length_eq.trans c.length_eq.symm) h

/-- The byte strings that denote the numbers of an interval are as many as these. -/
theorem ncard_interval {n lower upper : Nat} (h : upper ≤ 256 ^ n) :
    {b : Octets n | lower ≤ b.toList.toNatBE ∧ b.toList.toNatBE < upper}.ncard =
      upper - lower := by
  have himage : (fun b : Octets n => b.toList.toNatBE) ''
      {b : Octets n | lower ≤ b.toList.toNatBE ∧ b.toList.toNatBE < upper} =
        Finset.Ico lower upper := by
    ext k
    rw [Finset.coe_Ico, Set.mem_image]
    constructor
    · rintro ⟨b, hb, rfl⟩
      exact hb
    · intro hk
      have hdigits : (ofNatBE n k).toList.toNatBE = k :=
        Bytes.toNatBE_ofNatBE_of_lt (hk.2.trans_le h)
      refine ⟨ofNatBE n k, ?_, hdigits⟩
      rw [← hdigits] at hk
      exact hk
  rw [← Set.ncard_image_of_injective _ (toNatBE_injective n), himage, Set.ncard_coe_finset,
    Nat.card_Ico]

theorem ncard_lt {n upper : Nat} (h : upper ≤ 256 ^ n) :
    {b : Octets n | b.toList.toNatBE < upper}.ncard = upper := by
  have hinterval : {b : Octets n | 0 ≤ b.toList.toNatBE ∧ b.toList.toNatBE < upper}.ncard =
      upper - 0 := ncard_interval h
  simpa only [Nat.zero_le, true_and, Nat.sub_zero] using hinterval

theorem natCard (n : Nat) : Nat.card (Octets n) = 256 ^ n := by
  have hall : {b : Octets n | b.toList.toNatBE < 256 ^ n} = Set.univ := by
    refine Set.eq_univ_of_forall fun b => ?_
    have hlt := b.toList.toNatBE_lt
    rwa [b.length_eq] at hlt
  rw [← Set.ncard_univ, ← hall, ncard_lt le_rfl]

instance (n : Nat) : Finite (Octets n) := by
  apply Nat.finite_of_card_ne_zero
  rw [natCard]
  positivity

end Octets

namespace Transcript

/-! ## Candidates -/

/--
What is left of a block below a modulus: of the 256 bits of the number that it
writes, first byte leading, as many leading ones as the modulus has.
-/
def cut (modulus : Nat) (b : Octets 32) : Nat :=
  Nat.ofDigits 256 (b.toList.reverse.map UInt8.toNat) >>> (256 - modulus.size)

/--
The candidate of a counter: what is left of the digest of the seed, followed by
the lowest 32 bits of the counter, first byte leading.
-/
def candidate (modulus : Nat) (seed : Octets 32) (i : Nat) : Nat :=
  cut modulus <| sha512t256 <|
    seed.toList ++ [i / 2 ^ 24, i / 2 ^ 16, i / 2 ^ 8, i].map UInt8.ofNat

variable {modulus : Nat}

theorem bitLength_eq_size (k : Nat) : bitLength k = k.size := by
  rw [bitLength]
  split_ifs with hzero
  · rw [hzero, Nat.size_zero]
  · apply le_antisymm
    · exact Nat.lt_size.mpr (Nat.log2_self_le hzero)
    · exact Nat.size_le.mpr Nat.lt_log2_self

/-- A number is at least half of the next power of two. -/
theorem two_pow_size_le {k : Nat} (h : 0 < k.size) : 2 ^ k.size ≤ 2 * k := by
  obtain ⟨n, hn⟩ := Nat.exists_eq_succ_of_ne_zero h.ne'
  have hle : 2 ^ n ≤ k := Nat.lt_size.mp (hn ▸ Nat.lt_succ_self n)
  rw [hn, pow_succ, mul_comm]
  exact Nat.mul_le_mul_left 2 hle

theorem cut_eq_div (b : Octets 32) :
    cut modulus b = b.toList.toNatBE / 2 ^ (256 - modulus.size) := by
  rw [cut, ← Bytes.toNatLE_eq_ofDigits, Nat.shiftRight_eq_div_pow]
  rfl

/-- The loop looks at the candidates in the order of their counters. -/
theorem leadingBits_block (seed : Octets 32) (i : Nat) :
    leadingBits modulus (block seed i) = candidate modulus seed i := by
  have hcounter : Bytes.ofNatBE 4 i =
      [i / 2 ^ 24, i / 2 ^ 16, i / 2 ^ 8, i].map UInt8.ofNat := by
    simp [Bytes.ofNatBE, Bytes.ofNatLE, Nat.div_div_eq_div_mul]
  rw [leadingBits, bitLength_eq_size, Nat.shiftRight_eq_div_pow, candidate, cut_eq_div,
    block, hcounter]

/-- The counter is written in 32 bits, and starts over after the last number of that size. -/
theorem candidate_mod (seed : Octets 32) (i : Nat) :
    candidate modulus seed (i % 2 ^ 32) = candidate modulus seed i := by
  have hbytes : Bytes.ofNatBE 4 (i % 2 ^ 32) = Bytes.ofNatBE 4 i := by
    apply Bytes.eq_of_toNatBE_eq
    · rw [Bytes.length_ofNatBE, Bytes.length_ofNatBE]
    · rw [Bytes.toNatBE_ofNatBE, Bytes.toNatBE_ofNatBE]
      exact Nat.mod_mod i (2 ^ 32)
  rw [← leadingBits_block, ← leadingBits_block, block, hbytes, block]

/-! ## Counting blocks -/

/-- Each of the numbers that a block can leave is left by an interval of blocks. -/
theorem cut_eq_iff {b : Octets 32} {k : Nat} :
    cut modulus b = k ↔
      k * 2 ^ (256 - modulus.size) ≤ b.toList.toNatBE ∧
        b.toList.toNatBE < (k + 1) * 2 ^ (256 - modulus.size) := by
  rw [cut_eq_div, le_antisymm_iff, ← Nat.lt_succ_iff,
    Nat.div_lt_iff_lt_mul (by positivity), Nat.le_div_iff_mul_le (by positivity), and_comm]

theorem cut_lt_iff {b : Octets 32} :
    cut modulus b < modulus ↔
      b.toList.toNatBE < modulus * 2 ^ (256 - modulus.size) := by
  rw [cut_eq_div, Nat.div_lt_iff_lt_mul (by positivity)]

section Counting

variable (h : modulus.size ≤ 256)
include h

/-- A modulus that is widened to all bits is still within the blocks. -/
theorem mul_two_pow_le {k : Nat} (hk : k ≤ modulus) :
    k * 2 ^ (256 - modulus.size) ≤ 256 ^ 32 := by
  have hle : k ≤ 2 ^ modulus.size := hk.trans modulus.lt_size_self.le
  calc k * 2 ^ (256 - modulus.size)
      ≤ 2 ^ modulus.size * 2 ^ (256 - modulus.size) := Nat.mul_le_mul_right _ hle
    _ = 2 ^ 256 := by rw [← pow_add, Nat.add_sub_cancel' h]
    _ = 256 ^ 32 := by norm_num

theorem ncard_cut_eq {k : Nat} (hk : k < modulus) :
    {b | cut modulus b = k}.ncard = 2 ^ (256 - modulus.size) := by
  simp only [cut_eq_iff]
  rw [Octets.ncard_interval (mul_two_pow_le (k := k + 1) h hk), ← Nat.sub_mul,
    Nat.add_sub_cancel_left, one_mul]

theorem ncard_cut_lt :
    {b | cut modulus b < modulus}.ncard = modulus * 2 ^ (256 - modulus.size) := by
  simp only [cut_lt_iff]
  exact Octets.ncard_lt (mul_two_pow_le h le_rfl)

theorem ncard_le_cut :
    {b | modulus ≤ cut modulus b}.ncard =
      2 ^ 256 - modulus * 2 ^ (256 - modulus.size) := by
  have hcompl : {b | modulus ≤ cut modulus b} = {b | cut modulus b < modulus}ᶜ := by
    ext b
    simp
  rw [hcompl, Set.ncard_compl, ncard_cut_lt h, Octets.natCard]
  norm_num

theorem half_le_accepted (hpos : 0 < modulus.size) :
    2 ^ 256 ≤ 2 * {b | cut modulus b < modulus}.ncard := by
  rw [ncard_cut_lt h, ← mul_assoc]
  calc 2 ^ 256 = 2 ^ modulus.size * 2 ^ (256 - modulus.size) := by
        rw [← pow_add, Nat.add_sub_cancel' h]
    _ ≤ 2 * modulus * 2 ^ (256 - modulus.size) :=
      Nat.mul_le_mul_right _ (two_pow_size_le hpos)

end Counting

/-! ## The loop -/

section Loop

variable {seed : Octets 32} {c i j k tries : Nat}

/-- The candidate of the counter `i` is `k`, and it is the first one that is not rejected. -/
structure FirstAccepted (modulus : Nat) (seed : Octets 32) (i k : Nat) : Prop where
  candidate_eq : candidate modulus seed i = k
  lt_modulus : k < modulus
  /-- All candidates before are not below the modulus. -/
  rejected : ∀ j < i, modulus ≤ candidate modulus seed j

theorem FirstAccepted.le_of_lt_modulus (h : FirstAccepted modulus seed i k)
    (hj : candidate modulus seed j < modulus) : i ≤ j :=
  not_lt.mp fun hlt => absurd hj (not_lt.mpr (h.rejected j hlt))

/-- A loop that has rejected the candidates so far stops at the first one that it accepts. -/
theorem sampleFrom?_eq_some (hrejected : ∀ j < c, modulus ≤ candidate modulus seed j) :
    sampleFrom? modulus seed tries c = some k ↔
      ∃ i < c + tries, FirstAccepted modulus seed i k := by
  induction tries generalizing c with
  | zero =>
    refine iff_of_false (by rintro ⟨⟩) ?_
    rintro ⟨i, hi, h⟩
    exact absurd (h.candidate_eq ▸ h.lt_modulus) (not_lt.mpr (hrejected i hi))
  | succ tries ih =>
    rw [sampleFrom?, leadingBits_block]
    split_ifs with hlt
    · rw [Option.some_inj]
      constructor
      · rintro rfl
        exact ⟨c, by omega, rfl, hlt, hrejected⟩
      · rintro ⟨i, -, h⟩
        have hle : i ≤ c := h.le_of_lt_modulus hlt
        have hge : c ≤ i := not_lt.mp fun hi =>
          absurd (h.candidate_eq ▸ h.lt_modulus) (not_lt.mpr (hrejected i hi))
        rw [le_antisymm hge hle, h.candidate_eq]
    · rw [ih, Nat.add_right_comm c 1 tries, Nat.add_assoc c tries 1]
      intro j hj
      rcases Nat.lt_succ_iff_lt_or_eq.mp hj with hj | rfl
      · exact hrejected j hj
      · exact not_lt.mp hlt

theorem sample?_eq_some :
    sample? modulus seed = some k ↔ ∃ i < 2 ^ 32, FirstAccepted modulus seed i k := by
  rw [sample?, sampleFrom?_eq_some fun j hj => absurd hj (Nat.not_lt_zero j), Nat.zero_add]
  rfl

theorem FirstAccepted.lt (h : FirstAccepted modulus seed i k) : i < 2 ^ 32 := by
  have hle : i ≤ i % 2 ^ 32 := h.le_of_lt_modulus (by
    rw [candidate_mod, h.candidate_eq]
    exact h.lt_modulus)
  exact hle.trans_lt (Nat.mod_lt i (by positivity))

/-- A loop that goes on when the counter starts over finds nothing else. -/
theorem exists_sampleFrom?_iff :
    (∃ tries, sampleFrom? modulus seed tries 0 = some k) ↔ sample? modulus seed = some k := by
  constructor
  · rintro ⟨tries, h⟩
    obtain ⟨i, -, hi⟩ :=
      (sampleFrom?_eq_some fun j hj => absurd hj (Nat.not_lt_zero j)).mp h
    exact sample?_eq_some.mpr ⟨i, hi.lt, hi⟩
  · intro h
    exact ⟨_, h⟩

end Loop

/-! ## What is drawn -/

/-- Numbers below a modulus are drawn by rejection, each by equally many blocks. -/
structure SamplesUniformly (modulus : Nat) : Prop where
  /-- The number drawn is the first accepted candidate, by the order of the counters. -/
  sample?_eq_some : ∀ seed k, sample? modulus seed = some k ↔
    ∃ i < 2 ^ 32, FirstAccepted modulus seed i k
  /-- A loop whose counter starts over yields the same number, or goes on forever. -/
  exists_tries_iff : ∀ seed k,
    (∃ tries, sampleFrom? modulus seed tries 0 = some k) ↔ sample? modulus seed = some k
  card_blocks : Nat.card (Octets 32) = 2 ^ 256
  /-- Every number below the modulus is left by equally many of them. -/
  card_accepted : ∀ k < modulus,
    {b | cut modulus b = k}.ncard = 2 ^ (256 - modulus.size)
  /-- All others are rejected. -/
  card_rejected : {b | modulus ≤ cut modulus b}.ncard =
    2 ^ 256 - modulus * 2 ^ (256 - modulus.size)
  /-- At least half of the blocks are accepted. -/
  half_accepted : 2 ^ 256 ≤ 2 * {b | cut modulus b < modulus}.ncard

theorem samplesUniformly (hpos : 0 < modulus.size) (h : modulus.size ≤ 256) :
    SamplesUniformly modulus where
  sample?_eq_some _ _ := Transcript.sample?_eq_some
  exists_tries_iff _ _ := exists_sampleFrom?_iff
  card_blocks := (Octets.natCard 32).trans (by norm_num)
  card_accepted _ := ncard_cut_eq h
  card_rejected := ncard_le_cut h
  half_accepted := half_le_accepted h hpos

/-- The challenge of a transcript is the number drawn, which its 32 bytes write. -/
structure DrawsChallenge (tag : Bytes) (segments : List Bytes) (k : Nat) : Prop where
  fits : k < 256 ^ 32
  toNatLE_eq : (Bytes.ofNatLE 32 k).toNatLE = k
  /-- The challenge is read off them, reduced modulo the group order. -/
  challenge_eq : challenge tag segments = Scalar.reduce (Bytes.ofNatLE 32 k)
  /-- The reduction changes nothing. -/
  val_eq : (challenge tag segments).val = k

theorem drawsChallenge {tag : Bytes} {segments : List Bytes}
    (h : sample? groupOrder (digest tag segments) = some k) :
    DrawsChallenge tag segments k := by
  obtain ⟨i, -, hfirst⟩ := sample?_eq_some.mp h
  have hfits : k < 256 ^ 32 := hfirst.lt_modulus.trans (by decide)
  have hbytes : (Bytes.ofNatLE 32 k).toNatLE = k :=
    (Bytes.toNatLE_ofNatLE 32 k).trans (Nat.mod_eq_of_lt hfits)
  have hchallenge : challenge tag segments = Scalar.ofNat k := by
    rw [challenge, h, Option.getD_some]
  refine ⟨hfits, hbytes, ?_, ?_⟩
  · rw [hchallenge, Scalar.reduce, hbytes, Scalar.ofNat]
  · rw [hchallenge]
    exact Nat.mod_eq_of_lt hfirst.lt_modulus

/--
Rejection sampling takes the first number below the modulus, and each of these
numbers is left by exactly as many blocks as there are ways to choose the bits
that are cut off.  A challenge is the number drawn below the group order.
-/
theorem sampling_unbiased (hpos : 1 ≤ modulus.size) (h : modulus.size ≤ 256) :
    SamplesUniformly modulus ∧
      ∀ (tag : Bytes) (segments : List Bytes) (k : Nat),
        sample? groupOrder (digest tag segments) = some k → DrawsChallenge tag segments k :=
  ⟨samplesUniformly hpos h, fun _ _ _ => drawsChallenge⟩

/-- Below three, this seed draws two from its third block; the first two blocks are rejected. -/
theorem sampling_unbiased_three :
    1 ≤ Nat.size 3 ∧ Nat.size 3 ≤ 256 ∧
      sample? 3 (Octets.ofNatLE 32 3) = some 2 ∧
      {b | cut 3 b = 2}.ncard = 2 ^ 254 ∧
      {b | 3 ≤ cut 3 b}.ncard = 2 ^ 254 := by
  have hsize : Nat.size 3 = 2 := (bitLength_eq_size 3).symm
  have hpos : 1 ≤ Nat.size 3 := by
    rw [hsize]
    decide
  have hle : Nat.size 3 ≤ 256 := by
    rw [hsize]
    decide
  obtain ⟨h, -⟩ := sampling_unbiased hpos hle
  have hfirst : FirstAccepted 3 (Octets.ofNatLE 32 3) 2 2 := by
    have hleaves : candidate 3 (Octets.ofNatLE 32 3) 2 = 2 ∧
        ∀ j < 2, 3 ≤ candidate 3 (Octets.ofNatLE 32 3) j := by
      simp only [← leadingBits_block]
      decide +kernel
    exact ⟨hleaves.1, by decide, hleaves.2⟩
  refine ⟨hpos, hle, (h.sample?_eq_some _ _).mpr ⟨2, by decide, hfirst⟩, ?_, ?_⟩
  · rw [h.card_accepted 2 (by decide), hsize]
  · rw [h.card_rejected, hsize]
    decide

end Transcript

end Quorum
