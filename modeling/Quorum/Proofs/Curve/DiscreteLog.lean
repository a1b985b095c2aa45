import Mathlib
import Quorum.Proofs.Curve.Affine
import Quorum.Proofs.Curve.PrimeSubgroup

/-!
# Discrete logarithms

The points whose order divides `L` form a vector space over the integers modulo
`L`.  There are fewer than `L²` points, because each is written in 32 bytes, so
that the space has dimension one: every such point is a multiple of the
generator.
-/

namespace Quorum.Point

/-- The number that a point is written as. -/
def code (P : Point) : Fin (Bytes.count 32) :=
  ⟨compress P.x P.y, compress_lt P.x P.y⟩

theorem code_injective : Function.Injective code := by
  intro P Q h
  apply encode_injective
  rw [encode, encode, Fin.mk.inj h]

instance : Finite Point :=
  Finite.of_injective code code_injective

theorem card_le : Nat.card Point ≤ Bytes.count 32 := by
  have hle := Nat.card_le_card_of_injective code code_injective
  rwa [Nat.card_fin] at hle

theorem card_lt : Nat.card Point < groupOrder ^ 2 :=
  card_le.trans_lt (by decide)

/-- The integers modulo `L` act on the subgroup of prime order. -/
instance : Module (ZMod groupOrder) primeSubgroup :=
  AddCommGroup.zmodModule fun P => Subtype.ext (mem_primeSubgroup.mp P.2)

theorem finrank_primeSubgroup_le :
    Module.finrank (ZMod groupOrder) primeSubgroup ≤ 1 := by
  have hcard : Nat.card primeSubgroup =
      groupOrder ^ Module.finrank (ZMod groupOrder) primeSubgroup := by
    rw [Module.natCard_eq_pow_finrank (K := ZMod groupOrder), Nat.card_zmod]
  have hle : Nat.card primeSubgroup ≤ Nat.card Point :=
    Nat.card_le_card_of_injective _ Subtype.val_injective
  by_contra hlarge
  have htwo : groupOrder ^ 2 ≤
      groupOrder ^ Module.finrank (ZMod groupOrder) primeSubgroup :=
    Nat.pow_le_pow_right Modulus.pos (by omega)
  exact absurd (hcard ▸ hle) (not_le.mpr (card_lt.trans_le htwo))

theorem exists_smul_generator {P : Point} (hP : P ∈ primeSubgroup) :
    ∃ s : Scalar, P = s • generator := by
  have hne : (⟨generator, generator_mem⟩ : primeSubgroup) ≠ 0 := by
    intro h
    exact generator_ne_zero (congrArg Subtype.val h)
  have hrank : Module.finrank (ZMod groupOrder) primeSubgroup = 1 :=
    have : Nontrivial primeSubgroup := ⟨_, _, hne⟩
    le_antisymm finrank_primeSubgroup_le Module.finrank_pos
  obtain ⟨c, hc⟩ := (finrank_eq_one_iff_of_nonzero' _ hne).mp hrank ⟨P, hP⟩
  refine ⟨⟨c.val, ZMod.val_lt c⟩, ?_⟩
  have hval : c.val • (⟨generator, generator_mem⟩ : primeSubgroup) = ⟨P, hP⟩ := by
    rw [← Nat.cast_smul_eq_nsmul (ZMod groupOrder), ZMod.natCast_zmod_val, hc]
  rw [smul_def]
  exact (congrArg Subtype.val hval).symm

theorem existsUnique_smul_generator {P : Point} (hP : P ∈ primeSubgroup) :
    ∃! s : Scalar, s • generator = P := by
  obtain ⟨s, hs⟩ := exists_smul_generator hP
  refine ⟨s, hs.symm, ?_⟩
  intro t ht
  rw [hs] at ht
  exact (smul_inj generator_mem generator_ne_zero).mp ht

end Quorum.Point
