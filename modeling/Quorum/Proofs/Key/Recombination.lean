import Mathlib
import Quorum.Proofs.Key.Dealing

/-!
# Recombining a dealt key

Any signing set of enough holders of a dealt key recombines it.  The Lagrange
coefficients of the set add the secret shares up to the key and the public
shares up to the joint key, in whatever order the holders are listed, and a
dealt share is consistent unless the key is zero.
-/

namespace Quorum

theorem Scalar.product_perm {ss ts : List Scalar} (h : ss.Perm ts) :
    product ss = product ts := by
  rw [← Residue.toZMod_inj, toZMod_product, toZMod_product]
  exact (h.map _).prod_eq

theorem hasDuplicates_perm {ids ids' : List PartyId} (h : ids.Perm ids') :
    hasDuplicates ids = hasDuplicates ids' := by
  rw [Bool.eq_iff_iff, ← not_iff_not, Bool.not_eq_true, Bool.not_eq_true,
    hasDuplicates_eq_false_iff, hasDuplicates_eq_false_iff]
  exact h.nodup_iff

theorem lagrangeCoefficient_perm (id : PartyId) {parties parties' : List PartyId}
    (h : parties.Perm parties') :
    lagrangeCoefficient id parties = lagrangeCoefficient id parties' := by
  have hothers : (parties.filter (· != id)).Perm (parties'.filter (· != id)) :=
    h.filter _
  have hnumerator := Scalar.product_perm (hothers.map evaluationPoint)
  have hdenominator := Scalar.product_perm
    (hothers.map fun other => evaluationPoint other - evaluationPoint id)
  simp only [lagrangeCoefficient, h.contains_eq, hasDuplicates_perm h, hnumerator,
    hdenominator]

theorem Polynomial.evaluate_zero (coefficients : List Scalar) :
    evaluate coefficients 0 = coefficients.headD 0 := by
  rw [← Residue.toZMod_inj, toZMod_evaluate, Residue.toZMod_zero,
    eval_zero_ofCoefficients]

namespace KeyShare

/--
Shares of `n` holders that are the values of one polynomial, any `threshold` of
which recombine its value at zero, each being consistent if that is not zero.
-/
structure Recombine (shares : List KeyShare) (n threshold : Nat)
    (coefficients : List Scalar) : Prop where
  /-- There is one share for each holder, in the order of their identifiers. -/
  partyIds_eq : shares.map (fun key => key.partyId.toNat) = List.range n
  /-- A secret share is the value at one more than the identifier of its holder. -/
  secretShare_eq : ∀ key ∈ shares, key.secretShare =
    Polynomial.evaluate coefficients (Scalar.ofNat (key.partyId.toNat + 1))
  /-- Every holder has the public shares of all. -/
  publicShares_eq : ∀ key ∈ shares,
    key.publicShares = shares.map fun other => other.secretShare • Point.generator
  /-- The joint key is that of the value at zero. -/
  publicKey_eq : ∀ key ∈ shares,
    key.publicKey = Polynomial.evaluate coefficients 0 • Point.generator
  /-- A share is consistent exactly if this value is not zero. -/
  validate_iff : ∀ key ∈ shares,
    key.validate = .ok () ↔ Polynomial.evaluate coefficients 0 ≠ 0
  /-- The weighted secret shares of enough holders add up to the value at zero. -/
  signingShares : ∀ keys ⊆ shares, (keys.map partyId).Nodup →
    threshold ≤ keys.length → ∃ ss,
      keys.mapM (fun key => key.signingShare (keys.map partyId)) = .ok ss ∧
        Scalar.sum ss = Polynomial.evaluate coefficients 0
  /-- Their weighted public shares, as every holder has them, add up to the joint key. -/
  weightedPublicShares : ∀ keys ⊆ shares, (keys.map partyId).Nodup →
    threshold ≤ keys.length → ∀ key ∈ shares, ∃ Ws,
      (keys.map partyId).mapM (fun id =>
        key.weightedPublicShare id (keys.map partyId)) = .ok Ws ∧
          Point.sum Ws = key.publicKey

section Dealt

variable {coefficients : List Scalar} {n : UInt64}

theorem validate_dealt {id : PartyId} (hid : id.toNat < n.toNat) :
    (dealt coefficients n id).validate = .ok () ↔ coefficients.headD 0 ≠ 0 := by
  rw [validate_eq_ok]
  constructor
  · rintro ⟨-, -, hvalid⟩
    exact Point.isValid_smul_generator.mp hvalid
  · intro hkey
    exact ⟨length_publicShares_dealt id, getElem?_publicShares_dealt id hid,
      Point.isValid_smul_generator.mpr hkey⟩

/-- The weighted secret shares of enough holders add up to the constant coefficient. -/
theorem sum_signingShares_dealt {keys : List KeyShare}
    (hkeys : ∀ key ∈ keys, key = dealt coefficients n key.partyId)
    (hnodup : (keys.map partyId).Nodup) (henough : coefficients.length ≤ keys.length) :
    ∃ ss, keys.mapM (fun key => key.signingShare (keys.map partyId)) = .ok ss ∧
      Scalar.sum ss = coefficients.headD 0 := by
  have hstep : ∀ (key : KeyShare) (s : Scalar),
      key.signingShare (keys.map partyId) = .ok s ↔
        (key.partyId ∈ keys.map partyId ∧ (keys.map partyId).Nodup) ∧
          s = lagrangeWeight key.partyId (keys.map partyId) * key.secretShare := by
    intro key s
    rw [signingShare_eq_ok, and_assoc]
  refine ⟨_, (mapM_eq_ok_map hstep).mpr ⟨?_, rfl⟩, ?_⟩
  · intro key hkey
    exact ⟨List.mem_map_of_mem hkey, hnodup⟩
  · have hshares : (keys.map fun key =>
        lagrangeWeight key.partyId (keys.map partyId) * key.secretShare) =
          (keys.map partyId).map fun id => lagrangeWeight id (keys.map partyId) *
            Polynomial.evaluate coefficients (evaluationPoint id) := by
      rw [List.map_map]
      refine List.map_congr_left fun key hkey => ?_
      have hsecret := congrArg secretShare (hkeys key hkey)
      rw [hsecret]
      rfl
    have henough' : coefficients.length ≤ (keys.map partyId).length := by
      rwa [List.length_map]
    rw [hshares, sum_lagrangeWeight_mul_evaluate hnodup henough']

/-- The weighted public shares of enough holders can be computed and add up to the key. -/
theorem sum_weightedPublicShares_dealt (id : PartyId) {parties : List PartyId}
    (hnodup : parties.Nodup) (hparties : ∀ other ∈ parties, other.toNat < n.toNat)
    (henough : coefficients.length ≤ parties.length) :
    ∃ Ws, parties.mapM (fun other =>
        (dealt coefficients n id).weightedPublicShare other parties) = .ok Ws ∧
      Point.sum Ws = (dealt coefficients n id).publicKey := by
  refine ⟨_, (mapM_eq_ok_map weightedPublicShare_eq_ok).mpr ⟨?_, rfl⟩, ?_⟩
  · intro other hother
    rw [length_publicShares_dealt]
    exact ⟨hparties other hother, hother, hnodup⟩
  · rw [Point.sum_eq_sum, sum_weightedShares_dealt id hnodup hparties henough]

/-- The shares of a polynomial recombine its value at zero. -/
theorem recombine_ofCoefficients :
    Recombine (ofCoefficients coefficients n) n.toNat coefficients.length
      coefficients := by
  have hdealt : ∀ key ∈ ofCoefficients coefficients n,
      key.partyId.toNat < n.toNat ∧ key = dealt coefficients n key.partyId := by
    intro key hkey
    obtain ⟨id, hid, rfl⟩ := mem_ofCoefficients.mp hkey
    exact ⟨hid, rfl⟩
  constructor
  case partyIds_eq => exact partyIds_ofCoefficients
  case secretShare_eq =>
    intro key hkey
    exact congrArg secretShare (hdealt key hkey).2
  case publicShares_eq =>
    intro key hkey
    rw [(hdealt key hkey).2, ofCoefficients_eq, List.map_map]
    rfl
  case publicKey_eq =>
    intro key hkey
    rw [(hdealt key hkey).2, Polynomial.evaluate_zero]
    rfl
  case validate_iff =>
    intro key hkey
    rw [(hdealt key hkey).2, Polynomial.evaluate_zero]
    exact validate_dealt (hdealt key hkey).1
  case signingShares =>
    intro keys hkeys hnodup henough
    rw [Polynomial.evaluate_zero]
    exact sum_signingShares_dealt (fun key hkey => (hdealt key (hkeys hkey)).2)
      hnodup henough
  case weightedPublicShares =>
    intro keys hkeys hnodup henough key hkey
    rw [(hdealt key hkey).2]
    apply sum_weightedPublicShares_dealt _ hnodup
    · intro other hother
      obtain ⟨key', hkey', rfl⟩ := List.mem_map.mp hother
      exact (hdealt key' (hkeys hkey')).1
    · rwa [List.length_map]

end Dealt

end KeyShare

/--
Lagrange coefficients recombine the values of every polynomial with at most as
many coefficients as there are holders, in any order of the holders; hence the
shares that a dealer hands out, one to each holder, recombine the key that it drew.
-/
theorem recombination :
    (∀ (parties : List PartyId) (coefficients : List Scalar), parties.Nodup →
      coefficients.length ≤ parties.length → ∃ weight : PartyId → Scalar,
        (∀ id ∈ parties, lagrangeCoefficient id parties = .ok (weight id)) ∧
          Scalar.sum (parties.map fun id =>
            weight id * Polynomial.evaluate coefficients (Scalar.ofNat (id.toNat + 1))) =
              coefficients.headD 0) ∧
    (∀ (id : PartyId) (parties parties' : List PartyId), parties.Perm parties' →
      lagrangeCoefficient id parties = lagrangeCoefficient id parties') ∧
    ∀ (threshold n : UInt64) (tape : Tape),
      ((∃ shares rest, dealShares threshold n tape = .ok (shares, rest)) ↔
        2 ≤ threshold.toNat ∧ threshold.toNat ≤ n.toNat) ∧
      ∀ (shares : List KeyShare) (rest : Tape),
        dealShares threshold n tape = .ok (shares, rest) →
          KeyShare.Recombine shares n.toNat threshold.toNat
            (tape.scalars threshold.toNat).1 := by
  refine ⟨?_, fun id _ _ => lagrangeCoefficient_perm id, ?_⟩
  · intro parties coefficients hnodup henough
    refine ⟨fun id => lagrangeWeight id parties, ?_,
      sum_lagrangeWeight_mul_evaluate hnodup henough⟩
    intro id hid
    exact lagrangeCoefficient_eq_ok.mpr ⟨hid, hnodup, rfl⟩
  · intro threshold n tape
    refine ⟨exists_dealShares_eq_ok, fun shares rest hdeal => ?_⟩
    obtain ⟨-, -, rfl, -⟩ := dealShares_eq_ok.mp hdeal
    have hrecombine := @KeyShare.recombine_ofCoefficients
      (tape.scalars threshold.toNat).1 n
    rwa [Tape.length_scalars] at hrecombine

end Quorum
