import Mathlib
import Quorum.Key.Dealing
import Quorum.Proofs.Key.Lagrange

/-!
# Dealt keys

The shares of a dealt key belong to one polynomial.  Whoever holds one of them
is admitted to every session of enough holders, unless the key is zero, and the
weighted public shares of such a session add up to the joint key.
-/

namespace Quorum

theorem Tape.length_scalars (count : Nat) (tape : Tape) :
    (tape.scalars count).1.length = count := by
  induction count generalizing tape with
  | zero => rfl
  | succ count ih => exact congrArg (· + 1) (ih _)

theorem Tape.headD_scalars (count : Nat) (tape : Tape) :
    (tape.scalars (count + 1)).1.headD 0 = tape.scalar.1 :=
  rfl

namespace KeyShare

/-- The share of a holder of the key with the given polynomial. -/
def dealt (coefficients : List Scalar) (n : UInt64) (id : PartyId) : KeyShare where
  partyId := id
  nParties := n
  threshold := UInt64.ofNat coefficients.length
  secretShare := Polynomial.evaluate coefficients (evaluationPoint id)
  publicKey := coefficients.headD 0 • Point.generator
  publicShares := (List.range n.toNat).map fun k =>
    Polynomial.evaluate coefficients (evaluationPoint (UInt64.ofNat k)) •
      Point.generator

theorem ofCoefficients_eq (coefficients : List Scalar) (n : UInt64) :
    ofCoefficients coefficients n =
      (List.range n.toNat).map fun k => dealt coefficients n (UInt64.ofNat k) := by
  rw [ofCoefficients]
  simp only [List.map_map, List.zip_map']
  rfl

/-- The secret share of a holder; zero if there is no such holder. -/
def secretOf (shares : List KeyShare) (id : PartyId) : Scalar :=
  (shares[id.toNat]?.map secretShare).getD 0

section Holders

variable {coefficients : List Scalar} {n : UInt64}

/-- The shares are in the order of the identifiers of their holders. -/
theorem getElem?_ofCoefficients {id : PartyId} (h : id.toNat < n.toNat) :
    (ofCoefficients coefficients n)[id.toNat]? = some (dealt coefficients n id) := by
  rw [ofCoefficients_eq, List.getElem?_map, List.getElem?_range h, Option.map_some,
    UInt64.ofNat_toNat]

theorem partyIds_ofCoefficients :
    (ofCoefficients coefficients n).map (fun key => key.partyId.toNat) =
      List.range n.toNat := by
  rw [ofCoefficients_eq, List.map_map]
  refine (List.map_congr_left fun k hk => ?_).trans (List.map_id _)
  have hsmall : k < 2 ^ 64 := (List.mem_range.mp hk).trans n.toNat_lt
  exact UInt64.toNat_ofNat_of_lt' hsmall

theorem secretOf_ofCoefficients {id : PartyId} (h : id.toNat < n.toNat) :
    secretOf (ofCoefficients coefficients n) id =
      Polynomial.evaluate coefficients (evaluationPoint id) := by
  rw [secretOf, getElem?_ofCoefficients h]
  rfl

theorem mem_ofCoefficients {key : KeyShare} :
    key ∈ ofCoefficients coefficients n ↔
      ∃ id : PartyId, id.toNat < n.toNat ∧ key = dealt coefficients n id := by
  rw [ofCoefficients_eq, List.mem_map]
  constructor
  · rintro ⟨k, hk, rfl⟩
    rw [List.mem_range] at hk
    have hsmall : k < 2 ^ 64 := hk.trans n.toNat_lt
    refine ⟨UInt64.ofNat k, ?_, rfl⟩
    rw [UInt64.toNat_ofNat_of_lt' hsmall]
    exact hk
  · rintro ⟨id, hid, rfl⟩
    exact ⟨id.toNat, List.mem_range.mpr hid, by rw [UInt64.ofNat_toNat]⟩

theorem length_publicShares_dealt (id : PartyId) :
    (dealt coefficients n id).publicShares.length = n.toNat := by
  rw [dealt, List.length_map, List.length_range]

/-- The public share of a holder is that of its secret share. -/
theorem getElem?_publicShares_dealt (id : PartyId) {other : PartyId}
    (h : other.toNat < n.toNat) :
    (dealt coefficients n id).publicShares[other.toNat]? =
      some ((dealt coefficients n other).secretShare • Point.generator) := by
  rw [dealt, List.getElem?_map, List.getElem?_range h, Option.map_some,
    UInt64.ofNat_toNat]
  rfl

/-- The weighted public shares of enough holders add up to the joint key. -/
theorem sum_weightedShares_dealt (id : PartyId) {parties : List PartyId}
    (hnodup : parties.Nodup) (hparties : ∀ other ∈ parties, other.toNat < n.toNat)
    (henough : coefficients.length ≤ parties.length) :
    (parties.map fun other => lagrangeWeight other parties •
      (dealt coefficients n id).publicShares.getD other.toNat 0).sum =
        (dealt coefficients n id).publicKey := by
  have hweighted : (parties.map fun other => lagrangeWeight other parties •
      (dealt coefficients n id).publicShares.getD other.toNat 0) =
        (parties.map fun other => lagrangeWeight other parties *
          Polynomial.evaluate coefficients (evaluationPoint other)).map
            fun s => s • Point.generator := by
    rw [List.map_map]
    refine List.map_congr_left fun other hother => ?_
    rw [List.getD_eq_getElem?_getD,
      getElem?_publicShares_dealt id (hparties other hother), Option.getD_some,
      Function.comp_apply, Point.mul_smul Point.generator_mem]
    rfl
  rw [hweighted, ← Point.sum_smul Point.generator_mem,
    sum_lagrangeWeight_mul_evaluate hnodup henough]
  rfl

end Holders

end KeyShare

theorem dealShares_eq_ok {threshold n : UInt64} {tape rest : Tape}
    {shares : List KeyShare} :
    dealShares threshold n tape = .ok (shares, rest) ↔
      2 ≤ threshold.toNat ∧ threshold.toNat ≤ n.toNat ∧
        shares = KeyShare.ofCoefficients (tape.scalars threshold.toNat).1 n ∧
        rest = (tape.scalars threshold.toNat).2 := by
  have htwo : threshold < 2 ↔ ¬ 2 ≤ threshold.toNat := by
    rw [UInt64.lt_iff_toNat_lt, not_le]
    rfl
  rw [dealShares]
  split_ifs with hthreshold henough
  · simp [htwo.mp hthreshold]
  · rw [UInt64.lt_iff_toNat_lt, ← not_le] at henough
    simp [henough]
  · rw [htwo, not_not] at hthreshold
    rw [UInt64.lt_iff_toNat_lt, not_lt] at henough
    rw [Except.ok.injEq, Prod.mk.injEq, eq_comm (a := shares), eq_comm (a := rest)]
    simp [hthreshold, henough]

theorem exists_dealShares_eq_ok {threshold n : UInt64} {tape : Tape} :
    (∃ shares rest, dealShares threshold n tape = .ok (shares, rest)) ↔
      2 ≤ threshold.toNat ∧ threshold.toNat ≤ n.toNat := by
  simp only [dealShares_eq_ok]
  constructor
  · rintro ⟨_, _, htwo, henough, -⟩
    exact ⟨htwo, henough⟩
  · rintro ⟨htwo, henough⟩
    exact ⟨_, _, htwo, henough, rfl, rfl⟩

/-- A holder of a dealt key other than zero is admitted to a session of enough holders. -/
theorem Admissible.of_dealt {config : SessionConfig} {coefficients : List Scalar}
    {n : UInt64} {id : PartyId} (htwo : 2 ≤ coefficients.length)
    (hcount : coefficients.length ≤ n.toNat) (hkey : coefficients.headD 0 ≠ 0)
    (hthreshold : config.threshold = UInt64.ofNat coefficients.length)
    (hnodup : config.parties.Nodup)
    (hparties : ∀ other ∈ config.parties, other.toNat < n.toNat)
    (henough : coefficients.length ≤ config.parties.length)
    (hown : config.parties[config.partyIndex.toNat]? = some id) :
    Admissible config (KeyShare.dealt coefficients n id) := by
  have hlength : config.threshold.toNat = coefficients.length := by
    rw [hthreshold, UInt64.toNat_ofNat_of_lt' (hcount.trans_lt n.toNat_lt)]
  have hid : id.toNat < n.toNat := by
    obtain ⟨hindex, rfl⟩ := List.getElem?_eq_some_iff.mp hown
    exact hparties _ (List.getElem_mem hindex)
  constructor
  case share_count => exact KeyShare.length_publicShares_dealt id
  case own_share => exact KeyShare.getElem?_publicShares_dealt id hid
  case key_valid => exact Point.isValid_smul_generator.mpr hkey
  case two_le_threshold => rw [hlength]; exact htwo
  case threshold_le => rw [hlength]; exact henough
  case nodup => exact hnodup
  case threshold_eq => exact hthreshold
  case own_party => exact hown
  case parties_lt =>
    intro other hother
    rw [KeyShare.length_publicShares_dealt]
    exact hparties other hother

end Quorum
