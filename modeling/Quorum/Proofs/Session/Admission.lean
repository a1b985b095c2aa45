import Mathlib
import Quorum.Session.Admission
import Quorum.Proofs.Outcome
import Quorum.Proofs.Curve.PrimeSubgroup

/-!
# Who is admitted to a session

Admission checks the key share, the configuration and that the two belong
together.  This module says in one place what the checks amount to and what an
admitted signer knows: a Lagrange weight for every signer, and the weighted
shares that go with them.
-/

namespace Quorum

theorem hasDuplicates_eq_false_iff {ids : List PartyId} :
    hasDuplicates ids = false ↔ ids.Nodup := by
  induction ids with
  | nil => exact iff_of_true rfl List.nodup_nil
  | cons id ids ih =>
    rw [hasDuplicates, Bool.or_eq_false_iff, ih, List.nodup_cons,
      ← Bool.not_eq_true, List.contains_iff_mem]

/-- The Lagrange weight at zero of a member of a signing set. -/
def lagrangeWeight (id : PartyId) (parties : List PartyId) : Scalar :=
  Scalar.product ((parties.filter (· != id)).map evaluationPoint) *
    (Scalar.product ((parties.filter (· != id)).map fun other =>
      evaluationPoint other - evaluationPoint id)).inverse

theorem lagrangeCoefficient_eq_ok {id : PartyId} {parties : List PartyId}
    {weight : Scalar} :
    lagrangeCoefficient id parties = .ok weight ↔
      id ∈ parties ∧ parties.Nodup ∧ weight = lagrangeWeight id parties := by
  rw [lagrangeCoefficient]
  by_cases hmem : id ∈ parties
  · have hcontains : parties.contains id = true := List.contains_iff_mem.mpr hmem
    rw [hcontains, Bool.not_true, if_neg Bool.false_ne_true]
    by_cases hnodup : parties.Nodup
    · rw [hasDuplicates_eq_false_iff.mpr hnodup, if_neg Bool.false_ne_true]
      simp only [Except.ok.injEq, hmem, hnodup, true_and]
      exact eq_comm
    · have hdup : hasDuplicates parties = true := by
        rw [← Bool.not_eq_false, hasDuplicates_eq_false_iff]
        exact hnodup
      rw [if_pos hdup]
      simp [hnodup]
  · have hcontains : parties.contains id = false := by
      rw [← Bool.not_eq_true, List.contains_iff_mem]
      exact hmem
    rw [hcontains, Bool.not_false, if_pos rfl]
    simp [hmem]

/-- The conditions under which a configuration and a key share are admitted. -/
structure Admissible (config : SessionConfig) (key : KeyShare) : Prop where
  share_count : key.publicShares.length = key.nParties.toNat
  /-- The own public share is that of the secret share. -/
  own_share : key.publicShares[key.partyId.toNat]? =
    some (key.secretShare • Point.generator)
  key_valid : key.publicKey.isValid = true
  two_le_threshold : 2 ≤ config.threshold.toNat
  threshold_le : config.threshold.toNat ≤ config.parties.length
  nodup : config.parties.Nodup
  threshold_eq : config.threshold = key.threshold
  /-- The holder at the own position is the owner of the key share. -/
  own_party : config.parties[config.partyIndex.toNat]? = some key.partyId
  parties_lt : ∀ id ∈ config.parties, id.toNat < key.publicShares.length

namespace Session

/-- The session of an admitted signer. -/
def admitted (hash : ChallengeHash) (config : SessionConfig) (key : KeyShare)
    (message : SigningMessage) : Session where
  config := config
  ssid := config.ssid key.publicKey
  hash := hash
  signingShare := lagrangeWeight key.partyId config.parties * key.secretShare
  publicKey := key.publicKey
  weightedShares := config.parties.map fun id =>
    lagrangeWeight id config.parties • key.publicShares.getD id.toNat 0
  message := message

end Session

theorem KeyShare.validate_eq_ok {key : KeyShare} :
    key.validate = .ok () ↔
      key.publicShares.length = key.nParties.toNat ∧
        key.publicShares[key.partyId.toNat]? =
          some (key.secretShare • Point.generator) ∧
        key.publicKey.isValid = true := by
  rw [KeyShare.validate]
  by_cases hcount : key.publicShares.length = key.nParties.toNat
  · rw [if_neg (not_not.mpr hcount)]
    cases hown : key.publicShares[key.partyId.toNat]? with
    | none => simp
    | some own =>
      by_cases hshare : key.secretShare • Point.generator = own
      · by_cases hvalid : key.publicKey.isValid = true
        · simp [hcount, hshare, hvalid]
        · simp [hshare, hvalid]
      · simp [hshare, Ne.symm hshare]
  · simp [hcount]

theorem SessionConfig.validate_eq_ok {config : SessionConfig} :
    config.validate = .ok () ↔
      2 ≤ config.threshold.toNat ∧
        config.threshold.toNat ≤ config.parties.length ∧
        config.parties.Nodup ∧
        config.partyIndex.toNat < config.parties.length := by
  have htwo : config.threshold < 2 ↔ ¬ 2 ≤ config.threshold.toNat := by
    rw [UInt64.lt_iff_toNat_lt, not_le]
    rfl
  rw [SessionConfig.validate, ← hasDuplicates_eq_false_iff]
  split_ifs with hthreshold henough hdup hindex
  · simp [htwo.mp hthreshold]
  · simp [henough]
  · simp [hdup]
  · rw [htwo, not_not] at hthreshold
    simp_all
  · simp [hindex]

theorem Session.matchKey_eq_ok {config : SessionConfig} {key : KeyShare} :
    Session.matchKey config key = .ok () ↔
      config.threshold = key.threshold ∧
        config.parties[config.partyIndex.toNat]? = some key.partyId := by
  rw [Session.matchKey]
  split_ifs with hthreshold
  · rw [SessionConfig.partyId]
    cases hid : config.parties[config.partyIndex.toNat]? with
    | none => simp [Except.bind]
    | some id =>
      by_cases hkey : id = key.partyId
      · simp [Except.bind, hthreshold, hkey]
      · simp [Except.bind, hkey]
  · simp [hthreshold]

theorem KeyShare.signingShare_eq_ok {key : KeyShare} {parties : List PartyId}
    {w : Scalar} :
    key.signingShare parties = .ok w ↔
      key.partyId ∈ parties ∧ parties.Nodup ∧
        w = lagrangeWeight key.partyId parties * key.secretShare := by
  rw [KeyShare.signingShare, bind_eq_ok]
  constructor
  · rintro ⟨weight, hweight, hw⟩
    obtain ⟨hmem, hnodup, rfl⟩ := lagrangeCoefficient_eq_ok.mp hweight
    cases hw
    exact ⟨hmem, hnodup, rfl⟩
  · rintro ⟨hmem, hnodup, rfl⟩
    exact ⟨_, lagrangeCoefficient_eq_ok.mpr ⟨hmem, hnodup, rfl⟩, rfl⟩

theorem KeyShare.weightedPublicShare_eq_ok {key : KeyShare}
    {parties : List PartyId} (id : PartyId) (P : Point) :
    key.weightedPublicShare id parties = .ok P ↔
      (id.toNat < key.publicShares.length ∧ id ∈ parties ∧ parties.Nodup) ∧
        P = lagrangeWeight id parties • key.publicShares.getD id.toNat 0 := by
  rw [KeyShare.weightedPublicShare]
  cases hshare : key.publicShares[id.toNat]? with
  | none =>
    rw [List.getElem?_eq_none_iff] at hshare
    simp [hshare]
  | some share =>
    obtain ⟨hlt, rfl⟩ := List.getElem?_eq_some_iff.mp hshare
    rw [bind_eq_ok, List.getD_eq_getElem _ _ hlt]
    constructor
    · rintro ⟨weight, hweight, hP⟩
      obtain ⟨hmem, hnodup, rfl⟩ := lagrangeCoefficient_eq_ok.mp hweight
      -- A split of this equation by cases would evaluate the multiple of the share.
      exact ⟨⟨hlt, hmem, hnodup⟩, (Except.ok.inj hP).symm⟩
    · rintro ⟨⟨-, hmem, hnodup⟩, hP⟩
      exact ⟨_, lagrangeCoefficient_eq_ok.mpr ⟨hmem, hnodup, rfl⟩,
        congrArg Except.ok hP.symm⟩

theorem Session.establish_eq_ok {hash : ChallengeHash} {config : SessionConfig}
    {key : KeyShare} {message : SigningMessage} {s : Session} :
    Session.establish hash config key message = .ok s ↔
      Admissible config key ∧ s = Session.admitted hash config key message := by
  rw [Session.establish]
  simp only [bind_eq_ok]
  constructor
  · rintro ⟨⟨⟩, hkey, ⟨⟩, hconfig, ⟨⟩, hmatch, weighted, hweighted, share, hshare, hs⟩
    obtain ⟨hcount, hown, hvalid⟩ := KeyShare.validate_eq_ok.mp hkey
    obtain ⟨htwo, henough, hnodup, -⟩ := SessionConfig.validate_eq_ok.mp hconfig
    obtain ⟨hthreshold, hparty⟩ := Session.matchKey_eq_ok.mp hmatch
    obtain ⟨hall, rfl⟩ :=
      (mapM_eq_ok_map KeyShare.weightedPublicShare_eq_ok).mp hweighted
    obtain ⟨-, -, rfl⟩ := KeyShare.signingShare_eq_ok.mp hshare
    cases hs
    exact ⟨⟨hcount, hown, hvalid, htwo, henough, hnodup, hthreshold, hparty,
      fun id hid => (hall id hid).1⟩, rfl⟩
  · rintro ⟨h, rfl⟩
    have hparty := h.own_party
    obtain ⟨hindex, hget⟩ := List.getElem?_eq_some_iff.mp hparty
    have hmem : key.partyId ∈ config.parties := hget ▸ List.getElem_mem hindex
    refine ⟨(), KeyShare.validate_eq_ok.mpr ⟨h.share_count, h.own_share, h.key_valid⟩,
      (), SessionConfig.validate_eq_ok.mpr
        ⟨h.two_le_threshold, h.threshold_le, h.nodup, hindex⟩,
      (), Session.matchKey_eq_ok.mpr ⟨h.threshold_eq, hparty⟩,
      _, (mapM_eq_ok_map KeyShare.weightedPublicShare_eq_ok).mpr
        ⟨fun id hid => ⟨h.parties_lt id hid, hid, h.nodup⟩, rfl⟩,
      _, KeyShare.signingShare_eq_ok.mpr ⟨hmem, h.nodup, rfl⟩, rfl⟩

theorem Admissible.own_lt {config : SessionConfig} {key : KeyShare}
    (h : Admissible config key) :
    config.partyIndex.toNat < config.parties.length :=
  (List.getElem?_eq_some_iff.mp h.own_party).1

end Quorum
