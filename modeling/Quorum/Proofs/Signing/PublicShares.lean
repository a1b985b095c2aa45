import Mathlib
import Quorum.Proofs.Curve.Cofactor
import Quorum.Proofs.Signing.Attribution

/-!
# Public shares outside the subgroup of prime order

A share is tested against a nonce point and a weighted public share.  What it is
multiplied with generates the subgroup of prime order, and the nonce point
belongs to it.  Hence some share passes exactly if the challenge takes the
weighted public share into the subgroup.

Admission makes sure that the own public share is a multiple of the generator.
It looks at no other public share, although every point that a peer sends later
on is checked.  So a signer is admitted with points of small order added to the
public shares of others, and then there are challenges at which no share of
theirs passes the test: unless the signature is handed out, they are named
instead of the signer that is at fault.
-/

namespace Quorum

/-! ## The test of a share -/

namespace Finalization

variable {c : Scalar} {R W : Point}

theorem exists_fits_iff (hR : R ∈ Point.primeSubgroup) :
    (∃ share, fits c share R W = true) ↔ addOrderOf W.torsionPart ∣ c.val := by
  simp only [fits, decide_eq_true_iff]
  rw [← Point.smul_mem_iff]
  constructor
  · rintro ⟨share, hshare⟩
    have hsum : R + c • W ∈ Point.primeSubgroup :=
      hshare ▸ Point.smul_generator_mem share
    exact (AddSubgroup.add_mem_cancel_left _ hR).mp hsum
  · intro hW
    obtain ⟨share, hshare⟩ := Point.exists_smul_generator (add_mem hR hW)
    exact ⟨share, hshare.symm⟩

theorem exists_fits_one_iff (hR : R ∈ Point.primeSubgroup) :
    (∃ share, fits 1 share R W = true) ↔ W ∈ Point.primeSubgroup := by
  rw [exists_fits_iff hR, ← Point.torsionPart_eq_zero, ← AddMonoid.addOrderOf_eq_one_iff]
  exact Nat.dvd_one

/-- Only within the subgroup there is a share for every challenge. -/
theorem forall_exists_fits_iff (hR : R ∈ Point.primeSubgroup) :
    (∀ c, ∃ share, fits c share R W = true) ↔ W ∈ Point.primeSubgroup := by
  constructor
  · intro h
    exact (exists_fits_one_iff hR).mp (h 1)
  · intro hW c
    rw [exists_fits_iff hR, Point.torsionPart_eq_zero.mpr hW, addOrderOf_zero]
    exact one_dvd _

end Finalization

/-! ## What admission leaves open -/

/-- The public shares of a dealt key are multiples of the generator. -/
theorem KeyShare.mem_of_mem_publicShares_dealt {coefficients : List Scalar} {n : UInt64}
    {id : PartyId} {X : Point} (hX : X ∈ (dealt coefficients n id).publicShares) :
    X ∈ Point.primeSubgroup := by
  obtain ⟨k, -, rfl⟩ := List.mem_map.mp hX
  exact Point.smul_generator_mem _

/-- Of the public shares only their number and the own one decide on the admission. -/
theorem Admissible.congr_publicShares {config : SessionConfig} {key : KeyShare}
    (h : Admissible config key) {publicShares : List Point}
    (hlength : publicShares.length = key.publicShares.length)
    (hown : publicShares[key.partyId.toNat]? = key.publicShares[key.partyId.toNat]?) :
    Admissible config { key with publicShares } where
  share_count := hlength.trans h.share_count
  own_share := hown.trans h.own_share
  key_valid := h.key_valid
  two_le_threshold := h.two_le_threshold
  threshold_le := h.threshold_le
  nodup := h.nodup
  threshold_eq := h.threshold_eq
  own_party := h.own_party
  parties_lt id hid := hlength ▸ h.parties_lt id hid

namespace Entrant

/-- An entrant that holds other public shares. -/
def withPublicShares (a : Entrant) (publicShares : List Point) : Entrant :=
  { a with key := { a.key with publicShares } }

/-- The public share of the holder at a position. -/
def publicShareAt (a : Entrant) (j : Nat) : Point :=
  a.key.publicShares.getD (a.partyAt j).toNat 0

/-- Which shares can pass the tests that a signer makes in its session. -/
structure ShareTests (a : Entrant) (s : Session) : Prop where
  /-- The own weighted public share belongs to the subgroup of prime order. -/
  own_mem : s.weightedShares.getD s.own 0 ∈ Point.primeSubgroup
  /-- Another one does exactly if the weight annihilates its component of small order. -/
  mem_iff : ∀ j < s.size, s.weightedShares.getD j 0 ∈ Point.primeSubgroup ↔
    addOrderOf (a.publicShareAt j).torsionPart ∣ (a.weightAt j).val
  /-- The order of such a component divides eight. -/
  order_dvd : ∀ j < s.size, addOrderOf (s.weightedShares.getD j 0).torsionPart ∣ 8
  /-- All do if all public shares of the key do. -/
  mem_of_forall : (∀ X ∈ a.key.publicShares, X ∈ Point.primeSubgroup) →
    ∀ W ∈ s.weightedShares, W ∈ Point.primeSubgroup
  /-- A share can fit if the challenge annihilates the component of small order. -/
  exists_fits_iff : ∀ j < s.size, ∀ R ∈ Point.primeSubgroup, ∀ c,
    (∃ share, Finalization.fits c share R (s.weightedShares.getD j 0) = true) ↔
      addOrderOf (s.weightedShares.getD j 0).torsionPart ∣ c.val
  /-- So there is a share for every challenge only if there is no such component. -/
  forall_exists_fits_iff : ∀ j < s.size, ∀ R ∈ Point.primeSubgroup,
    (∀ c, ∃ share, Finalization.fits c share R (s.weightedShares.getD j 0) = true) ↔
      s.weightedShares.getD j 0 ∈ Point.primeSubgroup
  /-- Admission does not depend on the public shares of the others. -/
  unchecked : ∀ publicShares : List Point,
    publicShares.length = a.key.publicShares.length →
    publicShares[a.key.partyId.toNat]? = a.key.publicShares[a.key.partyId.toNat]? →
      ∃ r, (a.withPublicShares publicShares).commitRound = .ok r
  /-- Where no share can fit and nobody before is off, a failure names the signer anyway. -/
  named : ∀ f, a.Finalizes f → ∀ j < s.size,
    ¬ addOrderOf (s.weightedShares.getD j 0).torsionPart ∣ f.aggregate.challenge.val →
    (∀ k < j, f.shareError k = 0) → (∀ sig, f.finalize ≠ .ok sig) →
      f.finalize = .error (.invalidShare j)

section Admitted

variable {a : Entrant}

theorem publicShareAt_own (h : Admissible a.config a.key) :
    a.publicShareAt a.config.partyIndex.toNat = a.key.secretShare • Point.generator := by
  simp only [publicShareAt, partyAt, List.getD_eq_getElem?_getD, h.own_party, h.own_share,
    Option.getD_some]

theorem partyAt_lt (h : Admissible a.config a.key) {j : Nat}
    (hj : j < a.config.parties.length) :
    (a.partyAt j).toNat < a.key.publicShares.length := by
  rw [partyAt, List.getD_eq_getElem _ _ hj]
  exact h.parties_lt _ (List.getElem_mem hj)

theorem publicShareAt_mem (h : Admissible a.config a.key) {j : Nat}
    (hj : j < a.config.parties.length) : a.publicShareAt j ∈ a.key.publicShares := by
  rw [publicShareAt, List.getD_eq_getElem _ _ (partyAt_lt h hj)]
  exact List.getElem_mem _

/-- A signer that no share can fit is off, whatever its share is. -/
theorem Finalizes.shareError_ne_zero {f : Finalization} (h : a.Finalizes f) {j : Nat}
    (hj : j < a.config.parties.length)
    (htorsion : ¬ addOrderOf (a.session.weightedShares.getD j 0).torsionPart ∣
      f.aggregate.challenge.val) : f.shareError j ≠ 0 := by
  have hlt : j < f.aggregate.noncePoints.length :=
    h.aligned.length_noncePoints.symm ▸ hj
  have hnonce : f.aggregate.noncePoints.getD j 0 ∈ Point.primeSubgroup := by
    rw [List.getD_eq_getElem _ _ hlt]
    exact h.noncePoints_mem _ (List.getElem_mem hlt)
  rw [← Finalization.exists_fits_iff hnonce, ← h.session_eq] at htorsion
  intro hzero
  exact htorsion ⟨_, Finalization.fits_iff.mpr hzero⟩

theorem Finalizes.finalize_of_torsion {f : Finalization} (h : a.Finalizes f) {j : Nat}
    (hj : j < a.config.parties.length)
    (htorsion : ¬ addOrderOf (a.session.weightedShares.getD j 0).torsionPart ∣
      f.aggregate.challenge.val)
    (hbefore : ∀ k < j, f.shareError k = 0) (hfail : ∀ sig, f.finalize ≠ .ok sig) :
    f.finalize = .error (.invalidShare j) :=
  (h.aligned.decides.invalidShare_iff j).mpr
    ⟨hfail, hj, h.shareError_ne_zero hj htorsion, hbefore⟩

theorem session_shareTests (h : Admissible a.config a.key) : a.ShareTests a.session where
  own_mem := by
    have hown := getD_weightedShares h.own_lt
    rw [← publicShareAt, publicShareAt_own h] at hown
    change a.session.weightedShares.getD a.config.partyIndex.toNat 0 ∈ _
    rw [hown]
    exact Point.smul_mem _ (Point.smul_generator_mem _)
  mem_iff j hj := by
    rw [getD_weightedShares hj, Point.smul_mem_iff]
    rfl
  order_dvd _ _ := Point.addOrderOf_torsionPart_dvd _
  mem_of_forall hall := by
    rw [session_weightedShares, List.forall_mem_map]
    intro id hid
    have hlt := h.parties_lt id hid
    rw [List.getD_eq_getElem _ _ hlt]
    exact Point.smul_mem _ (hall _ (List.getElem_mem hlt))
  exists_fits_iff _ _ _ hR _ := Finalization.exists_fits_iff hR
  forall_exists_fits_iff _ _ _ hR := Finalization.forall_exists_fits_iff hR
  unchecked _ hlength hown :=
    ⟨_, commitRound_eq_ok.mpr ⟨h.congr_publicShares hlength hown, rfl⟩⟩
  named _ hf _ hj := hf.finalize_of_torsion hj

end Admitted

/--
There is a share that passes the test of a signer at every challenge exactly if
its weighted public share belongs to the subgroup of prime order, and admission
makes sure of that for the own one only.
-/
theorem admitted_shareTests {a : Entrant} {r : CommitRound} (h : a.commitRound = .ok r) :
    a.ShareTests r.session := by
  obtain ⟨hadmissible, rfl⟩ := commitRound_eq_ok.mp h
  exact session_shareTests hadmissible

end Entrant

/-- The tests of the first signer of the smallest ceremony. -/
theorem Ceremony.admitted_shareTests_smallest :
    (smallest.entrant 0).commitRound = .ok (.ofSession (smallest.entrant 0).session) ∧
      (smallest.entrant 0).ShareTests (smallest.entrant 0).session := by
  have hadmitted : (smallest.entrant 0).commitRound =
      .ok (.ofSession (smallest.entrant 0).session) :=
    Entrant.commitRound_eq_ok.mpr ⟨valid_smallest.admissible (by decide), rfl⟩
  exact ⟨hadmitted, Entrant.admitted_shareTests hadmitted⟩

/-! ## A public share that is off by small order -/

namespace Entrant

variable {a : Entrant} {T : Point} {j k : Nat}

/-- The entrant, had a point been added to the public share of a holder. -/
def addToShare (a : Entrant) (k : Nat) (T : Point) : Entrant :=
  a.withPublicShares (a.key.publicShares.modify k (· + T))

theorem admissible_addToShare (h : Admissible a.config a.key)
    (hk : k ≠ a.key.partyId.toNat) (T : Point) :
    Admissible (a.addToShare k T).config (a.addToShare k T).key :=
  h.congr_publicShares (List.length_modify _ _ _) (List.getElem?_modify_ne _ _ hk)

section Position

variable (h : Admissible a.config a.key) (hj : j < a.config.parties.length)
  (hk : (a.partyAt j).toNat = k)
include h hj hk

theorem publicShareAt_addToShare (T : Point) :
    (a.addToShare k T).publicShareAt j = a.publicShareAt j + T := by
  subst hk
  have hlt := partyAt_lt h hj
  have hshift : (a.key.publicShares.modify (a.partyAt j).toNat (· + T)).getD
      (a.partyAt j).toNat 0 = a.key.publicShares.getD (a.partyAt j).toNat 0 + T := by
    rw [List.getD_eq_getElem _ _ (by rwa [List.length_modify]), List.getElem_modify_eq,
      List.getD_eq_getElem _ _ hlt]
  exact hshift

/-- A point of small order stays in the weighted public share unless the weight annihilates it. -/
theorem mem_addToShare_iff (hother : k ≠ a.key.partyId.toNat)
    (hshare : a.publicShareAt j ∈ Point.primeSubgroup) (hT : T.times 8 = 0) :
    (a.addToShare k T).session.weightedShares.getD j 0 ∈ Point.primeSubgroup ↔
      addOrderOf T ∣ (a.weightAt j).val := by
  have htests := session_shareTests (admissible_addToShare h hother T)
  rw [htests.mem_iff j hj, publicShareAt_addToShare h hj hk,
    Point.torsionPart_add_smallOrder hshare hT]
  rfl

end Position

end Entrant

namespace Ceremony

/--
With a point of order eight added to the other public share, the first signer of
the smallest ceremony is admitted, and at the challenge one no share of the
other signer fits.
-/
theorem torsion_admitted_smallest :
    ∃ r, ((smallest.entrant 0).addToShare 1 Point.orderEight).commitRound = .ok r ∧
      r.session.weightedShares.getD 1 0 ∉ Point.primeSubgroup ∧
      ∀ share, Finalization.fits 1 share Point.generator
        (r.session.weightedShares.getD 1 0) = false := by
  have hvalid := valid_smallest.admissible (i := 0) (by decide)
  have hone : 1 < (smallest.entrant 0).config.parties.length := by decide
  have hadmissible := Entrant.admissible_addToShare hvalid (k := 1) (by decide)
    Point.orderEight
  have hshare : (smallest.entrant 0).publicShareAt 1 ∈ Point.primeSubgroup :=
    KeyShare.mem_of_mem_publicShares_dealt (Entrant.publicShareAt_mem hvalid hone)
  have hweight : ¬ 8 ∣ ((smallest.entrant 0).weightAt 1).val := by
    decide +kernel
  have hmem : ((smallest.entrant 0).addToShare 1 Point.orderEight).session.weightedShares.getD
      1 0 ∉ Point.primeSubgroup := by
    rw [Entrant.mem_addToShare_iff hvalid hone (by decide) (by decide) hshare
      (by decide +kernel), Point.addOrderOf_orderEight]
    exact hweight
  refine ⟨_, Entrant.commitRound_eq_ok.mpr ⟨hadmissible, rfl⟩, hmem, fun share => ?_⟩
  rw [Bool.eq_false_iff]
  intro hfits
  exact hmem ((Finalization.exists_fits_one_iff Point.generator_mem).mp ⟨share, hfits⟩)

end Ceremony

end Quorum
