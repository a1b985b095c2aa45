import Mathlib
import Quorum.Signing.Finalization
import Quorum.Proofs.Curve.DiscreteLog
import Quorum.Proofs.Signing.Honest

/-!
# Who is named when a signature fails

Each share misses its own equation by some point.  The sum of the shares misses
the equation of the signature by the sum of these points, up to what the
weighted public shares miss the joint key by.  Hence the signature is handed
out exactly if these cancel, and if it is not, the first signer that is off is
named.  For a dealt key the weighted public shares add up to the joint key, so
that there always is one.
-/

namespace Quorum

namespace Finalization

/-- By how much the share of a signer misses its nonce point and weighted public share. -/
def shareError (f : Finalization) (j : Nat) : Point :=
  f.shares.getD j 0 • Point.generator - f.aggregate.noncePoints.getD j 0 -
    f.aggregate.challenge • f.session.weightedShares.getD j 0

/-- All data of the `n` signers are there, and the aggregate belongs to them. -/
structure Aligned (f : Finalization) (n : Nat) : Prop where
  length_shares : f.shares.length = n
  length_noncePoints : f.aggregate.noncePoints.length = n
  length_weightedShares : f.session.weightedShares.length = n
  /-- The aggregate nonce is the sum of the nonce points. -/
  nonce_eq : f.aggregate.nonce = f.aggregate.noncePoints.sum

theorem fits_iff {challenge s : Scalar} {R W : Point} :
    fits challenge s R W = true ↔ s • Point.generator - R - challenge • W = 0 := by
  rw [fits, decide_eq_true_iff, sub_sub, sub_eq_zero]

section Aligned

variable {f : Finalization} {n : Nat}

/-- The triples of share, nonce point and weighted public share, signer by signer. -/
theorem Aligned.zip_eq (h : f.Aligned n) :
    (f.shares.zip f.aggregate.noncePoints).zip f.session.weightedShares =
      (List.range n).map fun j =>
        ((f.shares.getD j 0, f.aggregate.noncePoints.getD j 0),
          f.session.weightedShares.getD j 0) := by
  apply List.ext_getElem
  · rw [List.length_zip, List.length_zip, h.length_shares, h.length_noncePoints,
      h.length_weightedShares, Nat.min_self, Nat.min_self, List.length_map,
      List.length_range]
  · intro j hj _
    rw [List.length_zip, List.length_zip, lt_min_iff, lt_min_iff] at hj
    rw [List.getElem_zip, List.getElem_zip, List.getElem_map, List.getElem_range,
      List.getD_eq_getElem _ _ hj.1.1, List.getD_eq_getElem _ _ hj.1.2,
      List.getD_eq_getElem _ _ hj.2]

theorem not_fits_iff (f : Finalization) (j : Nat) :
    (!fits f.aggregate.challenge (f.shares.getD j 0)
      (f.aggregate.noncePoints.getD j 0) (f.session.weightedShares.getD j 0)) = true ↔
        f.shareError j ≠ 0 := by
  rw [Bool.not_eq_true', ← Bool.not_eq_true, fits_iff]
  rfl

/-- The signer that is named is the first one whose share is off. -/
theorem Aligned.findInvalidShare?_eq_some (h : f.Aligned n) {j : Nat} :
    f.findInvalidShare? = some j ↔
      j < n ∧ f.shareError j ≠ 0 ∧ ∀ k < j, f.shareError k = 0 := by
  rw [findInvalidShare?, h.zip_eq, List.findIdx?_eq_some_iff_getElem]
  simp only [List.length_map, List.length_range, List.getElem_map, List.getElem_range,
    not_fits_iff, not_not, exists_prop]

theorem Aligned.findInvalidShare?_eq_none (h : f.Aligned n) :
    f.findInvalidShare? = none ↔ ∀ j < n, f.shareError j = 0 := by
  rw [findInvalidShare?, h.zip_eq, List.findIdx?_eq_none_iff]
  simp only [List.forall_mem_map, List.mem_range]
  refine forall₂_congr fun j _ => ?_
  rw [← Bool.not_eq_true, not_fits_iff, not_not]

/-- The errors of the shares add up to what the sum of the shares misses. -/
theorem Aligned.sum_shareError (h : f.Aligned n) :
    ∑ j ∈ Finset.range n, f.shareError j =
      Scalar.sum f.shares • Point.generator - f.aggregate.nonce -
        f.aggregate.challenge • f.session.weightedShares.sum := by
  have hsum : ∀ {Ps : List Point}, Ps.length = n →
      ∑ j ∈ Finset.range n, Ps.getD j 0 = Ps.sum := by
    rintro Ps rfl
    rw [Finset.sum_range, ← Fin.sum_univ_getElem]
    exact Finset.sum_congr rfl fun j _ => List.getD_eq_getElem _ _ j.isLt
  have hshares : ∑ j ∈ Finset.range n, f.shares.getD j 0 • Point.generator =
      Scalar.sum f.shares • Point.generator := by
    rw [Point.sum_smul Point.generator_mem,
      ← hsum (List.length_map _ |>.trans h.length_shares)]
    refine Finset.sum_congr rfl fun j hj => ?_
    have hj' : j < f.shares.length := h.length_shares ▸ Finset.mem_range.mp hj
    rw [List.getD_eq_getElem _ _ hj',
      List.getD_eq_getElem _ _ (by rwa [List.length_map]), List.getElem_map]
  have hweighted : ∑ j ∈ Finset.range n,
      f.aggregate.challenge • f.session.weightedShares.getD j 0 =
        f.aggregate.challenge • f.session.weightedShares.sum := by
    rw [← hsum h.length_weightedShares, Point.smul_def, Finset.smul_sum]
    rfl
  simp only [shareError]
  rw [Finset.sum_sub_distrib, Finset.sum_sub_distrib, hshares, hweighted,
    hsum h.length_noncePoints, h.nonce_eq]

/-- The signature is handed out if the errors add up to what the public shares miss. -/
theorem Aligned.finalize_eq_ok (h : f.Aligned n) {sig : Signature} :
    f.finalize = .ok sig ↔
      ∑ j ∈ Finset.range n, f.shareError j = f.aggregate.challenge •
        (f.session.publicKey - f.session.weightedShares.sum) ∧
      sig = ⟨f.aggregate.nonce.encode, (Scalar.sum f.shares).encode⟩ := by
  have hfits : fits f.aggregate.challenge (Scalar.sum f.shares) f.aggregate.nonce
      f.session.publicKey = true ↔
        ∑ j ∈ Finset.range n, f.shareError j = f.aggregate.challenge •
          (f.session.publicKey - f.session.weightedShares.sum) := by
    rw [fits_iff, h.sum_shareError, Point.smul_sub, sub_left_inj, sub_eq_zero]
  rw [finalize, ← hfits]
  split_ifs with hok
  · simp [hok, eq_comm]
  · cases f.findInvalidShare? <;> simp [hok]

end Aligned

end Finalization

namespace Entrant

variable {a : Entrant} {f : Finalization}

theorem Finalizes.aligned (h : a.Finalizes f) : f.Aligned a.config.parties.length := by
  obtain ⟨r, tape, share, -, hopened, hprepare, hsession, hlength, -⟩ := h.exists_prepare
  obtain ⟨hopen, -, -, haggregate, -⟩ := ShareRound.prepare_eq_ok.mp hprepare
  constructor
  case length_shares => exact hlength
  case length_noncePoints => exact (hopened.isValid_of_openNonces hopen).1
  case length_weightedShares =>
    rw [hsession]
    exact List.length_map _
  case nonce_eq =>
    rw [haggregate]
    rfl

theorem Finalizes.noncePoints_mem (h : a.Finalizes f) :
    ∀ P ∈ f.aggregate.noncePoints, P ∈ Point.primeSubgroup := by
  obtain ⟨r, tape, share, -, hopened, hprepare, -⟩ := h.exists_prepare
  obtain ⟨hopen, -⟩ := ShareRound.prepare_eq_ok.mp hprepare
  intro P hP
  exact (Point.isValid_iff.mp ((hopened.isValid_of_openNonces hopen).2 P hP)).2

theorem Finalizes.session_eq (h : a.Finalizes f) : f.session = a.session := by
  obtain ⟨_, _, _, -, -, -, hsession, -⟩ := h.exists_prepare
  exact hsession

theorem Finalizes.admissible (h : a.Finalizes f) : Admissible a.config a.key := by
  obtain ⟨_, _, _, hs, -⟩ := h.exists_prepare
  exact hs.admissible

/-- The holder at a position of the signing set. -/
def partyAt (a : Entrant) (j : Nat) : PartyId :=
  a.config.parties.getD j 0

/-- The Lagrange weight of the holder at a position. -/
def weightAt (a : Entrant) (j : Nat) : Scalar :=
  lagrangeWeight (a.partyAt j) a.config.parties

end Entrant

namespace Finalization

/--
The exact conditions under which a finalization yields each of its results:
`A` is the joint key and `n` the number of signers.
-/
structure Decides (f : Finalization) (A : Point) (n : Nat) : Prop where
  /-- The signature is handed out if the errors of the shares cancel as they have to. -/
  ok_iff : ∀ sig, f.finalize = .ok sig ↔
    ∑ j ∈ Finset.range n, f.shareError j =
      f.aggregate.challenge • (A - f.session.weightedShares.sum) ∧
    sig = ⟨f.aggregate.nonce.encode, (Scalar.sum f.shares).encode⟩
  /-- Otherwise the first signer whose share is off is named, if there is one. -/
  invalidShare_iff : ∀ j, f.finalize = .error (.invalidShare j) ↔
    (∀ sig, f.finalize ≠ .ok sig) ∧
      j < n ∧ f.shareError j ≠ 0 ∧ ∀ k < j, f.shareError k = 0
  /-- Nobody is named only if no share is off. -/
  invalidSignature_iff : f.finalize = .error .invalidSignature ↔
    (∀ sig, f.finalize ≠ .ok sig) ∧ ∀ j < n, f.shareError j = 0
  /-- There is no other failure. -/
  error_cases : ∀ e, f.finalize = .error e →
    (∃ j, e = .invalidShare j) ∨ e = .invalidSignature

/--
What the results of a finalization say about the shares of a dealt key: the
nonce points have discrete logarithms `r`, the holder at a position has the
weight `w` and the dealt secret `x`.
-/
structure BlamesWrongShares (f : Finalization) (w x r : Nat → Scalar) (n : Nat) :
    Prop where
  /-- The nonce points are those of the discrete logarithms. -/
  noncePoints_eq : ∀ j < n,
    f.aggregate.noncePoints.getD j 0 = r j • Point.generator
  /-- Every failure names somebody. -/
  ne_invalidSignature : f.finalize ≠ .error .invalidSignature
  /-- Whoever is named sent a share other than the right one. -/
  share_ne : ∀ j, f.finalize = .error (.invalidShare j) →
    j < n ∧ f.shares.getD j 0 ≠ f.aggregate.challenge * (w j * x j) + r j
  /-- The signature is handed out if the errors of the shares cancel. -/
  ok_iff : (∃ sig, f.finalize = .ok sig) ↔
    Scalar.sum ((List.range n).map fun j =>
      f.shares.getD j 0 - (f.aggregate.challenge * (w j * x j) + r j)) = 0

section Aligned

variable {f : Finalization} {n : Nat}

/-- A finalization without a signature fails with what the search for a wrong share finds. -/
theorem finalize_eq_error {e : Error} :
    f.finalize = .error e ↔ (∀ sig, f.finalize ≠ .ok sig) ∧
      e = match f.findInvalidShare? with
        | some j => .invalidShare j
        | none => .invalidSignature := by
  rw [finalize]
  split_ifs with hfits
  · simp
  · cases f.findInvalidShare? <;> simp [eq_comm]

theorem Aligned.decides (h : f.Aligned n) : f.Decides f.session.publicKey n := by
  constructor
  case ok_iff => exact fun sig => h.finalize_eq_ok
  case invalidShare_iff =>
    intro j
    rw [← h.findInvalidShare?_eq_some, finalize_eq_error]
    cases f.findInvalidShare? <;> simp [eq_comm]
  case invalidSignature_iff =>
    rw [← h.findInvalidShare?_eq_none, finalize_eq_error]
    cases f.findInvalidShare? <;> simp
  case error_cases =>
    intro e he
    obtain ⟨-, rfl⟩ := finalize_eq_error.mp he
    cases f.findInvalidShare? with
    | none => exact Or.inr rfl
    | some j => exact Or.inl ⟨j, rfl⟩

/-- With the discrete logarithms the error of a share is one of exponents. -/
theorem shareError_eq_smul {j : Nat} {w x r : Scalar}
    (hnonce : f.aggregate.noncePoints.getD j 0 = r • Point.generator)
    (hweighted : f.session.weightedShares.getD j 0 = w • x • Point.generator) :
    f.shareError j =
      (f.shares.getD j 0 - (f.aggregate.challenge * (w * x) + r)) •
        Point.generator := by
  have hG := Point.generator_mem
  rw [shareError, hnonce, hweighted, Point.sub_smul hG, Point.add_smul hG,
    Point.mul_smul hG, Point.mul_smul hG, sub_sub, add_comm]

/-- A share is off unless it is the one that the discrete logarithms call for. -/
theorem shareError_eq_zero_iff {j : Nat} {w x r : Scalar}
    (hnonce : f.aggregate.noncePoints.getD j 0 = r • Point.generator)
    (hweighted : f.session.weightedShares.getD j 0 = w • x • Point.generator) :
    f.shareError j = 0 ↔
      f.shares.getD j 0 = f.aggregate.challenge * (w * x) + r := by
  rw [shareError_eq_smul hnonce hweighted, Point.smul_generator_eq_zero,
    Residue.sub_eq_zero_iff]

/-- Where the public shares add up to the key, every failure names a wrong share. -/
theorem Aligned.blamesWrongShares (h : f.Aligned n) {w x r : Nat → Scalar}
    (hnonce : ∀ j < n, f.aggregate.noncePoints.getD j 0 = r j • Point.generator)
    (hweighted : ∀ j < n,
      f.session.weightedShares.getD j 0 = w j • x j • Point.generator)
    (hkey : f.session.weightedShares.sum = f.session.publicKey) :
    f.BlamesWrongShares w x r n := by
  have herror : ∀ j < n, f.shareError j =
      (f.shares.getD j 0 - (f.aggregate.challenge * (w j * x j) + r j)) •
        Point.generator :=
    fun j hj => shareError_eq_smul (hnonce j hj) (hweighted j hj)
  have hsum : ∑ j ∈ Finset.range n, f.shareError j =
      Scalar.sum ((List.range n).map fun j =>
        f.shares.getD j 0 - (f.aggregate.challenge * (w j * x j) + r j)) •
          Point.generator := by
    rw [Point.sum_smul Point.generator_mem, List.map_map, ← Point.sum_range_eq_sum]
    refine Finset.sum_congr rfl fun j hj => ?_
    rw [herror j (Finset.mem_range.mp hj), Function.comp_apply]
  have hok : (∃ sig, f.finalize = .ok sig) ↔
      ∑ j ∈ Finset.range n, f.shareError j = 0 := by
    simp only [h.finalize_eq_ok, hkey, sub_self, Point.smul_zero]
    exact ⟨fun ⟨_, hsig, _⟩ => hsig, fun hsig => ⟨_, hsig, rfl⟩⟩
  have hdecides := h.decides
  constructor
  case noncePoints_eq => exact hnonce
  case ne_invalidSignature =>
    intro he
    obtain ⟨hno, hall⟩ := hdecides.invalidSignature_iff.mp he
    obtain ⟨sig, hsig⟩ := hok.mpr
      (Finset.sum_eq_zero fun j hj => hall j (Finset.mem_range.mp hj))
    exact hno sig hsig
  case share_ne =>
    intro j he
    obtain ⟨-, hj, hne, -⟩ := (hdecides.invalidShare_iff j).mp he
    refine ⟨hj, fun hshare => hne ?_⟩
    exact (shareError_eq_zero_iff (hnonce j hj) (hweighted j hj)).mpr hshare
  case ok_iff => rw [hok, hsum, Point.smul_generator_eq_zero]

end Aligned

end Finalization

namespace Entrant

variable {a : Entrant} {f : Finalization}

theorem session_weightedShares (a : Entrant) :
    a.session.weightedShares = a.config.parties.map fun id =>
      lagrangeWeight id a.config.parties • a.key.publicShares.getD id.toNat 0 :=
  rfl

theorem getD_weightedShares {j : Nat} (hj : j < a.config.parties.length) :
    a.session.weightedShares.getD j 0 =
      a.weightAt j • a.key.publicShares.getD (a.partyAt j).toNat 0 := by
  rw [session_weightedShares, List.getD_eq_getElem _ _ (by rwa [List.length_map]),
    List.getElem_map, weightAt, partyAt, List.getD_eq_getElem _ _ hj]

/-- The public shares that a holder of a dealt key weights are those of the dealt secrets. -/
theorem weightedShares_of_dealt {threshold n : UInt64} {tape rest : Tape}
    {shares : List KeyShare}
    (hdeal : dealShares threshold n tape = .ok (shares, rest))
    (hkey : a.key ∈ shares) (h : Admissible a.config a.key) :
    (∀ j < a.config.parties.length, a.session.weightedShares.getD j 0 =
      a.weightAt j • KeyShare.secretOf shares (a.partyAt j) • Point.generator) ∧
    a.session.weightedShares.sum = a.session.publicKey := by
  obtain ⟨-, -, rfl, -⟩ := dealShares_eq_ok.mp hdeal
  obtain ⟨id, -, hid⟩ := KeyShare.mem_ofCoefficients.mp hkey
  have hparties : ∀ other ∈ a.config.parties, other.toNat < n.toNat := by
    intro other hother
    have hlt := h.parties_lt other hother
    rw [hid, KeyShare.length_publicShares_dealt] at hlt
    exact hlt
  have hthreshold : (tape.scalars threshold.toNat).1.length ≤
      a.config.parties.length := by
    have hle := h.threshold_le
    rw [h.threshold_eq, hid] at hle
    change (UInt64.ofNat (tape.scalars threshold.toNat).1.length).toNat ≤ _ at hle
    rw [Tape.length_scalars] at hle ⊢
    rwa [UInt64.ofNat_toNat] at hle
  constructor
  · intro j hj
    have hmem : a.partyAt j ∈ a.config.parties := by
      rw [partyAt, List.getD_eq_getElem _ _ hj]
      exact List.getElem_mem hj
    rw [getD_weightedShares hj, KeyShare.secretOf_ofCoefficients (hparties _ hmem),
      List.getD_eq_getElem?_getD, hid,
      KeyShare.getElem?_publicShares_dealt id (hparties _ hmem)]
    rfl
  · have hpublic : a.session.publicKey = a.key.publicKey := rfl
    rw [hpublic, session_weightedShares, hid]
    exact KeyShare.sum_weightedShares_dealt id h.nodup hparties hthreshold

theorem Finalizes.exists_logarithms (h : a.Finalizes f) :
    ∃ r : Nat → Scalar, ∀ j < a.config.parties.length,
      f.aggregate.noncePoints.getD j 0 = r j • Point.generator := by
  have hexists : ∀ j : Nat, ∃ r : Scalar, j < a.config.parties.length →
      f.aggregate.noncePoints.getD j 0 = r • Point.generator := by
    intro j
    by_cases hj : j < a.config.parties.length
    · have hj' : j < f.aggregate.noncePoints.length :=
        h.aligned.length_noncePoints.symm ▸ hj
      rw [List.getD_eq_getElem _ _ hj']
      obtain ⟨r, hr⟩ := Point.exists_smul_generator
        (h.noncePoints_mem _ (List.getElem_mem hj'))
      exact ⟨r, fun _ => hr⟩
    · exact ⟨0, fun hlt => absurd hlt hj⟩
  exact ⟨fun j => (hexists j).choose, fun j => (hexists j).choose_spec⟩

/--
A finalization decides exactly and, if the key was dealt, blames nobody whose
share is the right one.
-/
theorem Finalizes.attribution (h : a.Finalizes f) :
    f.Decides a.key.publicKey a.config.parties.length ∧
      ∀ threshold n tape shares rest,
        dealShares threshold n tape = .ok (shares, rest) → a.key ∈ shares →
          ∃ r, f.BlamesWrongShares a.weightAt
            (fun j => KeyShare.secretOf shares (a.partyAt j)) r
            a.config.parties.length := by
  have hpublic : a.key.publicKey = f.session.publicKey := by
    rw [h.session_eq]
    rfl
  refine ⟨hpublic ▸ h.aligned.decides, ?_⟩
  intro threshold n tape shares rest hdeal hkey
  obtain ⟨hweighted, hsum⟩ := weightedShares_of_dealt hdeal hkey h.admissible
  rw [← h.session_eq] at hweighted hsum
  obtain ⟨r, hr⟩ := h.exists_logarithms
  exact ⟨r, h.aligned.blamesWrongShares hr hweighted hsum⟩

end Entrant

/-- The finalization of the first signer of the smallest ceremony. -/
theorem Ceremony.attribution_smallest :
    (smallest.entrant 0).Finalizes (smallest.finalization 0) ∧
      (smallest.finalization 0).Decides (smallest.entrant 0).key.publicKey 2 ∧
      ∃ r, (smallest.finalization 0).BlamesWrongShares (smallest.entrant 0).weightAt
        (fun j => KeyShare.secretOf smallest.shares ((smallest.entrant 0).partyAt j))
        r 2 := by
  have hzero : 0 < smallest.parties.length := by decide
  have hfinalizes := valid_smallest.finalizes hzero
  obtain ⟨hdecides, hblames⟩ := hfinalizes.attribution
  exact ⟨hfinalizes, hdecides, hblames _ _ _ _ _ valid_smallest.dealShares_eq
    (valid_smallest.key_mem hzero)⟩

end Quorum
