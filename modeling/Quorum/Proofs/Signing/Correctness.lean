import Mathlib
import Quorum.Proofs.Signing.Attribution
import Quorum.Proofs.Signing.Course

/-!
# Honest signers sign

If every signer of a valid ceremony is started in every round, and the first
message that a signer can accept from each peer is the one that this peer
sends, then all rounds succeed and all signers get the same signature, which
satisfies the equation of the scheme.  How calls and messages are interleaved
otherwise does not matter, nor does what else is delivered.
-/

namespace Quorum

namespace Ceremony

/--
A schedule of calls on the signers of a ceremony, by round and position, in
which all are started and messages between them are not tampered with.
-/
structure Schedule (c : Ceremony) (calls : (round position : Nat) → List Call) :
    Prop where
  /-- Every signer is started in every round, in the first one with its tape. -/
  started : ∀ k < 3, ∀ i < c.parties.length, ∃ tape,
    (calls k i).findSome? Call.tape? = some tape ∧ (k = 0 → tape = c.tape i)
  /-- The first envelope that can be accepted from a peer is the one that it sent. -/
  genuine : ∀ k < 3, ∀ i < c.parties.length, ∀ j < c.parties.length, j ≠ i →
    ∀ a b s e, c.entrant? i = some a → c.entrant? j = some b →
      a.stageAfter (calls · i) k = .ok (.signing s) →
      b.Sends (calls · j) k e →
        (delivered (calls k i)).find? (s.expects j) = some e

/-- The signer at a position succeeds in all rounds and gets a signature. -/
def Obtains (c : Ceremony) (calls : (round position : Nat) → List Call) (i : Nat)
    (sig : Signature) : Prop :=
  ∃ a, c.entrant? i = some a ∧
    (∀ k < 3, ∃ e, a.Sends (calls · i) k e) ∧
    ∃ f, a.stageAfter (calls · i) 3 = .ok (.finalizing f) ∧ f.finalize = .ok sig

def publicKey (c : Ceremony) : Point :=
  c.dealer.scalar.1 • Point.generator

/-- The sum of the nonces of all signers, times the generator. -/
def jointNonce (c : Ceremony) : Point :=
  Scalar.sum ((List.range c.parties.length).map fun i => (c.tape i).scalar.1) •
    Point.generator

def challenge (c : Ceremony) (message : Bytes) : Scalar :=
  Scalar.reduce (c.hash.preimage
    (c.jointNonce.encode.toList ++ c.publicKey.encode.toList ++ message)).toList

variable {c : Ceremony} {calls : (round position : Nat) → List Call}

/-- A signer that has come so far comes one round further. -/
theorem Valid.stageAfter_succ (h : c.Valid) {i : Nat} (hi : i < c.parties.length)
    {calls : Nat → List Call} {k : Nat} (hk : k < 3)
    (hstage : (c.entrant i).stageAfter calls k = .ok (c.stage k i))
    (hstarted : ∃ tape, (calls k).findSome? Call.tape? = some tape ∧
      (k = 0 → tape = c.tape i))
    (hreceives : c.Receives k i (calls k)) :
    (c.entrant i).stageAfter calls (k + 1) = .ok (c.stage (k + 1) i) := by
  obtain ⟨tape, htape, hfirst⟩ := hstarted
  rw [stage, if_pos hk] at hstage
  rw [Entrant.stageAfter_succ hstage]
  exact h.next_signer hi hk htape hfirst hreceives

theorem Valid.stageAfter_zero (h : c.Valid) {i : Nat} (hi : i < c.parties.length)
    (calls : Nat → List Call) :
    (c.entrant i).stageAfter calls 0 = .ok (c.stage 0 i) := by
  rw [Entrant.stageAfter, Entrant.commitRound_eq_ok.mpr ⟨h.admissible hi, rfl⟩]
  rfl

theorem Valid.stageAfter_eq (h : c.Valid) (hs : c.Schedule calls) {k : Nat}
    (hk : k ≤ 3) {i : Nat} (hi : i < c.parties.length) :
    (c.entrant i).stageAfter (calls · i) k = .ok (c.stage k i) := by
  -- What a signer receives in a round depends on how far all others have come.
  induction k generalizing i with
  | zero => exact h.stageAfter_zero hi _
  | succ k ih =>
    have hk' : k < 3 := hk
    have hstage : ∀ {j : Nat}, j < c.parties.length →
        (c.entrant j).stageAfter (calls · j) k = .ok (.signing (c.signer k j)) := by
      intro j hj
      rw [ih hk'.le hj, stage, if_pos hk']
    apply h.stageAfter_succ hi hk' (ih hk'.le hi) (hs.started k hk' i hi)
    intro j hj hne
    obtain ⟨tape, htape, hfirst⟩ := hs.started k hk' j hj
    have hsent := h.firstOutcome?_signer hj hk' htape hfirst
    exact ⟨_, hs.genuine k hk' i hi j hj hne _ _ _ _ (h.entrant?_eq hi)
      (h.entrant?_eq hj) (hstage hi) ⟨_, hstage hj, hsent⟩, rfl⟩

/-! ## The signature -/

theorem Valid.publicKey_eq (h : c.Valid) (i : Nat) :
    (c.session i).publicKey = c.publicKey := by
  rw [publicKey, ← h.headD_coefficients]
  rfl

theorem nonce_aggregate (c : Ceremony) : c.aggregate.nonce = c.jointNonce := by
  rw [jointNonce, Point.sum_smul Point.generator_mem, List.map_map]
  rfl

theorem Valid.challenge_aggregate (h : c.Valid) :
    c.aggregate.challenge = c.challenge c.encoded := by
  have hchallenge : c.aggregate.challenge =
      (c.session 0).challenge c.aggregate.nonce c.encoded := rfl
  rw [hchallenge, Session.challenge, challenge, h.publicKey_eq, nonce_aggregate]
  rfl

theorem getD_map_range {α : Type} {n : Nat} {f : Nat → α} {d : α} {j : Nat}
    (hj : j < n) : ((List.range n).map f).getD j d = f j := by
  rw [List.getD_eq_getElem?_getD, getElem?_map_range.mpr ⟨hj, rfl⟩, Option.getD_some]

/-- The dealt secret of the holder at a position. -/
def secret (c : Ceremony) (j : Nat) : Scalar :=
  KeyShare.secretOf c.shares (c.party j)

/-- The Lagrange weight of the holder at a position. -/
def weight (c : Ceremony) (j : Nat) : Scalar :=
  lagrangeWeight (c.party j) c.parties

theorem Valid.signingShare_session (h : c.Valid) {j : Nat}
    (hj : j < c.parties.length) :
    (c.session j).signingShare = c.weight j * c.secret j := by
  rw [secret, h.shares_eq,
    KeyShare.secretOf_ofCoefficients (h.parties_lt _ (party_mem hj))]
  rfl

/-- The weighted public shares are those of the dealt secrets, and add up to the key. -/
theorem Valid.weightedShares_session (h : c.Valid) {i : Nat}
    (hi : i < c.parties.length) :
    (∀ j < c.parties.length, (c.session i).weightedShares.getD j 0 =
      c.weight j • c.secret j • Point.generator) ∧
    (c.session i).weightedShares.sum = (c.session i).publicKey :=
  Entrant.weightedShares_of_dealt h.dealShares_eq (h.key_mem hi) (h.admissible hi)

/-- Every share fits the nonce point and the weighted public share of its signer. -/
theorem Valid.shareError_eq_zero (h : c.Valid) {i : Nat} (hi : i < c.parties.length)
    {j : Nat} (hj : j < c.parties.length) : (c.finalization i).shareError j = 0 := by
  have hnonce : (c.finalization i).aggregate.noncePoints.getD j 0 =
      (c.nonce j).secret • Point.generator :=
    getD_map_range hj
  have hshare : (c.finalization i).shares.getD j 0 = c.share j :=
    getD_map_range hj
  have hweighted := (h.weightedShares_session hi).1 j hj
  have haggregate : (c.finalization i).aggregate = c.aggregate := rfl
  rw [Finalization.shareError_eq_zero_iff hnonce hweighted, hshare, share,
    h.signingShare_session hj, haggregate]

/-- All signers assemble one signature, which satisfies the equation of the scheme. -/
theorem Valid.finalize_finalization (h : c.Valid) {i : Nat}
    (hi : i < c.parties.length) :
    (c.finalization i).finalize = .ok ⟨c.jointNonce.encode,
      (Scalar.sum ((List.range c.parties.length).map c.share)).encode⟩ := by
  have haligned := (h.finalizes hi).aligned
  rw [haligned.finalize_eq_ok]
  constructor
  · have hkey : (c.finalization i).session.weightedShares.sum =
        (c.finalization i).session.publicKey := (h.weightedShares_session hi).2
    rw [hkey, sub_self, Point.smul_zero]
    exact Finset.sum_eq_zero fun j hj =>
      h.shareError_eq_zero hi (Finset.mem_range.mp hj)
  · rw [← nonce_aggregate]
    rfl

theorem Valid.sum_share_smul (h : c.Valid) {i : Nat} (hi : i < c.parties.length) :
    Scalar.sum ((List.range c.parties.length).map c.share) • Point.generator =
      c.jointNonce + c.challenge c.encoded • c.publicKey := by
  have hsum := (h.finalizes hi).aligned.sum_shareError
  have hzero : ∑ j ∈ Finset.range (c.entrant i).config.parties.length,
      (c.finalization i).shareError j = 0 :=
    Finset.sum_eq_zero fun j hj => h.shareError_eq_zero hi (Finset.mem_range.mp hj)
  have hkey : (c.finalization i).session.weightedShares.sum = c.publicKey :=
    (h.weightedShares_session hi).2.trans (h.publicKey_eq i)
  have haggregate : (c.finalization i).aggregate = c.aggregate := rfl
  have hshares : (c.finalization i).shares =
      (List.range c.parties.length).map c.share := rfl
  rw [hzero, hkey, haggregate, hshares, h.challenge_aggregate, nonce_aggregate,
    sub_sub, eq_comm, sub_eq_zero] at hsum
  exact hsum

/-- Honest signers obtain one signature, and it is a right one. -/
theorem Valid.honest_signing (h : c.Valid) (hs : c.Schedule calls) :
    ∃ (message : Bytes) (S : Scalar), c.message.encode = .ok message ∧
      S • Point.generator = c.jointNonce + c.challenge message • c.publicKey ∧
      ∀ i < c.parties.length, c.Obtains calls i ⟨c.jointNonce.encode, S.encode⟩ := by
  have hpositive : 0 < c.parties.length :=
    lt_of_lt_of_le (by decide) (h.two_le_threshold.trans h.threshold_le_parties)
  refine ⟨c.encoded, _, h.encode_eq.1, h.sum_share_smul hpositive, fun i hi => ?_⟩
  refine ⟨c.entrant i, h.entrant?_eq hi, fun k hk => ?_, c.finalization i, ?_,
    h.finalize_finalization hi⟩
  · have hstage := h.stageAfter_eq hs hk.le hi
    rw [stage, if_pos hk] at hstage
    obtain ⟨tape, htape, hfirst⟩ := hs.started k hk i hi
    exact ⟨_, _, hstage, h.firstOutcome?_signer hi hk htape hfirst⟩
  · exact h.stageAfter_eq hs le_rfl hi

/-- In lockstep the signers follow one another through the rounds. -/
theorem Valid.stageAfter_lockstep (h : c.Valid) {k : Nat} (hk : k ≤ 3) {i : Nat}
    (hi : i < c.parties.length) :
    (c.entrant i).stageAfter (c.lockstep · i) k = .ok (c.stage k i) := by
  induction k with
  | zero => exact h.stageAfter_zero hi _
  | succ k ih =>
    exact h.stageAfter_succ hi hk (ih (Nat.le_of_succ_le hk))
      ⟨c.tape i, rfl, fun _ => rfl⟩ (h.receives_lockstep k i)

theorem Valid.sends_lockstep (h : c.Valid) {k : Nat} (hk : k < 3) {i : Nat}
    (hi : i < c.parties.length) :
    (c.entrant i).Sends (c.lockstep · i) k (c.sent k i) := by
  have htape : (c.lockstep k i).findSome? Call.tape? = some (c.tape i) := rfl
  have hstage := h.stageAfter_lockstep hk.le hi
  rw [stage, if_pos hk] at hstage
  exact ⟨_, hstage, h.firstOutcome?_signer hi hk htape fun _ => rfl⟩

theorem Valid.schedule_lockstep (h : c.Valid) : c.Schedule c.lockstep := by
  constructor
  case started => exact fun k _ i _ => ⟨c.tape i, rfl, fun _ => rfl⟩
  case genuine =>
    intro k hk i hi j hj _ a b s e ha hb hs hsent
    rw [h.entrant?_eq hi, Option.some.injEq] at ha
    rw [h.entrant?_eq hj, Option.some.injEq] at hb
    subst ha
    subst hb
    rw [h.stageAfter_lockstep hk.le hi, stage, if_pos hk] at hs
    injection hs with hs
    injection hs with hs
    subst hs
    rw [hsent.unique (h.sends_lockstep hk hj)]
    exact h.find?_lockstep k i hj

/-- The smallest ceremony, delivered in lockstep. -/
theorem honest_signing_smallest :
    smallest.Valid ∧ smallest.Schedule smallest.lockstep ∧
      ∃ (message : Bytes) (S : Scalar), smallest.message.encode = .ok message ∧
        S • Point.generator =
          smallest.jointNonce + smallest.challenge message • smallest.publicKey ∧
        ∀ i < 2, smallest.Obtains smallest.lockstep i
          ⟨smallest.jointNonce.encode, S.encode⟩ :=
  ⟨valid_smallest, valid_smallest.schedule_lockstep,
    valid_smallest.honest_signing valid_smallest.schedule_lockstep⟩

end Ceremony

end Quorum
