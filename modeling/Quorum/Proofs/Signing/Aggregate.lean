import Mathlib
import Quorum.Proofs.Signing.Nonce

/-!
# What a start of the third round prepares

The start opens the nonce of every peer, in session order, and keeps the own
nonce point as it is.  It fails with the failure of the first peer whose nonce
does not open, or else if the message cannot be encoded or is empty.  Otherwise
the nonce points determine everything: their sum, the challenge, and with the
own secrets the share.
-/

namespace Quorum

theorem Octets.toList_ne_nil {n : Nat} (o : Octets (n + 1)) : o.toList ≠ [] := by
  rw [← List.length_pos_iff, o.length_eq]
  exact n.succ_pos

/-- A challenge needs a message that is not empty. -/
theorem signatureChallenge_eq (hash : ChallengeHash) (r a : Octets 32)
    (message : Bytes) :
    signatureChallenge hash [r.toList, a.toList, message] =
      if message = [] then .error (.emptyHashSegment 2)
      else .ok (Scalar.reduce
        (hash.preimage (r.toList ++ a.toList ++ message)).toList) := by
  have hr : r.toList ≠ [] := r.toList_ne_nil
  have ha : a.toList ≠ [] := a.toList_ne_nil
  rw [signatureChallenge, flattenSegments]
  cases message with
  | nil =>
    have hfind : [r.toList, a.toList, []].findIdx? (·.isEmpty) = some 2 := by
      simp [List.findIdx?_cons, hr, ha]
    rw [hfind, if_pos rfl]
    rfl
  | cons b bs =>
    have hfind : [r.toList, a.toList, b :: bs].findIdx? (·.isEmpty) = none := by
      simp [hr, ha]
    rw [hfind, if_neg (List.cons_ne_nil b bs)]
    simp only [List.flatten_cons, List.flatten_nil, List.append_nil,
      List.append_assoc]
    rfl

/-- The challenge for a nonce point and an encoded message. -/
def Session.challenge (s : Session) (R : Point) (message : Bytes) : Scalar :=
  Scalar.reduce (s.hash.preimage
    (R.encode.toList ++ s.publicKey.encode.toList ++ message)).toList

/-- What is to be signed with the given nonce points of all signers. -/
def Session.aggregateOf (s : Session) (noncePoints : List Point)
    (message : Bytes) : Aggregate where
  nonce := noncePoints.sum
  challenge := s.challenge noncePoints.sum message
  noncePoints := noncePoints
  message := message

namespace ShareRound

variable {r : ShareRound}

/-- The nonce points are the own one and those that the peers' nonces open to. -/
theorem openNonces_eq_ok {Ps : List Point}
    (hlength : r.commitments.length = r.reveals.length) :
    r.openNonces = .ok Ps ↔
      Ps.length = r.commitments.length ∧
        ∀ j c v, r.commitments[j]? = some c → r.reveals[j]? = some v →
          ∃ P, Ps[j]? = some P ∧
            if j = r.session.own then P = r.nonce.point
            else r.session.openNonce j c v = .ok P := by
  have hzip : (r.commitments.zip r.reveals).length = r.commitments.length := by
    rw [List.length_zip, ← hlength, Nat.min_self]
  rw [openNonces, mapM_zipIdx_eq_ok, hzip]
  refine and_congr_right fun _ => ?_
  constructor
  · intro h j c v hc hv
    obtain ⟨P, hP, hopen⟩ := h j (c, v) (List.getElem?_zip_eq_some.mpr ⟨hc, hv⟩)
    refine ⟨P, hP, ?_⟩
    dsimp only at hopen
    split_ifs at hopen ⊢ with hown
    · exact (Except.ok.inj hopen).symm
    · exact hopen
  · rintro h j ⟨c, v⟩ hcv
    obtain ⟨hc, hv⟩ := List.getElem?_zip_eq_some.mp hcv
    obtain ⟨P, hP, hopen⟩ := h j c v hc hv
    refine ⟨P, hP, ?_⟩
    dsimp only
    split_ifs at hopen ⊢ with hown
    · rw [hopen]
    · exact hopen

/-- Opening fails with the failure of the first peer whose nonce does not open. -/
theorem openNonces_eq_error {e : Error} :
    r.openNonces = .error e ↔
      ∃ j c v, r.commitments[j]? = some c ∧ r.reveals[j]? = some v ∧
        j ≠ r.session.own ∧ r.session.openNonce j c v = .error e ∧
        ∀ k < j, k ≠ r.session.own → ∀ c' v', r.commitments[k]? = some c' →
          r.reveals[k]? = some v' → ∃ P, r.session.openNonce k c' v' = .ok P := by
  rw [openNonces, mapM_zipIdx_eq_error]
  constructor
  · rintro ⟨j, ⟨c, v⟩, hcv, hopen, hbefore⟩
    obtain ⟨hc, hv⟩ := List.getElem?_zip_eq_some.mp hcv
    dsimp only at hopen
    split_ifs at hopen with hown
    refine ⟨j, c, v, hc, hv, hown, hopen, fun k hk hne c' v' hc' hv' => ?_⟩
    obtain ⟨P, hP⟩ := hbefore k hk (c', v')
      (List.getElem?_zip_eq_some.mpr ⟨hc', hv'⟩)
    dsimp only at hP
    rw [if_neg hne] at hP
    exact ⟨P, hP⟩
  · rintro ⟨j, c, v, hc, hv, hown, hopen, hbefore⟩
    refine ⟨j, (c, v), List.getElem?_zip_eq_some.mpr ⟨hc, hv⟩, ?_, ?_⟩
    · dsimp only
      rw [if_neg hown]
      exact hopen
    · rintro k hk ⟨c', v'⟩ hcv'
      obtain ⟨hc', hv'⟩ := List.getElem?_zip_eq_some.mp hcv'
      dsimp only
      split_ifs with hown'
      · exact ⟨_, rfl⟩
      · exact hbefore k hk hown' c' v' hc' hv'

theorem prepare_of_openNonces {Ps : List Point} (h : r.openNonces = .ok Ps) :
    r.prepare = r.session.message.encode.bind fun message =>
      if message = [] then .error (.emptyHashSegment 2)
      else .ok (r.session.challenge Ps.sum message * r.session.signingShare +
        r.nonce.secret, r.session.aggregateOf Ps message) := by
  rw [prepare, h]
  change (r.session.message.encode.bind fun message => _) = _
  congr 1
  funext message
  rw [signatureChallenge_eq, Point.sum_eq_sum]
  split_ifs
  · rfl
  · rfl

theorem prepare_of_openNonces_error {e : Error} (h : r.openNonces = .error e) :
    r.prepare = .error e := by
  rw [prepare, h]
  rfl

theorem prepare_eq_ok {share : Scalar} {aggregate : Aggregate} :
    r.prepare = .ok (share, aggregate) ↔
      r.openNonces = .ok aggregate.noncePoints ∧
        r.session.message.encode = .ok aggregate.message ∧
        aggregate.message ≠ [] ∧
        aggregate =
          r.session.aggregateOf aggregate.noncePoints aggregate.message ∧
        share = aggregate.challenge * r.session.signingShare + r.nonce.secret := by
  cases hopen : r.openNonces with
  | error e =>
    rw [prepare_of_openNonces_error hopen]
    simp
  | ok Ps =>
    rw [prepare_of_openNonces hopen]
    cases hmessage : r.session.message.encode with
    | error e => simp [Except.bind]
    | ok message =>
      simp only [Except.bind]
      split_ifs with hempty
      · constructor
        · intro h
          cases h
        · rintro ⟨-, hbytes, hne, -⟩
          cases hbytes
          exact absurd hempty hne
      · constructor
        · intro h
          cases h
          exact ⟨rfl, rfl, hempty, rfl, rfl⟩
        · rintro ⟨hPs, hbytes, -, haggregate, rfl⟩
          rw [Except.ok.injEq] at hPs hbytes ⊢
          rw [haggregate, ← hPs, ← hbytes]
          rfl

theorem prepare_eq_error {e : Error} :
    r.prepare = .error e ↔
      r.openNonces = .error e ∨
        (∃ Ps, r.openNonces = .ok Ps) ∧
          (r.session.message.encode = .error e ∨
            r.session.message.encode = .ok [] ∧ e = .emptyHashSegment 2) := by
  cases hopen : r.openNonces with
  | error e' =>
    rw [prepare_of_openNonces_error hopen]
    simp
  | ok Ps =>
    rw [prepare_of_openNonces hopen]
    cases hmessage : r.session.message.encode with
    | error e' => simp [Except.bind]
    | ok message =>
      simp only [Except.bind]
      split_ifs with hempty
      · simp [hempty, eq_comm]
      · simp [hempty]

theorem exists_prepare_eq_error (r : ShareRound) :
    (∃ e, r.prepare = .error e) ↔
      (∃ j c v, r.commitments[j]? = some c ∧ r.reveals[j]? = some v ∧
        j ≠ r.session.own ∧ ∃ e, r.session.openNonce j c v = .error e) ∨
        ∀ bytes, r.session.message.encode = .ok bytes → bytes = [] := by
  simp only [prepare_eq_error]
  constructor
  · rintro ⟨e, hopen | ⟨-, hmessage | ⟨hmessage, -⟩⟩⟩
    · obtain ⟨j, c, v, hc, hv, hown, herror, -⟩ :=
        openNonces_eq_error.mp hopen
      exact Or.inl ⟨j, c, v, hc, hv, hown, e, herror⟩
    · refine Or.inr fun bytes hbytes => ?_
      rw [hmessage] at hbytes
      cases hbytes
    · refine Or.inr fun bytes hbytes => ?_
      rw [hmessage] at hbytes
      cases hbytes
      rfl
  · intro h
    cases hopen : r.openNonces with
    | error e => exact ⟨e, Or.inl rfl⟩
    | ok Ps =>
      rcases h with ⟨j, c, v, hc, hv, hown, e, herror⟩ | hempty
      · obtain ⟨P, -, hP⟩ := mapM_zipIdx_eq_ok.mp hopen |>.2 j (c, v)
          (List.getElem?_zip_eq_some.mpr ⟨hc, hv⟩)
        dsimp only at hP
        rw [if_neg hown, herror] at hP
        cases hP
      · cases hmessage : r.session.message.encode with
        | error e => exact ⟨e, Or.inr ⟨⟨Ps, rfl⟩, Or.inl rfl⟩⟩
        | ok bytes =>
          obtain rfl := hempty bytes hmessage
          exact ⟨_, Or.inr ⟨⟨Ps, rfl⟩, Or.inr ⟨rfl, rfl⟩⟩⟩

end ShareRound

end Quorum
