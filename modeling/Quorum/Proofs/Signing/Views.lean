import Mathlib
import Quorum.Proofs.Signing.Attribution

/-!
# Signers with the same view

Two signers of one session that hold the same messages of the first two rounds
prepare the same aggregate or fail in the same way.  They do so although each of
them keeps its own nonce point as it is and opens those of all others: opening
the own nonce would yield the same point.
-/

namespace Quorum

namespace ShareRound

/-- Two signers hold the same messages of the first two rounds. -/
structure SameView (r r' : ShareRound) : Prop where
  commitments_eq : r.commitments = r'.commitments
  reveals_eq : r.reveals = r'.reveals

theorem SameView.refl (r : ShareRound) : r.SameView r :=
  ⟨rfl, rfl⟩

end ShareRound

/-- Opening a nonce takes nothing but the tag from the session. -/
theorem Session.openNonce_congr {s s' : Session} (h : s.ssid = s'.ssid) :
    s.openNonce = s'.openNonce := by
  funext j c reveal
  rw [openNonce, openNonce, h]

namespace Entrant

variable {a b : Entrant} {r r' : ShareRound} {tape tape' : Tape}

theorem Partners.refl (a : Entrant) : a.Partners a :=
  ⟨rfl, rfl, rfl, rfl, rfl, rfl, rfl⟩

/-- The nonce of a signer opens to its nonce point at every partner. -/
theorem Opened.openNonce_own (h : b.Opened tape r) (hpartners : a.Partners b)
    {c : HashCommitment} {v : NonceReveal}
    (hc : r.commitments[b.config.partyIndex.toNat]? = some c)
    (hv : r.reveals[b.config.partyIndex.toNat]? = some v) :
    a.session.openNonce b.config.partyIndex.toNat c v = .ok r.nonce.point := by
  rw [h.committed.own_eq, Option.some.injEq] at hc
  rw [h.own_reveal, Option.some.injEq] at hv
  rw [← hc, ← hv, h.committed.nonce_eq]
  exact Session.openNonce_nonceOf hpartners.ssid_eq h.committed.ne_zero

/-- Keeping the own nonce point makes no difference. -/
theorem Opened.openNonces_eq (h : a.Opened tape r) :
    r.openNonces = (r.commitments.zip r.reveals).zipIdx.mapM
      fun ((c, v), j) => a.session.openNonce j c v := by
  rw [ShareRound.openNonces]
  apply mapM_congr_mem
  rintro ⟨⟨c, v⟩, j⟩ hmem
  obtain ⟨hc, hv⟩ := List.getElem?_zip_eq_some.mp (List.mk_mem_zipIdx_iff_getElem?.mp hmem)
  dsimp only
  split_ifs with hown
  · rw [hown, h.own_eq] at hc hv
    rw [hown, h.own_eq, h.openNonce_own (Partners.refl a) hc hv]
  · rw [h.session_eq]

theorem Opened.map_prepare (h : a.Opened tape r) :
    r.prepare.map Prod.snd = r.openNonces.bind fun Ps =>
      a.message.encode.bind fun message =>
        if message = [] then .error (.emptyHashSegment 2)
        else .ok (a.session.aggregateOf Ps message) := by
  have hmessage : r.session.message = a.message := by
    rw [h.session_eq]
    rfl
  cases hopen : r.openNonces with
  | error e =>
    rw [ShareRound.prepare_of_openNonces_error hopen]
    rfl
  | ok Ps =>
    rw [ShareRound.prepare_of_openNonces hopen, hmessage, h.session_eq]
    simp only [Except.bind]
    cases a.message.encode with
    | error e => rfl
    | ok message =>
      dsimp only
      split_ifs
      · rfl
      · rfl

section Partners

variable (hpartners : a.Partners b) (h : a.Opened tape r) (h' : b.Opened tape' r')
  (hview : r.SameView r')

include hpartners h h' hview

theorem Partners.openNonces_eq : r.openNonces = r'.openNonces := by
  rw [h.openNonces_eq, h'.openNonces_eq, hview.commitments_eq, hview.reveals_eq,
    Session.openNonce_congr hpartners.ssid_eq]

/-- Partners with the same view prepare the same aggregate or fail in the same way. -/
theorem Partners.map_prepare_eq :
    r.prepare.map Prod.snd = r'.prepare.map Prod.snd := by
  have haggregate : a.session.aggregateOf = b.session.aggregateOf := by
    funext Ps message
    exact hpartners.aggregateOf_eq Ps message
  rw [h.map_prepare, h'.map_prepare, hpartners.openNonces_eq h h' hview,
    hpartners.message_eq, haggregate]

end Partners

end Entrant

end Quorum
