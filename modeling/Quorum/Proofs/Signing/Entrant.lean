import Mathlib
import Quorum.Proofs.Session.Admission
import Quorum.Proofs.Signing.Calls

/-!
# The rounds that an admitted signer gets to

An entrant is what a signer asks for admission with.  From there it passes
through its rounds: a round that was left after any sequence of calls leads to
the next one, and the last one to the finalization.  This module defines which
rounds and finalizations an entrant can get to in this way, and that each of
these rounds is new when the signer gets to it.
-/

namespace Quorum

/-! ## What follows a round -/

theorem CommitRound.next_eq_ok {r : CommitRound} {r' : RevealRound} :
    r.next = .ok r' ↔ ∃ commitments nonce,
      r.round.finish = .ok (commitments, nonce) ∧
        r' = ⟨r.session, nonce, commitments,
          .new revealKind r.session.config.partyIndex r.session.size⟩ := by
  rw [CommitRound.next, bind_eq_ok]
  constructor
  · rintro ⟨⟨commitments, nonce⟩, hfinish, hok⟩
    cases hok
    exact ⟨commitments, nonce, hfinish, rfl⟩
  · rintro ⟨commitments, nonce, hfinish, rfl⟩
    exact ⟨(commitments, nonce), hfinish, rfl⟩

theorem RevealRound.next_eq_ok {r : RevealRound} {r' : ShareRound} :
    r.next = .ok r' ↔ ∃ reveals, r.round.finish = .ok (reveals, ()) ∧
      r' = ⟨r.session, r.nonce, r.commitments, reveals,
        .new shareKind r.session.config.partyIndex r.session.size⟩ := by
  rw [RevealRound.next, bind_eq_ok]
  constructor
  · rintro ⟨⟨reveals, ⟨⟩⟩, hfinish, hok⟩
    cases hok
    exact ⟨reveals, hfinish, rfl⟩
  · rintro ⟨reveals, hfinish, rfl⟩
    exact ⟨(reveals, ()), hfinish, rfl⟩

theorem ShareRound.next_eq_ok {r : ShareRound} {f : Finalization} :
    r.next = .ok f ↔ ∃ shares aggregate,
      r.round.finish = .ok (shares, aggregate) ∧
        f = ⟨r.session, aggregate, shares⟩ := by
  rw [ShareRound.next, bind_eq_ok]
  constructor
  · rintro ⟨⟨shares, aggregate⟩, hfinish, hok⟩
    cases hok
    exact ⟨shares, aggregate, hfinish, rfl⟩
  · rintro ⟨shares, aggregate, hfinish, rfl⟩
    exact ⟨(shares, aggregate), hfinish, rfl⟩

namespace Signer

def session : Signer → Session
  | committing r => r.session
  | revealing r => r.session
  | sharing r => r.session

theorem session_after (s : Signer) (calls : List Call) :
    (s.after calls).session = s.session := by
  cases s with
  | committing r => rw [after_committing]; rfl
  | revealing r => rw [after_revealing]; rfl
  | sharing r => rw [after_sharing]; rfl

theorem number_after (s : Signer) (calls : List Call) :
    (s.after calls).number = s.number := by
  cases s with
  | committing r => rw [after_committing]; rfl
  | revealing r => rw [after_revealing]; rfl
  | sharing r => rw [after_sharing]; rfl

theorem next_eq_signing {s s' : Signer} (h : s.next = .ok (.signing s')) :
    (∃ r r', s = committing r ∧ r.next = .ok r' ∧ s' = revealing r') ∨
      ∃ r r', s = revealing r ∧ r.next = .ok r' ∧ s' = sharing r' := by
  cases s with
  | committing r =>
    obtain ⟨r', hr', hs'⟩ := map_eq_ok.mp h
    cases hs'
    exact Or.inl ⟨r, r', rfl, hr', rfl⟩
  | revealing r =>
    obtain ⟨r', hr', hs'⟩ := map_eq_ok.mp h
    cases hs'
    exact Or.inr ⟨r, r', rfl, hr', rfl⟩
  | sharing r =>
    obtain ⟨f, -, hs'⟩ := map_eq_ok.mp h
    cases hs'

theorem next_eq_finalizing {s : Signer} {f : Finalization}
    (h : s.next = .ok (.finalizing f)) :
    ∃ r, s = sharing r ∧ r.next = .ok f := by
  cases s with
  | committing r =>
    obtain ⟨r', -, hs'⟩ := map_eq_ok.mp h
    cases hs'
  | revealing r =>
    obtain ⟨r', -, hs'⟩ := map_eq_ok.mp h
    cases hs'
  | sharing r =>
    obtain ⟨f', hf', hs'⟩ := map_eq_ok.mp h
    cases hs'
    exact ⟨r, rfl, hf'⟩

/-- The round that follows is a new one of the same session. -/
theorem next_isNew {s s' : Signer} (h : s.next = .ok (.signing s')) :
    s'.session = s.session ∧ s'.own = s.session.config.partyIndex ∧
      s'.IsNew s.session.size := by
  rcases next_eq_signing h with ⟨r, r', rfl, hr', rfl⟩ | ⟨r, r', rfl, hr', rfl⟩
  · obtain ⟨commitments, nonce, -, rfl⟩ := CommitRound.next_eq_ok.mp hr'
    exact ⟨rfl, rfl, rfl⟩
  · obtain ⟨reveals, -, rfl⟩ := RevealRound.next_eq_ok.mp hr'
    exact ⟨rfl, rfl, rfl⟩

/-- What a round leads to that ends with the given payloads and output. -/
def handOn : (s : Signer) → List s.current.payload × s.current.output → Stage
  | committing r, (commitments, nonce) => .signing (.revealing
    ⟨r.session, nonce, commitments, .new revealKind r.session.config.partyIndex r.session.size⟩)
  | revealing r, (reveals, _) => .signing (.sharing
    ⟨r.session, r.nonce, r.commitments, reveals,
      .new shareKind r.session.config.partyIndex r.session.size⟩)
  | sharing r, (shares, aggregate) => .finalizing ⟨r.session, aggregate, shares⟩

/-- Every round is left by finishing it. -/
theorem next_eq (s : Signer) : s.next = s.current.round.finish.map s.handOn := by
  cases s with
  | committing r =>
    change _ = r.round.finish.map (committing r).handOn
    rw [Signer.next, CommitRound.next]
    cases r.round.finish <;> rfl
  | revealing r =>
    change _ = r.round.finish.map (revealing r).handOn
    rw [Signer.next, RevealRound.next]
    cases r.round.finish <;> rfl
  | sharing r =>
    change _ = r.round.finish.map (sharing r).handOn
    rw [Signer.next, ShareRound.next]
    cases r.round.finish <;> rfl

theorem exists_next_iff (s : Signer) :
    (∃ stage, s.next = .ok stage) ↔
      ∃ result, s.current.round.finish = .ok result := by
  simp only [next_eq, map_eq_ok]
  constructor
  · rintro ⟨_, result, hfinish, -⟩
    exact ⟨result, hfinish⟩
  · rintro ⟨result, hfinish⟩
    exact ⟨_, result, hfinish, rfl⟩

theorem next_of_error {s : Signer} {e : Error}
    (h : s.current.round.finish = .error e) : s.next = .error e := by
  rw [next_eq, h]
  rfl

end Signer

/-- What a signer asks for admission with. -/
structure Entrant where
  hash : ChallengeHash
  config : SessionConfig
  key : KeyShare
  message : SigningMessage

namespace Entrant

/-- The first round, if the entrant is admitted. -/
def commitRound (a : Entrant) : Except Error CommitRound :=
  CommitRound.new a.hash a.config a.key a.message

/-- The signers, each at the beginning of a round, that an entrant can become. -/
inductive Enters (a : Entrant) : Signer → Prop
  /-- The first round follows the admission. -/
  | admitted {r : CommitRound} (h : a.commitRound = .ok r) :
    Enters a (.committing r)
  /-- A later round follows a round that was left after some calls. -/
  | next {s s' : Signer} (h : Enters a s) (calls : List Call)
    (hnext : (s.after calls).next = .ok (.signing s')) : Enters a s'

/-- The finalizations that an entrant can get to. -/
def Finalizes (a : Entrant) (f : Finalization) : Prop :=
  ∃ s calls, a.Enters s ∧ (s.after calls).next = .ok (.finalizing f)

def session (a : Entrant) : Session :=
  Session.admitted a.hash a.config a.key a.message

theorem commitRound_eq_ok {a : Entrant} {r : CommitRound} :
    a.commitRound = .ok r ↔
      Admissible a.config a.key ∧ r = CommitRound.ofSession a.session := by
  rw [commitRound, CommitRound.new, map_eq_ok]
  constructor
  · rintro ⟨s, hs, rfl⟩
    obtain ⟨hadmissible, rfl⟩ := Session.establish_eq_ok.mp hs
    exact ⟨hadmissible, rfl⟩
  · rintro ⟨hadmissible, rfl⟩
    exact ⟨_, Session.establish_eq_ok.mpr ⟨hadmissible, rfl⟩, rfl⟩

theorem Enters.admissible {a : Entrant} {s : Signer} (h : a.Enters s) :
    Admissible a.config a.key := by
  induction h with
  | admitted h => exact (commitRound_eq_ok.mp h).1
  | next _ _ _ ih => exact ih

theorem Enters.session_eq {a : Entrant} {s : Signer} (h : a.Enters s) :
    s.session = a.session := by
  induction h with
  | admitted h =>
    obtain ⟨-, rfl⟩ := commitRound_eq_ok.mp h
    rfl
  | next _ calls hnext ih =>
    rw [(Signer.next_isNew hnext).1, Signer.session_after, ih]

theorem Enters.own_eq {a : Entrant} {s : Signer} (h : a.Enters s) :
    s.own = a.config.partyIndex := by
  cases h with
  | admitted h =>
    obtain ⟨-, rfl⟩ := commitRound_eq_ok.mp h
    rfl
  | next h calls hnext =>
    rw [(Signer.next_isNew hnext).2.1, Signer.session_after, h.session_eq]
    rfl

theorem Enters.isNew {a : Entrant} {s : Signer} (h : a.Enters s) :
    s.IsNew a.config.parties.length := by
  cases h with
  | admitted h =>
    obtain ⟨-, rfl⟩ := commitRound_eq_ok.mp h
    rfl
  | next h calls hnext =>
    have hnew := (Signer.next_isNew hnext).2.2
    rw [Signer.session_after, h.session_eq] at hnew
    exact hnew

theorem Enters.own_lt {a : Entrant} {s : Signer} (h : a.Enters s) :
    s.own.toNat < a.config.parties.length := by
  rw [h.own_eq]
  exact h.admissible.own_lt

/-- Entrants of one session: they differ in their position and secret share only. -/
structure Partners (a b : Entrant) : Prop where
  hash_eq : a.hash = b.hash
  sessionId_eq : a.config.sessionId = b.config.sessionId
  threshold_eq : a.config.threshold = b.config.threshold
  parties_eq : a.config.parties = b.config.parties
  publicKey_eq : a.key.publicKey = b.key.publicKey
  publicShares_eq : a.key.publicShares = b.key.publicShares
  message_eq : a.message = b.message

section Partners

variable {a b : Entrant}

theorem Partners.symm (h : a.Partners b) : b.Partners a :=
  ⟨h.hash_eq.symm, h.sessionId_eq.symm, h.threshold_eq.symm, h.parties_eq.symm,
    h.publicKey_eq.symm, h.publicShares_eq.symm, h.message_eq.symm⟩

theorem Partners.ssid_eq (h : a.Partners b) : a.session.ssid = b.session.ssid := by
  have hsegments : a.config.segments a.key.publicKey =
      b.config.segments b.key.publicKey := by
    rw [SessionConfig.segments, SessionConfig.segments, h.sessionId_eq, h.parties_eq,
      h.publicKey_eq]
  change a.config.ssid a.key.publicKey = b.config.ssid b.key.publicKey
  rw [SessionConfig.ssid, SessionConfig.ssid, hsegments]

theorem Partners.sessionKey_eq (h : a.Partners b) :
    a.session.publicKey = b.session.publicKey :=
  h.publicKey_eq

theorem Partners.weightedShares_eq (h : a.Partners b) :
    a.session.weightedShares = b.session.weightedShares := by
  change (a.config.parties.map fun id => lagrangeWeight id a.config.parties •
      a.key.publicShares.getD id.toNat 0) =
    b.config.parties.map fun id => lagrangeWeight id b.config.parties •
      b.key.publicShares.getD id.toNat 0
  rw [h.parties_eq, h.publicShares_eq]

end Partners

end Entrant

end Quorum
