import Mathlib
import Quorum.Proofs.Signing.Delivery
import Quorum.Proofs.Signing.Lifecycle
import Quorum.Proofs.Signing.Reached

/-!
# The course of a signer

A signer is in each of its rounds once, so what happens to it is told by the
calls of each round.  They determine where the signer stands after a number of
rounds, and what it sends.  What a round leads to keeps the messages that the
round ended with.
-/

namespace Quorum

/-- The messages of all signers that the round before ended with. -/
def Stage.contents : Stage → List Content
  | signing (.committing _) => []
  | signing (.revealing r) => r.commitments.map fun c => .commitment ⟨c⟩
  | signing (.sharing r) => r.reveals.map .reveal
  | finalizing f => f.shares.map fun s => .share ⟨s⟩

theorem Round.contents_of_finish {α β : Type} {r : Round α β} {payloads : List α}
    {output : β} (h : r.finish = .ok (payloads, output)) :
    (payloads.map r.kind.content).length = r.table.size ∧
      ∀ j, (payloads.map r.kind.content)[j]? =
        (r.table.get? j).map r.kind.content := by
  obtain ⟨-, hvalues, -⟩ := finish_eq_ok.mp h
  obtain ⟨hlength, hget⟩ := AcceptanceTable.values?_eq_some.mp hvalues
  refine ⟨(List.length_map _).trans hlength, fun j => ?_⟩
  rw [List.getElem?_map, hget]

namespace Signer

theorem contents_handOn (s : Signer) (payloads : List s.current.payload)
    (output : s.current.output) :
    (s.handOn (payloads, output)).contents = payloads.map s.kind.content := by
  cases s <;> rfl

/-- A round that is left hands on the contents of its slots. -/
theorem contents_of_next {s : Signer} {stage : Stage}
    (hkind : s.current.round.kind = s.kind) (h : s.next = .ok stage) :
    stage.contents.length = s.current.round.table.size ∧
      ∀ j, stage.contents[j]? = s.slot j := by
  rw [next_eq] at h
  obtain ⟨⟨payloads, output⟩, hfinish, rfl⟩ := map_eq_ok.mp h
  obtain ⟨hlength, hget⟩ := Round.contents_of_finish hfinish
  rw [contents_handOn, ← hkind]
  exact ⟨hlength, hget⟩

theorem IsNew.round_kind_after {s : Signer} {n : Nat} (h : s.IsNew n) (calls : List Call) :
    (s.after calls).current.round.kind = (s.after calls).kind := by
  have hkind := (h.hasHistory calls).kind_eq
  cases s with
  | committing r =>
    dsimp only [current_committing] at hkind
    rw [after_committing]
    exact hkind
  | revealing r =>
    dsimp only [current_revealing] at hkind
    rw [after_revealing]
    exact hkind
  | sharing r =>
    dsimp only [current_sharing] at hkind
    rw [after_sharing]
    exact hkind

/--
A new round that is left after some calls was started successfully, and hands
on what was sent and the first envelope that was expected from each peer.
-/
theorem IsNew.contents_of_next {s : Signer} {n : Nat} (h : s.IsNew n)
    (hown : s.own.toNat < n) {calls : List Call} {stage : Stage}
    (hnext : (s.after calls).next = .ok stage) :
    stage.contents.length = n ∧
      (∃ e, s.firstOutcome? calls = some (.ok e) ∧
        stage.contents[s.own.toNat]? = some e.content) ∧
      ∀ j < n, j ≠ s.own.toNat → ∃ e,
        (delivered calls).find? (s.expects j) = some e ∧
          stage.contents[j]? = some e.content := by
  obtain ⟨hlength, hslots⟩ := Signer.contents_of_next (h.round_kind_after calls) hnext
  rw [h.size_after] at hlength
  have hsome : ∀ j < n, ∃ content, stage.contents[j]? = some content := by
    intro j hj
    exact ⟨_, List.getElem?_eq_getElem (hlength.symm ▸ hj)⟩
  refine ⟨hlength, ?_, fun j hj hne => ?_⟩
  · obtain ⟨content, hcontent⟩ := hsome _ hown
    rw [hcontent]
    rw [hslots, h.slot_own hown] at hcontent
    obtain ⟨outcome, houtcome, hcontent⟩ := Option.bind_eq_some_iff.mp hcontent
    cases outcome with
    | error e => cases hcontent
    | ok e => exact ⟨e, houtcome, hcontent.symm⟩
  · obtain ⟨content, hcontent⟩ := hsome j hj
    rw [hcontent]
    rw [hslots, h.slot_peer calls hj hne, Option.map_eq_some_iff] at hcontent
    obtain ⟨e, hfind, rfl⟩ := hcontent
    exact ⟨e, hfind, rfl⟩

@[simp]
theorem update_nil (s : Signer) : s.update [] = s := by
  cases s <;> rfl

theorem update_append (s : Signer) (batch batch' : List Envelope) :
    s.update (batch ++ batch') = (s.update batch).update batch' := by
  cases s with
  | committing r =>
    exact congrArg (fun round => committing { r with round })
      (r.round.update_append batch batch')
  | revealing r =>
    exact congrArg (fun round => revealing { r with round })
      (r.round.update_append batch batch')
  | sharing r =>
    exact congrArg (fun round => sharing { r with round })
      (r.round.update_append batch batch')

/-- What a new round sends first was prepared from the first tape that it was given. -/
theorem IsNew.exists_prepared {s : Signer} {n : Nat} (h : s.IsNew n) {calls : List Call}
    {e : Envelope} (hsent : s.firstOutcome? calls = some (.ok e)) :
    ∃ tape payload output, calls.findSome? Call.tape? = some tape ∧
      s.current.prepare tape = .ok (payload, output) ∧
      e.content = s.kind.content payload := by
  rw [firstOutcome?_eq h.not_started, Round.firstStart?_eventsOf, Option.map_map,
    Option.map_eq_some_iff] at hsent
  obtain ⟨tape, htape, houtcome⟩ := hsent
  rw [Function.comp_apply, RoundKind.outcome, h.kind_eq] at houtcome
  obtain ⟨⟨payload, output⟩, hprepare, rfl⟩ := map_eq_ok.mp houtcome
  exact ⟨tape, payload, output, htape, hprepare, rfl⟩

/-- Leaving the first round hands on the nonce of the tape that it was started with. -/
theorem exists_of_next_committing {r : CommitRound} {n : Nat}
    (h : (committing r).IsNew n) (hown : r.round.own.toNat < n) {calls : List Call}
    {s : Signer} (hnext : ((committing r).after calls).next = .ok (.signing s)) :
    ∃ r' tape commitment, s = .revealing r' ∧
      calls.findSome? Call.tape? = some tape ∧
      r.session.drawNonce tape = .ok (commitment, r'.nonce) := by
  have hround : r.round = .new commitKind r.round.own n := h
  rw [after_committing] at hnext
  obtain ⟨r', hr', hs⟩ := map_eq_ok.mp hnext
  injection hs with hs
  obtain ⟨commitments, nonce, hfinish, rfl⟩ := CommitRound.next_eq_ok.mp hr'
  dsimp only at hfinish
  rw [hround] at hfinish
  obtain ⟨tape, commitment, htape, hdraw, -⟩ := Round.prepared_of_finish hown hfinish
  exact ⟨_, tape, commitment, hs.symm, htape, hdraw⟩

end Signer

namespace Entrant

/-- Where a signer stands after a number of rounds, given the calls in each round. -/
def stageAfter (a : Entrant) (calls : Nat → List Call) :
    (rounds : Nat) → Except Error Stage
  | 0 => a.commitRound.map fun r => .signing (.committing r)
  | k + 1 => do
    match ← a.stageAfter calls k with
    | .signing s => (s.after (calls k)).next
    | .finalizing f => return .finalizing f

def Sends (a : Entrant) (calls : Nat → List Call) (k : Nat) (e : Envelope) : Prop :=
  ∃ s, a.stageAfter calls k = .ok (.signing s) ∧
    s.firstOutcome? (calls k) = some (.ok e)

variable {a : Entrant} {calls : Nat → List Call} {k : Nat}

theorem stageAfter_succ {s : Signer}
    (h : a.stageAfter calls k = .ok (.signing s)) :
    a.stageAfter calls (k + 1) = (s.after (calls k)).next := by
  rw [stageAfter, h]
  rfl

theorem exists_of_stageAfter_succ {s : Signer}
    (h : a.stageAfter calls (k + 1) = .ok (.signing s)) :
    ∃ s₀, a.stageAfter calls k = .ok (.signing s₀) ∧
      (s₀.after (calls k)).next = .ok (.signing s) := by
  obtain ⟨stage, hstage, hnext⟩ := bind_eq_ok.mp h
  cases stage with
  | signing s₀ => exact ⟨s₀, hstage, hnext⟩
  | finalizing f => cases hnext

theorem enters_of_stageAfter {s : Signer}
    (h : a.stageAfter calls k = .ok (.signing s)) : a.Enters s := by
  induction k generalizing s with
  | zero =>
    obtain ⟨r, hr, hs⟩ := map_eq_ok.mp h
    injection hs with hs
    rw [← hs]
    exact .admitted hr
  | succ k ih =>
    obtain ⟨s₀, hs₀, hnext⟩ := exists_of_stageAfter_succ h
    exact .next (ih hs₀) _ hnext

theorem finalizes_of_stageAfter {f : Finalization}
    (h : a.stageAfter calls k = .ok (.finalizing f)) : a.Finalizes f := by
  induction k with
  | zero =>
    obtain ⟨r, -, hs⟩ := map_eq_ok.mp h
    cases hs
  | succ k ih =>
    obtain ⟨stage, hstage, hnext⟩ := bind_eq_ok.mp h
    cases stage with
    | signing s => exact ⟨s, calls k, enters_of_stageAfter hstage, hnext⟩
    | finalizing f' =>
      cases hnext
      exact ih hstage

/-- The signer begins in the first round. -/
theorem exists_of_stageAfter_zero {s : Signer}
    (h : a.stageAfter calls 0 = .ok (.signing s)) : ∃ r, s = .committing r := by
  obtain ⟨r, -, hs⟩ := map_eq_ok.mp h
  injection hs with hs
  exact ⟨r, hs.symm⟩

/-- After one round the signer has its nonce from the tape that it was started with. -/
theorem exists_of_stageAfter_one {s : Signer}
    (h : a.stageAfter calls 1 = .ok (.signing s)) :
    ∃ r tape commitment, s = .revealing r ∧
      (calls 0).findSome? Call.tape? = some tape ∧
      a.session.drawNonce tape = .ok (commitment, r.nonce) := by
  obtain ⟨s₀, hs₀, hnext⟩ := exists_of_stageAfter_succ h
  have henters := enters_of_stageAfter hs₀
  obtain ⟨r₀, rfl⟩ := exists_of_stageAfter_zero hs₀
  have hsession : r₀.session = a.session := henters.session_eq
  have hnonce := Signer.exists_of_next_committing henters.isNew henters.own_lt hnext
  rw [hsession] at hnonce
  exact hnonce

theorem exists_of_stageAfter_two {s : Signer}
    (h : a.stageAfter calls 2 = .ok (.signing s)) : ∃ r, s = .sharing r := by
  obtain ⟨s₀, hs₀, hnext⟩ := exists_of_stageAfter_succ h
  obtain ⟨r₀, -, -, rfl, -⟩ := exists_of_stageAfter_one hs₀
  rcases Signer.next_eq_signing hnext with ⟨r, r', hafter, -, -⟩ | ⟨r, r', -, -, rfl⟩
  · obtain ⟨r₁, hr₁, -⟩ := Signer.eq_committing_of_after hafter
    cases hr₁
  · exact ⟨r', rfl⟩

/-- Before a signer gets to a round it is in all earlier ones. -/
theorem exists_of_stageAfter_le {s : Signer} {j : Nat} (hj : j ≤ k)
    (h : a.stageAfter calls k = .ok (.signing s)) :
    ∃ s', a.stageAfter calls j = .ok (.signing s') := by
  induction k generalizing s with
  | zero =>
    rw [Nat.le_zero.mp hj]
    exact ⟨s, h⟩
  | succ k ih =>
    rcases Nat.le_or_eq_of_le_succ hj with hle | rfl
    · obtain ⟨s₀, hs₀, -⟩ := exists_of_stageAfter_succ h
      exact ih hle hs₀
    · exact ⟨s, h⟩

theorem lt_three_of_stageAfter {s : Signer}
    (h : a.stageAfter calls k = .ok (.signing s)) : k < 3 := by
  by_contra hk
  obtain ⟨s₃, hs₃⟩ := exists_of_stageAfter_le (not_lt.mp hk) h
  obtain ⟨s₂, hs₂, hnext⟩ := exists_of_stageAfter_succ hs₃
  obtain ⟨r, rfl⟩ := exists_of_stageAfter_two hs₂
  rcases Signer.next_eq_signing hnext with ⟨_, _, hafter, -⟩ | ⟨_, _, hafter, -⟩
  · obtain ⟨_, heq, -⟩ := Signer.eq_committing_of_after hafter
    cases heq
  · obtain ⟨_, heq, -⟩ := Signer.eq_revealing_of_after hafter
    cases heq

/-- Where a signer stands depends on the calls before only. -/
theorem stageAfter_congr {calls' : Nat → List Call}
    (h : ∀ j < k, calls j = calls' j) :
    a.stageAfter calls k = a.stageAfter calls' k := by
  induction k with
  | zero => rfl
  | succ k ih =>
    rw [stageAfter, stageAfter, ih fun j hj => h j (hj.trans k.lt_succ_self),
      h k k.lt_succ_self]

theorem Sends.unique {e e' : Envelope} (h : a.Sends calls k e)
    (h' : a.Sends calls k e') : e = e' := by
  obtain ⟨s, hs, hsent⟩ := h
  obtain ⟨s', hs', hsent'⟩ := h'
  rw [hs] at hs'
  injection hs' with hs'
  injection hs' with hs'
  rw [← hs', hsent] at hsent'
  exact Except.ok.inj (Option.some.inj hsent')

theorem Sends.exists_prepared {s : Signer} {e : Envelope} (h : a.Sends calls k e)
    (hs : a.stageAfter calls k = .ok (.signing s)) :
    ∃ tape payload output, (calls k).findSome? Call.tape? = some tape ∧
      s.current.prepare tape = .ok (payload, output) ∧
      e.content = s.kind.content payload := by
  obtain ⟨s', hs', hsent⟩ := h
  rw [hs] at hs'
  injection hs' with hs'
  injection hs' with hs'
  subst hs'
  exact (enters_of_stageAfter hs).isNew.exists_prepared hsent

/-- A signer sends in the first round a commitment to the nonce that it draws. -/
theorem Sends.exists_draw {e : Envelope} (h : a.Sends calls 0 e) :
    ∃ tape commitment nonce, (calls 0).findSome? Call.tape? = some tape ∧
      a.session.drawNonce tape = .ok (commitment, nonce) ∧
      e.content = .commitment ⟨commitment⟩ := by
  obtain ⟨s, hs, -⟩ := id h
  obtain ⟨r, rfl⟩ := exists_of_stageAfter_zero hs
  have hprepared := h.exists_prepared hs
  dsimp only [Signer.current_committing, Signer.kind] at hprepared
  have hsession : r.session = a.session := (enters_of_stageAfter hs).session_eq
  rw [hsession] at hprepared
  exact hprepared

theorem Sends.content_eq_reveal {r : RevealRound} {e : Envelope}
    (h : a.Sends calls 1 e)
    (hr : a.stageAfter calls 1 = .ok (.signing (.revealing r))) :
    e.content = .reveal r.nonce.reveal := by
  obtain ⟨_, reveal, _, -, hreveal, hcontent⟩ := h.exists_prepared hr
  have heq : r.nonce.reveal = reveal := congrArg Prod.fst (Except.ok.inj hreveal)
  rw [hcontent, heq]
  rfl

/-- What a signer sends in its first two rounds belongs to one nonce other than zero. -/
theorem Sends.exists_nonce {e e' : Envelope} (h : a.Sends calls 0 e)
    (h' : a.Sends calls 1 e') :
    ∃ tape, tape.scalar.1 ≠ 0 ∧
      e.content = .commitment
        ⟨(a.session.nonceOf tape).reveal.decommitment.commitment⟩ ∧
      e'.content = .reveal (a.session.nonceOf tape).reveal := by
  obtain ⟨tape, commitment, nonce, htape, hdraw, hcontent⟩ := h.exists_draw
  obtain ⟨s', hs', -⟩ := id h'
  obtain ⟨r, tape', _, rfl, htape', hdraw'⟩ := exists_of_stageAfter_one hs'
  have hreveal := h'.content_eq_reveal hs'
  rw [htape, Option.some.injEq] at htape'
  subst htape'
  obtain ⟨hne, rfl, rfl⟩ := Session.drawNonce_eq_ok.mp hdraw
  obtain ⟨-, -, hnonce⟩ := Session.drawNonce_eq_ok.mp hdraw'
  rw [hnonce] at hreveal
  exact ⟨tape, hne, hcontent, hreveal⟩

/-- What a signer sends in its third round is the share that it prepares. -/
theorem Sends.exists_prepare {r : ShareRound} {e : Envelope}
    (h : a.Sends calls 2 e)
    (hr : a.stageAfter calls 2 = .ok (.signing (.sharing r))) :
    ∃ share aggregate, r.prepare = .ok (share, aggregate) ∧
      e.content = .share ⟨share⟩ := by
  obtain ⟨_, share, aggregate, -, hprepare, hcontent⟩ := h.exists_prepared hr
  exact ⟨share, aggregate, hprepare, hcontent⟩

end Entrant

end Quorum
