import Mathlib
import Quorum.Proofs.Signing.Ceremony
import Quorum.Proofs.Signing.Delivery
import Quorum.Proofs.Signing.Reached

/-!
# Ceremonies that everybody follows

When every signer of a ceremony follows the protocol, what each of them holds
in each round is known beforehand: the commitments and openings of the nonces
that the tapes yield, the aggregate that belongs to them, and the shares.  One
round leads to the next if the signer is started and the first message that it
can accept from each peer is the one that this peer sends.
-/

namespace Quorum.Ceremony

/-- The session of the signer at a position. -/
def session (c : Ceremony) (i : Nat) : Session :=
  (c.entrant i).session

/-- The nonce of the signer at a position. -/
def nonce (c : Ceremony) (i : Nat) : Nonce :=
  (c.session i).nonceOf (c.tape i)

/-- The commitments of all signers. -/
def commitments (c : Ceremony) : List HashCommitment :=
  (List.range c.parties.length).map fun i =>
    (c.nonce i).reveal.decommitment.commitment

/-- The openings of all signers. -/
def reveals (c : Ceremony) : List NonceReveal :=
  (List.range c.parties.length).map fun i => (c.nonce i).reveal

/-- The nonce points of all signers. -/
def noncePoints (c : Ceremony) : List Point :=
  (List.range c.parties.length).map fun i => (c.nonce i).point

/-- The encoded message; empty if it has no encoding. -/
def encoded (c : Ceremony) : Bytes :=
  match c.message.encode with
  | .ok bytes => bytes
  | .error _ => []

/-- What all signers sign. -/
def aggregate (c : Ceremony) : Aggregate :=
  (c.session 0).aggregateOf c.noncePoints c.encoded

/-- The share of the signer at a position. -/
def share (c : Ceremony) (i : Nat) : Scalar :=
  c.aggregate.challenge * (c.session i).signingShare + (c.nonce i).secret

/-- The signer at a position at the beginning of a round; the rounds count from zero. -/
def signer (c : Ceremony) : (round i : Nat) → Signer
  | 0, i => .committing (.ofSession (c.session i))
  | 1, i => .revealing ⟨c.session i, c.nonce i, c.commitments,
      .new revealKind (UInt64.ofNat i) c.parties.length⟩
  | _, i => .sharing ⟨c.session i, c.nonce i, c.commitments, c.reveals,
      .new shareKind (UInt64.ofNat i) c.parties.length⟩

/-- What the signer at a position sends in a round. -/
def content (c : Ceremony) : (round i : Nat) → Content
  | 0, i => .commitment ⟨(c.nonce i).reveal.decommitment.commitment⟩
  | 1, i => .reveal (c.nonce i).reveal
  | _, i => .share ⟨c.share i⟩

/-- The envelope in which it does. -/
def sent (c : Ceremony) (k i : Nat) : Envelope :=
  .broadcast (UInt64.ofNat i) (c.signer k i).number (c.content k i)

/-- What the signer at a position assembles the signature from. -/
def finalization (c : Ceremony) (i : Nat) : Finalization :=
  ⟨c.session i, c.aggregate, (List.range c.parties.length).map c.share⟩

/-- Where the signer at a position stands after a number of rounds. -/
def stage (c : Ceremony) (rounds i : Nat) : Stage :=
  if rounds < 3 then .signing (c.signer rounds i) else .finalizing (c.finalization i)

variable {c : Ceremony}

theorem partners (c : Ceremony) (i j : Nat) : (c.entrant i).Partners (c.entrant j) :=
  ⟨rfl, rfl, rfl, rfl, rfl, rfl, rfl⟩

theorem signer_zero (c : Ceremony) (i : Nat) :
    c.signer 0 i = .committing (.ofSession (c.session i)) :=
  rfl

theorem signer_one (c : Ceremony) (i : Nat) :
    c.signer 1 i = .revealing ⟨c.session i, c.nonce i, c.commitments,
      .new revealKind (UInt64.ofNat i) c.parties.length⟩ :=
  rfl

theorem signer_two (c : Ceremony) (i : Nat) :
    c.signer 2 i = .sharing ⟨c.session i, c.nonce i, c.commitments, c.reveals,
      .new shareKind (UInt64.ofNat i) c.parties.length⟩ :=
  rfl

theorem getElem?_map_range {α : Type} {n : Nat} {f : Nat → α} {j : Nat} {x : α} :
    ((List.range n).map f)[j]? = some x ↔ j < n ∧ x = f j := by
  rw [List.getElem?_map, Option.map_eq_some_iff]
  constructor
  · rintro ⟨k, hk, rfl⟩
    obtain ⟨hj, rfl⟩ := List.getElem?_eq_some_iff.mp hk
    rw [List.length_range] at hj
    rw [List.getElem_range]
    exact ⟨hj, rfl⟩
  · rintro ⟨hj, rfl⟩
    exact ⟨j, List.getElem?_range hj, rfl⟩

theorem length_map_range {α : Type} (n : Nat) (f : Nat → α) :
    ((List.range n).map f).length = n := by
  rw [List.length_map, List.length_range]

theorem Valid.session_own (h : c.Valid) {i : Nat} (hi : i < c.parties.length) :
    (c.session i).own = i :=
  h.toNat_ofNat hi

theorem Valid.encode_eq (h : c.Valid) :
    c.message.encode = .ok c.encoded ∧ c.encoded ≠ [] := by
  obtain ⟨bytes, hbytes, hne⟩ := h.message_encodes
  rw [encoded, hbytes]
  exact ⟨rfl, hne⟩

theorem Valid.openNonces_eq (h : c.Valid) {i : Nat} (hi : i < c.parties.length)
    (round : Round Scalar Aggregate) :
    ShareRound.openNonces
      ⟨c.session i, c.nonce i, c.commitments, c.reveals, round⟩ =
        .ok c.noncePoints := by
  have hlengths : c.commitments.length = c.reveals.length := by
    rw [commitments, reveals, length_map_range, length_map_range]
  rw [ShareRound.openNonces_eq_ok hlengths, noncePoints, commitments, reveals,
    length_map_range, length_map_range]
  refine ⟨rfl, fun j commitment reveal hcommitment hreveal => ?_⟩
  obtain ⟨hj, rfl⟩ := getElem?_map_range.mp hcommitment
  obtain ⟨-, rfl⟩ := getElem?_map_range.mp hreveal
  refine ⟨_, getElem?_map_range.mpr ⟨hj, rfl⟩, ?_⟩
  dsimp only
  rw [h.session_own hi]
  split_ifs with hown
  · rw [hown]
  · have hopen := Session.openNonce_nonceOf ((c.partners i j).ssid_eq)
      (h.nonce_ne_zero j hj)
    have hown : (c.entrant j).session.own = j := h.session_own hj
    rw [hown] at hopen
    exact hopen

theorem Valid.prepare_eq (h : c.Valid) {i : Nat} (hi : i < c.parties.length)
    (round : Round Scalar Aggregate) :
    ShareRound.prepare ⟨c.session i, c.nonce i, c.commitments, c.reveals, round⟩ =
      .ok (c.share i, c.aggregate) := by
  obtain ⟨hencode, hne⟩ := h.encode_eq
  rw [ShareRound.prepare_eq_ok]
  refine ⟨h.openNonces_eq hi round, hencode, hne, ?_, rfl⟩
  exact (c.partners 0 i).aggregateOf_eq _ _

theorem isNew_signer (c : Ceremony) {k : Nat} (i : Nat) :
    (c.signer k i).IsNew c.parties.length := by
  rcases k with _ | _ | _ <;> rfl

theorem own_signer (c : Ceremony) (k i : Nat) :
    (c.signer k i).own = UInt64.ofNat i := by
  rcases k with _ | _ | _ <;> rfl

/-- What is delivered to a signer: from each peer first what this peer sends. -/
def Receives (c : Ceremony) (k i : Nat) (calls : List Call) : Prop :=
  ∀ j < c.parties.length, j ≠ i →
    ∃ e, (delivered calls).find? ((c.signer k i).expects j) = some e ∧
      e.content = c.content k j

section Steps

variable {i : Nat} {calls : List Call} {tape : Tape}

/-- A round of the ceremony is finished with the payloads of all signers. -/
theorem Valid.finish_of_receives (h : c.Valid) (hi : i < c.parties.length) {k : Nat}
    {p : Nat → (c.signer k i).current.payload} {output : (c.signer k i).current.output}
    (hcontent : ∀ j, (c.signer k i).kind.content (p j) = c.content k j)
    (htape : calls.findSome? Call.tape? = some tape)
    (hprepare : (c.signer k i).current.prepare tape = .ok (p i, output))
    (hreceives : c.Receives k i calls) :
    ((c.signer k i).current.round.after
      (Round.eventsOf (c.signer k i).current.prepare calls)).finish =
        .ok ((List.range c.parties.length).map p, output) := by
  have hown : (c.signer k i).own.toNat = i := by
    rw [own_signer, h.toNat_ofNat hi]
  apply (c.isNew_signer i).finish_of_delivery (hown.symm ▸ hi) htape hprepare
  · exact length_map_range _ _
  · rw [hown]
    exact getElem?_map_range.mpr ⟨hi, rfl⟩
  · intro j hj hne payload hpayload
    obtain ⟨-, rfl⟩ := getElem?_map_range.mp hpayload
    rw [hown] at hne
    obtain ⟨e, hfind, he⟩ := hreceives j hj hne
    exact ⟨e, hfind, he.trans (hcontent j).symm⟩

/-- What the first round prepares from the tape of the ceremony. -/
theorem Valid.prepare_committing (h : c.Valid) (hi : i < c.parties.length) :
    (c.signer 0 i).current.prepare (c.tape i) =
      .ok ((c.nonce i).reveal.decommitment.commitment, c.nonce i) := by
  dsimp only [signer_zero, Signer.current_committing]
  exact Session.drawNonce_eq_ok.mpr ⟨h.nonce_ne_zero i hi, rfl, rfl⟩

theorem prepare_revealing (c : Ceremony) (i : Nat) (tape : Tape) :
    (c.signer 1 i).current.prepare tape = .ok ((c.nonce i).reveal, ()) :=
  rfl

theorem Valid.prepare_sharing (h : c.Valid) (hi : i < c.parties.length)
    (tape : Tape) :
    (c.signer 2 i).current.prepare tape = .ok (c.share i, c.aggregate) := by
  dsimp only [signer_two, Signer.current_sharing]
  exact h.prepare_eq hi _

theorem Valid.next_committing (h : c.Valid) (hi : i < c.parties.length)
    (htape : calls.findSome? Call.tape? = some (c.tape i))
    (hreceives : c.Receives 0 i calls) :
    ((c.signer 0 i).after calls).next = .ok (.signing (c.signer 1 i)) := by
  have hfinish := h.finish_of_receives hi (fun _ => rfl) htape
    (h.prepare_committing hi) hreceives
  dsimp only [signer_zero, Signer.current_committing] at hfinish
  rw [signer_zero, Signer.after_committing, signer_one, Signer.next]
  exact map_eq_ok.mpr ⟨_, CommitRound.next_eq_ok.mpr ⟨_, _, hfinish, rfl⟩, rfl⟩

theorem Valid.next_revealing (h : c.Valid) (hi : i < c.parties.length)
    (htape : calls.findSome? Call.tape? = some tape)
    (hreceives : c.Receives 1 i calls) :
    ((c.signer 1 i).after calls).next = .ok (.signing (c.signer 2 i)) := by
  have hfinish := h.finish_of_receives hi (fun _ => rfl) htape
    (c.prepare_revealing i tape) hreceives
  dsimp only [signer_one, Signer.current_revealing] at hfinish
  rw [signer_one, Signer.after_revealing, signer_two, Signer.next]
  exact map_eq_ok.mpr ⟨_, RevealRound.next_eq_ok.mpr ⟨_, hfinish, rfl⟩, rfl⟩

theorem Valid.next_sharing (h : c.Valid) (hi : i < c.parties.length)
    (htape : calls.findSome? Call.tape? = some tape)
    (hreceives : c.Receives 2 i calls) :
    ((c.signer 2 i).after calls).next = .ok (.finalizing (c.finalization i)) := by
  have hfinish := h.finish_of_receives hi (fun _ => rfl) htape
    (h.prepare_sharing hi tape) hreceives
  dsimp only [signer_two, Signer.current_sharing] at hfinish
  rw [signer_two, Signer.after_sharing, Signer.next]
  exact map_eq_ok.mpr ⟨_, ShareRound.next_eq_ok.mpr ⟨_, _, hfinish, rfl⟩, rfl⟩

/-- One round after another leads to the finalization. -/
theorem Valid.next_signer (h : c.Valid) (hi : i < c.parties.length) {k : Nat}
    (hk : k < 3) (htape : calls.findSome? Call.tape? = some tape)
    (hfirst : k = 0 → tape = c.tape i) (hreceives : c.Receives k i calls) :
    ((c.signer k i).after calls).next = .ok (c.stage (k + 1) i) := by
  match k, hk with
  | 0, _ =>
    rw [hfirst rfl] at htape
    exact h.next_committing hi htape hreceives
  | 1, _ => exact h.next_revealing hi htape hreceives
  | 2, _ => exact h.next_sharing hi htape hreceives

theorem Valid.firstOutcome?_signer (h : c.Valid) (hi : i < c.parties.length) {k : Nat}
    (hk : k < 3) (htape : calls.findSome? Call.tape? = some tape)
    (hfirst : k = 0 → tape = c.tape i) :
    (c.signer k i).firstOutcome? calls = some (.ok (c.sent k i)) := by
  have hnew := c.isNew_signer (k := k) i
  rw [sent, ← c.own_signer k i]
  match k, hk with
  | 0, _ =>
    rw [hfirst rfl] at htape
    exact hnew.firstOutcome?_of_prepare htape (h.prepare_committing hi)
  | 1, _ => exact hnew.firstOutcome?_of_prepare htape (c.prepare_revealing i tape)
  | 2, _ => exact hnew.firstOutcome?_of_prepare htape (h.prepare_sharing hi tape)

end Steps

/-! ## Delivery in lockstep -/

/-- Start the round, and receive the messages of all signers in one batch. -/
def lockstep (c : Ceremony) (k i : Nat) : List Call :=
  [.start (c.tape i), .update ((List.range c.parties.length).map (c.sent k))]

theorem Valid.expects_sent (h : c.Valid) {k i j l : Nat}
    (hl : l < c.parties.length) :
    (c.signer k i).expects j (c.sent k l) = true ↔ l = j := by
  have hkind : (c.signer k l).number = (c.signer k i).number ∧
      (c.signer k i).exchanges (c.content k l) = true := by
    rcases k with _ | _ | _ <;> exact ⟨rfl, rfl⟩
  rw [sent, Signer.expects, hkind.1, hkind.2, h.toNat_ofNat hl]
  simp

/-- In lockstep a peer's message is the first one that is expected from it. -/
theorem Valid.find?_lockstep (h : c.Valid) (k i : Nat) {j : Nat}
    (hj : j < c.parties.length) :
    (delivered (c.lockstep k i)).find? ((c.signer k i).expects j) =
      some (c.sent k j) := by
  have hdelivered : delivered (c.lockstep k i) =
      (List.range c.parties.length).map (c.sent k) :=
    List.append_nil _
  rw [hdelivered, List.find?_map, Option.map_eq_some_iff]
  refine ⟨j, List.find?_range_eq_some.mpr ⟨?_, List.mem_range.mpr hj, ?_⟩, rfl⟩
  · exact (h.expects_sent hj).mpr rfl
  · intro l hl
    rw [Bool.not_eq_true', ← Bool.not_eq_true, Function.comp_apply,
      h.expects_sent (hl.trans hj)]
    exact hl.ne

theorem Valid.receives_lockstep (h : c.Valid) (k i : Nat) :
    c.Receives k i (c.lockstep k i) :=
  fun _ hj _ => ⟨_, h.find?_lockstep k i hj, rfl⟩

theorem Valid.enters_signer (h : c.Valid) {i : Nat} (hi : i < c.parties.length)
    {k : Nat} (hk : k < 3) : (c.entrant i).Enters (c.signer k i) := by
  have hstep {k : Nat} (hk : k < 2) (hk' : (c.entrant i).Enters (c.signer k i)) :
      (c.entrant i).Enters (c.signer (k + 1) i) := by
    have htape : (c.lockstep k i).findSome? Call.tape? = some (c.tape i) := rfl
    have hnext := h.next_signer hi (by omega) htape (fun _ => rfl)
      (h.receives_lockstep k i)
    rw [stage, if_pos (by omega)] at hnext
    exact .next hk' _ hnext
  have hzero : (c.entrant i).Enters (c.signer 0 i) :=
    .admitted (Entrant.commitRound_eq_ok.mpr ⟨h.admissible hi, rfl⟩)
  match k, hk with
  | 0, _ => exact hzero
  | 1, _ => exact hstep (by decide) hzero
  | 2, _ => exact hstep (by decide) (hstep (by decide) hzero)

theorem Valid.finalizes (h : c.Valid) {i : Nat} (hi : i < c.parties.length) :
    (c.entrant i).Finalizes (c.finalization i) :=
  ⟨c.signer 2 i, c.lockstep 2 i, h.enters_signer hi (by decide),
    h.next_sharing hi rfl (h.receives_lockstep 2 i)⟩

end Quorum.Ceremony
