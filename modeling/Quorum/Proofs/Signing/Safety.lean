import Mathlib
import Quorum.Proofs.Poseidon.Frames
import Quorum.Proofs.Signing.Opening
import Quorum.Proofs.Signing.Verification

/-!
# What admission makes impossible

Everything that the rounds take for granted is checked once, when a signer is
admitted: from then on every list that is indexed by a position has an entry
for each signer, the Lagrange weights exist, and what a completed round hands
on is there.  Together with the codecs being total this leaves the failures
that guard against a fault of the library itself without any way to occur.
-/

namespace Quorum

/-! ## Admission -/

/-- The checks that come before the weights are computed. -/
structure Prechecked (config : SessionConfig) (key : KeyShare) : Prop where
  key_valid : key.validate = .ok ()
  config_valid : config.validate = .ok ()
  matching : Session.matchKey config key = .ok ()

section Prechecked

variable {config : SessionConfig} {key : KeyShare}

/-- No Lagrange weight that admission asks for is ever refused. -/
theorem Prechecked.lagrangeCoefficient_eq (h : Prechecked config key) {id : PartyId}
    (hid : id ∈ config.parties ∨ id = key.partyId) :
    lagrangeCoefficient id config.parties = .ok (lagrangeWeight id config.parties) := by
  obtain ⟨-, -, hnodup, -⟩ := SessionConfig.validate_eq_ok.mp h.config_valid
  obtain ⟨-, hown⟩ := Session.matchKey_eq_ok.mp h.matching
  have hmem : id ∈ config.parties := by
    rcases hid with hid | rfl
    · exact hid
    · exact List.mem_of_getElem? hown
  exact lagrangeCoefficient_eq_ok.mpr ⟨hmem, hnodup, rfl⟩

theorem Prechecked.weightedPublicShare_eq_error (h : Prechecked config key)
    {id : PartyId} (hid : id ∈ config.parties) {e : Error} :
    key.weightedPublicShare id config.parties = .error e ↔
      key.nParties.toNat ≤ id.toNat ∧ e = .invalidPartyId id.toNat := by
  obtain ⟨hcount, -, -⟩ := KeyShare.validate_eq_ok.mp h.key_valid
  rw [KeyShare.weightedPublicShare, ← hcount, ← List.getElem?_eq_none_iff]
  cases key.publicShares[id.toNat]? with
  | none => simp [eq_comm]
  | some share =>
    dsimp only
    rw [h.lagrangeCoefficient_eq (Or.inl hid)]
    exact iff_of_false (by rintro ⟨⟩) (by rintro ⟨⟨⟩, -⟩)

/-- After these checks only a signer that is no holder is refused. -/
theorem Prechecked.establish_eq_error (h : Prechecked config key) {hash : ChallengeHash}
    {message : SigningMessage} {e : Error}
    (herror : Session.establish hash config key message = .error e) :
    ∃ id ∈ config.parties, key.nParties.toNat ≤ id.toNat ∧
      e = .invalidPartyId id.toNat := by
  rw [Session.establish] at herror
  simp only [h.key_valid, h.config_valid, h.matching, bind_eq_error] at herror
  rcases herror with hbad | ⟨⟨⟩, -, hbad | ⟨⟨⟩, -, hbad | ⟨⟨⟩, -, hbad | ⟨shares, -, hbad⟩⟩⟩⟩
  · cases hbad
  · cases hbad
  · cases hbad
  · obtain ⟨before, id, after, hparties, -, hid⟩ := mapM_eq_error.mp hbad
    have hmem : id ∈ config.parties := by
      rw [hparties]
      exact List.mem_append_right _ List.mem_cons_self
    exact ⟨id, hmem, (h.weightedPublicShare_eq_error hmem).mp hid⟩
  · rcases hbad with hbad | ⟨share, -, hbad⟩
    · rw [KeyShare.signingShare, h.lagrangeCoefficient_eq (Or.inr rfl)] at hbad
      cases hbad
    · cases hbad

end Prechecked

/-! ## Buffers -/

/-- Whatever is copied into a buffer of a fixed size fits into it. -/
structure BuffersSuffice (message : SigningMessage) : Prop where
  /-- A message that is encoded has its fixed length, and was not longer before. -/
  message : ∀ max bytes, message.fixedLength = some max → message.encode = .ok bytes →
    message.value.dropLeadingZeros.length ≤ max.toNat ∧ bytes.length = max.toNat
  /-- A piece of a hash input fits into an element behind a zero byte. -/
  piece : ∀ input, ∀ chunk ∈ Bytes.chunks Poseidon.chunkSize input, 1 + chunk.length ≤ 32
  /-- Between two elements there is room in the open frame. -/
  frame : ∀ input es, es <+: Poseidon.elements input → ∃ t,
    es.foldlM Poseidon.Sponge.absorb ⟨[], input.isEmpty⟩ = some t ∧
      t.frame.length < Poseidon.frameSize
  /-- A digest without leading zero bytes fits into the preimage of the challenge. -/
  preimage : ∀ input, (Poseidon.digest input).toList.dropLeadingZeros.length ≤ 64
  coordinate : ∀ x : Coordinate, x.val < Bytes.count 32
  scalar : ∀ s : Scalar, s.val < Bytes.count 32

theorem Bytes.length_dropLeadingZeros_le (bs : Bytes) :
    bs.dropLeadingZeros.length ≤ bs.length :=
  (List.dropWhile_suffix _).length_le

theorem SigningMessage.length_of_encode {m : SigningMessage} {max : UInt64} {bytes : Bytes}
    (hfixed : m.fixedLength = some max) (hencode : m.encode = .ok bytes) :
    m.value.dropLeadingZeros.length ≤ max.toNat ∧ bytes.length = max.toNat := by
  rw [encode, hfixed] at hencode
  dsimp only at hencode
  split_ifs at hencode with hlong
  obtain rfl := Except.ok.inj hencode
  rw [List.length_append, List.length_replicate]
  omega

theorem buffersSuffice (message : SigningMessage) : BuffersSuffice message := by
  constructor
  case message =>
    intro max bytes hfixed hencode
    exact SigningMessage.length_of_encode hfixed hencode
  case piece =>
    intro input chunk hchunk
    have hle := Poseidon.length_le_of_mem_chunks hchunk
    have hsize : Poseidon.chunkSize = 31 := rfl
    omega
  case frame =>
    intro input es hes
    obtain ⟨t, ht, hopen⟩ := Poseidon.Sponge.exists_foldlM_absorbWith
      Poseidon.hashesFrames_hashFrame? es
      (Poseidon.isOpen_start input.isEmpty) fun e he =>
        Poseidon.isReduced_of_mem_elements (hes.subset he)
    exact ⟨t, ht, hopen.1⟩
  case preimage =>
    intro input
    have hle := Bytes.length_dropLeadingZeros_le (Poseidon.digest input).toList
    rw [(Poseidon.digest input).length_eq] at hle
    omega
  case coordinate =>
    intro x
    exact x.isLt.trans (by decide)
  case scalar =>
    intro s
    exact s.isLt.trans (by decide)

/-! ## Failures of a start -/

/-- The failures that the start of a round can report. -/
inductive Error.OfStart : Error → Prop
  /-- The round was started before. -/
  | alreadyStarted (round : Nat) : OfStart (.alreadyStarted round)
  /-- In the first round: the tape yields the nonce zero. -/
  | zeroNonce : OfStart (.invalidWitness .dlogStatement)
  /-- In the third round: a commitment is not opened. -/
  | unopened (j : Nat) : OfStart (.decommitmentFailed j 3)
  /-- In the third round: an opening has not two values. -/
  | malformed (j count : Nat) : OfStart (.malformedDecommitment j 3 count)
  /-- In the third round: the values are not those of a usable point. -/
  | unusable (j : Nat) : OfStart (.invalidPoint j 3)
  /-- In the third round: a proof does not verify. -/
  | unproved (j : Nat) : OfStart (.proofVerificationFailed j 3)
  /-- In the third round: the message does not fit its fixed length. -/
  | tooLong (count max : Nat) : OfStart (.messageTooLong count max)
  /-- In the third round: the message, which is the third segment, is empty. -/
  | empty : OfStart (.emptyHashSegment 2)

theorem ShareRound.Fails.ofStart {r : ShareRound} {e : Error} (h : r.Fails e) :
    e.OfStart := by
  cases h with
  | peer _ hrefuses _ =>
    cases hrefuses with
    | unopened => exact .unopened _
    | malformed => exact .malformed _ _
    | offCurve => exact .unusable _
    | smallOrder => exact .unusable _
    | unproved => exact .unproved _
  | message _ hmessage =>
    cases hmessage with
    | tooLong => exact .tooLong _ _
    | empty => exact .empty

theorem Signer.ofStart_of_prepare {s : Signer} {tape : Tape} {e : Error}
    (h : s.current.prepare tape = .error e) : e.OfStart := by
  cases s with
  | committing r =>
    rw [current_committing] at h
    dsimp only at h
    rw [Session.drawNonce_eq] at h
    split_ifs at h
    obtain rfl := Except.error.inj h
    exact .zeroNonce
  | revealing r => cases h
  | sharing r =>
    rw [current_sharing] at h
    exact (ShareRound.prepare_eq_error_iff_fails.mp h).ofStart

/-- Whatever a start reports, whenever it is called, is one of these failures. -/
theorem Signer.IsNew.ofStart_of_start {s : Signer} {n : Nat} (h : s.IsNew n)
    {calls : List Call} {tape : Tape} {e : Error}
    (herror : ((s.after calls).start tape).1 = .error e) : e.OfStart := by
  cases hfirst : s.firstOutcome? calls with
  | none =>
    rw [h.start_fst hfirst, RoundKind.outcome, map_eq_error] at herror
    exact ofStart_of_prepare herror
  | some outcome =>
    rw [h.start_again hfirst] at herror
    obtain rfl := Except.error.inj herror
    exact .alreadyStarted _

/-! ## The rounds -/

/-- What a signer can rely upon in a round among `n` signers. -/
structure Signer.Safe (s : Signer) (n : Nat) : Prop where
  own_lt : s.session.own < n
  length_weightedShares : s.session.weightedShares.length = n
  size_eq : s.current.round.table.size = n
  /-- Hence so many payloads are handed on, if any. -/
  length_values : ∀ values, s.current.round.table.values? = some values →
    values.length = n
  /-- From the second round on there is a commitment of every signer. -/
  length_commitments :
    (∀ r, s = .revealing r → r.commitments.length = n) ∧
      ∀ r, s = .sharing r → r.commitments.length = n
  /-- In the third round there is an opening of every signer. -/
  length_reveals : ∀ r, s = .sharing r → r.reveals.length = n
  /-- Once it was started successfully, there is a nonce point of every signer. -/
  length_noncePoints : ∀ r aggregate, s = .sharing r →
    r.round.output = some aggregate → aggregate.noncePoints.length = n
  /-- What is looked up for a peer is there. -/
  exists_peer : ∀ r, s = .sharing r → ∀ j < n, j ≠ s.session.own →
    ∃ c v, r.commitments[j]? = some c ∧ r.reveals[j]? = some v
  /-- A nonce point always has coordinates, and no other fault of the library occurs. -/
  not_internal : ∀ tape fault, (s.start tape).1 ≠ .error (.internal fault)
  /-- Only the third segment of the challenge can be found empty. -/
  segment_eq : ∀ tape k, (s.start tape).1 = .error (.emptyHashSegment k) → k = 2
  /-- A start fails for no other reasons than those listed. -/
  ofStart : ∀ tape e, (s.start tape).1 = .error e → e.OfStart
  /-- A completed round has the values and the output that it hands on. -/
  completed : s.phase = .completed →
    s.current.round.table.values?.isSome = true ∧
      s.current.round.output.isSome = true ∧ ∃ stage, s.next = .ok stage

namespace Entrant

variable {a : Entrant} {s : Signer}

theorem Enters.of_completed (h : a.Enters s) {calls : List Call}
    (hphase : (s.after calls).phase = .completed) :
    (s.after calls).current.round.table.values?.isSome = true ∧
      (s.after calls).current.round.output.isSome = true ∧
        ∃ stage, (s.after calls).next = .ok stage := by
  obtain ⟨stage, hstage⟩ := (h.lifecycle calls).next_iff.mpr hphase
  obtain ⟨⟨payloads, output⟩, hfinish⟩ :=
    ((s.after calls).exists_next_iff).mp ⟨stage, hstage⟩
  obtain ⟨-, hvalues, houtput⟩ := Round.finish_eq_ok.mp hfinish
  exact ⟨Option.isSome_of_eq_some hvalues, Option.isSome_of_eq_some houtput, stage, hstage⟩

theorem Enters.length_commitments_of_revealing (h : a.Enters s) {calls : List Call}
    {r : RevealRound} (hafter : s.after calls = .revealing r) :
    r.commitments.length = a.config.parties.length := by
  obtain ⟨r₀, rfl, rfl⟩ := Signer.eq_revealing_of_after hafter
  obtain ⟨-, tape, hcommitted⟩ := h.revealing_committed
  exact hcommitted.length_eq

theorem Enters.length_noncePoints_of_sharing (h : a.Enters s) {calls : List Call}
    {r : ShareRound} (hafter : s.after calls = .sharing r) {aggregate : Aggregate}
    (houtput : r.round.output = some aggregate) :
    aggregate.noncePoints.length = a.config.parties.length := by
  obtain ⟨r₀, rfl, rfl⟩ := Signer.eq_sharing_of_after hafter
  obtain ⟨tape, hopened⟩ := h.sharing_opened
  have hhistory : (r₀.round.after (Round.eventsOf (fun _ => r₀.prepare) calls)).HasHistory
      _ _ _ (Round.eventsOf (fun _ => r₀.prepare) calls) := h.isNew.hasHistory calls
  obtain ⟨share, hfirst⟩ := hhistory.exists_firstStart_of_output houtput
  rw [Round.firstStart?_eventsOf, Option.map_eq_some_iff] at hfirst
  obtain ⟨_, -, hprepare⟩ := hfirst
  exact (hopened.yields_of_prepare hprepare).length_noncePoints

/-- Every round that an admitted signer gets to is safe, whatever is done to it. -/
theorem Enters.safe (h : a.Enters s) (calls : List Call) :
    (s.after calls).Safe a.config.parties.length := by
  have hsession : (s.after calls).session = a.session := by
    rw [Signer.session_after, h.session_eq]
  have hsize := h.isNew.size_after calls
  have hstart : ∀ tape e, ((s.after calls).start tape).1 = .error e → e.OfStart :=
    fun tape e => h.isNew.ofStart_of_start
  constructor
  case own_lt =>
    rw [hsession]
    exact h.admissible.own_lt
  case length_weightedShares =>
    rw [hsession]
    exact List.length_map _
  case size_eq => exact hsize
  case length_values =>
    intro values hvalues
    rw [(AcceptanceTable.values?_eq_some.mp hvalues).1, hsize]
  case length_commitments =>
    refine ⟨fun r hr => h.length_commitments_of_revealing hr, fun r hr => ?_⟩
    obtain ⟨⟨tape, hopened⟩, -⟩ := h.exists_opened_of_after hr
    exact hopened.committed.length_eq
  case length_reveals =>
    intro r hr
    obtain ⟨⟨tape, hopened⟩, -⟩ := h.exists_opened_of_after hr
    exact hopened.length_reveals
  case length_noncePoints =>
    intro r aggregate hr houtput
    exact h.length_noncePoints_of_sharing hr houtput
  case exists_peer =>
    intro r hr j hj hne
    obtain ⟨⟨tape, hopened⟩, -⟩ := h.exists_opened_of_after hr
    rw [hsession, ← hopened.session_eq] at hne
    obtain ⟨c, v, hpeer⟩ := hopened.exists_hasPeer hj hne
    exact ⟨c, v, hpeer.commitment, hpeer.reveal⟩
  case not_internal =>
    intro tape fault herror
    cases hstart tape _ herror
  case segment_eq =>
    intro tape k herror
    cases hstart tape _ herror
    rfl
  case ofStart => exact hstart
  case completed =>
    intro hphase
    exact h.of_completed hphase

/-- Who is admitted, and what follows from having been admitted. -/
structure Guarded (a : Entrant) : Prop where
  /-- An entrant is admitted exactly under these conditions. -/
  admitted_iff : (∃ r, a.commitRound = .ok r) ↔
    (a.key.publicShares.length = a.key.nParties.toNat ∧
      a.key.partyId.toNat < a.key.nParties.toNat ∧
      a.key.publicShares[a.key.partyId.toNat]? =
        some (a.key.secretShare • Point.generator) ∧
      a.key.publicKey.isValid = true) ∧
    (2 ≤ a.config.threshold.toNat ∧
      a.config.threshold.toNat ≤ a.config.parties.length ∧
      a.config.parties.Nodup ∧
      (∀ id ∈ a.config.parties, id.toNat < a.key.nParties.toNat) ∧
      a.config.partyIndex.toNat < a.config.parties.length ∧
      a.config.threshold = a.key.threshold ∧
      a.config.parties[a.config.partyIndex.toNat]? = some a.key.partyId)
  /-- Whoever passes the checks before the weights has all Lagrange weights. -/
  weights : Prechecked a.config a.key →
    ∀ id, id ∈ a.config.parties ∨ id = a.key.partyId →
      ∃ weight, lagrangeCoefficient id a.config.parties = .ok weight
  /-- It is then refused only if some signer is no holder. -/
  refused : Prechecked a.config a.key → ∀ e, a.commitRound = .error e →
    ∃ id ∈ a.config.parties, a.key.nParties.toNat ≤ id.toNat ∧
      e = .invalidPartyId id.toNat
  /-- Every round that is reached is safe, whatever is called and delivered. -/
  rounds : ∀ s, a.Enters s → ∀ calls, (s.after calls).Safe a.config.parties.length
  /-- A finalization has a share, a nonce point and a weighted public share of every signer. -/
  finalizations : ∀ f, a.Finalizes f → f.Aligned a.config.parties.length
  /-- Whatever is copied into a buffer fits. -/
  buffers : BuffersSuffice a.message
  /-- A verifier can always read the key, so that only the signature is refused. -/
  verifier : ∀ (sig : Signature) message e,
    sig.verify a.key.publicKey message = .error e → e = .invalidSignature

/-- Admission makes every later index and every branch that cannot happen safe. -/
theorem guarded (a : Entrant) : a.Guarded := by
  constructor
  case admitted_iff =>
    have hadmissible : (∃ r, a.commitRound = .ok r) ↔ Admissible a.config a.key := by
      simp only [commitRound_eq_ok, exists_and_left, exists_eq, and_true]
    rw [hadmissible]
    constructor
    · intro h
      have hown := (List.getElem?_eq_some_iff.mp h.own_share).1
      rw [h.share_count] at hown
      have hparties : ∀ id ∈ a.config.parties, id.toNat < a.key.nParties.toNat := by
        rw [← h.share_count]
        exact h.parties_lt
      exact ⟨⟨h.share_count, hown, h.own_share, h.key_valid⟩, h.two_le_threshold,
        h.threshold_le, h.nodup, hparties, h.own_lt, h.threshold_eq, h.own_party⟩
    · rintro ⟨⟨hcount, -, hown, hvalid⟩, htwo, henough, hnodup, hparties, -, hthreshold,
        hparty⟩
      rw [← hcount] at hparties
      exact ⟨hcount, hown, hvalid, htwo, henough, hnodup, hthreshold, hparty, hparties⟩
  case weights =>
    intro hchecked id hid
    exact ⟨_, hchecked.lagrangeCoefficient_eq hid⟩
  case refused =>
    intro hchecked e herror
    rw [commitRound, CommitRound.new, map_eq_error] at herror
    exact hchecked.establish_eq_error herror
  case rounds =>
    intro s h calls
    exact h.safe calls
  case finalizations =>
    intro f h
    exact h.aligned
  case buffers => exact buffersSuffice a.message
  case verifier =>
    intro sig message e herror
    rw [Signature.verify_eq] at herror
    split_ifs at herror
    exact (Except.error.inj herror).symm

end Entrant

end Quorum
