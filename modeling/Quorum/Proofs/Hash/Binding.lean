import Mathlib
import Quorum.Commitment
import Quorum.Session.Config
import Quorum.Sigma.Dlog
import Quorum.Sigma.Dual
import Quorum.Proofs.Curve.Affine

/-!
# What transcripts bind

A transcript absorbs the digest of its tag twice and then its segments, each
behind its length.  The bytes absorbed determine the segments, and the segments
determine what the transcript is about.  Hence two transcripts with the same
digest are about the same thing, or some two byte strings that are hashed for
them are a collision.
-/

namespace Quorum

/-! ## Framed segments -/

namespace Bytes

theorem count_eight : count 8 = 2 ^ 64 := by
  decide

theorem ofNatBE_inj {width j k : Nat} (hj : j < count width) (hk : k < count width)
    (h : ofNatBE width j = ofNatBE width k) : j = k := by
  have hread := congrArg toNatBE h
  rwa [toNatBE_ofNatBE, toNatBE_ofNatBE, Nat.mod_eq_of_lt hj, Nat.mod_eq_of_lt hk]
    at hread

theorem ofNatBE_toNat_injective :
    Function.Injective fun k : UInt64 => ofNatBE 8 k.toNat := by
  intro j k h
  have hlt : ∀ i : UInt64, i.toNat < count 8 := by
    intro i
    rw [count_eight]
    exact i.toNat_lt
  exact UInt64.toNat_inj.mp (ofNatBE_inj (hlt j) (hlt k) h)

end Bytes

namespace Transcript

/-- A segment is read off the front of what was absorbed. -/
theorem frame_append_inj {x y s t : Bytes} (hx : x.length < 2 ^ 64)
    (hy : y.length < 2 ^ 64) (h : frame x ++ s = frame y ++ t) : x = y ∧ s = t := by
  rw [frame, frame, List.append_assoc, List.append_assoc] at h
  obtain ⟨hlengths, hrest⟩ := List.append_inj h (by simp [Bytes.lengthBE])
  have hlength : x.length = y.length := by
    rw [← Bytes.count_eight] at hx hy
    exact Bytes.ofNatBE_inj hx hy hlengths
  exact List.append_inj hrest hlength

theorem frame_append_ne_nil (x s : Bytes) : frame x ++ s ≠ [] := by
  intro h
  have hlength := congrArg List.length h
  simp [frame, Bytes.lengthBE] at hlength

/-- The segments can be counted and told apart, although nothing marks their end. -/
theorem flatMap_frame_inj {xs ys : List Bytes} (hxs : ∀ x ∈ xs, x.length < 2 ^ 64)
    (hys : ∀ y ∈ ys, y.length < 2 ^ 64) (h : xs.flatMap frame = ys.flatMap frame) :
    xs = ys := by
  induction xs generalizing ys with
  | nil =>
    cases ys with
    | nil => rfl
    | cons y ys =>
      rw [List.flatMap_nil, List.flatMap_cons] at h
      exact absurd h.symm (frame_append_ne_nil y _)
  | cons x xs ih =>
    cases ys with
    | nil =>
      rw [List.flatMap_nil, List.flatMap_cons] at h
      exact absurd h (frame_append_ne_nil x _)
    | cons y ys =>
      rw [List.forall_mem_cons] at hxs hys
      rw [List.flatMap_cons, List.flatMap_cons] at h
      obtain ⟨hhead, htail⟩ := frame_append_inj hxs.1 hys.1 h
      rw [hhead, ih hxs.2 hys.2 htail]

/-! ## Collisions -/

/-- Some two byte strings, one of each list, are a collision of the hash. -/
def Collides (hashed hashed' : List Bytes) : Prop :=
  ∃ a ∈ hashed, ∃ b ∈ hashed', a ≠ b ∧ sha512t256 a = sha512t256 b

def hashed (tag : Bytes) (segments : List Bytes) : List Bytes :=
  [tag, input tag segments]

theorem Collides.mono {as bs cs ds : List Bytes} (h : Collides as bs) (hac : as ⊆ cs)
    (hbd : bs ⊆ ds) : Collides cs ds := by
  obtain ⟨a, ha, b, hb, hne, heq⟩ := h
  exact ⟨a, hac ha, b, hbd hb, hne, heq⟩

/-- A digest binds the tag and the segments, up to a collision. -/
theorem eq_or_collides {tag tag' : Bytes} {segments segments' : List Bytes}
    (hsize : ∀ s ∈ segments, s.length < 2 ^ 64)
    (hsize' : ∀ s ∈ segments', s.length < 2 ^ 64)
    (h : digest tag segments = digest tag' segments') :
    tag = tag' ∧ segments = segments' ∨
      Collides (hashed tag segments) (hashed tag' segments') := by
  by_cases hinput : input tag segments = input tag' segments'
  · have hlength : ∀ t : Bytes, (sha512t256 t).toList.length = 32 :=
      fun t => (sha512t256 t).length_eq
    simp only [input, List.append_assoc] at hinput
    obtain ⟨htags, hrest⟩ := List.append_inj hinput (by rw [hlength, hlength])
    obtain ⟨-, hframes⟩ := List.append_inj hrest (by rw [hlength, hlength])
    by_cases htag : tag = tag'
    · exact Or.inl ⟨htag, flatMap_frame_inj hsize hsize' hframes⟩
    · right
      exact ⟨tag, by simp [hashed], tag', by simp [hashed], htag,
        Octets.toList_injective htags⟩
  · right
    exact ⟨_, by simp [hashed], _, by simp [hashed], hinput, h⟩

/-! ## The uses of transcripts -/

/-- What a transcript is about: the inputs of each of its uses. -/
inductive Subject
  /-- A list of values with the random bytes that hide them. -/
  | commitment (randomness : Octets 32) (values : List Bytes)
  /-- A session of some signers of a key. -/
  | session (sessionId : Octets 32) (publicKey : Point) (parties : List PartyId)
  /-- A statement about one exponent with the prover's first message. -/
  | dlog (context : Bytes) (X alpha : Point)
  /-- A statement about two exponents with the prover's first message. -/
  | dual (context : Bytes) (V R alpha : Point)

namespace Subject

def purpose : Subject → Purpose
  | commitment .. => .commitment
  | session .. => .session
  | dlog .. => .dlog
  | dual .. => .dual

/-- The segments absorbed; neither threshold nor position is among those of a session. -/
def segments : Subject → List Bytes
  | commitment randomness values => Decommitment.segments ⟨randomness, values⟩
  | session sessionId publicKey parties =>
    SessionConfig.segments ⟨sessionId, 0, 0, parties⟩ publicKey
  | dlog context X alpha => DlogProof.segments context X alpha
  | dual context V R alpha => DualProof.segments context V R alpha

def digest (t : Subject) : Octets 32 :=
  Transcript.digest t.purpose.tag t.segments

def hashed (t : Subject) : List Bytes :=
  Transcript.hashed t.purpose.tag t.segments

/-- Every segment has a length that can be written in eight bytes. -/
def IsSized (t : Subject) : Prop :=
  ∀ s ∈ t.segments, s.length < 2 ^ 64

theorem digest_commitment (d : Decommitment) :
    d.commitment = ⟨(commitment d.randomness d.values).digest⟩ :=
  rfl

theorem digest_session (config : SessionConfig) (publicKey : Point) :
    config.ssid publicKey =
      (session config.sessionId publicKey config.parties).digest :=
  rfl

theorem challenge_dlog (s : Bytes) (X alpha : Point) :
    DlogProof.challenge s X alpha =
      Scalar.ofNat ((sample? groupOrder (dlog s X alpha).digest).getD 0) :=
  rfl

theorem challenge_dual (s : Bytes) (V R alpha : Point) :
    DualProof.challenge s V R alpha =
      Scalar.ofNat ((sample? groupOrder (dual s V R alpha).digest).getD 0) :=
  rfl

theorem tag_injective : Function.Injective Purpose.tag := by
  intro p q
  cases p <;> cases q <;> decide

theorem encode_toList_inj {P Q : Point} :
    P.encode.toList = Q.encode.toList ↔ P = Q :=
  (Octets.toList_injective.comp Point.encode_injective).eq_iff

/-- The segments of a use determine what the transcript is about. -/
theorem eq_of_segments_eq {t t' : Subject} (hpurpose : t.purpose = t'.purpose)
    (h : t.segments = t'.segments) : t = t' := by
  cases t with
  | commitment randomness values =>
    cases t' with
    | commitment randomness' values' =>
      simp only [segments, Decommitment.segments, List.cons.injEq] at h
      obtain ⟨hrandomness, -, hvalues⟩ := h
      rw [Octets.toList_injective hrandomness, hvalues]
    | session | dlog | dual => cases hpurpose
  | session sessionId publicKey parties =>
    cases t' with
    | session sessionId' publicKey' parties' =>
      simp only [segments, SessionConfig.segments, List.cons.injEq,
        encode_toList_inj] at h
      obtain ⟨hid, hkey, -, hparties⟩ := h
      rw [Octets.toList_injective hid, hkey,
        List.map_injective_iff.mpr Bytes.ofNatBE_toNat_injective hparties]
    | commitment | dlog | dual => cases hpurpose
  | dlog s X alpha =>
    cases t' with
    | dlog s' X' alpha' =>
      simp only [segments, DlogProof.segments, List.cons.injEq,
        encode_toList_inj] at h
      obtain ⟨hsession, hX, -, halpha, -⟩ := h
      rw [hsession, hX, halpha]
    | commitment | session | dual => cases hpurpose
  | dual s V R alpha =>
    cases t' with
    | dual s' V' R' alpha' =>
      simp only [segments, DualProof.segments, List.cons.injEq,
        encode_toList_inj] at h
      obtain ⟨hsession, hV, hR, -, halpha, -⟩ := h
      rw [hsession, hV, hR, halpha]
    | commitment | session | dlog => cases hpurpose

/-- Equal digests are about the same thing, up to a collision. -/
theorem eq_or_collides {t t' : Subject} (hsize : t.IsSized) (hsize' : t'.IsSized)
    (h : t.digest = t'.digest) : t = t' ∨ Collides t.hashed t'.hashed := by
  rcases Transcript.eq_or_collides hsize hsize' h with ⟨htag, hsegments⟩ | hcollides
  · exact Or.inl (eq_of_segments_eq (tag_injective htag) hsegments)
  · exact Or.inr hcollides

theorem isSized_session (sessionId : Octets 32) (publicKey : Point)
    (parties : List PartyId) : (session sessionId publicKey parties).IsSized := by
  intro s hs
  simp only [segments, SessionConfig.segments, List.mem_cons, List.mem_map] at hs
  rcases hs with rfl | rfl | rfl | ⟨id, -, rfl⟩
  · rw [sessionId.length_eq]
    decide
  · rw [publicKey.encode.length_eq]
    decide
  · rw [Bytes.length_ofNatBE]
    decide
  · rw [Bytes.length_ofNatBE]
    decide

theorem isSized_dlog {s : Bytes} (hs : s.length < 2 ^ 64) (X alpha : Point) :
    (dlog s X alpha).IsSized := by
  have hpoint : ∀ P : Point, P.encode.toList.length < 2 ^ 64 := by
    intro P
    rw [P.encode.length_eq]
    decide
  simp only [IsSized, segments, DlogProof.segments, List.forall_mem_cons]
  exact ⟨hs, hpoint X, hpoint Point.generator, hpoint alpha, List.forall_mem_nil _⟩

end Subject

/-! ## Contexts of proofs -/

theorem length_partyContext (ssid : Octets 32) (j : Nat) :
    (partyContext ssid j).length = 40 := by
  simp [partyContext, ssid.length_eq]

/-- The context of a proof determines the session tag and the position. -/
theorem partyContext_inj {ssid ssid' : Octets 32} {j j' : UInt64}
    (h : partyContext ssid j.toNat = partyContext ssid' j'.toNat) :
    ssid = ssid' ∧ j = j' := by
  have hlength : ssid.toList.length = ssid'.toList.length := by
    rw [ssid.length_eq, ssid'.length_eq]
  obtain ⟨hssid, hindex⟩ := List.append_inj h hlength
  exact ⟨Octets.toList_injective hssid, Bytes.ofNatBE_toNat_injective hindex⟩

/--
The byte strings that are hashed for the challenge of a signer's proof: those of
the session tag and those of the challenge itself.
-/
def contextHashed (config : SessionConfig) (publicKey : Point) (j : UInt64)
    (X alpha : Point) : List Bytes :=
  (Subject.session config.sessionId publicKey config.parties).hashed ++
    (Subject.dlog (partyContext (config.ssid publicKey) j.toNat) X alpha).hashed

/-- A digest shared by the proofs of two signers shows a collision, or they are the same. -/
theorem context_eq_or_collides {config config' : SessionConfig} {A A' : Point}
    {j j' : UInt64} {X X' alpha alpha' : Point}
    (h : (Subject.dlog (partyContext (config.ssid A) j.toNat) X alpha).digest =
      (Subject.dlog (partyContext (config'.ssid A') j'.toNat) X' alpha').digest) :
    (config.sessionId = config'.sessionId ∧ config.parties = config'.parties ∧
        A = A' ∧ j = j') ∨
      Collides (contextHashed config A j X alpha)
        (contextHashed config' A' j' X' alpha') := by
  have hsize : ∀ (ssid : Octets 32) (i : Nat) (Y beta : Point),
      (Subject.dlog (partyContext ssid i) Y beta).IsSized := by
    intro ssid i Y beta
    apply Subject.isSized_dlog
    rw [length_partyContext]
    decide
  rcases Subject.eq_or_collides (hsize _ _ _ _) (hsize _ _ _ _) h with hsame | hcollides
  · injection hsame with hcontext
    obtain ⟨hssid, hj⟩ := partyContext_inj hcontext
    rcases Subject.eq_or_collides (Subject.isSized_session _ _ _)
      (Subject.isSized_session _ _ _) hssid with hsession | hcollides
    · injection hsession with hid hkey hparties
      exact Or.inl ⟨hid, hparties, hkey, hj⟩
    · right
      exact hcollides.mono (List.subset_append_left _ _) (List.subset_append_left _ _)
  · right
    exact hcollides.mono (List.subset_append_right _ _) (List.subset_append_right _ _)

/--
A transcript binds its use and all its inputs, up to a collision of the hash.
In particular a commitment has one opening, and the challenge of a signer's
proof belongs to one session, signing set, key and position.
-/
theorem binding :
    (∀ t t' : Subject, t.IsSized → t'.IsSized → t.digest = t'.digest →
      t = t' ∨ Collides t.hashed t'.hashed) ∧
    (∀ (c : HashCommitment) (d d' : Decommitment),
      (∀ v ∈ d.values, v.length < 2 ^ 64) → (∀ v ∈ d'.values, v.length < 2 ^ 64) →
      c.verify d = true → c.verify d' = true → d ≠ d' →
        Collides (hashed Purpose.commitment.tag d.segments)
          (hashed Purpose.commitment.tag d'.segments)) ∧
    ∀ (config config' : SessionConfig) (A A' : Point) (j j' : UInt64)
      (X X' alpha alpha' : Point),
      digest Purpose.dlog.tag
          (DlogProof.segments (partyContext (config.ssid A) j.toNat) X alpha) =
        digest Purpose.dlog.tag
          (DlogProof.segments (partyContext (config'.ssid A') j'.toNat) X' alpha') →
      (config.sessionId, config.parties, A, j) ≠
        (config'.sessionId, config'.parties, A', j') →
      Collides (contextHashed config A j X alpha)
        (contextHashed config' A' j' X' alpha') := by
  refine ⟨fun t t' => Subject.eq_or_collides, ?_, ?_⟩
  · intro c d d' hsize hsize' hopens hopens' hne
    have hsized : ∀ d : Decommitment, (∀ v ∈ d.values, v.length < 2 ^ 64) →
        (Subject.commitment d.randomness d.values).IsSized := by
      intro d hd s hs
      simp only [Subject.segments, Decommitment.segments, List.mem_cons] at hs
      rcases hs with rfl | rfl | hs
      · rw [d.randomness.length_eq]
        decide
      · rw [Bytes.length_ofNatBE]
        decide
      · exact hd s hs
    rw [HashCommitment.verify, decide_eq_true_iff] at hopens hopens'
    have hdigest := hopens.trans hopens'.symm
    rw [Subject.digest_commitment, Subject.digest_commitment,
      HashCommitment.mk.injEq] at hdigest
    apply (Subject.eq_or_collides (hsized d hsize) (hsized d' hsize') hdigest).resolve_left
    intro hsame
    injection hsame with hrandomness hvalues
    apply hne
    cases d
    cases d'
    cases hrandomness
    cases hvalues
    rfl
  · intro config config' A A' j j' X X' alpha alpha' hdigest hne
    apply (context_eq_or_collides hdigest).resolve_left
    rintro ⟨hid, hparties, hkey, hj⟩
    apply hne
    rw [hid, hparties, hkey, hj]

end Transcript

end Quorum
