import Mathlib
import Quorum.Proofs.Bytes
import Quorum.Proofs.Signing.Aggregate

/-!
# The integer that is signed

A message stands for an integer, and its bytes only say which one.  What is
signed is the shortest byte string that denotes the integer, or the one of the
fixed length, if the integer fits into that length.  In either case the bytes
that are signed determine the integer, so that a share for one integer is never
made for the bytes of another.
-/

namespace Quorum

/-! ## Messages -/

namespace SigningMessage

/-- The integer that a message stands for. -/
def integer (m : SigningMessage) : Nat :=
  m.value.toNatBE

variable {m : SigningMessage} {max : UInt64}

theorem encode_of_none (h : m.fixedLength = none) :
    m.encode = .ok m.value.dropLeadingZeros := by
  rw [encode, h]

theorem encode_of_lt (h : m.fixedLength = some max) (hlt : m.integer < 256 ^ max.toNat) :
    m.encode = .ok (Bytes.ofNatBE max.toNat m.integer) := by
  have hle := (Bytes.isShortest_dropLeadingZeros m.value).length_le_iff.mpr hlt
  rw [encode, h]
  dsimp only
  rw [if_neg (not_lt.mpr hle)]
  congr 1
  apply Bytes.eq_of_toNatBE_eq
  · rw [List.length_append, List.length_replicate, Bytes.length_ofNatBE]
    omega
  · rw [Bytes.toNatBE_replicate_append, Bytes.toNatBE_dropLeadingZeros,
      Bytes.toNatBE_ofNatBE_of_lt hlt]
    rfl

theorem encode_of_le (h : m.fixedLength = some max) (hle : 256 ^ max.toNat ≤ m.integer) :
    m.encode = .error (.messageTooLong m.value.dropLeadingZeros.length max.toNat) := by
  have hlong := (Bytes.isShortest_dropLeadingZeros m.value).length_le_iff.not.mpr
    (not_lt.mpr hle)
  rw [encode, h]
  exact if_pos (not_le.mp hlong)

/-- Whatever the bytes of a message are, only its integer enters what is signed. -/
structure EncodesInteger (m : SigningMessage) : Prop where
  /-- Without a fixed length it is the shortest encoding of the integer. -/
  shortest : m.fixedLength = none →
    ∃ bs, m.encode = .ok bs ∧ bs.IsShortest m.integer ∧ (m.integer = 0 → bs = [])
  /-- With a fixed length there is an encoding if the integer fits into it. -/
  isOk_iff : ∀ max, m.fixedLength = some max →
    ((∃ bs, m.encode = .ok bs) ↔ m.integer < 256 ^ max.toNat)
  /-- It has that length, and denotes the integer. -/
  fixed : ∀ max bs, m.fixedLength = some max → m.encode = .ok bs →
    bs.length = max.toNat ∧ bs.toNatBE = m.integer
  /-- Otherwise the failure tells how long the shortest encoding is. -/
  tooLong : ∀ max e, m.fixedLength = some max → m.encode = .error e →
    ∃ bs : Bytes, bs.IsShortest m.integer ∧ e = .messageTooLong bs.length max.toNat

theorem encodesInteger (m : SigningMessage) : m.EncodesInteger := by
  have hshortest := Bytes.isShortest_dropLeadingZeros m.value
  constructor
  case shortest =>
    intro h
    exact ⟨_, encode_of_none h, hshortest, hshortest.eq_nil⟩
  case isOk_iff =>
    intro max h
    rcases lt_or_ge m.integer (256 ^ max.toNat) with hlt | hle
    · exact iff_of_true ⟨_, encode_of_lt h hlt⟩ hlt
    · refine iff_of_false ?_ (not_lt.mpr hle)
      rintro ⟨bs, hbs⟩
      rw [encode_of_le h hle] at hbs
      cases hbs
  case fixed =>
    intro max bs h hbs
    rcases lt_or_ge m.integer (256 ^ max.toNat) with hlt | hle
    · rw [encode_of_lt h hlt] at hbs
      cases hbs
      exact ⟨Bytes.length_ofNatBE _ _, Bytes.toNatBE_ofNatBE_of_lt hlt⟩
    · rw [encode_of_le h hle] at hbs
      cases hbs
  case tooLong =>
    intro max e h he
    rcases lt_or_ge m.integer (256 ^ max.toNat) with hlt | hle
    · rw [encode_of_lt h hlt] at he
      cases he
    · rw [encode_of_le h hle] at he
      cases he
      exact ⟨_, hshortest, rfl⟩

/-- What is signed denotes the integer. -/
theorem toNatBE_of_encode {bs : Bytes} (h : m.encode = .ok bs) : bs.toNatBE = m.integer := by
  cases hfixed : m.fixedLength with
  | none =>
    rw [encode_of_none hfixed] at h
    cases h
    exact Bytes.toNatBE_dropLeadingZeros m.value
  | some max => exact (m.encodesInteger.fixed max bs hfixed h).2

/-- Of messages with the same fixed length, the bytes that are signed tell the integers apart. -/
theorem encode_eq_iff {m' : SigningMessage} {bs bs' : Bytes}
    (hlength : m.fixedLength = m'.fixedLength) (h : m.encode = .ok bs)
    (h' : m'.encode = .ok bs') : bs = bs' ↔ m.integer = m'.integer := by
  have hvalue := toNatBE_of_encode h
  have hvalue' := toNatBE_of_encode h'
  constructor
  · rintro rfl
    exact hvalue.symm.trans hvalue'
  · intro hinteger
    cases hfixed : m.fixedLength with
    | none =>
      obtain ⟨cs, hcs, hshortest, -⟩ := m.encodesInteger.shortest hfixed
      obtain ⟨cs', hcs', hshortest', -⟩ := m'.encodesInteger.shortest (hlength ▸ hfixed)
      rw [h] at hcs
      rw [h'] at hcs'
      cases hcs
      cases hcs'
      exact hshortest.unique (hinteger ▸ hshortest')
    | some max =>
      have hfixed' : m'.fixedLength = some max := hlength ▸ hfixed
      obtain ⟨hbs, -⟩ := m.encodesInteger.fixed max bs hfixed h
      obtain ⟨hbs', -⟩ := m'.encodesInteger.fixed max bs' hfixed' h'
      exact Bytes.eq_of_toNatBE_eq (hbs.trans hbs'.symm)
        (hvalue.trans (hinteger.trans hvalue'.symm))

end SigningMessage

/-- A share that a start prepares is made for the bytes of its message. -/
structure ShareRound.SignsMessage (r : ShareRound) (share : Scalar) (aggregate : Aggregate) :
    Prop where
  message : r.session.message.encode = .ok aggregate.message
  /-- The challenge is derived from them. -/
  challenge : signatureChallenge r.session.hash
    [aggregate.nonce.encode.toList, r.session.publicKey.encode.toList, aggregate.message] =
      .ok aggregate.challenge
  share : share = aggregate.challenge * r.session.signingShare + r.nonce.secret

theorem ShareRound.signsMessage_of_prepare {r : ShareRound} {share : Scalar}
    {aggregate : Aggregate} (h : r.prepare = .ok (share, aggregate)) :
    r.SignsMessage share aggregate := by
  obtain ⟨-, hmessage, hne, haggregate, hshare⟩ := prepare_eq_ok.mp h
  refine ⟨hmessage, ?_, hshare⟩
  rw [signatureChallenge_eq, if_neg hne, haggregate]
  rfl

/--
What is signed for a message is an encoding of its integer: the shortest one, or
the one of the fixed length.  So messages with the same fixed length are signed
as the same bytes exactly if they stand for the same integer, and no share is
made for the bytes of another one.
-/
theorem SigningMessage.faithful_encoding :
    (∀ m : SigningMessage, m.EncodesInteger) ∧
    (∀ (m m' : SigningMessage) (bs bs' : Bytes), m.fixedLength = m'.fixedLength →
      m.encode = .ok bs → m'.encode = .ok bs' → (bs = bs' ↔ m.integer = m'.integer)) ∧
    ∀ (r r' : ShareRound) (share share' : Scalar) (aggregate aggregate' : Aggregate),
      r.prepare = .ok (share, aggregate) → r'.prepare = .ok (share', aggregate') →
        r.SignsMessage share aggregate ∧
        (r.session.message.fixedLength = r'.session.message.fixedLength →
          (aggregate.message = aggregate'.message ↔
            r.session.message.integer = r'.session.message.integer)) := by
  refine ⟨encodesInteger, fun m m' bs bs' => encode_eq_iff, ?_⟩
  intro r r' share share' aggregate aggregate' h h'
  have hsigns := ShareRound.signsMessage_of_prepare h
  have hsigns' := ShareRound.signsMessage_of_prepare h'
  exact ⟨hsigns, fun hlength => encode_eq_iff hlength hsigns.message hsigns'.message⟩

end Quorum
