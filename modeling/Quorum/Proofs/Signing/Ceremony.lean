import Mathlib
import Quorum.Proofs.Key.Dealing
import Quorum.Proofs.Signing.Entrant

/-!
# Ceremonies

A ceremony is everything that the signers of one session start from when all of
them follow the protocol: a dealt key, a signing set, a session identifier, a
message, and a tape for each position.  Its signers differ in their position,
their share of the key and their tape only.
-/

namespace Quorum

/-- What the signers of one session start from. -/
structure Ceremony where
  hash : ChallengeHash
  /-- The number of holders that can sign. -/
  threshold : UInt64
  /-- The number of holders. -/
  holders : UInt64
  /-- The randomness of the dealer. -/
  dealer : Tape
  sessionId : Octets 32
  /-- The holders that take part, in session order. -/
  parties : List PartyId
  message : SigningMessage
  /-- The randomness of the signer at each position. -/
  tape : Nat → Tape

namespace Ceremony

/-- The shares of the key that the dealer hands out; none if it refuses to deal. -/
def shares (c : Ceremony) : List KeyShare :=
  match dealShares c.threshold c.holders c.dealer with
  | .ok (shares, _) => shares
  | .error _ => []

/-- The configuration of the signer at a position. -/
def config (c : Ceremony) (i : Nat) : SessionConfig :=
  ⟨c.sessionId, c.threshold, UInt64.ofNat i, c.parties⟩

/-- The signer at a position, if there is one and it holds a share of the key. -/
def entrant? (c : Ceremony) (i : Nat) : Option Entrant := do
  let id ← c.parties[i]?
  let key ← c.shares[id.toNat]?
  return ⟨c.hash, c.config i, key, c.message⟩

/-- The conditions under which the signers of a ceremony can sign. -/
structure Valid (c : Ceremony) : Prop where
  two_le_threshold : 2 ≤ c.threshold.toNat
  threshold_le_holders : c.threshold.toNat ≤ c.holders.toNat
  /-- The key, which is what the dealer draws first, is not zero. -/
  key_ne_zero : c.dealer.scalar.1 ≠ 0
  nodup : c.parties.Nodup
  parties_lt : ∀ id ∈ c.parties, id.toNat < c.holders.toNat
  threshold_le_parties : c.threshold.toNat ≤ c.parties.length
  /-- The message can be encoded, and its encoding is not empty. -/
  message_encodes : ∃ bytes, c.message.encode = .ok bytes ∧ bytes ≠ []
  nonce_ne_zero : ∀ i < c.parties.length, (c.tape i).scalar.1 ≠ 0

/-- The coefficients of the polynomial that the dealer draws. -/
def coefficients (c : Ceremony) : List Scalar :=
  (c.dealer.scalars c.threshold.toNat).1

def party (c : Ceremony) (i : Nat) : PartyId :=
  c.parties.getD i 0

/-- The signer at a position of a ceremony whose dealer deals. -/
def entrant (c : Ceremony) (i : Nat) : Entrant where
  hash := c.hash
  config := c.config i
  key := KeyShare.dealt c.coefficients c.holders (c.party i)
  message := c.message

section Valid

variable {c : Ceremony}

theorem length_coefficients (c : Ceremony) :
    c.coefficients.length = c.threshold.toNat :=
  Tape.length_scalars _ _

theorem getElem?_parties {i : Nat} (hi : i < c.parties.length) :
    c.parties[i]? = some (c.party i) := by
  rw [List.getElem?_eq_getElem hi, party, List.getD_eq_getElem _ _ hi]

theorem party_mem {i : Nat} (hi : i < c.parties.length) : c.party i ∈ c.parties :=
  List.mem_of_getElem? (getElem?_parties hi)

theorem Valid.length_parties_lt (h : c.Valid) : c.parties.length < 2 ^ 64 := by
  have hsubset : c.parties.map UInt64.toNat ⊆ List.range c.holders.toNat := by
    intro k hk
    obtain ⟨id, hid, rfl⟩ := List.mem_map.mp hk
    exact List.mem_range.mpr (h.parties_lt id hid)
  have hnodup : (c.parties.map UInt64.toNat).Nodup :=
    h.nodup.map fun _ _ => UInt64.toNat_inj.mp
  have hle := (hnodup.subperm hsubset).length_le
  rw [List.length_map, List.length_range] at hle
  exact hle.trans_lt c.holders.toNat_lt

theorem Valid.shares_eq (h : c.Valid) :
    c.shares = KeyShare.ofCoefficients c.coefficients c.holders := by
  have hdeal : dealShares c.threshold c.holders c.dealer =
      .ok (KeyShare.ofCoefficients c.coefficients c.holders,
        (c.dealer.scalars c.threshold.toNat).2) :=
    dealShares_eq_ok.mpr ⟨h.two_le_threshold, h.threshold_le_holders, rfl, rfl⟩
  rw [shares, hdeal]

theorem Valid.dealShares_eq (h : c.Valid) :
    dealShares c.threshold c.holders c.dealer =
      .ok (c.shares, (c.dealer.scalars c.threshold.toNat).2) := by
  rw [h.shares_eq]
  exact dealShares_eq_ok.mpr ⟨h.two_le_threshold, h.threshold_le_holders, rfl, rfl⟩

theorem Valid.key_mem (h : c.Valid) {i : Nat} (hi : i < c.parties.length) :
    (c.entrant i).key ∈ c.shares := by
  rw [h.shares_eq, KeyShare.mem_ofCoefficients]
  exact ⟨c.party i, h.parties_lt _ (party_mem hi), rfl⟩

theorem Valid.entrant?_eq (h : c.Valid) {i : Nat} (hi : i < c.parties.length) :
    c.entrant? i = some (c.entrant i) := by
  have hid := h.parties_lt _ (party_mem hi)
  rw [entrant?, getElem?_parties hi, h.shares_eq]
  change (KeyShare.ofCoefficients c.coefficients c.holders)[(c.party i).toNat]?.bind
    _ = _
  rw [KeyShare.getElem?_ofCoefficients hid]
  rfl

/-- The key is what the dealer draws first. -/
theorem Valid.headD_coefficients (h : c.Valid) :
    c.coefficients.headD 0 = c.dealer.scalar.1 := by
  obtain ⟨count, hcount⟩ : ∃ count, c.threshold.toNat = count + 1 :=
    Nat.exists_eq_add_of_le' (Nat.le_of_lt h.two_le_threshold)
  rw [coefficients, hcount, Tape.headD_scalars]

theorem Valid.toNat_ofNat (h : c.Valid) {i : Nat} (hi : i < c.parties.length) :
    (UInt64.ofNat i).toNat = i :=
  UInt64.toNat_ofNat_of_lt' (hi.trans h.length_parties_lt)

theorem Valid.admissible (h : c.Valid) {i : Nat} (hi : i < c.parties.length) :
    Admissible (c.entrant i).config (c.entrant i).key := by
  apply Admissible.of_dealt
  · rw [length_coefficients]
    exact h.two_le_threshold
  · rw [length_coefficients]
    exact h.threshold_le_holders
  · rw [h.headD_coefficients]
    exact h.key_ne_zero
  · rw [length_coefficients, UInt64.ofNat_toNat]
    rfl
  · exact h.nodup
  · exact h.parties_lt
  · rw [length_coefficients]
    exact h.threshold_le_parties
  · change c.parties[(UInt64.ofNat i).toNat]? = _
    rw [h.toNat_ofNat hi, getElem?_parties hi]

end Valid

/-- The smallest ceremony: both of two holders sign the message of one byte. -/
def smallest : Ceremony where
  hash := .standard
  threshold := 2
  holders := 2
  dealer := .repeating [1]
  sessionId := Octets.ofNatLE 32 0
  parties := [0, 1]
  message := ⟨[1], none⟩
  tape i := .repeating [UInt8.ofNat (i + 2)]

theorem valid_smallest : smallest.Valid where
  two_le_threshold := by decide
  threshold_le_holders := by decide
  key_ne_zero := by decide +kernel
  nodup := by decide
  parties_lt := by simp [smallest]
  threshold_le_parties := by decide
  message_encodes := ⟨[1], rfl, by decide⟩
  nonce_ne_zero := by decide +kernel

end Ceremony

end Quorum
