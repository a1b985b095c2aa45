import Quorum.Key.Share
import Quorum.Message
import Quorum.Session.Config
import Quorum.Signature
import Quorum.Wire.Basic

/-!
# Keys, configurations and signatures as JSON
-/

namespace Quorum

open Wire

instance : Wire Signature where
  toJson sig := .ofMembers [("r", toJson sig.r), ("s", toJson sig.s)]
  ofJson? v := do
    let [r, s] ← record? ["r", "s"] v | none
    return ⟨← field? r, ← field? s⟩

instance : Wire SigningMessage where
  toJson m := .ofMembers
    [("value", toJson m.value), ("fixed_len", optionalJson m.fixedLength)]
  ofJson? v := do
    let [value, fixedLength] ← record? ["value", "fixed_len"] v | none
    return ⟨← field? value, ← optional? fixedLength⟩

instance : Wire KeyShare where
  toJson key := .ofMembers
    [("party_id", toJson key.partyId), ("n_parties", toJson key.nParties),
      ("threshold", toJson key.threshold),
      ("secret_share", toJson key.secretShare),
      ("public_key", toJson key.publicKey),
      ("public_shares", toJson key.publicShares)]
  ofJson? v := do
    let [partyId, nParties, threshold, secretShare, publicKey, publicShares] ←
      record? ["party_id", "n_parties", "threshold", "secret_share", "public_key",
        "public_shares"] v | none
    return ⟨← field? partyId, ← field? nParties, ← field? threshold,
      ← field? secretShare, ← field? publicKey, ← field? publicShares⟩

instance : Wire SessionConfig where
  toJson config := .ofMembers
    [("session_id", toJson config.sessionId), ("threshold", toJson config.threshold),
      ("party_index", toJson config.partyIndex), ("parties", toJson config.parties)]
  ofJson? v := do
    let [sessionId, threshold, partyIndex, parties] ←
      record? ["session_id", "threshold", "party_index", "parties"] v | none
    return ⟨← field? sessionId, ← field? threshold, ← field? partyIndex,
      ← field? parties⟩

end Quorum
