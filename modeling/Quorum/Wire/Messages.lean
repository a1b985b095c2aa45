import Quorum.Sigma.Dual
import Quorum.Signing.Envelope
import Quorum.Wire.Basic

/-!
# Proofs, commitments and envelopes as JSON
-/

namespace Quorum

open Wire

instance : Wire HashCommitment where
  toJson c := toJson c.digest
  ofJson? v := (ofJson? v).map HashCommitment.mk

instance : Wire Decommitment where
  toJson d := .ofMembers
    [("randomness", toJson d.randomness), ("values", toJson d.values)]
  ofJson? v := do
    let [randomness, values] ← record? ["randomness", "values"] v | none
    return ⟨← field? randomness, ← field? values⟩

instance : Wire DlogProof where
  toJson proof := .ofMembers [("alpha", toJson proof.alpha), ("t", toJson proof.t)]
  ofJson? v := do
    let [alpha, t] ← record? ["alpha", "t"] v | none
    return ⟨← field? alpha, ← field? t⟩

instance : Wire DualProof where
  toJson proof := .ofMembers
    [("alpha", toJson proof.alpha), ("t", toJson proof.t), ("u", toJson proof.u)]
  ofJson? v := do
    let [alpha, t, u] ← record? ["alpha", "t", "u"] v | none
    return ⟨← field? alpha, ← field? t, ← field? u⟩

instance : Wire NonceCommitment where
  toJson c := .ofMembers [("commitment", toJson c.commitment)]
  ofJson? v := do
    let [commitment] ← record? ["commitment"] v | none
    return ⟨← field? commitment⟩

instance : Wire NonceReveal where
  toJson r := .ofMembers
    [("decommitment", toJson r.decommitment), ("proof", toJson r.proof)]
  ofJson? v := do
    let [decommitment, proof] ← record? ["decommitment", "proof"] v | none
    return ⟨← field? decommitment, ← field? proof⟩

instance : Wire SignatureShare where
  toJson s := .ofMembers [("s", toJson s.s)]
  ofJson? v := do
    let [s] ← record? ["s"] v | none
    return ⟨← field? s⟩

instance : Wire Content where
  toJson
    | .commitment c => choice "Commitment" (toJson c)
    | .reveal r => choice "Reveal" (toJson r)
    | .share s => choice "Share" (toJson s)
  ofJson? v := do
    let (name, v) ← choice? v
    if name = "Commitment" then (ofJson? v).map .commitment
    else if name = "Reveal" then (ofJson? v).map .reveal
    else if name = "Share" then (ofJson? v).map .share
    else none

/-- The fields of a message to all signers. -/
def Envelope.broadcastOfJson? (v : Json) : Option Envelope := do
  let [sender, round, content] ← record? ["from", "round", "content"] v | none
  return .broadcast (← field? sender) (← field? round) (← field? content)

/-- The fields of a message to one signer. -/
def Envelope.directOfJson? (v : Json) : Option Envelope := do
  let [sender, recipient, round, content] ←
    record? ["from", "to", "round", "content"] v | none
  return .direct (← field? sender) (← field? recipient) (← field? round)
    (← field? content)

instance : Wire Envelope where
  toJson
    | .broadcast sender round content => choice "Broadcast" (.ofMembers
      [("from", toJson sender), ("round", toJson round), ("content", toJson content)])
    | .direct sender recipient round content => choice "Direct" (.ofMembers
      [("from", toJson sender), ("to", toJson recipient), ("round", toJson round),
        ("content", toJson content)])
  ofJson? v := do
    let (name, v) ← choice? v
    if name = "Broadcast" then Envelope.broadcastOfJson? v
    else if name = "Direct" then Envelope.directOfJson? v
    else none

end Quorum
