import Quorum.Hex
import Quorum.Curve.Affine
import Quorum.Curve.Subgroup
import Quorum.Challenge
import Quorum.Commitment
import Quorum.Sigma.Dlog
import Quorum.Sigma.Dual
import Quorum.Message
import Quorum.Signature
import Quorum.Key.Dealing
import Quorum.Session.Admission
import Quorum.Round.Basic
import Quorum.Signing.Network
import Quorum.Json.Parser
import Quorum.Json.Text
import Quorum.Wire.Keys
import Quorum.Wire.Messages
import Quorum.Relay
import Quorum.Proofs.Curve.AdditionLaw
import Quorum.Proofs.Curve.Affine
import Quorum.Proofs.Curve.PrimeSubgroup
import Quorum.Proofs.Key.Lagrange
import Quorum.Proofs.Round.Lifecycle
import Quorum.Proofs.Session.Admission
import Quorum.Proofs.Signing.Entrant
import Quorum.Proofs.Signing.Nonce
import Quorum.Proofs.Key.Dealing
import Quorum.Proofs.Signing.Ceremony
import Quorum.Proofs.Signing.Aggregate
import Quorum.Proofs.Signing.Lifecycle
import Quorum.Proofs.Signing.Delivery
import Quorum.Proofs.Curve.DiscreteLog
import Quorum.Proofs.Signing.Reached
import Quorum.Proofs.Signing.Attribution
import Quorum.Proofs.Signing.Verification
import Quorum.Proofs.Signing.Honest
import Quorum.Proofs.Signing.Correctness
import Quorum.Proofs.Signing.Views
import Quorum.Proofs.Signing.Blame
import Quorum.Proofs.Signing.Run
import Quorum.Proofs.Hash.Binding
import Quorum.Proofs.Curve.Codec
import Quorum.Proofs.Key.Recombination
import Quorum.Proofs.Signing.Release
import Quorum.Proofs.Signing.Standing
import Quorum.Proofs.Signing.Gathering
import Quorum.Proofs.Signing.Agreement
import Quorum.Proofs.Json.RoundTrip
import Quorum.Proofs.Wire.RoundTrip
import Quorum.Proofs.Signing.Lockstep
import Quorum.Proofs.Signing.Opening
import Quorum.Proofs.Poseidon.Frames
import Quorum.Proofs.Poseidon.Binding
import Quorum.Proofs.Signing.Safety
import Quorum.Proofs.Wire.Decoding
import Quorum.Proofs.Sigma.Dual
import Quorum.Proofs.Curve.Recovery
import Quorum.Proofs.Signing.Clearing
import Quorum.Proofs.Key.Secrecy
import Quorum.Proofs.Poseidon.Chaining
import Quorum.Proofs.Round.WriteOnce
import Quorum.Proofs.Signing.Message
import Quorum.Proofs.Hash.Sampling
import Quorum.Proofs.Signing.PublicShares
