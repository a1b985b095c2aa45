import Quorum.Poseidon.Permutation

/-!
# The digest of the algebraic hash

The input is cut into pieces of 31 bytes, each an element.  Elements fill a
frame; a full frame is hashed, and its digest becomes the first element of the
next frame.  The digest of the input is that of the last frame, and a frame
that holds nothing but the digest of its predecessor is not hashed again.

Pieces of 31 bytes and digests are always below the modulus, so the digest
never fails; `digest?_isSome` says so.
-/

namespace Quorum.Poseidon

/-- The number of message bytes in an element. -/
def chunkSize : Nat :=
  31

/-- A piece of the message as an encoded element: zero bytes follow a short piece. -/
def ofChunk (chunk : Bytes) : Octets 32 :=
  Octets.zeroExtend 32 (0 :: chunk)

/-- The state between two elements. -/
structure Sponge where
  /-- The elements of the open frame, always fewer than a full frame. -/
  frame : List (Octets 32)
  /-- Whether the open frame still has to be hashed. -/
  pending : Bool

namespace Sponge

/-- The zero element. -/
def zero : Octets 32 :=
  Octets.ofNatBE 32 0

section Hash

variable {m : Type → Type} [Monad m] (hash : List (Octets 32) → m (Octets 32))

/-- The state after one more element; a full frame is hashed at once. -/
def absorbWith (s : Sponge) (e : Octets 32) : m Sponge :=
  let frame := s.frame ++ [e]
  if frame.length = frameSize then do
    let digest ← hash frame
    return ⟨[digest], false⟩
  else return ⟨frame, true⟩

/-- The digest of what was absorbed; zero elements fill the open frame. -/
def finishWith (s : Sponge) : m (Octets 32) :=
  if s.pending then
    hash (s.frame ++ List.replicate (frameSize - s.frame.length) zero)
  else return s.frame.headD zero

end Hash

/-- The state after one more element. -/
def absorb : Sponge → Octets 32 → Option Sponge :=
  absorbWith hashFrame?

/-- The digest of what was absorbed. -/
def finish : Sponge → Option (Octets 32) :=
  finishWith hashFrame?

end Sponge

/-- The digest of a byte string for a given hash of frames, computed frame by frame. -/
def digestWith {m : Type → Type} [Monad m]
    (hash : List (Octets 32) → m (Octets 32)) (input : Bytes) : m (Octets 32) := do
  let s ← ((Bytes.chunks chunkSize input).map ofChunk).foldlM
    (Sponge.absorbWith hash) ⟨[], input.isEmpty⟩
  s.finishWith hash

/-- The digest of a byte string. -/
def digest? : Bytes → Option (Octets 32) :=
  digestWith hashFrame?

/-! ## The digest never fails -/

/-- The bytes write a reduced element. -/
def IsReduced (bs : Octets 32) : Prop :=
  bs.toList.toNatBE < modulus

theorem decode?_eq_some_of_isReduced {bs : Octets 32} (h : IsReduced bs) :
    Element.decode? bs = some ⟨bs.toList.toNatBE, h⟩ :=
  dif_pos h

theorem isReduced_encode (e : Element) : IsReduced e.encode := by
  have h : e.encode.toList.toNatBE = e.val % Bytes.count 32 :=
    Bytes.toNatBE_ofNatBE 32 e.val
  have he := e.isLt
  simp only [IsReduced, h]
  exact Nat.lt_of_le_of_lt (Nat.mod_le _ _) he

theorem isReduced_zero : IsReduced Sponge.zero := by
  show Sponge.zero.toList.toNatBE < modulus
  decide

theorem isReduced_ofChunk (chunk : Bytes) : IsReduced (ofChunk chunk) := by
  have h := Bytes.toNatBE_zero_cons
    (chunk.take 31 ++ List.replicate (32 - (0 :: chunk).length) 0)
  have hlen : (chunk.take 31
      ++ List.replicate (32 - (0 :: chunk).length) (0 : UInt8)).length = 31 := by
    simp only [List.length_append, List.length_take, List.length_replicate,
      List.length_cons]
    omega
  rw [hlen] at h
  exact Nat.lt_trans h (by decide)

theorem mapM_decode?_isSome {frame : List (Octets 32)}
    (h : ∀ e ∈ frame, IsReduced e) :
    (frame.mapM Element.decode?).isSome := by
  induction frame with
  | nil => rfl
  | cons e frame ih =>
    have ih := ih fun f hf => h f (List.mem_cons_of_mem e hf)
    obtain ⟨es, hes⟩ := Option.isSome_iff_exists.mp ih
    simp [List.mapM_cons, decode?_eq_some_of_isReduced (h e List.mem_cons_self), hes]

/-- What the digest relies on: every full frame of reduced elements is hashed, and to
a reduced element. -/
def HashesFrames (hash : List (Octets 32) → Option (Octets 32)) : Prop :=
  ∀ ⦃frame⦄, frame.length = frameSize → (∀ e ∈ frame, IsReduced e) →
    ∃ digest, hash frame = some digest ∧ IsReduced digest

theorem hashesFrames_hashFrame? : HashesFrames hashFrame? := by
  intro frame hlen h
  obtain ⟨es, hes⟩ := Option.isSome_iff_exists.mp (mapM_decode?_isSome h)
  exact ⟨(compress es).encode, by simp [hashFrame?, hlen, hes], isReduced_encode _⟩

namespace Sponge

/-- The open frame is not full and holds reduced elements only. -/
def IsOpen (s : Sponge) : Prop :=
  s.frame.length < frameSize ∧ ∀ e ∈ s.frame, IsReduced e

section Monad

variable {m : Type → Type} [Monad m] {hash : List (Octets 32) → m (Octets 32)}
  {s : Sponge} {e : Octets 32}

/-- A full frame is hashed and leaves its digest. -/
theorem absorbWith_of_full (h : (s.frame ++ [e]).length = frameSize) :
    s.absorbWith hash e = do
      let digest ← hash (s.frame ++ [e])
      return ⟨[digest], false⟩ := by
  rw [absorbWith, if_pos h]

theorem absorbWith_of_not_full (h : (s.frame ++ [e]).length ≠ frameSize) :
    s.absorbWith hash e = pure ⟨s.frame ++ [e], true⟩ := by
  rw [absorbWith, if_neg h]

end Monad

variable {hash : List (Octets 32) → Option (Octets 32)}

theorem exists_absorbWith (hhash : HashesFrames hash) {s : Sponge} (hs : s.IsOpen)
    {e : Octets 32} (he : IsReduced e) :
    ∃ t, s.absorbWith hash e = some t ∧ t.IsOpen := by
  have hall : ∀ f ∈ s.frame ++ [e], IsReduced f := by
    intro f hf
    rcases List.mem_append.mp hf with hf | hf
    · exact hs.2 f hf
    · exact List.mem_singleton.mp hf ▸ he
  by_cases hfull : (s.frame ++ [e]).length = frameSize
  · obtain ⟨digest, hdigest, hreduced⟩ := hhash hfull hall
    refine ⟨⟨[digest], false⟩, ?_, ?_, ?_⟩
    · rw [absorbWith_of_full hfull, hdigest]
      rfl
    · show 1 < frameSize
      decide
    · intro f hf
      exact List.mem_singleton.mp hf ▸ hreduced
  · refine ⟨⟨s.frame ++ [e], true⟩, ?_, ?_, hall⟩
    · exact absorbWith_of_not_full hfull
    · have hlt := hs.1
      simp only [List.length_append, List.length_singleton] at hfull ⊢
      omega

theorem exists_foldlM_absorbWith (hhash : HashesFrames hash) (es : List (Octets 32))
    {s : Sponge} (hs : s.IsOpen) (hes : ∀ e ∈ es, IsReduced e) :
    ∃ t, es.foldlM (absorbWith hash) s = some t ∧ t.IsOpen := by
  induction es generalizing s with
  | nil => exact ⟨s, rfl, hs⟩
  | cons e es ih =>
    obtain ⟨t, ht, hopen⟩ := exists_absorbWith hhash hs (hes e List.mem_cons_self)
    obtain ⟨u, hu, huo⟩ := ih hopen fun f hf => hes f (List.mem_cons_of_mem e hf)
    exact ⟨u, by simp [List.foldlM_cons, ht, hu], huo⟩

theorem finishWith_isSome (hhash : HashesFrames hash) {s : Sponge} (hs : s.IsOpen) :
    (s.finishWith hash).isSome := by
  rw [finishWith]
  split
  · have hlen : (s.frame
        ++ List.replicate (frameSize - s.frame.length) zero).length = frameSize := by
      have hlt := hs.1
      simp only [List.length_append, List.length_replicate]
      omega
    have hall : ∀ e ∈ s.frame
        ++ List.replicate (frameSize - s.frame.length) zero, IsReduced e := by
      intro e he
      rcases List.mem_append.mp he with he | he
      · exact hs.2 e he
      · exact List.eq_of_mem_replicate he ▸ isReduced_zero
    obtain ⟨digest, hdigest, _⟩ := hhash hlen hall
    rw [hdigest]
    rfl
  · rfl

end Sponge

theorem digest?_isSome (input : Bytes) : (digest? input).isSome := by
  have hstart : Sponge.IsOpen ⟨[], input.isEmpty⟩ :=
    ⟨by show 0 < frameSize; decide, by simp⟩
  obtain ⟨s, hs, hopen⟩ := Sponge.exists_foldlM_absorbWith hashesFrames_hashFrame?
    ((Bytes.chunks chunkSize input).map ofChunk) hstart (by
      intro e he
      obtain ⟨chunk, _, rfl⟩ := List.mem_map.mp he
      exact isReduced_ofChunk chunk)
  have hfinish := Sponge.finishWith_isSome hashesFrames_hashFrame? hopen
  have hdigest : digest? input = s.finish := by
    change (((Bytes.chunks chunkSize input).map ofChunk).foldlM
      (Sponge.absorbWith hashFrame?) ⟨[], input.isEmpty⟩).bind Sponge.finish = _
    rw [hs, Option.bind_some]
  rw [hdigest]
  exact hfinish

/-- The digest of a byte string: 32 bytes that write a reduced element. -/
def digest (input : Bytes) : Octets 32 :=
  (digest? input).get (digest?_isSome input)

end Quorum.Poseidon
