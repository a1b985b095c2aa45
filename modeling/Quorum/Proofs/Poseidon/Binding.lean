import Mathlib
import Quorum.Proofs.Poseidon.Frames
import Quorum.Proofs.Signing.Aggregate

/-!
# What the algebraic challenge binds

Two inputs with the same digest either contain two different frames that
collide, or a digest carried over in one is a data element of the other, or
they are hashed through the same frames.  The last happens exactly if one is
the other followed by zero bytes that take no further frame: a piece of the
message is padded with zero bytes and a frame with zero elements, and neither
the padding nor the length is marked.
-/

namespace Quorum.Poseidon

/-- Two different frames, one of each input, have the same digest. -/
def Collide (x y : Bytes) : Prop :=
  ∃ F ∈ frames x, ∃ G ∈ frames y, F ≠ G ∧ F.length = frameSize ∧ G.length = frameSize ∧
    ∃ digest, hashFrame? F = some digest ∧ hashFrame? G = some digest

/-- A digest that `x` carries over to a next frame is a data element of `y`. -/
def RunsInto (x y : Bytes) : Prop :=
  ∃ F ∈ (frames x).dropLast, ∃ digest, hashFrame? F = some digest ∧ digest ∈ elements y

/-- Some number of zero bytes behind `x` make it `y`. -/
def PadsTo (x y : Bytes) : Prop :=
  ∃ k, y = x ++ List.replicate k 0

/-- What is hashed for the challenge of a message. -/
def challengeInput (R A : Octets 32) (message : Bytes) : Bytes :=
  R.toList ++ A.toList ++ message

/-! ## Chains of frames -/

theorem suffix_concat {Fs Gs : List Frame} (F : Frame) (h : Fs <:+ Gs) :
    Fs ++ [F] <:+ Gs ++ [F] := by
  obtain ⟨before, rfl⟩ := h
  exact ⟨before, (List.append_assoc _ _ _).symm⟩

/--
Two chains that end in the same digest agree from the end on until one of them
is used up, unless two of their frames collide.
-/
theorem suffix_or_exists_ne {Fs Gs : List Frame} {F G : Frame}
    (hF : (Fs ++ [F]).IsChain Follows) (hG : (Gs ++ [G]).IsChain Follows)
    (h : frameDigest F = frameDigest G) :
    Fs ++ [F] <:+ Gs ++ [G] ∨ Gs ++ [G] <:+ Fs ++ [F] ∨
      ∃ F' ∈ Fs ++ [F], ∃ G' ∈ Gs ++ [G], F' ≠ G' ∧ frameDigest F' = frameDigest G' := by
  induction Fs using List.reverseRecOn generalizing Gs F G with
  | nil =>
    by_cases hsame : F = G
    · exact Or.inl (hsame ▸ List.suffix_append Gs [F])
    · exact Or.inr (Or.inr ⟨F, by simp, G, by simp, hsame, h⟩)
  | append_singleton Fs F₁ ih =>
    by_cases hsame : F = G
    · subst hsame
      rcases List.eq_nil_or_concat Gs with rfl | ⟨Gs, G₁, rfl⟩
      · exact Or.inr (Or.inl (List.suffix_append _ [F]))
      · rw [List.concat_eq_append] at hG ⊢
        -- The last frame begins with the digests of both of its predecessors.
        obtain ⟨hF₁, -, hlastF⟩ := List.isChain_append.mp hF
        obtain ⟨hG₁, -, hlastG⟩ := List.isChain_append.mp hG
        have hfollows : Follows F₁ F := hlastF F₁ (by simp) F rfl
        have hfollows' : Follows G₁ F := hlastG G₁ (by simp) F rfl
        have hdigests : frameDigest F₁ = frameDigest G₁ :=
          Option.some.inj (hfollows.symm.trans hfollows')
        rcases ih hF₁ hG₁ hdigests with hsuffix | hsuffix | ⟨F', hF', G', hG', hne⟩
        · exact Or.inl (suffix_concat F hsuffix)
        · exact Or.inr (Or.inl (suffix_concat F hsuffix))
        · exact Or.inr (Or.inr ⟨F', List.mem_append_left _ hF', G',
            List.mem_append_left _ hG', hne⟩)
    · exact Or.inr (Or.inr ⟨F, by simp, G, by simp, hsame, h⟩)

/-- The first frame holds the first data element of the input. -/
theorem head?_frames_head {input : Bytes} (hne : input ≠ []) {F : Frame}
    (hF : (frames input).head? = some F) : ∃ e ∈ elements input, F.head? = some e := by
  rw [frames, elements_of_ne_nil hne] at hF
  have hnotfull : (([] : Frame) ++ [ofChunk (input.take 31)]).length ≠ frameSize := by
    show 1 ≠ frameSize
    decide
  rw [Sponge.frames_cons_of_not_full hnotfull] at hF
  obtain ⟨rest, rfl⟩ := Sponge.prefix_of_frames hF
  rw [elements_of_ne_nil hne]
  exact ⟨_, List.mem_cons_self, rfl⟩

/-- A chain that is a proper end of another begins with a digest that the other carries over. -/
theorem runsInto_of_suffix {x y : Bytes} (hy : y ≠ []) (hsuffix : frames y <:+ frames x)
    (hne : frames x ≠ frames y) : RunsInto x y := by
  obtain ⟨before, hbefore⟩ := hsuffix
  have hnil : before ≠ [] := by
    rintro rfl
    exact hne hbefore.symm
  obtain ⟨G, rest, hGs⟩ := List.exists_cons_of_ne_nil (frames_ne_nil y)
  obtain ⟨e, he, hhead⟩ := head?_frames_head hy (by rw [hGs]; rfl : (frames y).head? = some G)
  have hchain := isChain_frames x
  rw [← hbefore] at hchain
  obtain ⟨-, -, hlink⟩ := List.isChain_append.mp hchain
  have hfollows : Follows (before.getLast hnil) G :=
    hlink _ (List.getLast?_eq_some_getLast hnil) G (by rw [hGs]; rfl)
  have hmem : before.getLast hnil ∈ (frames x).dropLast := by
    rw [← hbefore, List.dropLast_append_of_ne_nil (frames_ne_nil y)]
    exact List.mem_append_left _ (List.getLast_mem hnil)
  refine ⟨_, hmem, _, (digest_of_mem_frames (List.mem_of_mem_dropLast hmem)).2, ?_⟩
  rw [← Option.some.inj (hhead.symm.trans hfollows)]
  exact he

/-- Inputs with the same digest are hashed through the same frames, or something collides. -/
theorem frames_eq_or_collide {x y : Bytes} (hx : x ≠ []) (hy : y ≠ [])
    (h : digest x = digest y) :
    frames x = frames y ∨ Collide x y ∨ RunsInto x y ∨ RunsInto y x := by
  by_cases hsame : frames x = frames y
  · exact Or.inl hsame
  · rw [digest_eq, digest_eq] at h
    have hlastx := List.dropLast_append_getLast (frames_ne_nil x)
    have hlasty := List.dropLast_append_getLast (frames_ne_nil y)
    have hchainx := isChain_frames x
    have hchainy := isChain_frames y
    rw [← hlastx] at hchainx
    rw [← hlasty] at hchainy
    have hcases := suffix_or_exists_ne hchainx hchainy h
    rw [hlastx, hlasty] at hcases
    rcases hcases with hsuffix | hsuffix | ⟨F, hF, G, hG, hne, hdigest⟩
    · exact Or.inr (Or.inr (Or.inr (runsInto_of_suffix hx hsuffix (Ne.symm hsame))))
    · exact Or.inr (Or.inr (Or.inl (runsInto_of_suffix hy hsuffix hsame)))
    · obtain ⟨hlengthF, hhashF⟩ := digest_of_mem_frames hF
      obtain ⟨hlengthG, hhashG⟩ := digest_of_mem_frames hG
      exact Or.inr (Or.inl ⟨F, hF, G, hG, hne, hlengthF, hlengthG, _, hhashF,
        hdigest ▸ hhashG⟩)

/-! ## Padding -/

theorem padsTo_append_left (p x y : Bytes) : PadsTo (p ++ x) (p ++ y) ↔ PadsTo x y := by
  simp only [PadsTo, List.append_assoc, List.append_cancel_left_eq]

/-- Of two byte strings that agree up to zero bytes, the shorter one pads to the other. -/
theorem padsTo_of_append_zeros {x y : Bytes} {i j : Nat} (hlength : x.length ≤ y.length)
    (h : x ++ List.replicate i 0 = y ++ List.replicate j 0) : PadsTo x y := by
  refine ⟨y.length - x.length, ?_⟩
  have hlengths := congrArg List.length h
  simp only [List.length_append, List.length_replicate] at hlengths
  have htake := congrArg (List.take y.length) h
  rw [List.take_append, List.take_of_length_le hlength, List.take_replicate,
    List.take_left, Nat.min_eq_left (by omega)] at htake
  exact htake.symm

theorem frames_eq_of_padsTo {x y : Bytes} (hx : x ≠ []) (h : PadsTo x y)
    (hcount : frameCount x.length = frameCount y.length) : frames x = frames y := by
  obtain ⟨k, rfl⟩ := h
  rw [← length_frames, ← length_frames] at hcount
  rcases frames_append_zeros hx k with h | h
  · exact h.symm
  · exact absurd hcount h.ne

theorem frames_eq_iff {x y : Bytes} (hx : x ≠ []) (hy : y ≠ []) :
    frames x = frames y ↔
      (PadsTo x y ∨ PadsTo y x) ∧ frameCount x.length = frameCount y.length := by
  constructor
  · intro h
    obtain ⟨i, j, hzeros⟩ := exists_append_zeros_of_frames_eq h
    refine ⟨?_, by rw [← length_frames, ← length_frames, h]⟩
    rcases Nat.le_total x.length y.length with hle | hle
    · exact Or.inl (padsTo_of_append_zeros hle hzeros)
    · exact Or.inr (padsTo_of_append_zeros hle hzeros.symm)
  · rintro ⟨hpads | hpads, hcount⟩
    · exact frames_eq_of_padsTo hx hpads hcount
    · exact (frames_eq_of_padsTo hy hpads hcount.symm).symm

theorem digest_eq_of_frames_eq {x y : Bytes} (h : frames x = frames y) :
    digest x = digest y := by
  rw [digest_eq, digest_eq]
  simp only [h]

/-! ## The challenge -/

theorem challengeInput_ne_nil (R A : Octets 32) (message : Bytes) :
    challengeInput R A message ≠ [] :=
  List.append_ne_nil_of_left_ne_nil (List.append_ne_nil_of_left_ne_nil R.toList_ne_nil _) _

theorem length_challengeInput (R A : Octets 32) (message : Bytes) :
    (challengeInput R A message).length = 64 + message.length := by
  rw [challengeInput, List.length_append, List.length_append, R.length_eq, A.length_eq]

theorem challenge_eq_of_frames_eq {R A : Octets 32} {m m' : Bytes} (hm : m ≠ [])
    (hm' : m' ≠ [])
    (h : frames (challengeInput R A m) = frames (challengeInput R A m')) :
    signatureChallenge .algebraic [R.toList, A.toList, m] =
      signatureChallenge .algebraic [R.toList, A.toList, m'] := by
  have hpreimage : ChallengeHash.algebraic.preimage (challengeInput R A m) =
      ChallengeHash.algebraic.preimage (challengeInput R A m') := by
    rw [ChallengeHash.algebraic]
    dsimp only
    rw [digest_eq_of_frames_eq h]
  rw [signatureChallenge_eq, signatureChallenge_eq, if_neg hm, if_neg hm']
  rw [challengeInput, challengeInput] at hpreimage
  rw [hpreimage]

/--
The algebraic challenge binds the message up to zero bytes at its end: messages
with the same digest differ by such bytes alone and take the same number of
frames, or else something collides.  In that case they do have the same
challenge.
-/
theorem binding_up_to_padding (R A : Octets 32) (m m' : Bytes) :
    (digest (challengeInput R A m) = digest (challengeInput R A m') →
      Collide (challengeInput R A m) (challengeInput R A m') ∨
        RunsInto (challengeInput R A m) (challengeInput R A m') ∨
        RunsInto (challengeInput R A m') (challengeInput R A m) ∨
        (PadsTo m m' ∨ PadsTo m' m) ∧
          frameCount (64 + m.length) = frameCount (64 + m'.length)) ∧
      (frames (challengeInput R A m) = frames (challengeInput R A m') ↔
        (PadsTo m m' ∨ PadsTo m' m) ∧
          frameCount (64 + m.length) = frameCount (64 + m'.length)) ∧
      (frames (challengeInput R A m) = frames (challengeInput R A m') →
        digest (challengeInput R A m) = digest (challengeInput R A m') ∧
          (m ≠ [] → m' ≠ [] →
            signatureChallenge .algebraic [R.toList, A.toList, m] =
              signatureChallenge .algebraic [R.toList, A.toList, m'])) := by
  have hframes : frames (challengeInput R A m) = frames (challengeInput R A m') ↔
      (PadsTo m m' ∨ PadsTo m' m) ∧
        frameCount (64 + m.length) = frameCount (64 + m'.length) := by
    rw [frames_eq_iff (challengeInput_ne_nil R A m) (challengeInput_ne_nil R A m'),
      length_challengeInput, length_challengeInput, challengeInput, challengeInput,
      padsTo_append_left, padsTo_append_left]
  refine ⟨fun h => ?_, hframes, fun h => ⟨digest_eq_of_frames_eq h, fun hm hm' => ?_⟩⟩
  · rcases frames_eq_or_collide (challengeInput_ne_nil R A m) (challengeInput_ne_nil R A m') h
      with hsame | hcollide | hruns | hruns
    · exact Or.inr (Or.inr (Or.inr (hframes.mp hsame)))
    · exact Or.inl hcollide
    · exact Or.inr (Or.inl hruns)
    · exact Or.inr (Or.inr (Or.inl hruns))
  · exact challenge_eq_of_frames_eq hm hm' h

/--
The message itself is not bound: a zero byte behind a message of one byte leaves
the only frame as it is, and that frame is not carried over to any other.
-/
theorem not_binding_of_trailing_zero :
    ¬ ∀ (R A : Octets 32) (m m' : Bytes), m ≠ [] → m' ≠ [] → m ≠ m' →
      digest (challengeInput R A m) = digest (challengeInput R A m') →
        (∃ F ∈ frames (challengeInput R A m) ++ frames (challengeInput R A m'),
          ∃ G ∈ frames (challengeInput R A m) ++ frames (challengeInput R A m'),
            F ≠ G ∧ hashFrame? F = hashFrame? G) ∨
          RunsInto (challengeInput R A m) (challengeInput R A m') ∨
          RunsInto (challengeInput R A m') (challengeInput R A m) := by
  intro hbinding
  have hm : frames (challengeInput (.ofNatLE 32 1) (.ofNatLE 32 1) [1]) =
      [fill (elements (challengeInput (.ofNatLE 32 1) (.ofNatLE 32 1) [1]))] := by
    decide +kernel
  have hm' : frames (challengeInput (.ofNatLE 32 1) (.ofNatLE 32 1) [1, 0]) =
      [fill (elements (challengeInput (.ofNatLE 32 1) (.ofNatLE 32 1) [1]))] := by
    decide +kernel
  rcases hbinding (.ofNatLE 32 1) (.ofNatLE 32 1) [1] [1, 0] (by decide) (by decide)
    (by decide) (digest_eq_of_frames_eq (hm.trans hm'.symm)) with
      ⟨F, hF, G, hG, hne, -⟩ | ⟨F, hF, -⟩ | ⟨F, hF, -⟩
  · rw [hm, hm'] at hF hG
    refine hne ?_
    rw [List.eq_of_mem_replicate (n := 2) hF, List.eq_of_mem_replicate (n := 2) hG]
  · rw [hm] at hF
    cases hF
  · rw [hm'] at hF
    cases hF

end Quorum.Poseidon
