import Mathlib
import Quorum.Poseidon.Sponge
import Quorum.Proofs.Hash.Binding

/-!
# The frames of the algebraic hash

The digest of a byte string is that of the last of a sequence of frames, each
of which begins with the digest of the one before it.  This module follows the
sequence: how many frames an input of a given length takes, that they determine
the data elements up to zero elements at the end, and that two sequences that
end in the same digest either agree from the end on or contain a collision.
-/

namespace Quorum.Poseidon

/-- The elements that one call of the permutation takes in. -/
abbrev Frame := List (Octets 32)

/-- The digest of a frame that has one. -/
def frameDigest (F : Frame) : Octets 32 :=
  (hashFrame? F).getD Sponge.zero

/-- A frame with zero elements up to its full size. -/
def fill (F : Frame) : Frame :=
  F ++ List.replicate (frameSize - F.length) Sponge.zero

theorem length_fill {F : Frame} (h : F.length ≤ frameSize) : (fill F).length = frameSize := by
  rw [fill, List.length_append, List.length_replicate]
  omega

theorem isReduced_fill {F : Frame} (h : ∀ e ∈ F, IsReduced e) :
    ∀ e ∈ fill F, IsReduced e := by
  intro e he
  rcases List.mem_append.mp he with he | he
  · exact h e he
  · exact List.eq_of_mem_replicate he ▸ isReduced_zero

/-- The data elements of a byte string. -/
def elements (input : Bytes) : List (Octets 32) :=
  (Bytes.chunks chunkSize input).map ofChunk

/-- The frames that are hashed when the given elements follow a state. -/
def Sponge.frames : Sponge → List (Octets 32) → List Frame
  | s, [] => if s.pending then [fill s.frame] else []
  | s, e :: es =>
    if (s.frame ++ [e]).length = frameSize then
      (s.frame ++ [e]) :: Sponge.frames ⟨[frameDigest (s.frame ++ [e])], false⟩ es
    else Sponge.frames ⟨s.frame ++ [e], true⟩ es

/-- The frames that are hashed for a byte string, in order. -/
def frames (input : Bytes) : List Frame :=
  Sponge.frames ⟨[], input.isEmpty⟩ (elements input)

/-- The number of frames that an input of `n` bytes takes. -/
def frameCount (n : Nat) : Nat :=
  1 + ((n + 30) / 31 - 2) / 11

/-- A frame begins with the digest of the one before it. -/
def Follows (F G : Frame) : Prop :=
  G.head? = some (frameDigest F)

theorem isReduced_of_mem_elements {input : Bytes} {e : Octets 32}
    (h : e ∈ elements input) : IsReduced e := by
  obtain ⟨chunk, -, rfl⟩ := List.mem_map.mp h
  exact isReduced_ofChunk chunk

namespace Sponge

variable {s : Sponge} {es : List (Octets 32)}

theorem frames_nil (s : Sponge) :
    s.frames [] = if s.pending then [fill s.frame] else [] :=
  rfl

theorem frames_cons_of_full {e : Octets 32}
    (h : (s.frame ++ [e]).length = frameSize) (es : List (Octets 32)) :
    s.frames (e :: es) = (s.frame ++ [e]) ::
      frames ⟨[frameDigest (s.frame ++ [e])], false⟩ es := by
  rw [frames, if_pos h]

theorem frames_cons_of_not_full {e : Octets 32}
    (h : (s.frame ++ [e]).length ≠ frameSize) (es : List (Octets 32)) :
    s.frames (e :: es) = frames ⟨s.frame ++ [e], true⟩ es := by
  rw [frames, if_neg h]

theorem length_digest_lt (digest : Octets 32) :
    (Sponge.mk [digest] false).frame.length < frameSize := by
  show 1 < frameSize
  decide

theorem length_concat_lt (hs : s.frame.length < frameSize) {e : Octets 32}
    (h : (s.frame ++ [e]).length ≠ frameSize) :
    (Sponge.mk (s.frame ++ [e]) true).frame.length < frameSize := by
  rw [List.length_append, List.length_singleton] at h
  show (s.frame ++ [e]).length < frameSize
  rw [List.length_append, List.length_singleton]
  omega

/-- What follows a full frame is open again. -/
theorem isOpen_next {F : Frame} (hF : F.length = frameSize)
    (hreduced : ∀ e ∈ F, IsReduced e) :
    hashFrame? F = some (frameDigest F) ∧ IsOpen ⟨[frameDigest F], false⟩ := by
  obtain ⟨digest, hdigest, hd⟩ := hashesFrames_hashFrame? hF hreduced
  have heq : frameDigest F = digest := by
    rw [frameDigest, hdigest, Option.getD_some]
  rw [heq]
  refine ⟨hdigest, length_digest_lt digest, fun e he => ?_⟩
  rw [List.mem_singleton.mp he]
  exact hd

theorem isReduced_concat (hs : s.IsOpen) {e : Octets 32} (he : IsReduced e) :
    ∀ f ∈ s.frame ++ [e], IsReduced f := by
  intro f hf
  rcases List.mem_append.mp hf with hf | hf
  · exact hs.2 f hf
  · exact List.mem_singleton.mp hf ▸ he

theorem isOpen_concat (hs : s.IsOpen) {e : Octets 32} (he : IsReduced e)
    (h : (s.frame ++ [e]).length ≠ frameSize) : IsOpen ⟨s.frame ++ [e], true⟩ :=
  ⟨length_concat_lt hs.1 h, isReduced_concat hs he⟩

/-- Every frame is full and has a digest. -/
theorem digest_of_mem_frames (hs : s.IsOpen) (hes : ∀ e ∈ es, IsReduced e) :
    ∀ F ∈ s.frames es, F.length = frameSize ∧ hashFrame? F = some (frameDigest F) := by
  induction es generalizing s with
  | nil =>
    intro F hF
    rw [frames_nil] at hF
    split_ifs at hF
    · rw [List.mem_singleton] at hF
      have hlength := length_fill hs.1.le
      rw [hF]
      exact ⟨hlength, (isOpen_next hlength (isReduced_fill hs.2)).1⟩
    · cases hF
  | cons e es ih =>
    have he := hes e List.mem_cons_self
    have hes' : ∀ f ∈ es, IsReduced f := fun f hf => hes f (List.mem_cons_of_mem e hf)
    by_cases hfull : (s.frame ++ [e]).length = frameSize
    · obtain ⟨hdigest, hopen⟩ := isOpen_next hfull (isReduced_concat hs he)
      intro F hF
      rw [frames_cons_of_full hfull, List.mem_cons] at hF
      rcases hF with rfl | hF
      · exact ⟨hfull, hdigest⟩
      · exact ih hopen hes' F hF
    · rw [frames_cons_of_not_full hfull]
      exact ih (isOpen_concat hs he hfull) hes'

/-- How many frames follow a state depends on the numbers of elements only. -/
theorem length_frames (hs : s.frame.length < frameSize) (es : List (Octets 32)) :
    (s.frames es).length = if s.pending = false ∧ es = [] then 0
      else 1 + (s.frame.length + es.length - 2) / 11 := by
  have hsize : frameSize = 12 := rfl
  induction es generalizing s with
  | nil =>
    rw [frames_nil]
    cases s.pending with
    | false => simp
    | true =>
      simp only [if_true, List.length_singleton, List.length_nil, Bool.true_eq_false,
        false_and, if_false]
      omega
  | cons e es ih =>
    have hlength : (s.frame ++ [e]).length = s.frame.length + 1 := by
      rw [List.length_append, List.length_singleton]
    rw [if_neg (by simp)]
    by_cases hfull : (s.frame ++ [e]).length = frameSize
    · -- Of the next frame, the digest of this one takes one place out of twelve.
      rw [frames_cons_of_full hfull, List.length_cons, ih (length_digest_lt _)]
      cases es with
      | nil =>
        simp only [and_self, if_true, List.length_cons, List.length_nil]
        omega
      | cons f es =>
        rw [if_neg (by simp)]
        simp only [List.length_cons, List.length_nil]
        omega
    · rw [frames_cons_of_not_full hfull, ih (length_concat_lt hs hfull), if_neg (by simp)]
      dsimp only
      rw [List.length_cons]
      omega

theorem frames_eq_nil_iff (hs : s.frame.length < frameSize) :
    s.frames es = [] ↔ s.pending = false ∧ es = [] := by
  rw [← List.length_eq_zero_iff, length_frames hs]
  split_ifs with h
  · exact iff_of_true rfl h
  · exact iff_of_false (by omega) h

theorem digest_eq_of_frames (hs : s.IsOpen) (hes : ∀ e ∈ es, IsReduced e) :
    (es.foldlM absorb s).bind finish =
      some (((s.frames es).getLast?.map frameDigest).getD (s.frame.headD zero)) := by
  induction es generalizing s with
  | nil =>
    change s.finishWith hashFrame? = _
    rw [finishWith, frames_nil]
    cases hpending : s.pending with
    | true =>
      have hmem : fill s.frame ∈ s.frames [] := by
        rw [frames_nil, hpending, if_pos rfl]
        exact List.mem_singleton_self _
      exact (digest_of_mem_frames hs hes _ hmem).2
    | false => rfl
  | cons e es ih =>
    have he := hes e List.mem_cons_self
    have hes' : ∀ f ∈ es, IsReduced f := fun f hf => hes f (List.mem_cons_of_mem e hf)
    by_cases hfull : (s.frame ++ [e]).length = frameSize
    · obtain ⟨hdigest, hopen⟩ := isOpen_next hfull (isReduced_concat hs he)
      have habsorb : s.absorb e = some ⟨[frameDigest (s.frame ++ [e])], false⟩ := by
        rw [absorb, absorbWith_of_full hfull, hdigest]
        rfl
      have hrest := ih hopen hes'
      rw [List.foldlM_cons, habsorb, frames_cons_of_full hfull, List.getLast?_cons]
      change (es.foldlM absorb ⟨[frameDigest (s.frame ++ [e])], false⟩).bind finish = _
      rw [hrest]
      -- Without a further frame, the digest just computed is the result.
      cases (frames ⟨[frameDigest (s.frame ++ [e])], false⟩ es).getLast? with
      | none => rfl
      | some F => rfl
    · have habsorb : s.absorb e = some ⟨s.frame ++ [e], true⟩ :=
        absorbWith_of_not_full hfull
      have hopen := isOpen_concat hs he hfull
      have hrest := ih hopen hes'
      rw [List.foldlM_cons, habsorb, frames_cons_of_not_full hfull]
      change (es.foldlM absorb ⟨s.frame ++ [e], true⟩).bind finish = _
      have hne : frames ⟨s.frame ++ [e], true⟩ es ≠ [] := by
        rw [Ne, frames_eq_nil_iff hopen.1]
        simp
      rw [hrest, List.getLast?_eq_some_getLast hne]
      rfl

/-- The first frame begins with what the state has already taken in. -/
theorem prefix_of_frames {F : Frame} (h : (s.frames es).head? = some F) :
    s.frame <+: F := by
  induction es generalizing s with
  | nil =>
    rw [frames_nil] at h
    split_ifs at h
    · obtain rfl := Option.some.inj h
      exact List.prefix_append _ _
    · cases h
  | cons e es ih =>
    by_cases hfull : (s.frame ++ [e]).length = frameSize
    · rw [frames_cons_of_full hfull] at h
      obtain rfl := Option.some.inj h
      exact List.prefix_append _ _
    · rw [frames_cons_of_not_full hfull] at h
      exact (List.prefix_append _ _).trans (ih h)

theorem isChain_frames (s : Sponge) (es : List (Octets 32)) :
    (s.frames es).IsChain Follows := by
  induction es generalizing s with
  | nil =>
    rw [frames_nil]
    split_ifs
    · exact List.isChain_singleton _
    · exact List.isChain_nil
  | cons e es ih =>
    by_cases hfull : (s.frame ++ [e]).length = frameSize
    · rw [frames_cons_of_full hfull, List.isChain_cons]
      refine ⟨fun G hG => ?_, ih _⟩
      obtain ⟨rest, rfl⟩ := prefix_of_frames hG
      rfl
    · rw [frames_cons_of_not_full hfull]
      exact ih _

/-- The elements of the first frame, and those of the others without their first one. -/
def contents (Fs : List Frame) : List (Octets 32) :=
  Fs.headD [] ++ Fs.tail.flatMap List.tail

/-- The frames hold the elements in order; zero elements fill the last frame. -/
theorem contents_frames (hs : s.frame.length < frameSize) (hne : s.frames es ≠ []) :
    ∃ k, contents (s.frames es) = s.frame ++ es ++ List.replicate k zero := by
  induction es generalizing s with
  | nil =>
    rw [Ne, frames_eq_nil_iff hs, and_iff_left rfl, Bool.not_eq_false] at hne
    rw [frames_nil, if_pos hne]
    exact ⟨frameSize - s.frame.length, by simp [contents, fill]⟩
  | cons e es ih =>
    by_cases hfull : (s.frame ++ [e]).length = frameSize
    · rw [frames_cons_of_full hfull]
      cases es with
      | nil => exact ⟨0, by simp [contents, frames_nil]⟩
      | cons f es =>
        have hnext : frames ⟨[frameDigest (s.frame ++ [e])], false⟩ (f :: es) ≠ [] := by
          rw [Ne, frames_eq_nil_iff (length_digest_lt _)]
          simp
        obtain ⟨k, hk⟩ := ih (length_digest_lt _) hnext
        obtain ⟨G, rest, hGs⟩ := List.exists_cons_of_ne_nil hnext
        rw [hGs] at hk ⊢
        have htail := congrArg List.tail hk
        obtain ⟨t, rfl⟩ : [frameDigest (s.frame ++ [e])] <+: G :=
          prefix_of_frames (by rw [hGs]; rfl)
        simp only [contents, List.headD_cons, List.tail_cons, List.cons_append,
          List.nil_append] at htail ⊢
        refine ⟨k, ?_⟩
        simp [htail]
    · rw [frames_cons_of_not_full hfull] at hne ⊢
      obtain ⟨k, hk⟩ := ih (length_concat_lt hs hfull) hne
      exact ⟨k, by simpa using hk⟩

/-- One more zero element changes nothing, unless it takes one more frame. -/
theorem frames_concat_zero (hs : s.frame.length < frameSize) :
    s.frames (es ++ [zero]) = s.frames es ∨
      (s.frames (es ++ [zero])).length = (s.frames es).length + 1 := by
  induction es generalizing s with
  | nil =>
    rw [List.nil_append]
    by_cases hpending : s.pending = true
    · have hzeros : List.replicate (frameSize - s.frame.length) zero =
          zero :: List.replicate (frameSize - (s.frame.length + 1)) zero := by
        rw [← List.replicate_succ]
        congr 1
        omega
      have hfill : fill s.frame = fill (s.frame ++ [zero]) := by
        simp [fill, hzeros]
      refine Or.inl ?_
      rw [frames_nil, if_pos hpending, hfill]
      by_cases hfull : (s.frame ++ [zero]).length = frameSize
      · have hsame : fill (s.frame ++ [zero]) = s.frame ++ [zero] := by
          rw [fill, hfull, Nat.sub_self, List.replicate_zero, List.append_nil]
        rw [frames_cons_of_full hfull, frames_nil, hsame, if_neg Bool.false_ne_true]
      · rw [frames_cons_of_not_full hfull, frames_nil, if_pos rfl]
    · refine Or.inr ?_
      rw [length_frames hs, length_frames hs, if_neg (by simp), if_pos (by simpa using hpending)]
      have hsize : frameSize = 12 := rfl
      rw [List.length_singleton]
      omega
  | cons e es ih =>
    rw [List.cons_append]
    by_cases hfull : (s.frame ++ [e]).length = frameSize
    · rw [frames_cons_of_full hfull, frames_cons_of_full hfull]
      rcases ih (length_digest_lt (frameDigest (s.frame ++ [e]))) with h | h
      · exact Or.inl (by rw [h])
      · exact Or.inr (by rw [List.length_cons, h, List.length_cons])
    · rw [frames_cons_of_not_full hfull, frames_cons_of_not_full hfull]
      exact ih (length_concat_lt hs hfull)

end Sponge

/-! ## The elements of a byte string -/

theorem chunks_nil (size : Nat) (h : 0 < size) : Bytes.chunks size [] = [] := by
  rw [Bytes.chunks, List.length_nil, Nat.zero_add, Nat.div_eq_of_lt (Nat.sub_lt h Nat.one_pos)]
  rfl

/-- The first piece is cut off, and the rest is cut in the same way. -/
theorem chunks_of_ne_nil {size : Nat} (h : 0 < size) {bs : Bytes} (hbs : bs ≠ []) :
    Bytes.chunks size bs = bs.take size :: Bytes.chunks size (bs.drop size) := by
  have hpos := List.length_pos_iff.mpr hbs
  have hcount : (bs.length + size - 1) / size =
      ((bs.drop size).length + size - 1) / size + 1 := by
    rw [List.length_drop]
    by_cases hle : size ≤ bs.length
    · rw [← Nat.add_div_right _ h]
      congr 1
      omega
    · have hzero : bs.length - size = 0 := by omega
      rw [hzero, Nat.zero_add, Nat.div_eq_of_lt (Nat.sub_lt h Nat.one_pos)]
      exact Nat.div_eq_of_lt_le (by omega) (by omega)
  rw [Bytes.chunks, Bytes.chunks, hcount, List.range_succ_eq_map, List.map_cons, List.map_map]
  congr 1
  · rw [Nat.zero_mul, List.drop_zero]
  · refine List.map_congr_left fun i _ => ?_
    rw [Function.comp_apply, List.drop_drop, Nat.succ_mul, Nat.add_comm]

theorem length_le_of_mem_chunks {size : Nat} {bs chunk : Bytes}
    (h : chunk ∈ Bytes.chunks size bs) : chunk.length ≤ size := by
  obtain ⟨i, -, rfl⟩ := List.mem_map.mp h
  exact List.length_take_le _ _

theorem elements_nil : elements [] = [] := by
  rw [elements, chunks_nil _ (by decide)]
  rfl

theorem elements_of_ne_nil {input : Bytes} (h : input ≠ []) :
    elements input = ofChunk (input.take 31) :: elements (input.drop 31) := by
  rw [elements, chunks_of_ne_nil (by decide) h]
  rfl

theorem length_elements (input : Bytes) :
    (elements input).length = (input.length + 30) / 31 := by
  rw [elements, List.length_map, Bytes.chunks, List.length_map, List.length_range]
  rfl

/-- An element holds its piece behind a zero byte. -/
theorem toList_ofChunk {chunk : Bytes} (h : chunk.length ≤ 31) :
    (ofChunk chunk).toList = 0 :: chunk ++ List.replicate (31 - chunk.length) 0 := by
  have htake : (0 :: chunk).take 32 = 0 :: chunk :=
    List.take_of_length_le (by rw [List.length_cons]; omega)
  change (0 :: chunk).take 32 ++ List.replicate (32 - (0 :: chunk).length) 0 = _
  rw [htake, List.length_cons, Nat.succ_sub_succ_eq_sub]

/-- The elements hold the bytes in order; zero bytes fill the last element. -/
theorem bytes_elements (input : Bytes) :
    ∃ k, (elements input).flatMap (fun e => e.toList.tail) =
      input ++ List.replicate k 0 := by
  by_cases hnil : input = []
  · rw [hnil, elements_nil]
    exact ⟨0, rfl⟩
  · rw [elements_of_ne_nil hnil, List.flatMap_cons, toList_ofChunk (List.length_take_le _ _)]
    by_cases hlong : 31 ≤ input.length
    · obtain ⟨k, hk⟩ := bytes_elements (input.drop 31)
      refine ⟨k, ?_⟩
      rw [hk, List.length_take_of_le hlong]
      simp only [List.tail_cons, Nat.sub_self, List.replicate_zero, List.append_nil]
      rw [← List.append_assoc, List.take_append_drop]
    · rw [List.take_of_length_le (by omega), List.drop_eq_nil_of_le (by omega), elements_nil]
      exact ⟨31 - input.length, by simp⟩
termination_by input.length
decreasing_by
  rw [List.length_drop]
  omega

/-- One more zero byte changes nothing, unless it takes one more element. -/
theorem elements_concat_zero (input : Bytes) :
    elements (input ++ [0]) = elements input ∨
      elements (input ++ [0]) = elements input ++ [Sponge.zero] := by
  have hconcat : input ++ [0] ≠ [] := List.concat_ne_nil _ _
  by_cases hnil : input = []
  · refine Or.inr ?_
    rw [hnil, elements_nil, List.nil_append, elements_of_ne_nil (List.cons_ne_nil _ _),
      List.drop_eq_nil_of_le (by decide), elements_nil]
    rfl
  · rw [elements_of_ne_nil hconcat, elements_of_ne_nil hnil]
    by_cases hlong : 31 ≤ input.length
    · rw [List.take_append_of_le_length hlong, List.drop_append_of_le_length hlong]
      rcases elements_concat_zero (input.drop 31) with h | h
      · exact Or.inl (by rw [h])
      · exact Or.inr (by rw [h, List.cons_append])
    · have hlength : (input ++ [0]).length ≤ 31 := by
        rw [List.length_append, List.length_singleton]
        omega
      have hsame : ofChunk (input ++ [0]) = ofChunk input := by
        apply Octets.toList_injective
        rw [toList_ofChunk hlength, toList_ofChunk (by omega)]
        have hzeros : 31 - input.length = 31 - (input ++ [0]).length + 1 := by
          rw [List.length_append, List.length_singleton]
          omega
        simp [hzeros, List.replicate_succ]
      refine Or.inl ?_
      rw [List.take_of_length_le hlength, List.drop_eq_nil_of_le hlength,
        List.take_of_length_le (by omega), List.drop_eq_nil_of_le (by omega), hsame]
termination_by input.length
decreasing_by
  rw [List.length_drop]
  omega

/-! ## The frames of a byte string -/

theorem isOpen_start (pending : Bool) : Sponge.IsOpen ⟨[], pending⟩ :=
  ⟨by show 0 < frameSize; decide, by simp⟩

theorem frames_ne_nil (input : Bytes) : frames input ≠ [] := by
  rw [frames, Ne, Sponge.frames_eq_nil_iff (isOpen_start _).1]
  rintro ⟨hpending, helements⟩
  have hne : input ≠ [] := by
    rintro rfl
    cases hpending
  rw [elements_of_ne_nil hne] at helements
  cases helements

theorem isChain_frames (input : Bytes) : (frames input).IsChain Follows :=
  Sponge.isChain_frames _ _

theorem digest_of_mem_frames {input : Bytes} {F : Frame} (h : F ∈ frames input) :
    F.length = frameSize ∧ hashFrame? F = some (frameDigest F) :=
  Sponge.digest_of_mem_frames (isOpen_start _) (fun _ => isReduced_of_mem_elements) F h

/-- The digest of a byte string is that of its last frame. -/
theorem digest_eq (input : Bytes) :
    digest input = frameDigest ((frames input).getLast (frames_ne_nil input)) := by
  have hdigest : digest? input = some (((frames input).getLast?.map frameDigest).getD
      (([] : Frame).headD Sponge.zero)) :=
    Sponge.digest_eq_of_frames (isOpen_start _) fun _ => isReduced_of_mem_elements
  rw [List.getLast?_eq_some_getLast (frames_ne_nil input)] at hdigest
  rw [digest, Option.get_of_eq_some _ hdigest]
  rfl

theorem length_frames (input : Bytes) :
    (frames input).length = frameCount input.length := by
  rw [frames, Sponge.length_frames (isOpen_start _).1, if_neg, length_elements, frameCount,
    List.length_nil, Nat.zero_add]
  rw [← Sponge.frames_eq_nil_iff (isOpen_start _).1]
  exact frames_ne_nil input

/-- The frames determine the bytes, up to zero bytes at the end. -/
theorem exists_append_zeros_of_frames_eq {x y : Bytes} (h : frames x = frames y) :
    ∃ i j, x ++ List.replicate i 0 = y ++ List.replicate j 0 := by
  have hbytes : ∀ input : Bytes, ∃ k, (Sponge.contents (frames input)).flatMap
      (fun e => e.toList.tail) = input ++ List.replicate k 0 := by
    intro input
    obtain ⟨i, hi⟩ := Sponge.contents_frames (isOpen_start _).1 (frames_ne_nil input)
    obtain ⟨j, hj⟩ := bytes_elements input
    have hzeros : (List.replicate i Sponge.zero).flatMap (fun e => e.toList.tail) =
        List.replicate (i * 31) 0 := by
      have hzero : Sponge.zero.toList.tail = List.replicate 31 0 := by decide
      rw [List.flatMap_replicate, hzero, List.flatten_replicate_replicate]
    refine ⟨j + i * 31, ?_⟩
    change (Sponge.contents (Sponge.frames _ _)).flatMap _ = _
    rw [hi, List.nil_append, List.flatMap_append, hj, hzeros, List.append_assoc,
      List.replicate_append_replicate]
  obtain ⟨i, hi⟩ := hbytes x
  obtain ⟨j, hj⟩ := hbytes y
  exact ⟨i, j, by rw [← hi, ← hj, h]⟩

theorem frames_concat_zero {input : Bytes} (hne : input ≠ []) :
    frames (input ++ [0]) = frames input ∨
      (frames (input ++ [0])).length = (frames input).length + 1 := by
  have hstart : (input ++ [0]).isEmpty = input.isEmpty := by
    rw [List.isEmpty_eq_false_iff.mpr hne,
      List.isEmpty_eq_false_iff.mpr (List.concat_ne_nil _ _)]
  rw [frames, frames, hstart]
  rcases elements_concat_zero input with h | h
  · exact Or.inl (by rw [h])
  · rw [h]
    exact Sponge.frames_concat_zero (isOpen_start _).1

/-- Further zero bytes change nothing, unless they take further frames. -/
theorem frames_append_zeros {input : Bytes} (hne : input ≠ []) (k : Nat) :
    frames (input ++ List.replicate k 0) = frames input ∨
      (frames input).length < (frames (input ++ List.replicate k 0)).length := by
  induction k with
  | zero => exact Or.inl (by rw [List.replicate_zero, List.append_nil])
  | succ k ih =>
    rw [List.replicate_succ', ← List.append_assoc]
    have hstep := frames_concat_zero (List.append_ne_nil_of_left_ne_nil hne
      (List.replicate k 0))
    rcases hstep with h | h
    · rw [h]
      exact ih
    · refine Or.inr ?_
      rw [h]
      rcases ih with h' | h'
      · rw [h']
        exact Nat.lt_succ_self _
      · exact h'.trans (Nat.lt_succ_self _)

end Quorum.Poseidon
