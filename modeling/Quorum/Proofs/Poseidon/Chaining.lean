import Mathlib
import Quorum.Proofs.Poseidon.Frames

/-!
# The digest of the algebraic hash as a chain of frames

The program feeds the elements of an input to a state one at a time.  The
reference definition cuts them up first: twelve elements for the first frame,
and eleven behind the digest of the frame before for each further one.  The two
agree for every hash of frames, in every monad in which it may run, so they
also make the same calls.

The hash of a frame is a parameter here.  All that is asked of it is that it
takes every full frame of reduced elements to a reduced element.
-/

namespace Quorum.Poseidon

section Chain

variable {m : Type → Type} [Monad m]

/-- The digest of elements that follow a digest: eleven at a time behind the last digest. -/
def chainFrom (hash : Frame → m (Octets 32)) :
    Octets 32 → List (Octets 32) → m (Octets 32)
  | d, [] => return d
  | d, e :: es => do
    let d' ← hash (fill (d :: (e :: es).take (frameSize - 1)))
    chainFrom hash d' ((e :: es).drop (frameSize - 1))
termination_by _ es => es.length
decreasing_by
  have hsize : frameSize = 12 := rfl
  rw [List.length_drop, List.length_cons]
  omega

/-- The digest of elements: the first frame takes twelve, further ones follow its digest. -/
def chained (hash : Frame → m (Octets 32)) (es : List (Octets 32)) : m (Octets 32) := do
  let d ← hash (fill (es.take frameSize))
  chainFrom hash d (es.drop frameSize)

variable {hash : Frame → m (Octets 32)}

theorem chainFrom_nil (d : Octets 32) : chainFrom hash d [] = pure d := by
  rw [chainFrom]

theorem chainFrom_of_ne_nil (d : Octets 32) {es : List (Octets 32)} (h : es ≠ []) :
    chainFrom hash d es = hash (fill (d :: es.take (frameSize - 1))) >>= fun d' =>
      chainFrom hash d' (es.drop (frameSize - 1)) := by
  obtain ⟨e, es, rfl⟩ := List.exists_cons_of_ne_nil h
  rw [chainFrom]

/-- A digest is an element of the next frame like any other. -/
theorem chainFrom_eq_chained (d : Octets 32) {es : List (Octets 32)} (h : es ≠ []) :
    chainFrom hash d es = chained hash (d :: es) :=
  chainFrom_of_ne_nil d h

theorem fill_of_full {F : Frame} (h : F.length = frameSize) : fill F = F := by
  rw [fill, h, Nat.sub_self, List.replicate_zero, List.append_nil]

/-- A full frame in front is hashed, and the rest follows its digest. -/
theorem chained_append_of_full {F : Frame} (h : F.length = frameSize)
    (es : List (Octets 32)) :
    chained hash (F ++ es) = hash F >>= fun d => chainFrom hash d es := by
  rw [chained, List.take_left' h, List.drop_left' h, fill_of_full h]

variable [LawfulMonad m]

theorem chained_of_length_le (hash : Frame → m (Octets 32)) {es : List (Octets 32)}
    (h : es.length ≤ frameSize) :
    chained hash es = hash (fill es) := by
  rw [chained, List.take_of_length_le h, List.drop_eq_nil_of_le h]
  simp only [chainFrom_nil, bind_pure]

/-- Whatever the open frame holds, the elements that follow are hashed as if they were
cut up together with it.  Only a digest that nothing follows is not hashed again. -/
theorem Sponge.foldlM_absorbWith_bind_finishWith (hash : Frame → m (Octets 32))
    {s : Sponge} (hs : s.frame.length < frameSize) (es : List (Octets 32)) :
    es.foldlM (Sponge.absorbWith hash) s >>= Sponge.finishWith hash =
      if s.pending = false ∧ es = [] then pure (s.frame.headD zero)
      else chained hash (s.frame ++ es) := by
  induction es generalizing s with
  | nil =>
    rw [List.foldlM_nil, pure_bind, finishWith, List.append_nil]
    cases s.pending with
    | true =>
      rw [if_pos rfl, if_neg (by simp), chained_of_length_le hash hs.le]
      rfl
    | false =>
      rw [if_neg Bool.false_ne_true, if_pos ⟨rfl, rfl⟩]
  | cons e es ih =>
    have hcut : s.frame ++ e :: es = (s.frame ++ [e]) ++ es :=
      (List.append_cons _ _ _)
    rw [List.foldlM_cons, if_neg (by simp), hcut]
    by_cases hfull : (s.frame ++ [e]).length = frameSize
    · rw [absorbWith_of_full hfull, chained_append_of_full hfull]
      simp only [bind_assoc, pure_bind]
      refine bind_congr fun d => ?_
      rw [ih (length_digest_lt d)]
      -- the digest is the result if no element is left, and opens a frame otherwise
      by_cases hnil : es = []
      · rw [if_pos ⟨rfl, hnil⟩, hnil, chainFrom_nil]
        rfl
      · rw [if_neg fun h => hnil h.2, chainFrom_eq_chained d hnil]
        rfl
    · rw [absorbWith_of_not_full hfull]
      simp only [pure_bind]
      rw [ih (length_concat_lt hs hfull), if_neg (by simp)]

/-- The program computes the chain of frames, call by call. -/
theorem digestWith_eq_chained (hash : Frame → m (Octets 32)) (input : Bytes) :
    digestWith hash input = chained hash (elements input) := by
  have hrun := Sponge.foldlM_absorbWith_bind_finishWith hash
    (isOpen_start input.isEmpty).1 (elements input)
  have hstart : ¬(input.isEmpty = false ∧ elements input = []) := by
    rw [← Sponge.frames_eq_nil_iff (isOpen_start input.isEmpty).1]
    exact frames_ne_nil input
  rw [if_neg hstart, List.nil_append] at hrun
  exact hrun

end Chain

theorem chained_hashFrame? (input : Bytes) :
    chained hashFrame? (elements input) = some (digest input) := by
  rw [← digestWith_eq_chained]
  exact (Option.some_get (digest?_isSome input)).symm

/-! ## The calls of the hash -/

/-- A hash of frames that keeps a record of the frames it is called with. -/
def recorded (hash : Frame → Option (Octets 32)) (F : Frame) :
    StateT (List Frame) Option (Octets 32) := do
  modify (· ++ [F])
  hash F

/-- A computation that hashes frames returns `d`, with and without a record.  It writes a
reduced element, and so does every element of the full frames that are hashed for it. -/
structure RunsTo (plain : Option (Octets 32))
    (recording : StateT (List Frame) Option (Octets 32)) (d : Octets 32)
    (calls : List Frame) : Prop where
  result : plain = some d
  /-- The result with the calls behind those that were recorded before. -/
  record : ∀ log, recording.run log = some (d, log ++ calls)
  reduced : IsReduced d
  calls : ∀ F ∈ calls, F.length = frameSize ∧ ∀ e ∈ F, IsReduced e

namespace RunsTo

variable {d d' : Octets 32} {calls calls' : List Frame}

theorem pure_of_isReduced (hd : IsReduced d) : RunsTo (pure d) (pure d) d [] where
  result := rfl
  record log := by
    rw [List.append_nil]
    rfl
  reduced := hd
  calls := by simp

theorem bind {x : Option (Octets 32)} {x' : StateT (List Frame) Option (Octets 32)}
    {f : Octets 32 → Option (Octets 32)}
    {f' : Octets 32 → StateT (List Frame) Option (Octets 32)}
    (hx : RunsTo x x' d calls) (hf : RunsTo (f d) (f' d) d' calls') :
    RunsTo (x >>= f) (x' >>= f') d' (calls ++ calls') where
  result := by
    rw [hx.result]
    exact hf.result
  record log := by
    have hrest := hf.record (log ++ calls)
    rw [List.append_assoc] at hrest
    rw [StateT.run_bind, hx.record]
    exact hrest
  reduced := hf.reduced
  calls F hF := (List.mem_append.mp hF).elim (hx.calls F) (hf.calls F)

variable {hash : Frame → Option (Octets 32)}

theorem exists_call (hhash : HashesFrames hash) {F : Frame} (hlen : F.length ≤ frameSize)
    (hF : ∀ e ∈ F, IsReduced e) :
    ∃ d, RunsTo (hash (fill F)) (recorded hash (fill F)) d [fill F] := by
  have hfull := length_fill hlen
  have hreduced := isReduced_fill hF
  obtain ⟨d, hd, hdr⟩ := hhash hfull hreduced
  refine ⟨d, hd, fun log => ?_, hdr, fun G hG => ?_⟩
  · change (hash (fill F)).bind (fun d => some (d, log ++ [fill F])) = _
    rw [hd, Option.bind_some]
  · rw [List.mem_singleton.mp hG]
    exact ⟨hfull, hreduced⟩

/-- A chain that follows a digest takes one call for every eleven elements. -/
theorem exists_chainFrom (hhash : HashesFrames hash) {d : Octets 32} (hd : IsReduced d)
    (es : List (Octets 32)) (hes : ∀ e ∈ es, IsReduced e) :
    ∃ d' calls, RunsTo (chainFrom hash d es) (chainFrom (recorded hash) d es) d' calls ∧
      calls.length = (es.length + 10) / 11 := by
  by_cases hnil : es = []
  · refine ⟨d, [], ?_, by rw [hnil]; rfl⟩
    rw [hnil, chainFrom_nil, chainFrom_nil]
    exact pure_of_isReduced hd
  · have hsize : frameSize = 12 := rfl
    have hpos := List.length_pos_iff.mpr hnil
    obtain ⟨d₁, hcall⟩ := exists_call hhash (F := d :: es.take (frameSize - 1))
      (by rw [List.length_cons, List.length_take]; omega)
      (List.forall_mem_cons.mpr ⟨hd, fun e he => hes e (List.mem_of_mem_take he)⟩)
    obtain ⟨d', calls, hrest, hlength⟩ := exists_chainFrom hhash hcall.reduced
      (es.drop (frameSize - 1)) fun e he => hes e (List.mem_of_mem_drop he)
    refine ⟨d', fill (d :: es.take (frameSize - 1)) :: calls, ?_, ?_⟩
    · rw [chainFrom_of_ne_nil d hnil, chainFrom_of_ne_nil d hnil]
      exact hcall.bind hrest
    · rw [List.length_cons, hlength, List.length_drop]
      omega
termination_by es.length
decreasing_by
  have hsize : frameSize = 12 := rfl
  rw [List.length_drop]
  omega

theorem exists_chained (hhash : HashesFrames hash) (es : List (Octets 32))
    (hes : ∀ e ∈ es, IsReduced e) :
    ∃ d calls, RunsTo (chained hash es) (chained (recorded hash) es) d calls ∧
      calls.length = 1 + (es.length - 2) / 11 := by
  obtain ⟨d₁, hcall⟩ := exists_call hhash (F := es.take frameSize) (List.length_take_le _ _)
    fun e he => hes e (List.mem_of_mem_take he)
  obtain ⟨d, calls, hrest, hlength⟩ := exists_chainFrom hhash hcall.reduced
    (es.drop frameSize) fun e he => hes e (List.mem_of_mem_drop he)
  refine ⟨d, fill (es.take frameSize) :: calls, hcall.bind hrest, ?_⟩
  have hsize : frameSize = 12 := rfl
  rw [List.length_cons, hlength, List.length_drop]
  omega

end RunsTo

/-! ## The digest -/

theorem toList_getElem_elements {input : Bytes} {i : Nat} (h : i < (elements input).length) :
    (elements input)[i].toList = 0 :: (input.drop (i * 31)).take 31 ++
      List.replicate (31 - (input.drop (i * 31)).length) 0 := by
  have hcut : (elements input)[i] = ofChunk ((input.drop (i * 31)).take 31) := by
    simp [elements, Bytes.chunks, chunkSize]
  rw [hcut, toList_ofChunk (List.length_take_le _ _), List.length_take]
  congr 2
  omega

/-- The digest of an input is `d`, and `calls` are the frames that are hashed for it. -/
structure DigestChain (hash : Frame → Option (Octets 32)) (input : Bytes) (d : Octets 32)
    (calls : List Frame) : Prop where
  /-- There is an element for every 31 bytes that the input begins. -/
  count : (elements input).length = (input.length + 30) / 31
  /-- The elements hold the input in order. -/
  element : ∀ i (h : i < (elements input).length), (elements input)[i].toList =
    0 :: (input.drop (i * 31)).take 31 ++ List.replicate (31 - (input.drop (i * 31)).length) 0
  result : chained hash (elements input) = some d
  /-- Up to twelve elements take one call. -/
  single : (elements input).length ≤ frameSize → hash (fill (elements input)) = some d
  reduced : IsReduced d
  /-- The frames are those of the chain. -/
  record : (chained (recorded hash) (elements input)).run [] = some (d, calls)
  /-- The program hashes the same frames. -/
  program : (digestWith (recorded hash) input).run [] = some (d, calls)
  /-- A further frame is opened for an element only, not for a digest alone. -/
  length_calls : calls.length = 1 + ((elements input).length - 2) / 11
  of_mem_calls : ∀ F ∈ calls, F.length = frameSize ∧ ∀ e ∈ F, IsReduced e
  /-- Every piece has room in its element behind a zero byte. -/
  piece : ∀ chunk ∈ Bytes.chunks chunkSize input, 1 + chunk.length ≤ 32
  /-- Every element has room in the open frame. -/
  room : ∀ es, es <+: elements input → ∃ s,
    es.foldlM (Sponge.absorbWith hash) ⟨[], input.isEmpty⟩ = some s ∧
      s.frame.length < frameSize

/-- Every input has a digest, that of the chain of its frames. -/
theorem digest_chained {hash : Frame → Option (Octets 32)} (hhash : HashesFrames hash)
    (input : Bytes) :
    ∃ d calls, digestWith hash input = some d ∧ DigestChain hash input d calls := by
  have hreduced : ∀ e ∈ elements input, IsReduced e := fun _ => isReduced_of_mem_elements
  obtain ⟨d, calls, hruns, hlength⟩ := RunsTo.exists_chained hhash _ hreduced
  refine ⟨d, calls, ?_, ?_⟩
  · rw [digestWith_eq_chained, hruns.result]
  constructor
  case count => exact length_elements input
  case element => exact fun _ => toList_getElem_elements
  case result => exact hruns.result
  case single =>
    intro hle
    rw [← chained_of_length_le hash hle, hruns.result]
  case reduced => exact hruns.reduced
  case record => exact hruns.record []
  case program =>
    rw [digestWith_eq_chained]
    exact hruns.record []
  case length_calls => exact hlength
  case of_mem_calls => exact hruns.calls
  case piece =>
    intro chunk hchunk
    have hle := length_le_of_mem_chunks hchunk
    have hsize : chunkSize = 31 := rfl
    omega
  case room =>
    intro es hes
    obtain ⟨s, hs, hopen⟩ := Sponge.exists_foldlM_absorbWith hhash es
      (isOpen_start input.isEmpty) fun e he => hreduced e (hes.subset he)
    exact ⟨s, hs, hopen.1⟩

/-- An input of thirteen elements takes a second frame. -/
theorem digest_chained_thirteen : HashesFrames hashFrame? ∧
    ∃ d calls, digest? (List.replicate 373 1) = some d ∧
      DigestChain hashFrame? (List.replicate 373 1) d calls ∧ calls.length = 2 := by
  obtain ⟨d, calls, hdigest, hchain⟩ :=
    digest_chained hashesFrames_hashFrame? (List.replicate 373 1)
  have hcalls := hchain.length_calls
  rw [hchain.count, List.length_replicate] at hcalls
  exact ⟨hashesFrames_hashFrame?, d, calls, hdigest, hchain, hcalls⟩

end Quorum.Poseidon
