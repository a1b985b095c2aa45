import Mathlib
import Quorum.Proofs.Key.Recombination

/-!
# Secrecy of the shares

One holder fewer than can sign learns nothing about a dealt key.  The key and
the shares of these holders are the values of the dealer's polynomial at as many
distinct points as it has coefficients, zero being one of them.  Such values
determine the polynomial and may be chosen freely: whatever the shares are, each
key goes with them in exactly one way to deal.
-/

namespace Quorum

namespace Residue

instance {n : Nat} [NeZero n] : Finite (Residue n) :=
  Finite.of_injective toZMod toZMod_injective

end Residue

/-! ## Interpolation -/

namespace Polynomial

/-- The coefficients are determined by the polynomial and their number. -/
theorem ofCoefficients_inj {cs ds : List Scalar} (hlength : cs.length = ds.length)
    (h : ofCoefficients cs = ofCoefficients ds) : cs = ds := by
  induction cs generalizing ds with
  | nil => exact (List.length_eq_zero_iff.mp hlength.symm).symm
  | cons c cs ih =>
    obtain ⟨d, ds, rfl⟩ := List.exists_cons_of_length_eq_add_one hlength.symm
    -- the value at zero is the constant coefficient; without it, `X` can be cancelled
    have hhead : c = d := by
      have heval := congrArg (Polynomial.eval 0) h
      rw [eval_zero_ofCoefficients, eval_zero_ofCoefficients] at heval
      exact Residue.toZMod_inj.mp heval
    rw [ofCoefficients_cons, ofCoefficients_cons, hhead, add_left_inj] at h
    have htail := mul_right_cancel₀ Polynomial.X_ne_zero h
    rw [hhead, ih (Nat.succ.inj hlength) htail]

theorem eq_of_evaluate_eq {points cs ds : List Scalar} (hpoints : points.Nodup)
    (hcs : cs.length = points.length) (hds : ds.length = points.length)
    (h : points.map (evaluate cs) = points.map (evaluate ds)) : cs = ds := by
  apply ofCoefficients_inj (hcs.trans hds.symm)
  have hcard : (points.map Residue.toZMod).toFinset.card = points.length := by
    rw [List.toFinset_card_of_nodup (hpoints.map Residue.toZMod_injective), List.length_map]
  have hdegree (es : List Scalar) (hes : es.length = points.length) :
      (ofCoefficients es).degree < (points.map Residue.toZMod).toFinset.card := by
    rw [hcard, ← hes]
    exact degree_ofCoefficients_lt es
  apply Polynomial.eq_of_degrees_lt_of_eval_finset_eq _ (hdegree cs hcs) (hdegree ds hds)
  intro z hz
  obtain ⟨x, hx, rfl⟩ := List.mem_map.mp (List.mem_toFinset.mp hz)
  rw [← toZMod_evaluate, ← toZMod_evaluate, List.map_inj_left.mp h x hx]

/-- The points at which a polynomial takes the key and the shares of the holders. -/
def points (ids : List PartyId) : List Scalar :=
  0 :: ids.map evaluationPoint

theorem nodup_points {ids : List PartyId} (h : ids.Nodup) : (points ids).Nodup := by
  rw [points, List.nodup_cons]
  refine ⟨?_, h.map evaluationPoint_injective⟩
  intro hzero
  obtain ⟨id, -, hid⟩ := List.mem_map.mp hzero
  exact evaluationPoint_ne_zero id hid

/-- The key of a polynomial, followed by the shares of the holders. -/
def view (ids : List PartyId) (coefficients : List Scalar) : List Scalar :=
  coefficients.headD 0 ::
    ids.map fun id => evaluate coefficients (evaluationPoint id)

theorem view_eq_map (ids : List PartyId) (coefficients : List Scalar) :
    view ids coefficients = (points ids).map (evaluate coefficients) := by
  rw [view, points, List.map_cons, evaluate_zero, List.map_map]
  rfl

theorem view_inj {ids : List PartyId} (hnodup : ids.Nodup) {cs ds : List Scalar}
    (hcs : cs.length = ids.length + 1) (hds : ds.length = ids.length + 1)
    (h : view ids cs = view ids ds) : cs = ds := by
  have hlength : (points ids).length = ids.length + 1 := by
    rw [points, List.length_cons, List.length_map]
  rw [view_eq_map, view_eq_map] at h
  exact eq_of_evaluate_eq (nodup_points hnodup) (hcs.trans hlength.symm)
    (hds.trans hlength.symm) h

/-- The view of one holder fewer than there are coefficients, as a map of vectors. -/
def viewVector (ids : List PartyId) (coefficients : List.Vector Scalar (ids.length + 1)) :
    List.Vector Scalar (ids.length + 1) :=
  ⟨view ids coefficients.toList, by rw [view, List.length_cons, List.length_map]⟩

/-- Every view comes from exactly one vector of coefficients. -/
theorem viewVector_bijective {ids : List PartyId} (hnodup : ids.Nodup) :
    Function.Bijective (viewVector ids) := by
  rw [← Finite.injective_iff_bijective]
  intro cs ds h
  exact List.Vector.eq cs ds
    (view_inj hnodup cs.toList_length ds.toList_length (congrArg Subtype.val h))

theorem exists_view_eq {ids : List PartyId} (hnodup : ids.Nodup) (secret : Scalar)
    {values : List Scalar} (hvalues : values.length = ids.length) :
    ∃ cs, cs.length = ids.length + 1 ∧ view ids cs = secret :: values := by
  obtain ⟨cs, hcs⟩ := (viewVector_bijective hnodup).surjective
    ⟨secret :: values, by rw [List.length_cons, hvalues]⟩
  exact ⟨cs.toList, cs.toList_length, congrArg Subtype.val hcs⟩

end Polynomial

/-! ## What a dealer can draw -/

theorem Scalar.reduce_ofNatLE (s : Scalar) : reduce (Bytes.ofNatLE 64 s.val) = s := by
  have hlt : s.val < Bytes.count 64 := s.isLt.trans (by decide)
  rw [← Residue.toZMod_inj, reduce, Bytes.toNatLE_ofNatLE, Nat.mod_eq_of_lt hlt,
    Residue.toZMod_ofNat]
  rfl

namespace Tape

/-- Each scalar is drawn from the 64 bytes behind those of the one before it. -/
theorem scalars_eq_map (byteAt : Nat → UInt8) (j count : Nat) :
    ((mk byteAt (64 * j)).scalars count).1 =
      (List.range' j count).map fun k => (mk byteAt (64 * k)).scalar.1 := by
  induction count generalizing j with
  | zero => rfl
  | succ count ih =>
    rw [List.range'_succ, List.map_cons, ← ih (j + 1)]
    rfl

/-- A tape on which the scalars are written one after the other. -/
def ofScalars (ss : List Scalar) : Tape where
  byteAt i := (Bytes.ofNatLE 64 (ss.getD (i / 64) 0).val).getD (i % 64) 0
  position := 64 * 0

theorem scalar_ofScalars (ss : List Scalar) (k : Nat) :
    (mk (ofScalars ss).byteAt (64 * k)).scalar.1 = ss.getD k 0 := by
  have hbytes : ((mk (ofScalars ss).byteAt (64 * k)).bytes 64).1 =
      Bytes.ofNatLE 64 (ss.getD k 0).val := by
    apply List.ext_getElem
    · rw [Bytes.length_ofNatLE, bytes, List.length_map, List.length_range]
    · intro i hi hi'
      have hlt : i < 64 := by
        rwa [Bytes.length_ofNatLE] at hi'
      have hdiv : (64 * k + i) / 64 = k := by omega
      have hmod : (64 * k + i) % 64 = i := by omega
      simp only [bytes, ofScalars, List.getElem_map, List.getElem_range, hdiv, hmod,
        List.getD_eq_getElem _ _ hi']
  rw [scalar, hbytes, Scalar.reduce_ofNatLE]

theorem scalars_ofScalars (ss : List Scalar) :
    ((ofScalars ss).scalars ss.length).1 = ss := by
  change ((mk (ofScalars ss).byteAt (64 * 0)).scalars ss.length).1 = ss
  rw [scalars_eq_map]
  apply List.ext_getElem
  · rw [List.length_map, List.length_range']
  · intro k hk hk'
    rw [List.getElem_map, List.getElem_range', scalar_ofScalars, Nat.zero_add, Nat.one_mul,
      List.getD_eq_getElem _ _ hk']

end Tape

/-! ## Dealings -/

/-- Holders of a dealt key, one fewer than can sign. -/
structure OneShort (threshold n : UInt64) (ids : List PartyId) : Prop where
  two_le_threshold : 2 ≤ threshold.toNat
  threshold_le : threshold.toNat ≤ n.toNat
  /-- These are one fewer than the threshold. -/
  count_eq : threshold.toNat = ids.length + 1
  nodup : ids.Nodup
  holders : ∀ id ∈ ids, id.toNat < n.toNat

/-- The shares are dealt for a key, and give some holders the given secret shares. -/
structure Explains (threshold n : UInt64) (ids : List PartyId) (secret : Scalar)
    (values : List Scalar) (shares : List KeyShare) : Prop where
  /-- A dealer can draw them. -/
  dealt : ∃ tape rest, dealShares threshold n tape = .ok (shares, rest)
  publicKey_eq : ∀ key ∈ shares, key.publicKey = secret • Point.generator
  /-- The holders get the given values. -/
  values_eq : ids.map (KeyShare.secretOf shares) = values

section OneShort

variable {threshold n : UInt64} {ids : List PartyId} (h : OneShort threshold n ids)

include h

/-- What the shares of a polynomial explain is its view. -/
theorem OneShort.explains_iff {secret : Scalar} {values : List Scalar}
    {shares : List KeyShare} :
    Explains threshold n ids secret values shares ↔
      ∃ cs, cs.length = ids.length + 1 ∧ Polynomial.view ids cs = secret :: values ∧
        shares = KeyShare.ofCoefficients cs n := by
  have hvalues (cs : List Scalar) : ids.map (KeyShare.secretOf
      (KeyShare.ofCoefficients cs n)) = ids.map fun id =>
        Polynomial.evaluate cs (evaluationPoint id) :=
    List.map_congr_left fun id hid => KeyShare.secretOf_ofCoefficients (h.holders id hid)
  constructor
  · rintro ⟨⟨tape, rest, hdeal⟩, hkey, hshares⟩
    obtain ⟨-, hn, rfl, -⟩ := dealShares_eq_ok.mp hdeal
    refine ⟨_, (Tape.length_scalars _ _).trans h.count_eq, ?_, rfl⟩
    have hmem : KeyShare.dealt (tape.scalars threshold.toNat).1 n 0 ∈
        KeyShare.ofCoefficients (tape.scalars threshold.toNat).1 n := by
      refine KeyShare.mem_ofCoefficients.mpr ⟨0, ?_, rfl⟩
      have htwo := h.two_le_threshold
      have hzero : (0 : UInt64).toNat = 0 := rfl
      omega
    have hsecret : (tape.scalars threshold.toNat).1.headD 0 = secret :=
      (Point.smul_inj Point.generator_mem Point.generator_ne_zero).mp (hkey _ hmem)
    rw [Polynomial.view, hsecret, ← hshares, hvalues]
  · rintro ⟨cs, hlength, hview, rfl⟩
    rw [Polynomial.view, List.cons.injEq] at hview
    obtain ⟨hsecret, hshares⟩ := hview
    -- The dealer draws these coefficients from the tape that writes them.
    have hdraw : ((Tape.ofScalars cs).scalars threshold.toNat).1 = cs := by
      rw [h.count_eq, ← hlength, Tape.scalars_ofScalars]
    constructor
    case dealt =>
      refine ⟨Tape.ofScalars cs, _, dealShares_eq_ok.mpr
        ⟨h.two_le_threshold, h.threshold_le, ?_, rfl⟩⟩
      rw [hdraw]
    case publicKey_eq =>
      intro key hkey
      obtain ⟨id, -, rfl⟩ := KeyShare.mem_ofCoefficients.mp hkey
      rw [← hsecret]
      rfl
    case values_eq => rw [hvalues, hshares]

/-- Every key goes with the shares of one holder too few in exactly one way. -/
theorem OneShort.existsUnique_explains (secret : Scalar) {values : List Scalar}
    (hvalues : values.length = ids.length) :
    ∃! shares, Explains threshold n ids secret values shares := by
  obtain ⟨cs, hlength, hview⟩ := Polynomial.exists_view_eq h.nodup secret hvalues
  refine ⟨KeyShare.ofCoefficients cs n, h.explains_iff.mpr ⟨cs, hlength, hview, rfl⟩, ?_⟩
  intro shares hshares
  obtain ⟨ds, hlength', hview', rfl⟩ := h.explains_iff.mp hshares
  rw [Polynomial.view_inj h.nodup hlength' hlength (hview'.trans hview.symm)]

end OneShort

/--
The key and the shares of one holder fewer than there are coefficients are a
bijective function of the coefficients.  So with whatever shares such holders
have been dealt, every key goes in exactly one way.
-/
theorem shares_hide_secret {ids : List PartyId} (hnodup : ids.Nodup) :
    Function.Bijective (Polynomial.viewVector ids) ∧
      ∀ (threshold n : UInt64) (secret : Scalar) (values : List Scalar),
        OneShort threshold n ids → values.length = ids.length →
          ∃! shares, Explains threshold n ids secret values shares :=
  ⟨Polynomial.viewVector_bijective hnodup, fun _ _ secret _ hshort hvalues =>
    hshort.existsUnique_explains secret hvalues⟩

/-- The second of two holders, who has been dealt seven, and the key five. -/
theorem shares_hide_secret_smallest :
    [(1 : PartyId)].Nodup ∧ OneShort 2 2 [1] ∧
      Function.Bijective (Polynomial.viewVector [1]) ∧
      ∃! shares, Explains 2 2 [1] 5 [7] shares := by
  have hshort : OneShort 2 2 [1] :=
    ⟨by decide, by decide, rfl, by decide, by simp⟩
  obtain ⟨hbijective, hunique⟩ := shares_hide_secret hshort.nodup
  exact ⟨hshort.nodup, hshort, hbijective, hunique 2 2 5 [7] hshort rfl⟩

end Quorum
