import Mathlib
import Quorum.Wire.Keys
import Quorum.Wire.Messages
import Quorum.Proofs.Curve.Affine
import Quorum.Proofs.Curve.PrimeSubgroup
import Quorum.Proofs.Json.RoundTrip
import Quorum.Proofs.Outcome

/-!
# Values on the wire

Every value is read back from the text that was written of it.  A type is
lawful if its values are written as canonical JSON and read back from it;
lists, records and choices of lawful types are lawful.
-/

namespace Quorum

open Wire
open Json (Canonical isPlain canonical_ofNat toNat?_ofNat)

/-- Types whose values are written canonically and read back as they were. -/
class LawfulWire (α : Type) [Wire α] : Prop where
  canonical_toJson : ∀ v : α, (toJson v).Canonical
  ofJson?_toJson : ∀ v : α, ofJson? (toJson v) = some v

open LawfulWire

theorem Wire.read?_write {α : Type} [Wire α] [LawfulWire α] (v : α) :
    read? α (write v) = some v := by
  rw [read?, write, (canonical_toJson v).parse?_render, Option.bind_some, ofJson?_toJson]

/-! ## Records and choices -/

theorem Json.canonical_ofMembers {members : List (String × Json)}
    (hnames : ∀ m ∈ members, ∀ c ∈ m.1.toList, isPlain c = true)
    (hvalues : ∀ m ∈ members, m.2.Canonical) : (Json.ofMembers members).Canonical := by
  refine .object ?_ ?_
  · intro m hm
    obtain ⟨m', hm', rfl⟩ := List.mem_map.mp hm
    exact hnames m' hm'
  · intro m hm
    obtain ⟨m', hm', rfl⟩ := List.mem_map.mp hm
    exact hvalues m' hm'

theorem Wire.mapM_eq_some_map {α β : Type} {f : α → Option β} {g : α → β} {xs : List α}
    (h : ∀ x ∈ xs, f x = some (g x)) : xs.mapM f = some (xs.map g) := by
  rw [mapM_eq_some, List.forall₂_map_right_iff, List.forall₂_same]
  exact h

/-- Names that the fields of a record may have: none is repeated or needs escapes. -/
structure Wire.FieldNames (names : List String) : Prop where
  nodup : names.Nodup
  /-- The names are read as they are written. -/
  plain : ∀ name ∈ names, ∀ c ∈ name.toList, isPlain c = true

section Record

variable {names : List String} {members : List (String × Json)}

theorem Wire.FieldNames.plain_of_mem (h : FieldNames names)
    (hmembers : members.map Prod.fst = names) {m : String × Json} (hm : m ∈ members) :
    ∀ c ∈ m.1.toList, isPlain c = true :=
  h.plain m.1 (hmembers ▸ List.mem_map_of_mem hm)

/-- If names do not repeat, a member is the only one with its name. -/
theorem Wire.filter_name_eq (hnodup : (members.map Prod.fst).Nodup)
    {m : String × Json} (hm : m ∈ members) :
    members.filter (·.1.toList == m.1.toList) = [m] := by
  induction members with
  | nil => cases hm
  | cons m' members ih =>
    rw [List.map_cons, List.nodup_cons] at hnodup
    obtain ⟨hfresh, hrest⟩ := hnodup
    rw [List.filter_cons]
    rcases List.mem_cons.mp hm with rfl | hmem
    · rw [beq_self_eq_true, if_pos rfl, List.cons_inj_right, List.filter_eq_nil_iff]
      intro m'' hm'' heq
      have hname := String.toList_inj.mp (beq_iff_eq.mp heq)
      exact hfresh (List.mem_map.mpr ⟨m'', hm'', hname⟩)
    · have hne : ¬ (m'.1.toList == m.1.toList) = true := by
        intro heq
        have hname := String.toList_inj.mp (beq_iff_eq.mp heq)
        exact hfresh (List.mem_map.mpr ⟨m, hmem, hname.symm⟩)
      rw [if_neg hne]
      exact ih hrest hmem

theorem Wire.canonical_record (hnames : FieldNames names)
    (hmembers : members.map Prod.fst = names) (hvalues : ∀ m ∈ members, m.2.Canonical) :
    (Json.ofMembers members).Canonical :=
  Json.canonical_ofMembers (fun _ hm => hnames.plain_of_mem hmembers hm) hvalues

/-- The fields of a record are found by their names. -/
theorem Wire.record?_ofMembers (hnames : FieldNames names)
    (hmembers : members.map Prod.fst = names) :
    record? names (.ofMembers members) = some (members.map (some ·.2)) := by
  have hunescape : (members.map fun m => (m.1.toList, m.2)).mapM
      (fun m => (Json.Text.unescape? m.1).map (·, m.2)) =
        some (members.map fun m => (m.1.toList, m.2)) := by
    rw [mapM_eq_some_map (g := id), List.map_id]
    intro m hm
    obtain ⟨m', hm', rfl⟩ := List.mem_map.mp hm
    rw [Json.Text.unescape?_of_plain (hnames.plain_of_mem hmembers hm')]
    rfl
  have hsingle : ∀ m ∈ members, single? ((members.map fun m => (m.1.toList, m.2)).filter
      (·.1 == m.1.toList)) = some (some m.2) := by
    intro m hm
    rw [List.filter_map]
    have hfilter := filter_name_eq (hmembers ▸ hnames.nodup) hm
    change single? ((members.filter (·.1.toList == m.1.toList)).map _) = _
    rw [hfilter]
    rfl
  subst hmembers
  change ((members.map fun m => (m.1.toList, m.2)).mapM
    (fun m => (Json.Text.unescape? m.1).map (·, m.2))).bind _ = _
  rw [hunescape, Option.bind_some, List.mapM_map]
  exact mapM_eq_some_map hsingle

/-- What is read of a record is told by its fields. -/
theorem Wire.bind_record? {α : Type} (hnames : FieldNames names)
    (hmembers : members.map Prod.fst = names) (read : List (Option Json) → Option α) :
    (record? names (.ofMembers members)).bind read = read (members.map (some ·.2)) := by
  rw [record?_ofMembers hnames hmembers, Option.bind_some]

/-- A type is lawful if its values are records whose fields are read back. -/
theorem LawfulWire.of_record {α : Type} [Wire α] (members : α → List (String × Json))
    {read : List (Option Json) → Option α} (hnames : FieldNames names)
    (hmembers : ∀ v, (members v).map Prod.fst = names)
    (hwrite : ∀ v : α, toJson v = .ofMembers (members v))
    (hread : ∀ j, ofJson? j = (record? names j).bind read)
    (hvalues : ∀ v, ∀ m ∈ members v, m.2.Canonical)
    (hfields : ∀ v, read ((members v).map (some ·.2)) = some v) : LawfulWire α where
  canonical_toJson v := by
    rw [hwrite]
    exact canonical_record hnames (hmembers v) (hvalues v)
  ofJson?_toJson v := by
    rw [hwrite, hread, bind_record? hnames (hmembers v), hfields]

end Record

theorem Wire.canonical_choice {name : String} {v : Json}
    (hname : ∀ c ∈ name.toList, isPlain c = true) (hv : v.Canonical) :
    (choice name v).Canonical := by
  refine Json.canonical_ofMembers ?_ ?_
  · intro m hm
    obtain rfl := List.mem_singleton.mp hm
    exact hname
  · intro m hm
    obtain rfl := List.mem_singleton.mp hm
    exact hv

theorem Wire.choice?_choice {name : String} (v : Json)
    (hname : ∀ c ∈ name.toList, isPlain c = true) :
    choice? (choice name v) = some (name, v) := by
  change (Json.Text.unescape? name.toList).map _ = _
  rw [Json.Text.unescape?_of_plain hname, Option.map_some, String.ofList_toList]

/-- What is read of a choice is told by its alternative. -/
theorem Wire.bind_choice? {α : Type} (name : String) (v : Json)
    (hname : ∀ c ∈ name.toList, isPlain c = true) (read : String × Json → Option α) :
    (choice? (choice name v)).bind read = read (name, v) := by
  rw [choice?_choice v hname, Option.bind_some]

/-! ## Numbers, bytes, scalars and points -/

theorem Wire.natBelow?_ofNat {bound k : Nat} (h : k < bound) :
    natBelow? bound (.ofNat k) = some k := by
  rw [natBelow?, toNat?_ofNat, Option.bind_some, if_pos h]

instance : LawfulWire UInt8 where
  canonical_toJson k := canonical_ofNat k.toNat
  ofJson?_toJson k := by
    change (natBelow? UInt8.size (.ofNat k.toNat)).map UInt8.ofNat = _
    rw [natBelow?_ofNat k.toNat_lt, Option.map_some, UInt8.ofNat_toNat]

instance : LawfulWire UInt32 where
  canonical_toJson k := canonical_ofNat k.toNat
  ofJson?_toJson k := by
    change (natBelow? UInt32.size (.ofNat k.toNat)).map UInt32.ofNat = _
    rw [natBelow?_ofNat k.toNat_lt, Option.map_some, UInt32.ofNat_toNat]

instance : LawfulWire UInt64 where
  canonical_toJson k := canonical_ofNat k.toNat
  ofJson?_toJson k := by
    change (natBelow? UInt64.size (.ofNat k.toNat)).map UInt64.ofNat = _
    rw [natBelow?_ofNat k.toNat_lt, Option.map_some, UInt64.ofNat_toNat]

instance {α : Type} [Wire α] [LawfulWire α] : LawfulWire (List α) where
  canonical_toJson vs := by
    refine .array fun v hv => ?_
    obtain ⟨w, -, rfl⟩ := List.mem_map.mp hv
    exact canonical_toJson w
  ofJson?_toJson vs := by
    change (vs.map toJson).mapM ofJson? = _
    rw [List.mapM_map, mapM_eq_some_map (g := id), List.map_id]
    exact fun v _ => ofJson?_toJson v

instance {n : Nat} : LawfulWire (Octets n) where
  canonical_toJson bs := canonical_toJson bs.toList
  ofJson?_toJson bs := by
    change (ofJson? (toJson bs.toList)).bind (Octets.ofBytes? n) = _
    rw [ofJson?_toJson, Option.bind_some, Octets.ofBytes?, dif_pos bs.length_eq]

instance : LawfulWire Scalar where
  canonical_toJson s := canonical_toJson s.encode
  ofJson?_toJson s := by
    change (ofJson? (toJson s.encode.toList)).bind Scalar.decode? = _
    rw [ofJson?_toJson, Option.bind_some, Scalar.decode?_encode]

instance : LawfulWire Point where
  canonical_toJson P := canonical_toJson P.encode
  ofJson?_toJson P := by
    change (ofJson? (toJson P.encode.toList)).bind Point.decode? = _
    rw [ofJson?_toJson, Option.bind_some, Point.decode?_encode]

/-! ## Messages -/

theorem Wire.field?_toJson {α : Type} [Wire α] [LawfulWire α] (v : α) :
    field? (some (toJson v)) = some v :=
  ofJson?_toJson v

instance : LawfulWire HashCommitment where
  canonical_toJson c := canonical_toJson c.digest
  ofJson?_toJson c := by
    change (ofJson? (toJson c.digest)).map HashCommitment.mk = _
    rw [ofJson?_toJson, Option.map_some]

-- Records: after the members, the names are checked, then that these are what is written
-- and read, and last the values.
instance : LawfulWire Decommitment :=
  .of_record (fun d => [("randomness", toJson d.randomness), ("values", toJson d.values)])
    ⟨by simp, by simp [isPlain]⟩ (fun _ => rfl) (fun _ => rfl) (fun _ => rfl)
    (by simp [canonical_toJson]) (by simp [field?_toJson])

instance : LawfulWire DlogProof :=
  .of_record (fun proof => [("alpha", toJson proof.alpha), ("t", toJson proof.t)])
    ⟨by simp, by simp [isPlain]⟩ (fun _ => rfl) (fun _ => rfl) (fun _ => rfl)
    (by simp [canonical_toJson]) (by simp [field?_toJson])

instance : LawfulWire DualProof :=
  .of_record (fun proof =>
      [("alpha", toJson proof.alpha), ("t", toJson proof.t), ("u", toJson proof.u)])
    ⟨by simp, by simp [isPlain]⟩ (fun _ => rfl) (fun _ => rfl) (fun _ => rfl)
    (by simp [canonical_toJson]) (by simp [field?_toJson])

instance : LawfulWire NonceCommitment :=
  .of_record (fun c => [("commitment", toJson c.commitment)])
    ⟨by simp, by simp [isPlain]⟩ (fun _ => rfl) (fun _ => rfl) (fun _ => rfl)
    (by simp [canonical_toJson]) (by simp [field?_toJson])

instance : LawfulWire NonceReveal :=
  .of_record (fun r => [("decommitment", toJson r.decommitment), ("proof", toJson r.proof)])
    ⟨by simp, by simp [isPlain]⟩ (fun _ => rfl) (fun _ => rfl) (fun _ => rfl)
    (by simp [canonical_toJson]) (by simp [field?_toJson])

instance : LawfulWire SignatureShare :=
  .of_record (fun s => [("s", toJson s.s)])
    ⟨by simp, by simp [isPlain]⟩ (fun _ => rfl) (fun _ => rfl) (fun _ => rfl)
    (by simp [canonical_toJson]) (by simp [field?_toJson])

instance : LawfulWire Content where
  canonical_toJson content := by
    cases content with
    | commitment c => exact canonical_choice (by simp [isPlain]) (canonical_toJson c)
    | reveal r => exact canonical_choice (by simp [isPlain]) (canonical_toJson r)
    | share s => exact canonical_choice (by simp [isPlain]) (canonical_toJson s)
  ofJson?_toJson content := by
    cases content with
    | commitment c =>
      refine (bind_choice? "Commitment" (toJson c) (by simp [isPlain]) _).trans ?_
      simp [ofJson?_toJson]
    | reveal r =>
      refine (bind_choice? "Reveal" (toJson r) (by simp [isPlain]) _).trans ?_
      simp [ofJson?_toJson]
    | share s =>
      refine (bind_choice? "Share" (toJson s) (by simp [isPlain]) _).trans ?_
      simp [ofJson?_toJson]

/-- The members of the record that writes an envelope. -/
def Envelope.members : Envelope → List (String × Json)
  | broadcast sender round content =>
    [("from", toJson sender), ("round", toJson round), ("content", toJson content)]
  | direct sender recipient round content =>
    [("from", toJson sender), ("to", toJson recipient), ("round", toJson round),
      ("content", toJson content)]

theorem Envelope.fieldNames (e : Envelope) : FieldNames (e.members.map Prod.fst) := by
  constructor
  · cases e <;> simp [members]
  · cases e <;> simp [members, isPlain]

theorem Envelope.canonical_members (e : Envelope) :
    (Json.ofMembers e.members).Canonical :=
  canonical_record e.fieldNames rfl (by cases e <;> simp [members, canonical_toJson])

instance : LawfulWire Envelope where
  canonical_toJson e := by
    cases e with
    | broadcast sender round content =>
      exact canonical_choice (by simp [isPlain])
        (Envelope.canonical_members (.broadcast sender round content))
    | direct sender recipient round content =>
      exact canonical_choice (by simp [isPlain])
        (Envelope.canonical_members (.direct sender recipient round content))
  ofJson?_toJson e := by
    cases e with
    | broadcast sender round content =>
      refine (bind_choice? "Broadcast" _ (by simp [isPlain]) _).trans ?_
      dsimp only
      rw [if_pos rfl]
      refine (bind_record? (Envelope.broadcast sender round content).fieldNames rfl _).trans ?_
      simp [Envelope.members, field?_toJson]
    | direct sender recipient round content =>
      refine (bind_choice? "Direct" _ (by simp [isPlain]) _).trans ?_
      dsimp only
      rw [if_neg (by decide), if_pos rfl]
      refine (bind_record?
        (Envelope.direct sender recipient round content).fieldNames rfl _).trans ?_
      simp [Envelope.members, field?_toJson]

/-! ## Keys, configurations and signatures -/

instance : LawfulWire Signature :=
  .of_record (fun sig => [("r", toJson sig.r), ("s", toJson sig.s)])
    ⟨by simp, by simp [isPlain]⟩ (fun _ => rfl) (fun _ => rfl) (fun _ => rfl)
    (by simp [canonical_toJson]) (by simp [field?_toJson])

theorem Wire.canonical_optionalJson {α : Type} [Wire α] [LawfulWire α] (v : Option α) :
    (optionalJson v).Canonical := by
  cases v with
  | none => exact .null
  | some v => exact canonical_toJson v

/-- A missing number is written as null, and no number is. -/
theorem Wire.optional?_optionalJson (k : Option UInt64) :
    optional? (some (optionalJson k)) = some k := by
  cases k with
  | none => rfl
  | some k =>
    change (ofJson? (toJson k)).map some = _
    rw [ofJson?_toJson, Option.map_some]

instance : LawfulWire SigningMessage :=
  .of_record (fun m =>
      [("value", toJson m.value), ("fixed_len", optionalJson m.fixedLength)])
    ⟨by simp, by simp [isPlain]⟩ (fun _ => rfl) (fun _ => rfl) (fun _ => rfl)
    (by simp [canonical_toJson, canonical_optionalJson])
    (by simp [field?_toJson, optional?_optionalJson])

instance : LawfulWire KeyShare :=
  .of_record (fun key =>
      [("party_id", toJson key.partyId), ("n_parties", toJson key.nParties),
      ("threshold", toJson key.threshold),
      ("secret_share", toJson key.secretShare),
      ("public_key", toJson key.publicKey),
      ("public_shares", toJson key.publicShares)])
    ⟨by simp, by simp [isPlain]⟩ (fun _ => rfl) (fun _ => rfl) (fun _ => rfl)
    (by simp [canonical_toJson]) (by simp [field?_toJson])

instance : LawfulWire SessionConfig :=
  .of_record (fun config =>
      [("session_id", toJson config.sessionId), ("threshold", toJson config.threshold),
      ("party_index", toJson config.partyIndex), ("parties", toJson config.parties)])
    ⟨by simp, by simp [isPlain]⟩ (fun _ => rfl) (fun _ => rfl) (fun _ => rfl)
    (by simp [canonical_toJson]) (by simp [field?_toJson])

end Quorum
