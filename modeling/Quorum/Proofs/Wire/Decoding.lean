import Mathlib
import Quorum.Proofs.Wire.RoundTrip

/-!
# What a text has to hold to be read

Of the parts of a message or of a stored key, scalars and points are those that
not every string of 32 bytes writes.  This module says, for each type and apart
from its reader, which places of a JSON value have to write a scalar or a point,
and shows that a value is read only if the bytes at all these places are those
of its own scalars and points, in their order.

A place that is missing or occurs twice is no exception, because then nothing
is read at all.
-/

namespace Quorum

open Wire

namespace Wire

/-- A scalar or a point of a value. -/
inductive Leaf
  /-- A scalar. -/
  | scalar (s : Scalar)
  /-- A point. -/
  | point (P : Point)

/-- A scalar is reduced, and a point lies on the curve. -/
def Leaf.Valid : Leaf → Prop
  | scalar s => s.val < groupOrder
  | point P => OnCurve P.x P.y

/-- A place that has to write a scalar or a point, with the JSON value found there. -/
inductive Slot
  /-- A scalar has to be written. -/
  | scalar (v : Json)
  /-- A point has to be written. -/
  | point (v : Json)

/-- The bytes in a slot write a scalar or a point. -/
inductive Slot.Holds : Slot → Leaf → Prop
  /-- A scalar is the reduced number that 32 bytes denote. -/
  | scalar {v : Json} {bs : Bytes} {s : Scalar} (bytes : ofJson? v = some bs)
    (length_eq : bs.length = 32) (val_eq : bs.toNatLE = s.val) :
    Holds (.scalar v) (.scalar s)
  /-- A point is what the bytes decompress to. -/
  | point {v : Json} {bs : Bytes} {P : Point} (bytes : ofJson? v = some bs)
    (decodes : Point.decode? bs = some P) : Holds (.point v) (.point P)

/-- A scalar slot without 32 bytes of a reduced number, or a point slot without a point. -/
def Slot.Bad : Slot → Prop
  | scalar v => ∀ bs : Bytes, ofJson? v = some bs →
      bs.length ≠ 32 ∨ groupOrder ≤ bs.toNatLE
  | point v => ∀ bs : Bytes, ofJson? v = some bs → Point.decode? bs = none

theorem Slot.Holds.not_bad {slot : Slot} {leaf : Leaf} (h : slot.Holds leaf) :
    ¬ slot.Bad := by
  intro hbad
  cases h with
  | @scalar v bs s hbytes hlength hval =>
    rcases hbad bs hbytes with hne | hge
    · exact hne hlength
    · exact absurd (hval ▸ s.isLt) (Nat.not_lt.mpr hge)
  | @point v bs P hbytes hdecodes =>
    exact absurd (hbad bs hbytes) (by simp [hdecodes])

theorem Leaf.valid (leaf : Leaf) : leaf.Valid := by
  cases leaf with
  | scalar s => exact s.isLt
  | point P => exact P.onCurve

end Wire

/-! ## Where scalars and points are written -/

/-- The values of the members of an object that have a name. -/
def Json.membersNamed (name : String) : Json → List Json
  | .object members =>
    (members.filter fun m => Text.unescape? m.1 == some name.toList).map Prod.snd
  | _ => []

/-- The values that a record has for the field with an index and a name. -/
def Json.fieldValues (index : Nat) (name : String) : Json → List Json
  | .array items => items[index]?.toList
  | v => v.membersNamed name

/-- Where the scalars and points of a type are, in its values and in JSON. -/
class Layout (α : Type) where
  /-- The scalars and points of a value. -/
  leaves : α → List Leaf
  /-- The places of a JSON value that have to write a scalar or a point. -/
  slots : Json → List Slot

namespace Layout

/-- The layout of a type without scalars and points. -/
@[reducible]
def plain (α : Type) : Layout α where
  leaves _ := []
  slots _ := []

/-- The slots in the field of a record with an index and a name. -/
def field (α : Type) [Layout α] (index : Nat) (name : String) (v : Json) : List Slot :=
  (v.fieldValues index name).flatMap (slots α)

/-- The slots in the alternative of a choice with a name. -/
def alternative (slots : Json → List Slot) (name : String) (v : Json) : List Slot :=
  (v.membersNamed name).flatMap slots

end Layout

open Layout

instance : Layout Scalar where
  leaves s := [.scalar s]
  slots v := [.scalar v]

instance : Layout Point where
  leaves P := [.point P]
  slots v := [.point v]

instance {α : Type} [Layout α] : Layout (List α) where
  leaves vs := vs.flatMap leaves
  slots
    | .array items => items.flatMap (slots α)
    | _ => []

instance : Layout HashCommitment := plain _
instance : Layout Decommitment := plain _
instance : Layout NonceCommitment := plain _
instance : Layout SessionConfig := plain _
instance : Layout Signature := plain _
instance : Layout SigningMessage := plain _

instance : Layout DlogProof where
  leaves proof := leaves proof.alpha ++ leaves proof.t
  slots v := field Point 0 "alpha" v ++ field Scalar 1 "t" v

instance : Layout DualProof where
  leaves proof := leaves proof.alpha ++ leaves proof.t ++ leaves proof.u
  slots v := field Point 0 "alpha" v ++ field Scalar 1 "t" v ++ field Scalar 2 "u" v

instance : Layout NonceReveal where
  leaves r := leaves r.proof
  slots v := field DlogProof 1 "proof" v

instance : Layout SignatureShare where
  leaves s := leaves s.s
  slots v := field Scalar 0 "s" v

instance : Layout Content where
  leaves
    | .commitment c => leaves c
    | .reveal r => leaves r
    | .share s => leaves s
  slots v :=
    alternative (slots NonceCommitment) "Commitment" v ++
      alternative (slots NonceReveal) "Reveal" v ++
        alternative (slots SignatureShare) "Share" v

instance : Layout Envelope where
  leaves e := leaves e.content
  slots v :=
    alternative (field Content 2 "content") "Broadcast" v ++
      alternative (field Content 3 "content") "Direct" v

instance : Layout KeyShare where
  leaves key := leaves key.secretShare ++ leaves key.publicKey ++ leaves key.publicShares
  slots v :=
    field Scalar 3 "secret_share" v ++ field Point 4 "public_key" v ++
      field (List Point) 5 "public_shares" v

/-! ## Reading a record or a choice -/

namespace Wire

theorem single?_eq_some {ms : List (List Char × Json)} {w : Json}
    (h : single? ms = some (some w)) : ms.map Prod.snd = [w] := by
  match ms, h with
  | [m], h =>
    obtain rfl : m.2 = w := by simpa [single?] using h
    rfl

/-- Members are found by their names whether these are unescaped before or on the way. -/
theorem filter_of_mapM_unescape? {members ms : List (List Char × Json)}
    (h : members.mapM (fun m => (Json.Text.unescape? m.1).map (·, m.2)) = some ms)
    (name : String) :
    (ms.filter (·.1 == name.toList)).map Prod.snd =
      (Json.object members).membersNamed name := by
  induction members generalizing ms with
  | nil =>
    obtain rfl : [] = ms := Option.some.inj h
    rfl
  | cons m members ih =>
    rw [List.mapM_cons, Option.bind_eq_bind, Option.bind_eq_some_iff] at h
    obtain ⟨m', hm', h⟩ := h
    rw [Option.bind_eq_bind, Option.bind_eq_some_iff] at h
    obtain ⟨ms', hms', h⟩ := h
    obtain rfl : m' :: ms' = ms := Option.some.inj h
    obtain ⟨raw, hraw, rfl⟩ := Option.map_eq_some_iff.mp hm'
    have hrest := ih hms'
    simp only [Json.membersNamed, List.filter_cons, hraw] at hrest ⊢
    by_cases heq : raw = name.toList
    · simp [heq, hrest]
    · simp [heq, hrest]

/-- A field that was found is the only one with its index and name. -/
theorem fieldValues_of_record? {names : List String} {v : Json} {fs : List (Option Json)}
    (h : record? names v = some fs) {index : Nat} {name : String}
    (hname : names[index]? = some name) {w : Json} (hw : fs[index]? = some (some w)) :
    v.fieldValues index name = [w] := by
  match v, h with
  | .object members, h =>
    obtain ⟨ms, hms, hfs⟩ := Option.bind_eq_some_iff.mp h
    have hsingle : single? (ms.filter (·.1 == name.toList)) = some (some w) := by
      exact getElem?_of_mapM_eq_some hfs hname hw
    exact (filter_of_mapM_unescape? hms name).symm.trans (single?_eq_some hsingle)
  | .array items, h =>
    have hfs : items.map some = fs := by
      simp only [record?] at h
      split at h
      · exact Option.some.inj h
      · cases h
    subst hfs
    simp only [Json.fieldValues]
    simpa using hw

/-- Of a choice, only the alternative that was found is there. -/
theorem membersNamed_of_choice? {v w : Json} {name : String}
    (h : choice? v = some (name, w)) (name' : String) :
    v.membersNamed name' = if name = name' then [w] else [] := by
  match v, h with
  | .object [(raw, w')], h =>
    obtain ⟨cs, hcs, heq⟩ := Option.map_eq_some_iff.mp h
    obtain ⟨rfl, rfl⟩ := Prod.mk.inj heq
    have hiff : cs = name'.toList ↔ String.ofList cs = name' := by
      rw [← String.toList_inj, String.toList_ofList]
    by_cases heq : cs = name'.toList
    · simp [Json.membersNamed, hcs, heq]
    · simp [Json.membersNamed, hcs, heq, ← hiff]

end Wire

/-! ## What was read is what the slots hold -/

/-- Types of which a value is read only from the bytes of its own scalars and points. -/
class LawfulLayout (α : Type) [Wire α] [Layout α] : Prop where
  /-- The slots hold the scalars and points of what was read. -/
  holds_of_ofJson? : ∀ {v : Json} {a : α}, ofJson? v = some a →
    List.Forall₂ Slot.Holds (slots α v) (leaves a)

open LawfulLayout

/-- The slots in a field hold the scalars and points of what was read from it. -/
theorem Layout.holds_field {α : Type} [Wire α] [Layout α] [LawfulLayout α]
    {names : List String} {v : Json} {fs : List (Option Json)}
    (hrecord : record? names v = some fs) {index : Nat} {name : String}
    (hname : names[index]? = some name) {f : Option Json} (hf : fs[index]? = some f)
    {a : α} (ha : field? f = some a) :
    List.Forall₂ Slot.Holds (field α index name v) (leaves a) := by
  obtain ⟨w, rfl, hw⟩ := Option.bind_eq_some_iff.mp ha
  rw [field, fieldValues_of_record? hrecord hname hf, List.flatMap_singleton]
  exact holds_of_ofJson? hw

theorem Layout.alternative_of_choice? {v w : Json} {name : String}
    (hchoice : choice? v = some (name, w)) (slots : Json → List Slot) (name' : String) :
    alternative slots name' v = if name = name' then slots w else [] := by
  rw [alternative, membersNamed_of_choice? hchoice]
  split
  · exact List.flatMap_singleton slots w
  · rfl

instance : LawfulLayout Scalar where
  holds_of_ofJson? {v s} h := by
    obtain ⟨bs, hbytes, hdecode⟩ := Option.bind_eq_some_iff.mp h
    rw [Scalar.decode?] at hdecode
    split at hdecode
    · next hlength =>
      have hval : bs.toNatLE = s.val := Residue.ofNat?_eq_some.mp hdecode
      exact .cons (.scalar hbytes hlength hval) .nil
    · cases hdecode

instance : LawfulLayout Point where
  holds_of_ofJson? {v P} h := by
    obtain ⟨bs, hbytes, hdecode⟩ := Option.bind_eq_some_iff.mp h
    exact .cons (.point hbytes hdecode) .nil

instance {α : Type} [Wire α] [Layout α] [LawfulLayout α] : LawfulLayout (List α) where
  holds_of_ofJson? {v as} h := by
    match v, h with
    | .array items, h =>
      exact List.rel_flatMap (mapM_eq_some.mp h) fun _ _ h => holds_of_ofJson? h

instance : LawfulLayout HashCommitment := ⟨fun _ => .nil⟩
instance : LawfulLayout Decommitment := ⟨fun _ => .nil⟩
instance : LawfulLayout NonceCommitment := ⟨fun _ => .nil⟩
instance : LawfulLayout SessionConfig := ⟨fun _ => .nil⟩
instance : LawfulLayout Signature := ⟨fun _ => .nil⟩
instance : LawfulLayout SigningMessage := ⟨fun _ => .nil⟩

-- A record is read only if it has as many fields as names, which leaves one case.
instance : LawfulLayout DlogProof where
  holds_of_ofJson? {v proof} h := by
    obtain ⟨fs, hfs, hread⟩ := Option.bind_eq_some_iff.mp h
    match fs, hfs, hread with
    | [alpha, t], hfs, hread =>
      simp only [Option.bind_eq_bind, Option.bind_eq_some_iff] at hread
      obtain ⟨alpha, halpha, t, ht, heq⟩ := hread
      obtain rfl := Option.some.inj heq
      exact List.rel_append (holds_field hfs rfl rfl halpha) (holds_field hfs rfl rfl ht)

instance : LawfulLayout DualProof where
  holds_of_ofJson? {v proof} h := by
    obtain ⟨fs, hfs, hread⟩ := Option.bind_eq_some_iff.mp h
    match fs, hfs, hread with
    | [alpha, t, u], hfs, hread =>
      simp only [Option.bind_eq_bind, Option.bind_eq_some_iff] at hread
      obtain ⟨alpha, halpha, t, ht, u, hu, heq⟩ := hread
      obtain rfl := Option.some.inj heq
      exact List.rel_append
        (List.rel_append (holds_field hfs rfl rfl halpha) (holds_field hfs rfl rfl ht))
        (holds_field hfs rfl rfl hu)

instance : LawfulLayout NonceReveal where
  holds_of_ofJson? {v r} h := by
    obtain ⟨fs, hfs, hread⟩ := Option.bind_eq_some_iff.mp h
    match fs, hfs, hread with
    | [decommitment, proof], hfs, hread =>
      simp only [Option.bind_eq_bind, Option.bind_eq_some_iff] at hread
      obtain ⟨decommitment, -, proof, hproof, heq⟩ := hread
      obtain rfl := Option.some.inj heq
      exact holds_field hfs rfl rfl hproof

instance : LawfulLayout SignatureShare where
  holds_of_ofJson? {v s} h := by
    obtain ⟨fs, hfs, hread⟩ := Option.bind_eq_some_iff.mp h
    match fs, hfs, hread with
    | [f], hfs, hread =>
      simp only [Option.bind_eq_bind, Option.bind_eq_some_iff] at hread
      obtain ⟨s, hs, heq⟩ := hread
      obtain rfl := Option.some.inj heq
      exact holds_field hfs rfl rfl hs

theorem Content.slots_eq {v w : Json} {name : String}
    (hchoice : choice? v = some (name, w)) :
    slots Content v =
      (if name = "Commitment" then slots NonceCommitment w else []) ++
        (if name = "Reveal" then slots NonceReveal w else []) ++
          (if name = "Share" then slots SignatureShare w else []) := by
  simp only [← alternative_of_choice? hchoice]
  rfl

instance : LawfulLayout Content where
  holds_of_ofJson? {v content} h := by
    obtain ⟨⟨name, w⟩, hchoice, hread⟩ := Option.bind_eq_some_iff.mp h
    rw [Content.slots_eq hchoice]
    dsimp only at hread
    split at hread
    · next hname =>
      obtain ⟨c, hc, rfl⟩ := Option.map_eq_some_iff.mp hread
      rw [if_pos hname, if_neg (by simp [hname]), if_neg (by simp [hname]),
        List.append_nil, List.append_nil]
      exact holds_of_ofJson? hc
    · split at hread
      · next hname =>
        obtain ⟨r, hr, rfl⟩ := Option.map_eq_some_iff.mp hread
        rw [if_neg (by simp [hname]), if_pos hname, if_neg (by simp [hname]),
          List.nil_append, List.append_nil]
        exact holds_of_ofJson? hr
      · split at hread
        · next hname =>
          obtain ⟨s, hs, rfl⟩ := Option.map_eq_some_iff.mp hread
          rw [if_neg (by simp [hname]), if_neg (by simp [hname]), if_pos hname,
            List.nil_append, List.nil_append]
          exact holds_of_ofJson? hs
        · cases hread

theorem Envelope.holds_of_broadcastOfJson? {v : Json} {e : Envelope}
    (h : broadcastOfJson? v = some e) :
    List.Forall₂ Slot.Holds (field Content 2 "content" v) (leaves e) := by
  obtain ⟨fs, hfs, hread⟩ := Option.bind_eq_some_iff.mp h
  match fs, hfs, hread with
  | [sender, round, content], hfs, hread =>
    simp only [Option.bind_eq_bind, Option.bind_eq_some_iff] at hread
    obtain ⟨sender, -, round, -, content, hcontent, heq⟩ := hread
    obtain rfl := Option.some.inj heq
    exact holds_field hfs rfl rfl hcontent

theorem Envelope.holds_of_directOfJson? {v : Json} {e : Envelope}
    (h : directOfJson? v = some e) :
    List.Forall₂ Slot.Holds (field Content 3 "content" v) (leaves e) := by
  obtain ⟨fs, hfs, hread⟩ := Option.bind_eq_some_iff.mp h
  match fs, hfs, hread with
  | [sender, recipient, round, content], hfs, hread =>
    simp only [Option.bind_eq_bind, Option.bind_eq_some_iff] at hread
    obtain ⟨sender, -, recipient, -, round, -, content, hcontent, heq⟩ := hread
    obtain rfl := Option.some.inj heq
    exact holds_field hfs rfl rfl hcontent

theorem Envelope.slots_eq {v w : Json} {name : String}
    (hchoice : choice? v = some (name, w)) :
    slots Envelope v =
      (if name = "Broadcast" then field Content 2 "content" w else []) ++
        (if name = "Direct" then field Content 3 "content" w else []) := by
  simp only [← alternative_of_choice? hchoice]
  rfl

instance : LawfulLayout Envelope where
  holds_of_ofJson? {v e} h := by
    obtain ⟨⟨name, w⟩, hchoice, hread⟩ := Option.bind_eq_some_iff.mp h
    rw [Envelope.slots_eq hchoice]
    dsimp only at hread
    split at hread
    · next hname =>
      subst hname
      simpa using Envelope.holds_of_broadcastOfJson? hread
    · split at hread
      · next hname =>
        subst hname
        simpa using Envelope.holds_of_directOfJson? hread
      · cases hread

instance : LawfulLayout KeyShare where
  holds_of_ofJson? {v key} h := by
    obtain ⟨fs, hfs, hread⟩ := Option.bind_eq_some_iff.mp h
    match fs, hfs, hread with
    | [partyId, nParties, threshold, secretShare, publicKey, publicShares], hfs, hread =>
      simp only [Option.bind_eq_bind, Option.bind_eq_some_iff] at hread
      obtain ⟨partyId, -, nParties, -, threshold, -, secretShare, hsecret, publicKey,
        hpublic, publicShares, hshares, heq⟩ := hread
      obtain rfl := Option.some.inj heq
      exact List.rel_append
        (List.rel_append (holds_field hfs rfl rfl hsecret) (holds_field hfs rfl rfl hpublic))
        (holds_field hfs rfl rfl hshares)

/-! ## Text -/

/-- What the JSON text of a type promises to its readers and writers. -/
structure Faithful (α : Type) [Wire α] [Layout α] : Prop where
  /-- Every value is read back from its text. -/
  read?_write : ∀ a : α, read? α (write a) = some a
  /-- What is read has the scalars and points that are in the slots of its text. -/
  holds : ∀ (text : String) (a : α), read? α text = some a →
    ∃ v, Json.parse? text = some v ∧ List.Forall₂ Slot.Holds (slots α v) (leaves a)
  /-- The scalars of what is read are reduced, and its points lie on the curve. -/
  valid : ∀ (text : String) (a : α), read? α text = some a →
    ∀ leaf ∈ leaves a, leaf.Valid
  /-- What is read and written again is read as it was, and then written as it was. -/
  stable : ∀ (text : String) (a : α), read? α text = some a →
    read? α (write a) = some a ∧ (read? α (write a)).map write = some (write a)
  /-- Nothing is read of a text with a bad slot. -/
  closed : ∀ (text : String) (v : Json), Json.parse? text = some v →
    (∃ slot ∈ slots α v, slot.Bad) → read? α text = none

theorem Faithful.of_lawful (α : Type) [Wire α] [LawfulWire α] [Layout α]
    [LawfulLayout α] : Faithful α where
  read?_write := Wire.read?_write
  holds text a h := by
    obtain ⟨v, hparse, hread⟩ := Option.bind_eq_some_iff.mp h
    exact ⟨v, hparse, holds_of_ofJson? hread⟩
  valid _ _ _ leaf _ := leaf.valid
  stable _ a _ := ⟨Wire.read?_write a, by rw [Wire.read?_write, Option.map_some]⟩
  closed text v hparse hbad := by
    obtain ⟨slot, hmem, hbad⟩ := hbad
    rw [read?, hparse, Option.bind_some, Option.eq_none_iff_forall_ne_some]
    intro a hread
    have hholds := holds_of_ofJson? hread
    obtain ⟨i, hi, rfl⟩ := List.getElem_of_mem hmem
    exact (hholds.get hi (hholds.length_eq ▸ hi)).not_bad hbad

/-- Messages, keys, configurations and signatures are faithful to their text. -/
theorem Wire.faithful :
    Faithful Envelope ∧ Faithful Content ∧ Faithful NonceCommitment ∧
      Faithful NonceReveal ∧ Faithful SignatureShare ∧ Faithful HashCommitment ∧
      Faithful Decommitment ∧ Faithful DlogProof ∧ Faithful DualProof ∧
      Faithful KeyShare ∧ Faithful SessionConfig ∧ Faithful Signature ∧
      Faithful SigningMessage :=
  ⟨.of_lawful _, .of_lawful _, .of_lawful _, .of_lawful _, .of_lawful _, .of_lawful _,
    .of_lawful _, .of_lawful _, .of_lawful _, .of_lawful _, .of_lawful _, .of_lawful _,
    .of_lawful _⟩

end Quorum
