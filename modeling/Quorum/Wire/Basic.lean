import Quorum.Curve.Encoding
import Quorum.Json.Parser
import Quorum.Json.Text

/-!
# Values as JSON

Messages and stored keys travel as JSON text.  Bytes, scalars and points are
arrays of numbers below 256; a record is an object with one member for each
field; a choice is an object with a single member named for the alternative.

Readers are strict about values and lenient about form: a record may also be
an array of all its fields in order, and an object may have members that the
record does not know.  A field that occurs twice is refused.
-/

namespace Quorum

/-- Types whose values are written as JSON. -/
class Wire (α : Type) where
  toJson : α → Json
  ofJson? : Json → Option α

namespace Wire

/-- The text that writes a value. -/
def write {α : Type} [Wire α] (v : α) : String :=
  (toJson v).render

/-- The value that a text writes. -/
def read? (α : Type) [Wire α] (text : String) : Option α :=
  (Json.parse? text).bind ofJson?

/-- The natural number below a bound that a JSON value writes. -/
def natBelow? (bound : Nat) (v : Json) : Option Nat :=
  v.toNat?.bind fun k => if k < bound then some k else none

instance : Wire UInt8 where
  toJson k := .ofNat k.toNat
  ofJson? v := (natBelow? UInt8.size v).map UInt8.ofNat

instance : Wire UInt32 where
  toJson k := .ofNat k.toNat
  ofJson? v := (natBelow? UInt32.size v).map UInt32.ofNat

instance : Wire UInt64 where
  toJson k := .ofNat k.toNat
  ofJson? v := (natBelow? UInt64.size v).map UInt64.ofNat

instance {α : Type} [Wire α] : Wire (List α) where
  toJson vs := .array (vs.map toJson)
  ofJson?
    | .array items => items.mapM ofJson?
    | _ => none

instance {n : Nat} : Wire (Octets n) where
  toJson bs := toJson bs.toList
  ofJson? v := (ofJson? v).bind (Octets.ofBytes? n)

instance : Wire Scalar where
  toJson s := toJson s.encode
  ofJson? v := (ofJson? v).bind Scalar.decode?

instance : Wire Point where
  toJson P := toJson P.encode
  ofJson? v := (ofJson? v).bind Point.decode?

/-- The value of the only member with a given name; no value if there is none. -/
def single? : List (List Char × Json) → Option (Option Json)
  | [] => some none
  | [m] => some (some m.2)
  | _ => none

/-- The fields of a record with the given names, as far as they are present. -/
def record? (names : List String) : Json → Option (List (Option Json))
  | .object members => do
    let members ← members.mapM fun m => (Json.Text.unescape? m.1).map (·, m.2)
    names.mapM fun name => single? (members.filter (·.1 == name.toList))
  | .array items =>
    if items.length = names.length then some (items.map some) else none
  | _ => none

/-- The value of a field that has to be present. -/
def field? {α : Type} [Wire α] (v : Option Json) : Option α :=
  v.bind ofJson?

/-- The value of a field that may be missing or null. -/
def optional? {α : Type} [Wire α] : Option Json → Option (Option α)
  | none => some none
  | some .null => some none
  | some v => (ofJson? v).map some

/-- The value of an optional field as JSON. -/
def optionalJson {α : Type} [Wire α] : Option α → Json
  | none => .null
  | some v => toJson v

/-- An alternative with its value. -/
def choice (name : String) (v : Json) : Json :=
  .ofMembers [(name, v)]

/-- The name of the alternative and its value. -/
def choice? : Json → Option (String × Json)
  | .object [(name, v)] =>
    (Json.Text.unescape? name).map fun name => (String.ofList name, v)
  | _ => none

end Wire

end Quorum
