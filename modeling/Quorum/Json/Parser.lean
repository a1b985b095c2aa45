import Quorum.Json.Token
import Quorum.Json.Value

/-!
# Reading and writing JSON

The reader goes through the tokens once and keeps the containers it is inside
of on a stack, so that values may be nested to any depth.  The writer leaves
no blanks between tokens.
-/

namespace Quorum.Json

/-- A container that is being read. -/
inductive Container
  /-- An array with the items read so far, the last one first. -/
  | array (items : List Json)
  /-- An object with the members read so far, the last one first, and the name
  of the member being read. -/
  | object (members : List (List Char × Json)) (name : List Char)

/-- What the reader has read and what it waits for. -/
inductive Reader
  /-- A value has to follow. -/
  | value (stack : List Container)
  /-- The first item of an array or the end of the array has to follow. -/
  | firstItem (stack : List Container)
  /-- The first name of an object or the end of the object has to follow. -/
  | firstName (stack : List Container)
  /-- A further name of an object has to follow. -/
  | nextName (members : List (List Char × Json)) (stack : List Container)
  /-- The colon behind a name has to follow. -/
  | colon (members : List (List Char × Json)) (name : List Char)
      (stack : List Container)
  /-- A value was read completely. -/
  | complete (v : Json) (stack : List Container)

namespace Reader

/-- The reader after a token that has to begin a value. -/
def beginValue (stack : List Container) : Token → Option Reader
  | .openBrace => some (.firstName stack)
  | .openBracket => some (.firstItem stack)
  | .null => some (.complete .null stack)
  | .bool b => some (.complete (.bool b) stack)
  | .number literal => some (.complete (.number literal) stack)
  | .string raw => some (.complete (.string raw) stack)
  | _ => none

/-- The reader after one more token, unless the token is out of place. -/
def step : Reader → Token → Option Reader
  | .value stack, t => beginValue stack t
  | .firstItem stack, .closeBracket => some (.complete (.array []) stack)
  | .firstItem stack, t => beginValue (.array [] :: stack) t
  | .firstName stack, .closeBrace => some (.complete (.object []) stack)
  | .firstName stack, .string raw => some (.colon [] raw stack)
  | .nextName members stack, .string raw => some (.colon members raw stack)
  | .colon members name stack, .colon =>
    some (.value (.object members name :: stack))
  | .complete v (.array items :: stack), .comma =>
    some (.value (.array (v :: items) :: stack))
  | .complete v (.array items :: stack), .closeBracket =>
    some (.complete (.array (v :: items).reverse) stack)
  | .complete v (.object members name :: stack), .comma =>
    some (.nextName ((name, v) :: members) stack)
  | .complete v (.object members name :: stack), .closeBrace =>
    some (.complete (.object ((name, v) :: members).reverse) stack)
  | _, _ => none

/-- The value read, if it is complete and nothing is open around it. -/
def finish : Reader → Option Json
  | .complete v [] => some v
  | _ => none

end Reader

/-- The value that a list of tokens writes. -/
def ofTokens? (tokens : List Token) : Option Json :=
  (tokens.foldlM Reader.step (.value [])).bind Reader.finish

/-- The value that a text writes. -/
def parse? (text : String) : Option Json :=
  (Scanner.scan? text.toList).bind ofTokens?

mutual

/-- The tokens that write a value. -/
def tokens : Json → List Token
  | .null => [.null]
  | .bool b => [.bool b]
  | .number literal => [.number literal]
  | .string raw => [.string raw]
  | .array items => .openBracket :: itemTokens items ++ [.closeBracket]
  | .object members => .openBrace :: memberTokens members ++ [.closeBrace]

/-- The tokens that write the items of an array. -/
def itemTokens : List Json → List Token
  | [] => []
  | [v] => tokens v
  | v :: w :: vs => tokens v ++ .comma :: itemTokens (w :: vs)

/-- The tokens that write the members of an object. -/
def memberTokens : List (List Char × Json) → List Token
  | [] => []
  | [(name, v)] => .string name :: .colon :: tokens v
  | (name, v) :: m :: ms =>
    .string name :: .colon :: (tokens v ++ .comma :: memberTokens (m :: ms))

end

/-- The text that writes a value, without blanks. -/
def render (v : Json) : String :=
  String.ofList (v.tokens.flatMap Token.chars)

end Quorum.Json
