import Quorum.Hex

/-!
# JSON tokens

The lexical level of JSON: punctuation, words, numbers and strings, with blanks
between them.  The scanner reads one character at a time; what it remembers is
the token it is inside of and the tokens it has completed.
-/

namespace Quorum.Json

/-- A lexical unit of JSON. -/
inductive Token
  | openBrace
  | closeBrace
  | openBracket
  | closeBracket
  | colon
  | comma
  | null
  | bool (b : Bool)
  /-- The literal of a number. -/
  | number (literal : List Char)
  /-- The characters between the quotes of a string. -/
  | string (raw : List Char)

namespace Token

/-- The characters of a token. -/
def chars : Token → List Char
  | openBrace => ['\x7b']
  | closeBrace => ['\x7d']
  | openBracket => ['[']
  | closeBracket => [']']
  | colon => [':']
  | comma => [',']
  | null => "null".toList
  | bool true => "true".toList
  | bool false => "false".toList
  | number literal => literal
  | string raw => '"' :: raw ++ ['"']

/-- The token that a punctuation character is. -/
def ofPunctuation? (c : Char) : Option Token :=
  if c = '\x7b' then some openBrace
  else if c = '\x7d' then some closeBrace
  else if c = '[' then some openBracket
  else if c = ']' then some closeBracket
  else if c = ':' then some colon
  else if c = ',' then some comma
  else none

/-- The token that a word is. -/
def ofWord? (word : List Char) : Option Token :=
  if word = "null".toList then some null
  else if word = "true".toList then some (bool true)
  else if word = "false".toList then some (bool false)
  else none

/-- Whether the text is one or more digits. -/
def isDigits (cs : List Char) : Bool :=
  !cs.isEmpty && cs.all Char.isDigit

/-- Whether the text is an integer part: digits without a superfluous zero. -/
def isIntegerPart (cs : List Char) : Bool :=
  isDigits cs && (cs.length == 1 || cs.head? != some '0')

/-- Whether the text is empty or an exponent. -/
def isExponentPart : List Char → Bool
  | [] => true
  | e :: rest =>
    (e == 'e' || e == 'E') &&
      match rest with
      | '+' :: digits => isDigits digits
      | '-' :: digits => isDigits digits
      | digits => isDigits digits

/-- Whether the text is empty, or a fraction and an exponent of which one may be missing. -/
def isFractionalPart : List Char → Bool
  | '.' :: rest =>
    isDigits (rest.takeWhile Char.isDigit)
      && isExponentPart (rest.dropWhile Char.isDigit)
  | rest => isExponentPart rest

/-- Whether the text is the literal of a number. -/
def isNumeral (cs : List Char) : Bool :=
  let unsigned := if cs.head? = some '-' then cs.drop 1 else cs
  isIntegerPart (unsigned.takeWhile Char.isDigit)
    && isFractionalPart (unsigned.dropWhile Char.isDigit)

/-- The number that a literal is, if it is well formed. -/
def ofNumeral? (literal : List Char) : Option Token :=
  if isNumeral literal then some (number literal) else none

end Token

/-- Where the scanner stands. -/
inductive Scanner.Mode
  | blank
  /-- Inside a string, after the characters `raw`, the last one first. -/
  | string (raw : List Char)
  /-- Behind the backslash of an escape sequence. -/
  | escape (raw : List Char)
  /-- Inside an escape sequence that lacks some hexadecimal digits. -/
  | code (missing : Nat) (raw : List Char)
  /-- Inside a number, after the characters `literal`, the last one first. -/
  | number (literal : List Char)
  /-- Inside a word, after the characters `word`, the last one first. -/
  | word (word : List Char)

/-- The scanner between two characters. -/
structure Scanner where
  mode : Scanner.Mode
  /-- The tokens completed so far, the last one first. -/
  tokens : List Token

namespace Scanner

/-- Whether a character separates tokens. -/
def isBlank (c : Char) : Bool :=
  c == ' ' || c == '\n' || c == '\t' || c == '\r'

/-- Whether a character may stand in the literal of a number. -/
def isNumberChar (c : Char) : Bool :=
  c.isDigit || c == '-' || c == '+' || c == '.' || c == 'e' || c == 'E'

/-- Whether a character may follow a backslash and ends the escape sequence. -/
def isEscape (c : Char) : Bool :=
  c == '"' || c == '\\' || c == '/' || c == 'b' || c == 'f' || c == 'n'
    || c == 'r' || c == 't'

/-- The scanner after a character that begins a token or separates tokens. -/
def begin (tokens : List Token) (c : Char) : Option Scanner :=
  if isBlank c then some ⟨.blank, tokens⟩
  else if c = '"' then some ⟨.string [], tokens⟩
  else if c.isDigit || c == '-' then some ⟨.number [c], tokens⟩
  else if c.isLower then some ⟨.word [c], tokens⟩
  else (Token.ofPunctuation? c).map fun t => ⟨.blank, t :: tokens⟩

/-- The scanner after one more character, unless the character is out of place. -/
def step (s : Scanner) (c : Char) : Option Scanner :=
  match s.mode with
  | .blank => begin s.tokens c
  | .string raw =>
    if c = '"' then some ⟨.blank, .string raw.reverse :: s.tokens⟩
    else if c = '\\' then some ⟨.escape (c :: raw), s.tokens⟩
    else if c.toNat < 0x20 then none
    else some ⟨.string (c :: raw), s.tokens⟩
  | .escape raw =>
    if c = 'u' then some ⟨.code 4 (c :: raw), s.tokens⟩
    else if isEscape c then some ⟨.string (c :: raw), s.tokens⟩
    else none
  | .code missing raw =>
    if (Hex.digitValue? c).isSome then
      if missing ≤ 1 then some ⟨.string (c :: raw), s.tokens⟩
      else some ⟨.code (missing - 1) (c :: raw), s.tokens⟩
    else none
  | .number literal =>
    if isNumberChar c then some ⟨.number (c :: literal), s.tokens⟩
    else do
      let t ← Token.ofNumeral? literal.reverse
      begin (t :: s.tokens) c
  | .word word =>
    if c.isLower then some ⟨.word (c :: word), s.tokens⟩
    else do
      let t ← Token.ofWord? word.reverse
      begin (t :: s.tokens) c

/-- The tokens of a text that ends here, unless it ends inside a token. -/
def finish (s : Scanner) : Option (List Token) :=
  match s.mode with
  | .blank => some s.tokens.reverse
  | .number literal => do
    let t ← Token.ofNumeral? literal.reverse
    return (t :: s.tokens).reverse
  | .word word => do
    let t ← Token.ofWord? word.reverse
    return (t :: s.tokens).reverse
  | _ => none

/-- The tokens of a text. -/
def scan? (text : List Char) : Option (List Token) :=
  (text.foldlM step ⟨.blank, []⟩).bind finish

end Scanner

end Quorum.Json
