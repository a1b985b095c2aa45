import Quorum.Hex

/-!
# Escape sequences

The characters that the text between the quotes of a JSON string stands for.
A code of a surrogate pair counts only together with its partner; alone it
stands for nothing, and the text is refused.
-/

namespace Quorum.Json.Text

/-- A character, or the code of an escape sequence. -/
inductive Piece
  | char (c : Char)
  /-- A code of sixteen bits. -/
  | code (k : Nat)

/-- The character that a one-letter escape sequence stands for. -/
def escaped? (c : Char) : Option Char :=
  match c with
  | '"' => some '"'
  | '\\' => some '\\'
  | '/' => some '/'
  | 'b' => some '\x08'
  | 'f' => some '\x0c'
  | 'n' => some '\n'
  | 'r' => some '\r'
  | 't' => some '\t'
  | _ => none

/-- The text with each escape sequence read as a character or a code. -/
def pieces? : List Char → Option (List Piece)
  | [] => some []
  | '\\' :: 'u' :: a :: b :: c :: d :: rest => do
    let a ← Hex.digitValue? a
    let b ← Hex.digitValue? b
    let c ← Hex.digitValue? c
    let d ← Hex.digitValue? d
    let ps ← pieces? rest
    return .code (4096 * a + 256 * b + 16 * c + d) :: ps
  | '\\' :: c :: rest => do
    let c ← escaped? c
    let ps ← pieces? rest
    return .char c :: ps
  | c :: rest => if c = '\\' then none else (pieces? rest).map (.char c :: ·)

/-- Whether a code is the first of a surrogate pair. -/
def isLeading (k : Nat) : Bool :=
  0xD800 ≤ k && k < 0xDC00

def isTrailing (k : Nat) : Bool :=
  0xDC00 ≤ k && k < 0xE000

/-- The characters of the pieces, where every surrogate code has its partner. -/
def characters? : List Piece → Option (List Char)
  | [] => some []
  | .char c :: ps => (characters? ps).map (c :: ·)
  | .code k :: .code l :: ps =>
    if isLeading k && isTrailing l then
      (characters? ps).map
        (Char.ofNat (0x10000 + 1024 * (k - 0xD800) + (l - 0xDC00)) :: ·)
    else if isLeading k || isTrailing k then none
    else (characters? (.code l :: ps)).map (Char.ofNat k :: ·)
  | .code k :: ps =>
    if isLeading k || isTrailing k then none
    else (characters? ps).map (Char.ofNat k :: ·)

/-- The characters that the text between quotes stands for, if it stands for any. -/
def unescape? (raw : List Char) : Option (List Char) :=
  (pieces? raw).bind characters?

/-- The text between quotes that stands for a list of characters. -/
def escape (cs : List Char) : List Char :=
  cs.flatMap fun c =>
    if c = '"' then ['\\', '"']
    else if c = '\\' then ['\\', '\\']
    else if c.toNat < 0x20 then
      ['\\', 'u', '0', '0', if c.toNat < 16 then '0' else '1',
        Nat.digitChar (c.toNat % 16)]
    else [c]

end Quorum.Json.Text
