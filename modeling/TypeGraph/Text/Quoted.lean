import TypeGraph.Text.Blank
import TypeGraph.Text.Bytes
import TypeGraph.Text.Printable

/-!
# Quoted texts

A quoted text stands between double quotes and shows every character by something
printable: the usual one-letter escapes, `\xhh` for the other ASCII controls, `\uhhhh`
and `\Uhhhhhhhh` beyond ASCII. A byte that belongs to no character is shown as `\xhh`
too.
-/

namespace TypeGraph.Text

/-- A number in `width` hexadecimal digits. -/
def hex (width n : Nat) : String :=
  let digits := String.ofList (Nat.toDigits 16 n)
  "".pushn '0' (width - digits.length) ++ digits

/-- A character between quotes. -/
def escape (c : Char) : String :=
  match c with
  | '"' => "\\\""
  | '\\' => "\\\\"
  | '\n' => "\\n"
  | '\r' => "\\r"
  | '\t' => "\\t"
  | '\x07' => "\\a"
  | '\x08' => "\\b"
  | '\x0b' => "\\v"
  | '\x0c' => "\\f"
  | c =>
    if isPrintable c then c.toString
    else if c.toNat < 0x80 then "\\x" ++ hex 2 c.toNat
    else if c.toNat < 0x10000 then "\\u" ++ hex 4 c.toNat
    else "\\U" ++ hex 8 c.toNat

/-- A text between double quotes. -/
def quote (s : String) : String := "\"" ++ String.join (s.toList.map escape) ++ "\""

/-- The characters that a bare word of a log record cannot show: blanks, quotes, the
equals sign, controls and the replacement character. A backslash is shown as it is,
and so is the delete character. -/
def needsQuotes (c : Char) : Bool :=
  if c.toNat < 0x80 then c.toNat < 0x20 || c == ' ' || c == '=' || c == '"'
  else c.toNat == 0xFFFD || isBlank c || !isPrintable c

/-- A word of a log record: quoted if it is empty or would not be read as one word. -/
def word (s : String) : String :=
  if s.isEmpty || s.toList.any needsQuotes then quote s else s

/-! ## Texts given by their bytes -/

namespace Piece

/-- A piece of a text between quotes. -/
def escape : Piece → String
  | char c => Text.escape c
  | stray b => "\\x" ++ hex 2 b.toNat

/-- A stray byte cannot be shown in a bare word. -/
def needsQuotes : Piece → Bool
  | char c => Text.needsQuotes c
  | stray _ => true

end Piece

/-- A word of a log record made of two parts, of which the first may be empty. It is
bare only if each of them could be a word alone. -/
def joinedWord (scope : List UInt8) (key : String) : String :=
  if scope.isEmpty then word key
  else if (pieces scope).any Piece.needsQuotes || key.isEmpty ||
      key.toList.any needsQuotes then
    "\"" ++ String.join ((pieces (scope ++ bytes key)).map Piece.escape) ++ "\""
  else ofBytes scope ++ key

end TypeGraph.Text
