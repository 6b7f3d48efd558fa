/-!
# Texts as bytes

A text that was cut between two bytes of a character, or that was given by its bytes,
need not be well encoded. Such bytes are read as the characters that are whole, and as
stray bytes for all the rest.
-/

namespace TypeGraph.Text

/-- What is found in a text given by its bytes. -/
inductive Piece where
  | char (c : Char)
  | stray (byte : UInt8)

/-- The bytes of a text. -/
def bytes (s : String) : List UInt8 := s.toUTF8.data.toList

/-- The lower six bits of a byte in the middle of a character. -/
def continuation? (b : UInt8) : Option Nat :=
  if 0x80 ≤ b.toNat && b.toNat < 0xC0 then some (b.toNat - 0x80) else none

/-- The character of a code, if it is one and needs `size` bytes. -/
def charOf? (size code : Nat) : Option Char :=
  if h : code.isValidChar then
    let c := Char.ofNatAux code h
    if c.utf8Size = size then some c else none
  else none

/-- The character that starts with a byte, given the bytes that follow. -/
def leading? (b : UInt8) (rest : List UInt8) : Option Char := do
  let n := b.toNat
  if n < 0x80 then charOf? 1 n
  else if n < 0xC0 then none
  else
    let x ← rest.head?.bind continuation?
    if n < 0xE0 then charOf? 2 (64 * (n - 0xC0) + x)
    else
      let y ← (rest.drop 1).head?.bind continuation?
      if n < 0xF0 then charOf? 3 (64 * (64 * (n - 0xE0) + x) + y)
      else
        let z ← (rest.drop 2).head?.bind continuation?
        if n < 0xF8 then charOf? 4 (64 * (64 * (64 * (n - 0xF0) + x) + y) + z) else none

/-- Read bytes as characters, `covered` being the number of bytes that belong to the
last one. -/
def piecesFrom : Nat → List UInt8 → List Piece
  | _, [] => []
  | covered + 1, _ :: rest => piecesFrom covered rest
  | 0, b :: rest =>
    match leading? b rest with
    | some c => .char c :: piecesFrom (c.utf8Size - 1) rest
    | none => .stray b :: piecesFrom 0 rest

/-- The characters and the stray bytes of a text given by its bytes. -/
def pieces (bs : List UInt8) : List Piece := piecesFrom 0 bs

/-- A text from its bytes. A replacement character stands for each stray one. -/
def ofBytes (bs : List UInt8) : String :=
  .ofList ((pieces bs).map fun | .char c => c | .stray _ => '\ufffd')

end TypeGraph.Text
