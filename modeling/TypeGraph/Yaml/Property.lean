import TypeGraph.Text.Bytes
import TypeGraph.Text.Digits
import TypeGraph.Yaml.Cursor

/-!
# Anchors, tags and directives

What may stand in front of nodes and documents: names of anchors, tags, and
directives. A tag is written with a handle, for which a directive gives the text it
stands for, or in full between angles. Bytes of a tag may be given in hexadecimal
digits behind a percent sign.
-/

namespace TypeGraph.Yaml

/-- The characters of names. -/
def isNameChar (c : Char) : Bool := c.isAlphanum || c == '-' || c == '_'

/-! ## Anchors -/

/-- The characters, other than blanks and breaks, that may follow the name of an
anchor. -/
def isNameEnd (c : Char) : Bool := "?:,]\x7d%@\x60".toList.contains c

/-- Read the name behind the indicator of an anchor or an alias. -/
def readName (c : Cursor) : Option (String × Cursor) := do
  let (name, c) ← c.next.readWhile isNameChar
  if name.isEmpty || !(Cursor.endsWord c.rest || c.seesAny isNameEnd) then none
  return (.ofList name, c)

/-! ## Tags -/

/-- A tag as it is written: its handle, which is empty for a tag written in full, and
the rest. -/
structure TagText where
  handle : String
  suffix : String
deriving DecidableEq, Repr

/-- The characters that a tag may hold as they are. -/
def isTagChar (c : Char) : Bool := isNameChar c || ";/?:@&=+$,.!~*'()[]".toList.contains c

/-- A byte given by a percent sign and two digits. -/
def readByte (c : Cursor) : Option (UInt8 × Cursor) := do
  let c ← c.lookAhead 3
  match c.rest with
  | '%' :: a :: b :: _ => return (.ofNat (← Text.digitsIn? 16 [a, b]), c.skip 3)
  | _ => none

/-- The number of bytes of a character, given the first of them. -/
def encodedLength? (b : UInt8) : Option Nat :=
  let n := b.toNat
  if n < 0x80 then some 1
  else if n < 0xC0 then none
  else if n < 0xE0 then some 2
  else if n < 0xF0 then some 3
  else if n < 0xF8 then some 4
  else none

/-- Read bytes in the middle of a character. -/
def readContinuation : Nat → List UInt8 → Cursor → Option (List UInt8 × Cursor)
  | 0, text, c => some (text, c)
  | count + 1, text, c => do
    let (b, c) ← readByte c
    discard (Text.continuation? b)
    readContinuation count (b :: text) c

/-- Read the text of a tag, in reverse. The bytes of a character are given either all
by their digits or none. -/
def readTagText : Nat → List UInt8 → Cursor → Option (List UInt8 × Cursor)
  | 0, _, _ => none
  | fuel + 1, text, c =>
    match c.lookAhead 1 with
    | none => none
    | some c =>
      match c.rest with
      | [] => some (text, c)
      | x :: _ =>
        if isTagChar x then readTagText fuel (x.val.toUInt8 :: text) c.next
        else if x == '%' then
          let character := do
            let (b, c) ← readByte c
            readContinuation ((← encodedLength? b) - 1) (b :: text) c
          match character with
          | none => none
          | some (text, c) => readTagText fuel text c
        else some (text, c)

/-- Read the text of a tag behind its beginning. If that is empty, there has to be
something. -/
def readSuffix (start : List Char) (c : Cursor) : Option (String × Cursor) := do
  let (text, stop) ← readTagText c.steps [] c
  if start.isEmpty && stop.index == c.index then none
  return (.ofList (start.drop 1) ++ Text.ofBytes text.reverse, stop)

/-- Read the handle of a tag: an exclamation mark, and maybe a name and another one. -/
def readHandle (c : Cursor) : Option (List Char × Cursor) := do
  let c ← c.lookAhead 1
  if !c.sees '!' then none
  let (name, c) ← c.next.readWhile isNameChar
  return if c.sees '!' then ('!' :: name ++ ['!'], c.next) else ('!' :: name, c)

/-- Does a handle end with an exclamation mark of its own? -/
def isClosedHandle (handle : List Char) : Bool :=
  1 < handle.length && handle.getLast? == some '!'

/-- Read a tag. -/
def readTag (c : Cursor) : Option (TagText × Cursor) := do
  let c ← c.lookAhead 2
  let (tag, c) ←
    if (c.rest.drop 1).head? == some '<' then do
      let (suffix, c) ← readSuffix [] (c.skip 2)
      if c.sees '>' then some (⟨"", suffix⟩, c.next) else none
    else do
      let (handle, c) ← readHandle c
      if isClosedHandle handle then
        let (suffix, c) ← readSuffix [] c
        some (TagText.mk (.ofList handle) suffix, c)
      else
        let (suffix, c) ← readSuffix handle c
        some (if suffix.isEmpty then ⟨"", "!"⟩ else ⟨"!", suffix⟩, c)
  let c ← c.lookAhead 1
  if Cursor.endsWord c.rest then return (tag, c) else none

/-! ## Directives -/

inductive Directive where
  | version (major minor : Nat)
  | handle (name text : String)
deriving DecidableEq, Repr

/-- Read a number of one or two digits. -/
def readVersionPart (c : Cursor) : Option (Nat × Cursor) := do
  let (digits, c) ← c.readWhile Char.isDigit
  if digits.length > 2 then none
  return (← Text.digitsIn? 10 digits, c)

/-- Read the version behind the name of its directive. -/
def readVersion (c : Cursor) : Option (Directive × Cursor) := do
  let (major, c) ← readVersionPart (← c.skipWhile isGap)
  if !c.sees '.' then none
  let (minor, c) ← readVersionPart c.next
  return (.version major minor, c)

/-- Read a handle and the text that it stands for. -/
def readHandleText (c : Cursor) : Option (Directive × Cursor) := do
  let (handle, c) ← readHandle (← c.skipWhile isGap)
  if !isClosedHandle handle && handle ≠ ['!'] then none
  let c ← c.lookAhead 1
  if !c.seesAny isGap then none
  let (text, c) ← readSuffix [] (← c.skipWhile isGap)
  let c ← c.lookAhead 1
  if Cursor.endsWord c.rest then return (.handle (.ofList handle) text, c) else none

/-- Read a directive, from its percent sign to the end of its line. A comment may
follow it. -/
def readDirective (c : Cursor) : Option (Directive × Cursor) := do
  let (name, c) ← c.next.readWhile isNameChar
  if !Cursor.endsWord c.rest then none
  let (directive, c) ←
    if name == "YAML".toList then readVersion c
    else if name == "TAG".toList then readHandleText c
    else none
  let c ← c.skipWhile isGap
  let c ← if c.sees '#' then c.skipLine else some c
  if !Cursor.endsLine c.rest then none
  let c ← if c.atEnd then some c else c.lookAhead 2
  return (directive, c.nextLine)

end TypeGraph.Yaml
