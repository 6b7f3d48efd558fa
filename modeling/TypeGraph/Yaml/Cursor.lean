import TypeGraph.Yaml.Portions

/-!
# Places in a stream

A place in a YAML stream: the characters that are left, how many lines and columns lie
before them, and how much of the stream has been read.

Before a character is looked at it has to be asked for, with `lookAhead`. This fails
if the stream cannot be read so far. The readers ask for no more than they need, so
that a fault far behind a document does no harm to it.
-/

namespace TypeGraph.Yaml

/-! ## Characters -/

/-- The characters that end a line. A carriage return and a line feed that follows it
end it together. -/
def isBreak (c : Char) : Bool :=
  c == '\n' || c == '\r' || c == '\u0085' || c == '\u2028' || c == '\u2029'

/-- The characters that separate words on a line. -/
def isGap (c : Char) : Bool := c == ' ' || c == '\t'

/-- Write every line break as one character. The separators of lines and of paragraphs
stay what they are. -/
def uniformBreaks : List Char → List Char
  | '\r' :: '\n' :: rest => '\n' :: uniformBreaks rest
  | '\r' :: rest => '\n' :: uniformBreaks rest
  | '\u0085' :: rest => '\n' :: uniformBreaks rest
  | c :: rest => c :: uniformBreaks rest
  | [] => []

/-- The character that marks the order of bytes. -/
def orderMark : Char := '\ufeff'

/-! ## Places -/

structure Cursor where
  portions : Portions
  rest : List Char
  line : Nat := 0
  column : Nat := 0
  index : Nat := 0
  /-- Has a line ended since the last character that is not blank? -/
  freshLine : Bool := false
  /-- How many characters of the stream have been read. -/
  held : Nat := 0
  /-- Was there an order mark at the place where more of the stream was last asked
  for? -/
  marked : Bool := false

namespace Cursor

/-- The beginning of a text. An order mark in front of everything does not count. -/
def ofText (s : String) : Cursor :=
  match s.toList with
  | [] => ⟨.ofText 0 [], [], 0, 0, 0, false, 0, false⟩
  | c :: rest =>
    if c == orderMark then { portions := .ofText c.utf8Size rest, rest }
    else { portions := .ofText 0 (c :: rest), rest := c :: rest }

/-- More steps than the stream has characters. -/
def steps (c : Cursor) : Nat := c.portions.size + 4

def atEnd (c : Cursor) : Bool := c.rest.isEmpty

/-- Is `x` the next character? -/
def sees (c : Cursor) (x : Char) : Bool := c.rest.head? == some x

/-- Does the next character have a property? -/
def seesAny (c : Cursor) (p : Char → Bool) : Bool := c.rest.head?.any p

/-- Does a text go on with a blank or a line break, or end? -/
def endsWord (cs : List Char) : Bool := cs.head?.all fun x => isGap x || isBreak x

/-- Does a text go on with a line break, or end? -/
def endsLine (cs : List Char) : Bool := cs.head?.all isBreak

/-- Ask for the next `n` characters. -/
def lookAhead (n : Nat) (c : Cursor) : Option Cursor :=
  let goal := c.index + n
  if goal ≤ c.held then some c
  else if c.portions.admits goal then
    some { c with held := c.portions.extent c.held goal, marked := c.sees orderMark }
  else none

/-- Step over a character within a line. -/
def next (c : Cursor) : Cursor :=
  { c with
    rest := c.rest.drop 1
    column := c.column + 1
    index := c.index + 1
    freshLine := c.freshLine && c.seesAny isGap }

/-- Step over several characters within a line. -/
def skip (n : Nat) (c : Cursor) : Cursor := n.repeat next c

/-- Step over a line break, if there is one. -/
def nextLine (c : Cursor) : Cursor :=
  let beyond (rest : List Char) (width : Nat) : Cursor :=
    { c with
      rest, line := c.line + 1, column := 0, index := c.index + width, freshLine := true }
  match c.rest with
  | '\r' :: '\n' :: rest => beyond rest 2
  | x :: rest => if isBreak x then beyond rest 1 else c
  | [] => c

/-- Step over several characters within a line, and ask for the next `n` after each. -/
def advance (n : Nat) : Nat → Cursor → Option Cursor
  | 0, c => some c
  | count + 1, c =>
    match c.next.lookAhead n with
    | some c => advance n count c
    | none => none

/-- Read within a line as long as the characters have a property. -/
def readWhile (p : Char → Bool) (c : Cursor) : Option (List Char × Cursor) := do
  let c ← c.lookAhead 1
  let text := c.rest.takeWhile p
  return (text, ← c.advance 1 text.length)

/-- Pass over characters with a property. -/
def skipWhile (p : Char → Bool) (c : Cursor) : Option Cursor := (c.readWhile p).map (·.2)

/-- Pass over the rest of a line. -/
def skipLine (c : Cursor) : Option Cursor := c.skipWhile (!isBreak ·)

/-- Pass over blanks and line breaks. -/
def skipGap : Nat → Cursor → Option Cursor
  | 0, c => some c
  | fuel + 1, c =>
    match c.lookAhead 1 with
    | none => none
    | some c =>
      if c.seesAny isGap then skipGap fuel c.next
      else if c.seesAny isBreak then
        match c.lookAhead 2 with
        | some c => skipGap fuel c.nextLine
        | none => none
      else some c

/-- Read blanks and line breaks. -/
def readGap (c : Cursor) : Option (List Char × Cursor) :=
  (c.skipGap c.steps).map (c.rest.takeWhile fun x => isGap x || isBreak x, ·)

/-- Does a line begin here that consists of a document marker, or begins with one? -/
def atMarker (c : Cursor) (mark : Char) : Bool :=
  c.column == 0 && c.rest.take 3 == [mark, mark, mark] && endsWord (c.rest.drop 3)

/-- Does a line begin here with a marker of either kind? -/
def atAnyMarker (c : Cursor) : Bool := c.atMarker '-' || c.atMarker '.'

/-! ## Comments -/

/-- How far ahead the next comment may start. -/
def commentReach : Nat := 511

/-- Look for a comment from `distance` characters ahead on, `ahead` being what stands
there, and give its distance. Only blanks may come before it and, if `lines` says so,
line breaks of one byte. -/
def commentAhead (lines : Bool) :
    Nat → Nat → List Char → Cursor → Option (Cursor × Option Nat)
  | 0, _, _, c => some (c, none)
  | reach + 1, distance, ahead, c =>
    match c.lookAhead (distance + 1), ahead with
    | none, _ => none
    | some c, [] => some (c, none)
    | some c, x :: rest =>
      if x == '#' then some (c, some distance)
      else if isGap x || (lines && (x == '\n' || x == '\r')) then
        commentAhead lines reach (distance + 1) rest c
      else if lines && isBreak x && reach ≠ 0 then
        (c.lookAhead (distance + 2)).map (·, none)
      else some (c, none)

/-- Pass over a comment, and over the comments on the lines that follow. -/
def skipComments : Nat → Cursor → Option Cursor
  | 0, c => some c
  | fuel + 1, c => do
    let c ← c.skipLine
    let (c, next) ←
      if c.sees '\n' || c.sees '\r' then
        commentAhead true commentReach 1 (c.rest.drop 1) c
      else (c.lookAhead 2).map (·, none)
    match next with
    | none => some c
    | some _ => skipComments fuel (← c.skipGap c.steps)

/-- Pass over a comment on the same line as the token before it. -/
def skipLineComment (c : Cursor) : Option Cursor := do
  if c.freshLine then return c
  let (c, next) ← commentAhead false (commentReach + 1) 0 c.rest c
  match next with
  | none => return c
  | some distance => (← c.advance 1 distance).skipLine

end Cursor

end TypeGraph.Yaml
