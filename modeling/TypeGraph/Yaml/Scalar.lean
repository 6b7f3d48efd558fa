import TypeGraph.Text.Digits
import TypeGraph.Yaml.Cursor

/-!
# Scalars

Scalars of YAML: plain words, texts in single or double quotes, and blocks of indented
lines. Plain and quoted scalars may go over several lines. A line break between two
lines is then read as a space, and of several breaks in a row the first one is
dropped.

Each reader starts right at the scalar and gives its text and the place behind it, or
nothing if the scalar is malformed or cannot be read. While it is read, a text is kept
in reverse.
-/

namespace TypeGraph.Yaml

/-- The text of line breaks between two lines of a scalar. -/
def foldBreaks : List Char → List Char
  | [] => []
  | ['\n'] => [' ']
  | '\n' :: more => more
  | separators => separators

/-- The line breaks in a gap. -/
def breaksOf (gap : List Char) : List Char := (uniformBreaks gap).filter isBreak

/-- The text of blanks and breaks between two words of a scalar. Blanks at the ends of
lines do not count. -/
def foldGap (gap : List Char) : List Char :=
  if gap.any isBreak then foldBreaks (breaksOf gap) else gap

/-! ## Plain scalars -/

/-- The characters that end a plain scalar within brackets. -/
def isFlowEnd (c : Char) : Bool :=
  c == ',' || c == '?' || c == '[' || c == ']' || c == '\x7b' || c == '\x7d'

/-- The number of characters of a plain word, of which `count` come before. A colon
ends it if a blank follows. -/
def plainWord (inFlow : Bool) (count : Nat) : List Char → Nat
  | [] => count
  | c :: rest =>
    if isGap c || isBreak c || (c == ':' && Cursor.endsWord rest) ||
      (inFlow && isFlowEnd c) then count
    else plainWord inFlow (count + 1) rest

/-- A plain scalar that has been read: its text, the place behind it, and whether it
was followed by a line break. -/
structure Plain where
  text : List Char
  stop : Cursor
  brokeLine : Bool

/-- Is there a tab in the indentation of one of the lines of a gap? The column is
known behind a line break. -/
def tabbedIndent (indent : Nat) : Option Nat → List Char → Bool
  | _, [] => false
  | column, x :: rest =>
    if isBreak x then tabbedIndent indent (some 0) rest
    else (x == '\t' && column.any (· < indent)) ||
      tabbedIndent indent (column.map (· + 1)) rest

/-- Read the rest of a plain scalar, `gap` being what was passed over since its last
word. Outside of brackets it ends where a line is not indented by `indent`. -/
def plainWithin (inFlow : Bool) (indent : Nat) :
    Nat → List Char → List Char → Cursor → Option Plain
  | 0, _, _, _ => none
  | fuel + 1, text, gap, c =>
    match c.lookAhead 4 with
    | none => none
    | some c =>
      let length := if c.atAnyMarker || c.sees '#' then 0 else plainWord inFlow 0 c.rest
      if length = 0 then some ⟨text, c, gap.any isBreak⟩
      else
        let text := (c.rest.take length).reverseAux ((foldGap gap).reverseAux text)
        match c.advance 2 length with
        | none => none
        | some c =>
          if !(c.seesAny fun x => isGap x || isBreak x) then some ⟨text, c, false⟩
          else
            match c.readGap with
            | none => none
            | some (gap, c) =>
              if tabbedIndent indent none gap then none
              else if !inFlow && c.column < indent then some ⟨text, c, gap.any isBreak⟩
              else plainWithin inFlow indent fuel text gap c

/-- Read a plain scalar. -/
def plainScalar (inFlow : Bool) (indent : Nat) (c : Cursor) : Option Plain :=
  (plainWithin inFlow indent c.steps [] [] c).map fun p =>
    { p with text := p.text.reverse }

/-! ## Quoted scalars -/

/-- The character of a code given by `digits` hexadecimal digits. -/
def coded? (digits : Nat) (cs : List Char) : Option Char := do
  if cs.length < digits then none
  let n ← Text.digitsIn? 16 (cs.take digits)
  if h : n.isValidChar then some (Char.ofNatAux n h) else none

/-- The character that a letter behind a backslash stands for. -/
def escaped? : Char → Option Char
  | '0' => some '\x00'
  | 'a' => some '\x07'
  | 'b' => some '\x08'
  | 't' | '\t' => some '\t'
  | 'n' => some '\n'
  | 'v' => some '\x0b'
  | 'f' => some '\x0c'
  | 'r' => some '\r'
  | 'e' => some '\x1b'
  | ' ' => some ' '
  | '"' => some '"'
  | '\'' => some '\''
  | '\\' => some '\\'
  | 'N' => some '\u0085'
  | '_' => some '\u00a0'
  | 'L' => some '\u2028'
  | 'P' => some '\u2029'
  | _ => none

/-- The number of digits behind a letter that announces the code of a character. -/
def codeLength? : Char → Option Nat
  | 'x' => some 2
  | 'u' => some 4
  | 'U' => some 8
  | _ => none

/-- Read an escape, from its backslash on. -/
def readEscape (c : Cursor) : Option (Char × Cursor) := do
  let letter ← (c.rest.drop 1).head?
  match escaped? letter with
  | some x => return (x, c.skip 2)
  | none =>
    let length ← codeLength? letter
    let c ← (c.skip 2).lookAhead length
    return (← coded? length c.rest, c.skip length)

/-- Read a scalar up to its closing quote. A document marker must not stand in it,
which shows at the beginning of a word; `atWord` says that this is one. -/
def quotedWithin (double : Bool) :
    Nat → Bool → List Char → Cursor → Option (List Char × Cursor)
  | 0, _, _, _ => none
  | fuel + 1, atWord, text, c =>
    match if atWord then c.lookAhead 4 else some c with
    | none => none
    | some c =>
      if atWord && c.atAnyMarker then none
      else
        match c.rest with
        | [] => none
        | x :: rest =>
          if isGap x || isBreak x then
            match c.readGap with
            | none => none
            | some (gap, c) =>
              quotedWithin double fuel true ((foldGap gap).reverseAux text) c
          else if x == (if double then '"' else '\'') &&
              (double || rest.head? != some '\'') then
            (c.lookAhead 1).map fun c => (text, c.next)
          else if double && x == '\\' && rest.head?.any isBreak then
            -- an escaped break joins two lines; further breaks count
            match (c.lookAhead 3).bind fun c => c.next.nextLine.readGap with
            | none => none
            | some (gap, c) =>
              if gap.isEmpty && c.sees '"' then some (text, c.next)
              else quotedWithin double fuel true ((breaksOf gap).reverseAux text) c
          else
            let step :=
              if double && x == '\\' then readEscape c
              else if x == '\'' && !double then some ('\'', c.skip 2)
              else some (x, c.next)
            match step.bind fun (y, c) => (c.lookAhead 2).map (y, ·) with
            | none => none
            | some (y, c) => quotedWithin double fuel false (y :: text) c

/-- Read a quoted scalar, from its opening quote on. -/
def quotedScalar (double : Bool) (c : Cursor) : Option (List Char × Cursor) :=
  (quotedWithin double (2 * c.steps) true [] c.next).map fun (text, c) =>
    (text.reverse, c)

/-! ## Block scalars -/

/-- What becomes of the breaks at the end of a block. -/
inductive Chomp where
  | strip
  | clip
  | keep
deriving DecidableEq

/-- The treatment of a block's end that a character asks for. -/
def Chomp.ofChar? (c : Char) : Option Chomp :=
  if c == '+' then some .keep else if c == '-' then some .strip else none

/-- The header of a block: how to treat its end, and how far it is indented, if that
is said. The two may come in either order. -/
def blockHeader (c : Cursor) : Option (Chomp × Option Nat × Cursor) := do
  let digit? (c : Cursor) : Option Nat :=
    (c.rest.head?.filter Char.isDigit).map fun x => x.toNat - '0'.toNat
  let c ← c.lookAhead 1
  match c.rest.head?.bind Chomp.ofChar?, digit? c with
  | some chomp, _ =>
    let c ← c.next.lookAhead 1
    match digit? c with
    | some n => if n = 0 then none else return (chomp, some n, c.next)
    | none => return (chomp, none, c)
  | none, some n =>
    if n = 0 then none
    else
      let c ← c.next.lookAhead 1
      match c.rest.head?.bind Chomp.ofChar? with
      | some chomp => return (chomp, some n, c.next)
      | none => return (.clip, some n, c)
  | none, none => return (.clip, none, c)

/-- The line break at a place, if there is one. -/
def breakAt (c : Cursor) : List Char := (uniformBreaks (c.rest.take 1)).filter isBreak

/-- Pass over empty lines and the indentation of the next one, which is at most
`limit`. Gives the breaks in reverse, the deepest column seen, and the place; a tab in
the indentation is an error. -/
def blockBreaks (limit : Option Nat) :
    Nat → List Char → Nat → Cursor → Option (List Char × Nat × Cursor)
  | 0, _, _, _ => none
  | fuel + 1, breaks, deepest, c =>
    let indented := (c.lookAhead 1).bind fun c =>
      let spaces := (c.rest.takeWhile (· == ' ')).length
      c.advance 1 (limit.elim spaces fun n => min spaces (n - c.column))
    match indented with
    | none => none
    | some c =>
      let deepest := max deepest c.column
      if c.sees '\t' && limit.all (c.column < ·) then none
      else if c.seesAny isBreak then
        match c.lookAhead 2 with
        | none => none
        | some c => blockBreaks limit fuel (breakAt c ++ breaks) deepest c.nextLine
      else some (breaks, deepest, c)

/-- A block that has been read: its text, the break behind its last line and those
that follow it, each in reverse, and the place behind it. -/
structure Block where
  text : List Char
  lastBreak : List Char
  breaks : List Char
  stop : Cursor

/-- Read the lines of a block. `afterBlank` says whether the last line started with
a blank; such lines are never joined to others. -/
def blockLines (literal : Bool) (indent : Nat) : Nat → Bool → Block → Option Block
  | 0, _, _ => none
  | fuel + 1, afterBlank, b =>
    if b.stop.column ≠ indent || b.stop.atEnd then some b
    else
      let blank := b.stop.seesAny isGap
      let joint :=
        if !literal && b.lastBreak == ['\n'] && !afterBlank && !blank then
          (if b.breaks.isEmpty then [' '] else [])
        else b.lastBreak
      match b.stop.readWhile (!isBreak ·) with
      | none => none
      | some (line, c) =>
        let text := line.reverseAux (b.breaks ++ (joint ++ b.text))
        match (c.lookAhead 2).bind fun c =>
          blockBreaks (some indent) c.steps [] 0 c.nextLine with
        | none => none
        | some (breaks, _, stop) =>
          blockLines literal indent fuel blank ⟨text, breakAt c, breaks, stop⟩

/-- Read a block scalar, from its indicator on. `parent` is the indentation of the
collection it stands in. -/
def blockScalar (literal : Bool) (parent : Int) (c : Cursor) :
    Option (List Char × Cursor) := do
  let (chomp, increment, c) ← blockHeader c.next
  let c ← c.skipWhile isGap
  let c ← if c.sees '#' then c.skipLine else some c
  if !Cursor.endsLine c.rest then none
  let c ← if c.atEnd then some c else c.lookAhead 2
  let given := increment.map fun n => (max parent 0).toNat + n
  let (breaks, deepest, c) ← blockBreaks given c.steps [] 0 c.nextLine
  let indent := given.getD (max (max deepest (parent + 1).toNat) 1)
  let b ← blockLines literal indent c.steps false ⟨[], [], breaks, c⟩
  let text := match chomp with
    | .strip => b.text
    | .clip => b.lastBreak ++ b.text
    | .keep => b.breaks ++ (b.lastBreak ++ b.text)
  return (text.reverse, b.stop)

end TypeGraph.Yaml
