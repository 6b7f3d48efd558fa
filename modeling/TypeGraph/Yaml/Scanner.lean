import Std.Data.TreeMap
import TypeGraph.Yaml.Scalar
import TypeGraph.Yaml.Token

/-!
# From characters to tokens

The scanner works on demand: it goes on until two tokens are known behind the one that
is asked for, and until it is known whether that one starts a key.

Whether a word is a key is known only when the colon behind it is found. The scanner
therefore remembers where a key could have started, and puts the tokens that belong in
front of it there later on, or at the end if they are too late for that. A key has to
be on one line and short; where a word stands at the indentation of a mapping, it has
to be a key.
-/

namespace TypeGraph.Yaml

/-- A place where a key may have started: the number of its first token, and whether
it has to be a key. The place is open as long as it is not known whether there is
one. -/
structure KeyStart where
  isOpen : Bool := false
  required : Bool := false
  token : Nat
  line : Nat := 0
  column : Nat := 0
  index : Nat := 0

structure Scanner where
  cursor : Cursor
  /-- All tokens found so far. -/
  tokens : Array Placed := #[]
  /-- How many of them have been taken. -/
  taken : Nat := 0
  /-- The column of the innermost block, or -1 outside of all blocks. -/
  indent : Int := -1
  /-- The columns of the blocks around it. -/
  outer : List Int := []
  /-- May a key start here? -/
  keyAllowed : Bool := true
  /-- The last place for a key outside of brackets, and one for each open bracket, the
  innermost last. -/
  keys : Array KeyStart := #[⟨false, false, 0, 0, 0, 0⟩]
  /-- The tokens that may start a key, each with the number of brackets around it. -/
  awaited : Std.TreeMap Nat Nat := {}

namespace Scanner

/-- How deep blocks and brackets may be nested. -/
def maxDepth : Nat := 10000

/-- The number of brackets that are open. -/
def depth (s : Scanner) : Nat := s.keys.size - 1

def inFlow (s : Scanner) : Bool := 1 < s.keys.size

/-- Add a token that lies between the place of `s` and `stop`. -/
def push (s : Scanner) (token : Token) (stop : Cursor) : Scanner :=
  let (first, last) := (s.cursor.line + 1, stop.line + 1)
  { s with tokens := s.tokens.push ⟨token, first, last⟩, cursor := stop }

/-- Add a token without length. -/
def mark (s : Scanner) (token : Token) : Scanner := s.push token s.cursor

/-- Put a token in front of the one with a number, or at the end if that one has been
taken. -/
def insert (s : Scanner) (place : Nat) (p : Placed) : Scanner :=
  if s.taken ≤ place then { s with tokens := s.tokens.insertIdxIfInBounds place p }
  else { s with tokens := s.tokens.push p }

/-! ## Indentation -/

/-- Open a block at a column, if it is deeper than the one around it. Its token gets
the number `place`. -/
def openBlock (s : Scanner) (column : Nat) (token : Token)
    (place line : Nat) : Option Scanner :=
  if s.inFlow || (column : Int) ≤ s.indent then some s
  else if maxDepth ≤ s.outer.length then none
  else some ({ s with
               indent := column, outer :=
                 s.indent :: s.outer }.insert place ⟨token, line, line⟩)

/-- Close the blocks that are deeper than a column. -/
def closeBlocks (column : Int) (indent : Int) (outer : List Int)
    (s : Scanner) : Scanner :=
  match outer with
  | [] => { s with indent, outer := [] }
  | next :: rest =>
    if indent ≤ column then { s with indent, outer }
    else closeBlocks column next rest (s.mark .blockEnd)

def dedent (s : Scanner) (column : Int) : Scanner :=
  if s.inFlow then s else s.closeBlocks column s.indent s.outer

/-! ## Keys -/

/-- Can there still be a key, seen from the current place? -/
def canBeKey (s : Scanner) (k : KeyStart) : Bool :=
  k.isOpen && s.cursor.line ≤ k.line && s.cursor.index ≤ k.index + 1024

/-- Is there an open place for a key at which it is too late for one? -/
def missesKey (s : Scanner) (k : KeyStart) : Bool :=
  k.isOpen && k.required && !s.canBeKey k

/-- The innermost place for a key. -/
def innermost (s : Scanner) : KeyStart := s.keys.back?.getD ⟨false, false, 0, 0, 0, 0⟩

/-- Change a place for a key. -/
def setKey (s : Scanner) (level : Nat) (k : KeyStart) : Scanner :=
  { s with keys := s.keys.setIfInBounds level k }

/-- Wait no longer for the key that a token may start. -/
def forget (s : Scanner) (token : Nat) : Scanner :=
  { s with awaited := s.awaited.erase token }

/-- There is no key at the innermost place. One that has to be there is an error. -/
def dropKey (s : Scanner) : Option Scanner :=
  let k := s.innermost
  if !k.isOpen then some s
  else if k.required then none
  else some ((s.setKey s.depth { k with isOpen := false }).forget k.token)

/-- Note that a key may start here. -/
def noteKey (s : Scanner) : Option Scanner :=
  if !s.keyAllowed then some s
  else do
    let required := !s.inFlow && s.indent == s.cursor.column
    let k :=
      ⟨true, required, s.tokens.size, s.cursor.line, s.cursor.column, s.cursor.index⟩
    let s ← s.dropKey
    let s := s.setKey s.depth k
    return { s with awaited := s.awaited.insert k.token s.depth }

/-! ## White space -/

/-- Pass over blanks, comments and line breaks. In a block, a new line allows a key to
start; tabs do not count as blanks where one may. -/
def skipSpace : Nat → Scanner → Option Scanner
  | 0, _ => none
  | fuel + 1, s =>
    let isBlank (x : Char) : Bool :=
      x == ' ' || ((s.inFlow || !s.keyAllowed) && x == '\t')
    let space := do
      let c ← s.cursor.lookAhead 1
      let c := if c.column == 0 && c.marked then c.next else c
      let c ← c.skipWhile isBlank
      let c ← if c.sees '#' then c.skipComments c.steps else some c
      if c.seesAny isBreak then c.lookAhead 2 else some c
    match space with
    | none => none
    | some c =>
      if c.seesAny isBreak then
        skipSpace fuel
          { s with cursor := c.nextLine, keyAllowed := s.keyAllowed || !s.inFlow }
      else some { s with cursor := c }

/-! ## Tokens -/

/-- The end of the stream closes everything and is the beginning of a line. -/
def endStream (s : Scanner) : Option Scanner := do
  let c := s.cursor
  let c := if c.column == 0 then c else { c with column := 0, line := c.line + 1 }
  let s ← ({ s with cursor := c }.dedent (-1)).dropKey
  return { s with keyAllowed := false }.mark .streamEnd

/-- A marker or a directive at the beginning of a line closes everything. -/
def boundary (s : Scanner) : Option Scanner := do
  let s ← (s.dedent (-1)).dropKey
  return { s with keyAllowed := false }

def marker (s : Scanner) (token : Token) : Option Scanner := do
  let s ← s.boundary
  return s.push token (s.cursor.skip 3)

def directive (s : Scanner) : Option Scanner := do
  let s ← s.boundary
  let (d, stop) ← readDirective s.cursor
  return s.push (.directive d) stop

def openBracket (s : Scanner) (token : Token) : Option Scanner := do
  let s ← s.noteKey
  if maxDepth ≤ s.depth then none
  let s := { s with keys := s.keys.push ⟨false, false, s.tokens.size, 0, 0, 0⟩ }
  return { s with keyAllowed := true }.push token s.cursor.next

/-- A closing bracket. Nothing is awaited any more of what was last noted within the
brackets; if nothing was, this is the opening bracket itself. -/
def closeBracket (s : Scanner) (token : Token) : Option Scanner := do
  let s ← s.dropKey
  let s := if s.inFlow then { s.forget s.innermost.token with keys := s.keys.pop } else s
  return { s with keyAllowed := false }.push token s.cursor.next

def flowEntry (s : Scanner) : Option Scanner := do
  let s ← s.dropKey
  return { s with keyAllowed := true }.push .flowEntry s.cursor.next

/-- Open a block at the current place, unless there are brackets around it. -/
def openHere (s : Scanner) (token : Token) : Option Scanner :=
  if s.inFlow then some s
  else if !s.keyAllowed then none
  else s.openBlock s.cursor.column token s.tokens.size (s.cursor.line + 1)

/-- An entry of a block sequence. -/
def blockEntry (s : Scanner) : Option Scanner := do
  let s ← (← s.openHere .blockSequence).dropKey
  return { s with keyAllowed := true }.push .entry s.cursor.next

/-- An explicit key. -/
def explicitKey (s : Scanner) : Option Scanner := do
  let s ← (← s.openHere .blockMapping).dropKey
  return { s with keyAllowed := !s.inFlow }.push .key s.cursor.next

/-- A colon. If a key may have started before it, this is where it is known to be
one. -/
def colon (s : Scanner) : Option Scanner := do
  let k := s.innermost
  if s.missesKey k then none
  if s.canBeKey k then
    let s := s.insert k.token ⟨.key, k.line + 1, k.line + 1⟩
    let s ← s.openBlock k.column .blockMapping k.token (k.line + 1)
    let s := (s.setKey s.depth { k with isOpen := false }).forget k.token
    return { s with keyAllowed := false }.push .value s.cursor.next
  else
    let s ← (s.setKey s.depth { k with isOpen := false }).openHere .blockMapping
    return { s with keyAllowed := !s.inFlow }.push .value s.cursor.next

/-- An anchor or an alias. -/
def named (s : Scanner) (token : String → Token) : Option Scanner := do
  let s ← s.noteKey
  let (name, stop) ← readName s.cursor
  return { s with keyAllowed := false }.push (token name) stop

def tag (s : Scanner) : Option Scanner := do
  let s ← s.noteKey
  let (t, stop) ← readTag s.cursor
  return { s with keyAllowed := false }.push (.tag t) stop

def block (s : Scanner) (literal : Bool) : Option Scanner := do
  let s ← s.dropKey
  let (text, stop) ← blockScalar literal s.indent s.cursor
  return { s with keyAllowed := true }.push (.scalar false (.ofList text)) stop

def quoted (s : Scanner) (double : Bool) : Option Scanner := do
  let s ← s.noteKey
  let (text, stop) ← quotedScalar double s.cursor
  return { s with keyAllowed := false }.push (.scalar false (.ofList text)) stop

def plain (s : Scanner) : Option Scanner := do
  let s ← s.noteKey
  let p ← plainScalar s.inFlow (s.indent + 1).toNat s.cursor
  return { s with keyAllowed := p.brokeLine }.push (.scalar true (.ofList p.text)) p.stop

/-- The characters that cannot start a plain scalar. -/
def isIndicator (c : Char) : Bool := "-?:,[]\x7b\x7d#&*!|>'\"%@\x60".toList.contains c

/-- Scan a token that starts with a character and is neither a marker nor a
directive. -/
def content (s : Scanner) (x : Char) : Option Scanner :=
  let wordEnds := Cursor.endsWord (s.cursor.rest.drop 1)
  if x == '[' then s.openBracket .flowSequence
  else if x == '\x7b' then s.openBracket .flowMapping
  else if x == ']' then s.closeBracket .flowSequenceEnd
  else if x == '\x7d' then s.closeBracket .flowMappingEnd
  else if x == ',' then s.flowEntry
  else if x == '-' && wordEnds then s.blockEntry
  else if x == '?' && (s.inFlow || wordEnds) then s.explicitKey
  else if x == ':' && (s.inFlow || wordEnds) then s.colon
  else if x == '*' then s.named .reference
  else if x == '&' then s.named .anchor
  else if x == '!' then s.tag
  else if x == '|' && !s.inFlow then s.block true
  else if x == '>' && !s.inFlow then s.block false
  else if x == '\'' then s.quoted false
  else if x == '"' then s.quoted true
  else if !isGap x && !isIndicator x || x == '-' ||
      (!s.inFlow && (x == '?' || x == ':')) then
    s.plain
  else none

/-- Pass over a comment behind a token. The mark of an entry has none. -/
def skipLineComment (s : Scanner) : Option Scanner :=
  if s.tokens.back?.any (·.token == .entry) then some s
  else s.cursor.skipLineComment.map fun c => { s with cursor := c }

/-- Scan the next token, with the tokens for indentation that go before it. -/
def step (s : Scanner) : Option Scanner := do
  let c ← s.cursor.lookAhead 1
  let s := { s with cursor := c }
  if s.tokens.isEmpty then return s.mark .streamStart
  let s ← skipSpace c.steps s
  let s := s.dedent s.cursor.column
  let c ← s.cursor.lookAhead 4
  let s := { s with cursor := c }
  match c.rest with
  | [] => s.endStream
  | x :: _ =>
    if c.column == 0 && x == '%' then s.directive
    else if c.atMarker '-' then s.marker .documentStart
    else if c.atMarker '.' then s.marker .documentEnd
    else (← s.content x).skipLineComment

/-- Scan until the next token can be taken. There is nothing to take if the stream
turns out to be malformed. -/
def advance : Nat → Scanner → Option Scanner
  | 0, _ => none
  | fuel + 1, s =>
    if s.tokens.size ≤ s.taken + 2 then
      match s.step with
      | some s => advance fuel s
      | none => none
    else
      match s.awaited[s.taken]? with
      | none => some s
      | some level =>
        match s.keys[level]? with
        | none => none
        | some k =>
          if s.missesKey k then none
          else if s.canBeKey k then
            match s.step with
            | some s => advance fuel s
            | none => none
          else some (s.setKey level { k with isOpen := false })

/-- The next token. Behind the end there is always another end. -/
def next? (s : Scanner) : Option (Placed × Scanner) := do
  let s ← s.advance (s.cursor.steps + 4)
  return (← s.tokens[s.taken]?, s)

/-- A scanner at the beginning of a text. -/
def ofText (text : String) : Scanner := { cursor := .ofText text }

end Scanner

end TypeGraph.Yaml
