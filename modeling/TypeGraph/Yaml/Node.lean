import TypeGraph.Yaml.Scanner

/-!
# Documents

Documents of YAML as trees of scalars, sequences and mappings. Each node knows the
line it starts on. An alias stands for the node of the last anchor with its name,
which may be one that it is itself a part of; the nodes of anchors are therefore kept
in a table.

`Document.parse?` reads the first document of a stream and looks no further than it
must.
-/

namespace TypeGraph.Yaml

/-! ## Documents -/

inductive Node where
  | scalar (line : Nat) (tag : Option String) (plain : Bool) (text : String)
  | sequence (line : Nat) (tag : Option String) (items : List Node)
  | mapping (line : Nat) (tag : Option String) (entries : List (Node × Node))
  /-- An alias. The aliases of a document have different numbers, and `target` is
  a place in its table of anchors. -/
  | reference (line : Nat) (name : String) (number target : Nat)

namespace Node

def line : Node → Nat
  | scalar l .. | sequence l .. | mapping l .. | reference l .. => l

/-- A scalar that is not there. -/
def absent (line : Nat) : Node := scalar line none true ""

end Node

/-- A document, and the nodes that have anchors. -/
structure Document where
  root : Node
  anchored : Array Node

/-- The node that an alias stands for. -/
def Document.target (d : Document) (place : Nat) : Node :=
  d.anchored[place]?.getD (.absent 0)

/-! ## Tags -/

/-- What the tags of all types begin with. -/
def commonTag : String := "tag:yaml.org,2002:"

/-- The handles that need no directive. -/
def standardHandles : List (String × String) := [("!", "!"), ("!!", commonTag)]

/-- A tag in its short form. -/
def shortTag (tag : String) : String :=
  if commonTag.toList.isPrefixOf tag.toList then
    "!!" ++ .ofList (tag.toList.drop commonTag.length)
  else tag

/-! ## Reading -/

/-- A reader of tokens. -/
structure Reader where
  scanner : Scanner
  /-- The handles of tags and what they stand for. -/
  handles : List (String × String) := standardHandles
  /-- The names of anchors so far, the last one first, with the places of their
  nodes. -/
  anchors : List (String × Nat) := []
  anchored : Array Node := #[]
  /-- How many aliases there have been. -/
  aliases : Nat := 0

/-- Reading fails where the stream is malformed. -/
abbrev ReadM := StateT Reader Option

namespace ReadM

def peek : ReadM Placed :=
  fun r => r.scanner.next?.map fun (p, scanner) => (p, { r with scanner })

def skip : ReadM Unit := modify fun r => { r with scanner.taken := r.scanner.taken + 1 }

def bad {α : Type} : ReadM α := fun _ => none

/-- Skip the next token if it is the given one. -/
def accept (token : Token) : ReadM Bool := do
  if (← peek).token == token then
    skip
    return true
  return false

/-- The node of an alias. -/
def resolve (line : Nat) (name : String) : ReadM Node := fun r =>
  (r.anchors.lookup name).map fun target =>
    (.reference line name r.aliases target, { r with aliases := r.aliases + 1 })

/-- An anchor is known from its node's beginning on. Gives its place. -/
def openAnchor (name : String) : ReadM Nat := modifyGet fun r =>
  let place := r.anchored.size
  (place, { r with
            anchors := (name, place) :: r.anchors, anchored :=
              r.anchored.push (.absent 0) })

/-- Give an anchor its node. -/
def closeAnchor (place : Nat) (node : Node) : ReadM Unit :=
  modify fun r => { r with anchored := r.anchored.setIfInBounds place node }

/-- The tag that is meant by a handle and the rest. -/
def expand (t : TagText) : ReadM String := fun r =>
  if t.handle.isEmpty then some (shortTag t.suffix, r)
  else (r.handles.lookup t.handle).bind fun text =>
    let tag := text ++ t.suffix
    if tag.isEmpty then none else some (shortTag tag, r)

/-- The anchor and the tag in front of a node, in either order. -/
def properties : ReadM (Option String × Option String) := do
  match (← peek).token with
  | .anchor a =>
    skip
    match (← peek).token with
    | .tag t => skip; return (some a, some (← expand t))
    | _ => return (some a, none)
  | .tag t =>
    skip
    match (← peek).token with
    | .anchor a => skip; return (some a, some (← expand t))
    | _ => return (none, some (← expand t))
  | _ => return (none, none)

/-- The anchor of a node and its place. -/
def openAnchor? (name : Option String) : ReadM (Option Nat) :=
  match name with
  | some name => return some (← openAnchor name)
  | none => return none

mutual

/-- Read a node. Block collections are read only where `block` says so, and a sequence
that is not indented only where `indentless` does. -/
def node (block indentless : Bool) : Nat → ReadM Node
  | 0 => bad
  | fuel + 1 => do
    let first ← peek
    if let .reference name := first.token then
      skip
      return ← resolve first.startLine name
    let line := first.startLine
    let (anchor, tag) ← properties
    let place ← openAnchor? anchor
    -- an anchor or a tag alone makes an empty scalar
    let empty : ReadM Node :=
      if place.isSome || tag.isSome then pure (.scalar line tag true "") else bad
    let result ← match (← peek).token with
      | .entry =>
        if indentless then pure (.sequence line tag (← indentlessItems [] fuel))
        else empty
      | .scalar plain text => do skip; pure (.scalar line tag plain text)
      | .flowSequence => do skip; pure (.sequence line tag (← flowItems [] fuel))
      | .flowMapping => do skip; pure (.mapping line tag (← flowEntries [] fuel))
      | .blockSequence =>
        if block then do skip; pure (.sequence line tag (← blockItems [] fuel)) else empty
      | .blockMapping =>
        if block then do skip; pure (.mapping line tag (← blockEntries [] fuel))
        else empty
      | _ => empty
    if let some place := place then closeAnchor place result
    return result

/-- Read a block node, or nothing if one of the given tokens comes next. -/
def blockNodeUnless (ends : List Token) (indentless : Bool)
    (line : Nat) : Nat → ReadM Node
  | 0 => bad
  | fuel + 1 => do
    if ends.contains (← peek).token then return .absent line
    node true indentless fuel

/-- Read a node within brackets, or nothing if one of the given tokens comes next. -/
def flowNodeUnless (ends : List Token) : Nat → ReadM Node
  | 0 => bad
  | fuel + 1 => do
    let p ← peek
    if ends.contains p.token then return .absent p.startLine
    node false false fuel

/-- The items of a block sequence, up to the end of the block. Those read so far are
kept in reverse, as in all collections. -/
def blockItems (items : List Node) : Nat → ReadM (List Node)
  | 0 => bad
  | fuel + 1 => do
    let p ← peek
    match p.token with
    | .entry =>
      skip
      let item ← blockNodeUnless [.entry, .blockEnd] false p.stopLine fuel
      blockItems (item :: items) fuel
    | .blockEnd => skip; return items.reverse
    | _ => bad

/-- The items of a sequence at the indentation of the mapping around it. -/
def indentlessItems (items : List Node) : Nat → ReadM (List Node)
  | 0 => bad
  | fuel + 1 => do
    let p ← peek
    match p.token with
    | .entry =>
      skip
      let item ← blockNodeUnless [.entry, .key, .value, .blockEnd] false p.stopLine fuel
      indentlessItems (item :: items) fuel
    | _ => return items.reverse

/-- The entries of a block mapping, up to the end of the block. -/
def blockEntries (entries : List (Node × Node)) : Nat → ReadM (List (Node × Node))
  | 0 => bad
  | fuel + 1 => do
    let p ← peek
    match p.token with
    | .key =>
      skip
      let key ← blockNodeUnless [.key, .value, .blockEnd] true p.stopLine fuel
      let q ← peek
      let value ←
        if ← accept .value then
          blockNodeUnless [.key, .value, .blockEnd] true q.stopLine fuel
        else pure (.absent q.startLine)
      blockEntries ((key, value) :: entries) fuel
    | .blockEnd => skip; return entries.reverse
    | _ => bad

/-- The items of a sequence in brackets, up to the closing one. -/
def flowItems (items : List Node) : Nat → ReadM (List Node)
  | 0 => bad
  | fuel + 1 => do
    if ← accept .flowSequenceEnd then return items.reverse
    unless items.isEmpty do
      unless ← accept .flowEntry do bad
    let p ← peek
    match p.token with
    | .flowSequenceEnd => skip; return items.reverse
    | .key =>
      skip
      let pair ← singlePair fuel
      flowItems (.mapping p.startLine none [pair] :: items) fuel
    | _ =>
      let item ← node false false fuel
      flowItems (item :: items) fuel

/-- A key with its value as an item of a sequence in brackets. -/
def singlePair : Nat → ReadM (Node × Node)
  | 0 => bad
  | fuel + 1 => do
    let p ← peek
    let key ←
      if [Token.value, .flowEntry, .flowSequenceEnd].contains p.token then do
        skip; pure (Node.absent p.stopLine)
      else node false false fuel
    let value ←
      if ← accept .value then flowNodeUnless [.flowEntry, .flowSequenceEnd] fuel
      else pure (.absent (← peek).startLine)
    return (key, value)

/-- The entries of a mapping in braces, up to the closing one. -/
def flowEntries (entries : List (Node × Node)) : Nat → ReadM (List (Node × Node))
  | 0 => bad
  | fuel + 1 => do
    if ← accept .flowMappingEnd then return entries.reverse
    unless entries.isEmpty do
      unless ← accept .flowEntry do bad
    match (← peek).token with
    | .flowMappingEnd => skip; return entries.reverse
    | .key =>
      skip
      let key ← flowNodeUnless [.value, .flowEntry, .flowMappingEnd] fuel
      let value ←
        if ← accept .value then flowNodeUnless [.flowEntry, .flowMappingEnd] fuel
        else pure (.absent (← peek).startLine)
      flowEntries ((key, value) :: entries) fuel
    | _ =>
      let key ← node false false fuel
      flowEntries ((key, .absent (← peek).startLine) :: entries) fuel

end

/-- Read directives; they have to be followed by a document marker. There is one
version, which may be given once, and each handle may be given once. -/
def directives (versioned : Bool) (handles : List (String × String)) : Nat → ReadM Unit
  | 0 => bad
  | fuel + 1 => do
    match (← peek).token with
    | .directive (.version major minor) =>
      if versioned || (major, minor) ≠ (1, 1) then bad
      skip
      directives true handles fuel
    | .directive (.handle name text) =>
      if (handles.lookup name).isSome then bad
      skip
      directives versioned ((name, text) :: handles) fuel
    | .documentStart => modify fun r => { r with handles := handles ++ standardHandles }
    | _ => bad

/-- Read the content of a document behind its marker, which may be nothing. -/
def content (line fuel : Nat) : ReadM Node := do
  match (← peek).token with
  | .directive _ | .documentStart | .documentEnd | .streamEnd => return .absent line
  | _ => node true false fuel

/-- Read the root of the first document. An empty stream has none. -/
def root (fuel : Nat) : ReadM (Option Node) := do
  unless ← accept .streamStart do bad
  let p ← peek
  match p.token with
  | .streamEnd => return none
  | .directive _ | .documentStart =>
    directives false [] fuel
    skip
    let root ← content p.stopLine fuel
    discard peek
    return some root
  | _ =>
    let root ← node true false fuel
    discard peek
    return some root

end ReadM

/-- The first document of a text, `some none` if the text holds none, and `none` if it
is malformed. -/
def Document.parse? (text : String) : Option (Option Document) :=
  -- every character is at most three tokens, and every token at most three calls
  let fuel := 12 * text.length + 32
  ((ReadM.root fuel).run { scanner := .ofText text }).map fun (root, r) =>
    root.map (⟨·, r.anchored⟩)

end TypeGraph.Yaml
