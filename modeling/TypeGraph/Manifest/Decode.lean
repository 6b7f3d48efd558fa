import TypeGraph.Manifest.Config
import TypeGraph.Manifest.DecodeError
import TypeGraph.Text.Base64
import TypeGraph.Yaml.Node
import TypeGraph.Yaml.Tag

/-!
# Configurations written in YAML

Decoding goes on after a fault, so that all of them are reported: fields that do not
exist, values of the wrong kind, and keys that are defined twice. A scalar of any kind
may stand where a text is expected and is taken as it is written; nothing at all
leaves the field as it is.

A small document can stand for a very large one by its aliases. Decoding therefore
counts the nodes it visits, and gives up if nearly all of them are visited through
aliases.
-/

namespace TypeGraph.Manifest

/-- How far the decoding of a document has come. -/
structure Decoding where
  faults : Array DecodeFault := #[]
  /-- How many nodes have been visited. -/
  visits : Nat := 0
  /-- How many of them have been visited through an alias. -/
  aliasVisits : Nat := 0
  /-- The numbers of the aliases that are being followed, the innermost first. -/
  following : List Nat := []

/-- Are too many of the nodes visited through aliases? Up to 400000 nodes 99 of 100
may be; from there on the share goes down, to one tenth at four million nodes. -/
def Decoding.isExcessive (d : Decoding) : Bool :=
  let late := min (d.visits - 400000) 3600000
  100 < d.aliasVisits && 1000 < d.visits &&
    d.visits * (99 * 3600000 - 89 * late) < d.aliasVisits * 360000000

/-- Decoding collects faults. It stops only at a node that cannot be understood at
all. -/
abbrev DecodeM := ReaderT Yaml.Document (StateT Decoding Option)

namespace Decode

open Yaml

def report (f : DecodeFault) : DecodeM Unit :=
  modify fun d => { d with faults := d.faults.push f }

def stop {α : Type} : DecodeM α := fun _ _ => none

/-- Count a node. -/
def count : DecodeM Unit := do
  let viaAlias (d : Decoding) : Nat := if d.following.isEmpty then 0 else 1
  modify fun d => { d with
                    visits := d.visits + 1, aliasVisits := d.aliasVisits + viaAlias d }
  if (← get).isExcessive then stop

/-- Decode a node, or the one that it stands for. An alias must not be followed within
itself. -/
def visit {α : Type} (n : Node) (decode : Node → DecodeM α) : DecodeM α := do
  count
  match n with
  | .reference _ _ number target =>
    if (← get).following.contains number then stop
    modify fun d => { d with following := number :: d.following }
    count
    let result ← decode ((← read).target target)
    modify fun d => { d with following := d.following.drop 1 }
    return result
  | n => decode n

/-! ## Scalars -/

/-- What a scalar holds: nothing, a text, or the text of some other value. -/
inductive Held where
  | nothing
  | text (s : String)
  | value (s : String)

/-- What a scalar without a tag holds. -/
def Held.ofKind (s : String) : ScalarKind → Held
  | .null => nothing
  | .str | .merge => text s
  | _ => value s

/-- May a scalar have the tag of a value, given what it is taken for? An integer may
stand for a decimal number if 64 bits with a sign can hold it. -/
def fitsTag (tag : String) (kind : ScalarKind) (s : String) : Bool :=
  tag = kind.tag ||
    (tag = "!!float" && kind == .int &&
      (integer? (s.toList.filter (· != '_'))).any (· < (signedLimit : Int)))

/-- What a scalar holds. One with the tag of a value has to fit it, and one with the
tag of bytes has to give them; with any other tag it is a text. -/
def held (tag : Option String) (plain : Bool) (s : String) : DecodeM Held :=
  let kind := ScalarKind.ofPlain s
  match tag with
  | none | some "!" => return if plain then .ofKind s kind else .text s
  | some "!!binary" =>
    match Text.ofBase64? s with
    | some bytes => return .text (Text.ofBytes bytes)
    | none => stop
  | some t =>
    if t ∉ ["!!null", "!!bool", "!!int", "!!float", "!!timestamp"] then return .text s
    else if fitsTag t kind s then return .ofKind s kind
    else stop

/-- The tag that a scalar is reported with. -/
def scalarTag (tag : Option String) (plain : Bool) (s : String) : String :=
  match tag with
  | none | some "!" => if plain then (ScalarKind.ofPlain s).tag else ScalarKind.str.tag
  | some t => t

/-- The tag that a collection is reported with. -/
def collectionTag (own : String) : Option String → String
  | none | some "!" => own
  | some t => t

/-! ## Keys -/

/-- Do two keys look the same? -/
def sameKey : Node → Node → Bool
  | .scalar _ _ _ a, .scalar _ _ _ b => a == b
  | .reference _ a .., .reference _ b .. => a == b
  | .sequence .., .sequence .. | .mapping .., .mapping .. => true
  | _, _ => false

def keyText : Node → String
  | .scalar _ _ _ text => text
  | .reference _ name .. => name
  | _ => ""

/-- The keys that are defined more than once. -/
def repeatedKeys : List Node → List DecodeFault
  | [] => []
  | k :: rest =>
    (rest.filter (sameKey k)).map
      (fun k' => .keyDefinedTwice k'.line (keyText k') k.line) ++ repeatedKeys rest

/-- Report keys that are defined more than once. Is there none? -/
def uniqueKeys (entries : List (Node × Node)) : DecodeM Bool := do
  let repeated := repeatedKeys (entries.map (·.1))
  repeated.forM report
  return repeated.isEmpty

/-! ## Texts and lists -/

/-- Report a node that is not of the expected type. A mapping in which a key is
defined twice is not looked at any further. -/
def wrongKind (type : String) : Node → DecodeM Unit
  | .scalar line tag plain s => report (.wrongKind line (scalarTag tag plain s) s type)
  | .sequence line tag _ => report (.wrongKind line (collectionTag "!!seq" tag) "" type)
  | .mapping line tag entries => do
    if ← uniqueKeys entries then
      report (.wrongKind line (collectionTag "!!map" tag) "" type)
  | .reference .. => stop

/-- Decode a text. -/
def text (n : Node) : DecodeM (Option String) :=
  visit n fun
    | .scalar _ tag plain s => do
      match ← held tag plain s with
      | .nothing => return none
      | .text s | .value s => return some s
    | n => do
      wrongKind "string" n
      return none

/-- Decode a list. Items that are not there are left out. -/
def list {α : Type} (type : String) (item : Node → DecodeM (Option α)) (n : Node) :
    DecodeM (Option (List α)) :=
  visit n fun
    | .scalar line tag plain s => do
      if let .nothing ← held tag plain s then return some []
      wrongKind type (.scalar line tag plain s)
      return none
    | .sequence _ _ items => return some ((← items.mapM item).filterMap id)
    | n => do
      wrongKind type n
      return none

/-! ## Records -/

/-- A record type: its name, and how to decode each of its fields. -/
structure Layout (σ : Type) where
  type : String
  fields : List (String × (Node → σ → DecodeM σ))

/-- How far the decoding of a record has come: the record, the fields that were set,
the keys that a merged mapping must not define any more, and the mapping to merge in
at the end. -/
structure Partial (σ : Type) where
  record : σ
  done : List String := []
  taken : Option (List String) := none
  merged : Option Node := none

/-- Is this the key of a mapping to merge in? -/
def isMergeKey : Node → Bool
  | .scalar _ tag plain s =>
    s == "<<" && (tag == some "!!merge" || plain && (tag == none || tag == some "!"))
  | _ => false

/-- Decode one entry of a record. -/
def entry {σ : Type} (layout : Layout σ) (p : Partial σ) :
    Node × Node → DecodeM (Partial σ)
  | (key, value) => do
    if isMergeKey key then return { p with merged := some value }
    match ← text key with
    | none => return p
    | some name =>
      if p.taken.any (·.contains name) then return p
      let p := { p with taken := p.taken.map (name :: ·) }
      match layout.fields.lookup name with
      | none =>
        report (.unknownField key.line name layout.type)
        return p
      | some field =>
        if p.done.contains name then
          report (.fieldSetTwice key.line name layout.type)
          return p
        return { p with record := ← field value p.record, done := name :: p.done }

/-- The keys of a mapping that are texts. A collection cannot be a key here. -/
def ownKeys (es : List (Node × Node)) : DecodeM (List String) := do
  let keys ← es.mapM fun (key, _) => visit key fun
    | .scalar _ tag plain s => do
      match ← held tag plain s with
      | .text s => return some s
      | _ => return none
    | _ => stop
  return keys.filterMap id

/-- Decode the entries of a record, and then those of the mapping to merge in, if
there is one. -/
def entries {σ : Type} (layout : Layout σ) :
    Nat → List (Node × Node) → Option (List String) → σ →
      DecodeM (Option (σ × Option (List String)))
  | 0, _, _, _ => stop
  | fuel + 1, es, taken, record => do
    if !(← uniqueKeys es) then return none
    let p ← es.foldlM (entry layout) { record, taken }
    let mergeOne (p : Partial σ) (n : Node) : DecodeM (Partial σ) :=
      visit n fun
        | .mapping _ _ es => do
          match ← entries layout fuel es p.taken p.record with
          | some (record, taken) => return { p with record, taken }
          | none => return p
        | _ => stop
    match p.merged with
    | none => return some (p.record, p.taken)
    | some source =>
      let taken ← match p.taken with
        | some names => pure names
        | none => ownKeys es
      let start := { p with taken := some taken }
      let done ← match source with
        | .sequence _ _ items => items.foldlM mergeOne start
        | n => mergeOne start n
      return some (done.record, p.taken.bind fun _ => done.taken)

/-- Decode a record. -/
def record {σ : Type} (layout : Layout σ) (fuel : Nat) (blank : σ) (n : Node) :
    DecodeM (Option σ) :=
  visit n fun
    | .scalar line tag plain s => do
      if let .nothing ← held tag plain s then return none
      wrongKind layout.type (.scalar line tag plain s)
      return none
    | .mapping _ _ es => return (← entries layout fuel es none blank).map (·.1)
    | n => do
      wrongKind layout.type n
      return none

/-! ## The records of a configuration -/

/-- A field that keeps its value if nothing is given. -/
def setting {σ α : Type} (decode : Node → DecodeM (Option α)) (set : α → σ → σ)
    (n : Node) (r : σ) :
    DecodeM σ :=
  return (← decode n).elim r (set · r)

def logLayout : Layout LogConfig :=
  ⟨"config.Log",
    [("level", setting text fun s r => { r with level := s }),
      ("sections", setting (list "[]string" text) fun ss r => { r with sections := ss })]⟩

def entryLayout : Layout Entry :=
  ⟨"config.TypeEntry",
    [("name", setting text fun s r => { r with name := s }),
      ("type", setting text fun s r => { r with type := s }),
      ("doc", setting text fun s r => { r with doc := s })]⟩

def configLayout (fuel : Nat) : Layout Config :=
  ⟨"config.Config",
    [("log", fun n r => do
        return { r with log := (← record logLayout fuel r.log n).getD r.log }),
      ("types", setting (list "[]config.TypeEntry" (record entryLayout fuel {}))
        fun es r => { r with types := es })]⟩

end Decode

/-- Read a configuration. An empty text is an empty configuration. Nothing is said
about what makes a text malformed. -/
def Config.decode (text : String) : Except DecodeError Config :=
  match Yaml.Document.parse? text with
  | none => .error (.malformed "")
  | some none => .ok {}
  | some (some document) =>
    -- merged mappings nest as deep as the document at each alias that is followed
    let fuel := (text.length + 1) * (text.length + 1)
    match Decode.record (Decode.configLayout fuel) fuel {} document.root document {} with
    | none => .error (.malformed "")
    | some (config, d) =>
      if d.faults.isEmpty then .ok (config.getD {})
      else .error (.mistyped d.faults.toList)

end TypeGraph.Manifest
