import TypeGraph.Yaml.Property

/-!
# Tokens of YAML

Indentation becomes explicit: `Token.blockMapping` and `Token.blockSequence` open
a block, and `Token.blockEnd` closes it.
-/

namespace TypeGraph.Yaml

inductive Token where
  | streamStart
  | streamEnd
  | documentStart
  | documentEnd
  | directive (d : Directive)
  | blockSequence
  | blockMapping
  | blockEnd
  | flowSequence
  | flowSequenceEnd
  | flowMapping
  | flowMappingEnd
  | entry
  | flowEntry
  | key
  | value
  | reference (name : String)
  | anchor (name : String)
  | tag (t : TagText)
  | scalar (plain : Bool) (text : String)
deriving DecidableEq, Repr

/-- A token with the lines on which it starts and stops, counted from one. -/
structure Placed where
  token : Token
  startLine : Nat
  stopLine : Nat

end TypeGraph.Yaml
