import TypeGraph.Manifest.Config
import TypeGraph.Manifest.DecodeError

/-!
# Loading a configuration

A configuration is loaded by decoding its text and validating what was decoded. One
that loads has no problems. How a text is decoded is left to a decoder; the program
uses `Config.decode`.
-/

namespace TypeGraph.Manifest

/-- A decoder makes a configuration of a text, or says why it cannot. -/
abbrev Decoder := String → Except DecodeError Config

/-- Why a text is not a usable configuration. -/
inductive LoadError where
  | undecodable (e : DecodeError)
  /-- There are problems, at least one. -/
  | invalid (first : Fault) (others : List Fault)

/-- Validation reports its first problem. -/
def LoadError.message : LoadError → String
  | undecodable e => e.message
  | invalid first _ => first.message

namespace Config

/-- Refuse a configuration with problems. -/
def validate (c : Config) : Except LoadError Config :=
  match c.problems with
  | [] => .ok c
  | first :: others => .error (.invalid first others)

/-- Load a configuration from its text. -/
def load (decode : Decoder) (text : String) : Except LoadError Config :=
  match decode text with
  | .ok c => c.validate
  | .error e => .error (.undecodable e)

end Config

end TypeGraph.Manifest
