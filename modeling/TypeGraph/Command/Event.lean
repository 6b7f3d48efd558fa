import TypeGraph.Manifest.Config

/-!
# Logged events

What a process logs about its own work. Each event belongs to a section and has
a severity, and shows as one record.
-/

namespace TypeGraph.Command

inductive Event where
  /-- A configuration has several problems. -/
  | invalidConfig (problems : List Fault)
  | registered (name : String)
  /-- A field was registered; `known` says whether its root was registered before. -/
  | registeredField (root path : String) (known : Bool)
  | loaded (path : String) (types : Nat)
  | generalized (name : String) (quantified : Nat)

namespace Event

def severity : Event → Log.Severity
  | invalidConfig _ => .warn
  | _ => .debug

def sect : Event → String
  | invalidConfig _ => "config"
  | registered _ | registeredField .. => "registry"
  | loaded .. | generalized .. => "cmd"

def message : Event → String
  | invalidConfig _ => "invalid configuration"
  | registered _ => "registered type"
  | registeredField .. => "registered type field"
  | loaded .. => "loaded configuration"
  | generalized .. => "generalized"

def attrs : Event → List Log.Attr
  | invalidConfig problems => Manifest.Config.problemAttrs problems
  | registered name => [("name", .text name)]
  | registeredField root path known =>
    [("root", .text root), ("path", .text path), ("extends", .bool known)]
  | loaded path types => [("path", .text path), ("types", .int types)]
  | generalized name quantified => [("name", .text name), ("quantified", .int quantified)]

/-- What is written about an event. -/
def record (settings : Log.Settings) (e : Event) : String :=
  (Log.Logger.forSection e.sect).log settings e.severity e.message e.attrs

/-- The event of registering a name. -/
def ofRegistration {τ : Type} (r : Registry τ) (name : String) : Event :=
  match Path.rootAndRest name with
  | (root, []) => registered root
  | (root, path) => registeredField root (Path.join path) (r.contains root)

end Event

end TypeGraph.Command
