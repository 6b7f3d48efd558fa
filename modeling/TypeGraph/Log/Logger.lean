import TypeGraph.Log.Record

/-!
# Loggers and their filter

The settings of a process say from which severity on records are written and which
sections are enabled. A logger is derived from the root logger by adding attributes
and opening groups; it belongs to the sections that are named by its `section`
attributes.

A record below `WARN` is written only if one of its sections, or of its logger's,
begins with an enabled one.
-/

namespace TypeGraph.Log

structure Settings where
  level : Severity := .info
  sections : List String := ["cmd", "config", "registry"]

structure Logger where
  /-- The words of the attributes added so far. -/
  words : List String := []
  /-- What stands in front of the keys of further attributes. -/
  scope : List UInt8 := []
  /-- The groups that were opened since attributes were last added. -/
  groups : List String := []
  sections : List String := []

namespace Settings

/-- Is a section enabled? It is if it begins with the name of an enabled one. -/
def enables (s : Settings) (sect : String) : Bool :=
  s.sections.any (·.toList.isPrefixOf sect.toList)

/-- Is a severity high enough? -/
def admits (s : Settings) (severity : Severity) : Bool := s.level ≤ severity

end Settings

/-- The sections that attributes name. -/
def sectionsOf (attrs : List Attr) : List String :=
  (attrs.filter (·.1 == "section")).map (·.2.asText)

namespace Logger

/-- The scope of further attributes, with all groups open. -/
def openScope (l : Logger) : List UInt8 := l.groups.foldl scopeWithin l.scope

/-- A logger with further attributes. -/
def withAttrs (l : Logger) (attrs : List Attr) : Logger :=
  let l := { l with sections := l.sections ++ sectionsOf attrs }
  let written := writeAttrs l.openScope attrs
  if (withoutEmpty attrs).isEmpty || !written.shown then l
  else { l with words := l.words ++ written.words, scope := written.scope, groups := [] }

/-- A logger whose further attributes stand in a group. -/
def withGroup (l : Logger) (name : String) : Logger :=
  if name = "" then l else { l with groups := l.groups ++ [name] }

/-- The logger of a section. -/
def forSection (sect : String) : Logger :=
  ({} : Logger).withAttrs [("section", .text sect)]

/-- Is a record written? -/
def writes (l : Logger) (settings : Settings) (severity : Severity)
    (attrs : List Attr) : Bool :=
  settings.admits severity &&
    (Severity.warn ≤ severity || (l.sections ++ sectionsOf attrs).any settings.enables)

/-- What is written for a record, which is nothing if the filter holds it back. -/
def log (l : Logger) (settings : Settings) (severity : Severity) (message : String)
    (attrs : List Attr) :
    String :=
  let attrs := withoutEmpty attrs
  if l.writes settings severity attrs then
    line severity message (l.words ++ (writeAttrs l.openScope attrs).words)
  else ""

end Logger

end TypeGraph.Log
