import TypeGraph.Log.Logger
import TypeGraph.Manifest.TypeExpr
import TypeGraph.Problems
import TypeGraph.Registry

/-!
# Configurations

Configurations: how to log, and a manifest of types to register. A configuration is
validated before it is used; `Config.problems` lists everything that is wrong with it,
and a configuration without problems can be applied without failing.
-/

namespace TypeGraph.Manifest

/-- The logging part of a configuration. -/
structure LogConfig where
  /-- The name of a severity; empty to keep the default. -/
  level : String := ""
  /-- The sections to enable; empty to keep those that are. -/
  sections : List String := []
deriving DecidableEq, Repr

/-- An entry of the manifest: a type to register under a name. -/
structure Entry where
  name : String := ""
  /-- An expression of the type language; empty to derive the type from the name. -/
  type : String := ""
  doc : String := ""
deriving DecidableEq, Repr

structure Config where
  log : LogConfig := {}
  types : List Entry := []
deriving DecidableEq, Repr

namespace LogConfig

/-- The severity that a configuration asks for. -/
def severity (c : LogConfig) : Except Fault Log.Severity :=
  if c.level = "" then .ok .info
  else
    match Log.Severity.ofText? c.level with
    | some n => .ok n
    | none => .error (.invalidConfig "log.level" s!"unknown level '{c.level}'")

/-- The settings with a configuration applied. -/
def apply (c : LogConfig) (settings : Log.Settings) : Except Fault Log.Settings := do
  let level ← c.severity
  return { level,
           sections := if c.sections.isEmpty then settings.sections else c.sections }

end LogConfig

namespace Entry

/-- The expression of an entry. Without a type, a dotted name stands for a unit field,
and a plain name for the type that it spells. -/
def expr (e : Entry) : TypeExpr :=
  if e.type ≠ "" then .read e.type.toList
  else if e.name.toList.contains '.' then .name "unit"
  else .read e.name.toList

/-- Register the type of an entry. -/
def register (e : Entry) (r : Registry TypeExpr) : Registry TypeExpr :=
  r.register e.name e.doc e.expr

/-- What is wrong with the entry at a place of the manifest. -/
def problems (index : Nat) (e : Entry) : List Fault :=
  let unnamed :=
    if e.name = "" then [.invalidConfig s!"types[{index}].name" "must not be empty"]
    else []
  let mistyped :=
    if e.type = "" then []
    else
      ((TypeExpr.problem? e.type.toList).map fun p =>
        .invalidConfig s!"types[{index}].type" p.message).toList
  unnamed ++ mistyped

end Entry

namespace Config

/-- What is found when a configuration is checked: the level first, then the entries
in order. -/
def findings (c : Config) : List Fault :=
  let level := match c.log.severity with
    | .ok _ => []
    | .error p => [p]
  level ++ c.types.zipIdx.flatMap fun (e, i) => e.problems i

/-- Collect what is found, one problem after the other. There is no list before the
first of them. -/
def collect (c : Config) (p : Problems Fault) : ProblemRef × Problems Fault :=
  c.findings.foldl (fun (r, p) problem => p.add r [problem]) (none, p)

/-- Everything that is wrong with a configuration. -/
def problems (c : Config) : List Fault :=
  let (r, p) := c.collect {}
  p.errors r

/-- The attributes that report several problems. -/
def problemAttrs (problems : List Fault) : List Log.Attr :=
  let shown := problems.zipIdx.map fun (p, i) =>
    (s!"e{i}", .groupOf [("msg", .text ((Error.fault .zero p).withCode p.code))])
  [("errors", .groupOf shown)]

/-- Register the entries in order, so that dotted ones extend those before them. -/
def register (c : Config) (r : Registry TypeExpr) : Registry TypeExpr :=
  c.types.foldl (fun r e => e.register r) r

end Config

end TypeGraph.Manifest
