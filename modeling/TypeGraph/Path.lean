/-!
# Dotted paths

A path is written with a dot between its segments, so it has at least one, and any of
them may be empty.
-/

namespace TypeGraph.Path

/-- Cut a text at its dots. The first segment stands apart because there always is
one. -/
def cut : List Char → List Char × List (List Char)
  | [] => ([], [])
  | c :: rest =>
    let (first, others) := cut rest
    if c = '.' then ([], first :: others) else (c :: first, others)

/-- The first segment of a path, and the others. -/
def rootAndRest (path : String) : String × List String :=
  let (first, others) := cut path.toList
  (.ofList first, others.map .ofList)

/-- The segments of a path. -/
def segments (path : String) : List String :=
  let (first, others) := rootAndRest path
  first :: others

/-- The path of some segments. -/
def join (segments : List String) : String := ".".intercalate segments

end TypeGraph.Path
