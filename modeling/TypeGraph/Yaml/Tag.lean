import TypeGraph.Yaml.Date
import TypeGraph.Yaml.Number

/-!
# Tags of plain scalars

What a plain scalar is taken for: nothing, a truth value, a number, a date, or else
a text.
-/

namespace TypeGraph.Yaml

inductive ScalarKind where
  | null
  | bool
  | int
  | float
  | timestamp
  | merge
  | str
deriving DecidableEq, Repr

namespace ScalarKind

def tag : ScalarKind → String
  | null => "!!null"
  | bool => "!!bool"
  | int => "!!int"
  | float => "!!float"
  | timestamp => "!!timestamp"
  | merge => "!!merge"
  | str => "!!str"

/-- The words that stand for a value. -/
def ofWord? (s : String) : Option ScalarKind :=
  if s ∈ ["", "~", "null", "Null", "NULL"] then some null
  else if s ∈ ["true", "True", "TRUE", "false", "False", "FALSE"] then some bool
  else if s ∈ [".nan", ".NaN", ".NAN", ".inf", ".Inf", ".INF", "+.inf", "+.Inf",
      "+.INF", "-.inf", "-.Inf", "-.INF"] then some float
  else if s = "<<" then some merge
  else none

/-- What a plain scalar is taken for. In a number that starts with a digit or a sign,
underscores do not count wherever they stand. -/
def ofPlain (s : String) : ScalarKind :=
  match ofWord? s with
  | some k => k
  | none =>
    let cs := s.toList
    let bare := cs.filter (· != '_')
    match cs with
    | '.' :: _ => if isGroupedFloat cs then float else str
    | c :: _ =>
      if !(c.isDigit || c == '+' || c == '-') then str
      else if isTimestamp cs then timestamp
      else if (integer? bare).isSome then int
      else if isFloat bare then float
      else str
    | [] => null

end ScalarKind

end TypeGraph.Yaml
