import TypeGraph.Store
import TypeGraph.Text.Blank

/-!
# The type language of manifests

An expression is a name, a list `[T]` or a nullable `T?`, with blanks allowed around
every part. A name that starts with an apostrophe is a variable, `unit` and the ground
types are what they say, and every other name is a constructor without parameters.

Reading never fails: what is neither a list nor a nullable is taken as a name. Whether
an expression is well formed is a question of its own, answered by `problem?`.
-/

namespace TypeGraph.Manifest

/-- An expression of the type language. -/
inductive TypeExpr where
  | name (text : String)
  | list (elem : TypeExpr)
  | nullable (type : TypeExpr)
deriving DecidableEq, Repr

/-- Why an expression is not well formed. -/
inductive TypeProblem where
  | empty
  /-- A bracket or a question mark in the middle of a name. -/
  | stray (text : String)
  /-- An apostrophe with nothing behind it. -/
  | namelessVariable
deriving DecidableEq, Repr

def TypeProblem.message : TypeProblem → String
  | empty => "empty type"
  | stray text => s!"unexpected bracket or '?' in '{text}'"
  | namelessVariable => "variable without a name"

namespace TypeExpr

/-- The outermost layer of an expression without blanks at its ends. -/
inductive Outer where
  /-- The expression ends in a question mark. -/
  | nullable (inner : List Char)
  /-- The expression stands in brackets. -/
  | list (inner : List Char)
  | name

/-- The outermost layer. A question mark at the end counts before brackets. -/
def outer (cs : List Char) : Outer :=
  if cs.getLast? = some '?' then .nullable cs.dropLast
  else
    match cs with
    | '[' :: rest => if rest.getLast? = some ']' then .list rest.dropLast else .name
    | _ => .name

theorem outer_nullable_lt {cs inner : List Char} (h : outer cs = .nullable inner) :
    inner.length < cs.length := by
  unfold outer at h
  split at h
  · rename_i last
    cases h
    cases cs with
    | nil => simp at last
    | cons => simp
  · split at h
    · split at h <;> simp at h
    · simp at h

theorem outer_list_lt {cs inner : List Char} (h : outer cs = .list inner) :
    inner.length < cs.length := by
  unfold outer at h
  split at h
  · simp at h
  · split at h
    · split at h
      · cases h
        simp only [List.length_dropLast, List.length_cons]
        omega
      · simp at h
    · simp at h

/-- Read an expression. -/
def read (text : List Char) : TypeExpr :=
  let cs := Text.trim text
  match _h : outer cs with
  | .nullable inner => .nullable (read inner)
  | .list inner => .list (read inner)
  | .name => .name (.ofList cs)
termination_by text.length
decreasing_by
  · exact Nat.lt_of_lt_of_le (outer_nullable_lt ‹_›) (Text.length_trim_le text)
  · exact Nat.lt_of_lt_of_le (outer_list_lt ‹_›) (Text.length_trim_le text)

/-- What is wrong with an expression, if anything is. -/
def problem? (text : List Char) : Option TypeProblem :=
  let cs := Text.trim text
  if cs.isEmpty then some .empty
  else
    match _h : outer cs with
    | .nullable inner => problem? inner
    | .list inner => problem? inner
    | .name =>
      if cs.any fun c => c == '[' || c == ']' || c == '?' then some (.stray (.ofList cs))
      else if cs = ['\''] then some .namelessVariable
      else none
termination_by text.length
decreasing_by
  · exact Nat.lt_of_lt_of_le (outer_nullable_lt ‹_›) (Text.length_trim_le text)
  · exact Nat.lt_of_lt_of_le (outer_list_lt ‹_›) (Text.length_trim_le text)

/-- Build the type of an expression. A variable is a new one, without a level. -/
def build : TypeExpr → Store → Ty × Store
  | .nullable e, s =>
    let (t, s) := e.build s
    (.of (.nullable t), s)
  | .list e, s =>
    let (t, s) := e.build s
    (.of (.list .array t), s)
  | .name text, s =>
    if text.toList.head? = some '\'' then s.makeVar none .unbounded .empty
    else if text = "unit" then (.unit, s)
    else if text ∈ Ty.groundNames then (.ground text, s)
    else (.constant text, s)

end TypeExpr

end TypeGraph.Manifest
