import TypeGraph.Keyed

/-!
# Constraints

Constraints as variables remember them: a kind and the words for it. What a constraint
demands of a type is the matter of `TypeGraph.Constraint.Check`; a variable only
carries the constraint until it is linked.
-/

namespace TypeGraph

structure Constraint where
  /-- Identifies the constraint. -/
  kind : String
  /-- Describes the types that satisfy it. -/
  description : String
  /-- Another description, for a universally quantified variable; empty if there is
  none. -/
  universal : String := ""
deriving DecidableEq, Repr

namespace Constraint

/-- Asks for a number. -/
def num : Constraint :=
  { kind := "num", description := "a number type", universal := "any number" }

/-- Asks for a type whose values can be compared. -/
def ord : Constraint := { kind := "ord", description := "an orderable type" }

/-- Asks for named fields and nothing else. -/
def record : Constraint := { kind := "record", description := "a record type" }

end Constraint

/-- The constraints of a variable: one of each kind, ordered by kind. -/
abbrev ConstraintSet := Keyed Constraint.kind

namespace ConstraintSet

/-- Add constraints from left to right. The first of each kind stays. -/
def ofList (cs : List Constraint) : ConstraintSet := cs.foldl Keyed.insertNew .empty

/-- Add a constraint, and tell whether its kind was new. -/
def add (cs : ConstraintSet) (c : Constraint) : Bool × ConstraintSet :=
  (!cs.contains c.kind, cs.insertNew c)

/-- Do two sets have the same kinds? It is enough to compare sizes and look the kinds
of one up in the other, because neither set holds a kind twice. -/
def sameKinds (a b : ConstraintSet) : Bool :=
  a.size == b.size && a.items.all fun c => b.contains c.kind

end ConstraintSet

end TypeGraph
