import TypeGraph.Error
import TypeGraph.Variables

/-!
# The rules of custom types

Ground types have rules of their own; those from elsewhere are taken to have none and
answer every question about another type with "unimplemented", so that the caller can
apply its default policy.
-/

namespace TypeGraph

namespace Custom

/-- The answer of a custom type that has no rule. -/
def noRule (operation : String) (other : Custom) : Error :=
  .fault .zero (.unimplemented operation other.name)

/-- A ground type is a subtype of itself. -/
def subtype (a b : Custom) : Except Error Unit :=
  if a.isGround && b.isGround && a.name == b.name then .ok ()
  else .error (noRule "subtype" b)

/-- The least common supertype of a ground type and itself is that type. -/
def sup (a b : Custom) : Except Error Custom :=
  if a.isGround && b.isGround && a.name == b.name then .ok a else .error (noRule "sup" b)

end Custom

/-- The custom type that a term stands for, with the terms it holds. -/
def Store.custom? (s : Store) (t : Ty) : Option (Custom × List Ty) :=
  match s.view t with
  | .custom kind held => some (kind, held)
  | _ => none

/-- The free variables of each term that a custom type holds, one list after the
other. -/
def Store.heldVars (s : Store) (held : List Ty) : List VarId := held.flatMap s.freeVars

end TypeGraph
