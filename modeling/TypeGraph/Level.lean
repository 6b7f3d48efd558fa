/-!
# Levels of type variables

A level is the nesting depth of the scope that introduced a variable; a variable that
belongs to no scope yet is unbounded, which counts as deeper than every scope.
Generalization quantifies the variables that lie above a level, so the order on levels
decides what is polymorphic.
-/

namespace TypeGraph

inductive Level where
  | unbounded
  | depth (n : Int)
deriving DecidableEq, Repr

namespace Level

instance : Inhabited Level := ⟨unbounded⟩

/-- `a.above b` is the strict order, with `unbounded` on top. -/
def above : Level → Level → Bool
  | unbounded, depth _ => true
  | depth m, depth n => n < m
  | _, unbounded => false

/-- The lower of two levels. -/
def min (a b : Level) : Level := if a.above b then b else a

def text : Level → String
  | unbounded => "∞"
  | depth n => toString n

end Level

end TypeGraph
