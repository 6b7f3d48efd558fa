import TypeGraph.Constraint
import TypeGraph.Level
import TypeGraph.Term

/-!
# The store

The store: variables with their levels and constraints, and the cells through which
terms refer to them. A cell holds a variable until it is linked to a term; a linked
cell is never unlinked. Several cells may hold one variable, and several nodes may
refer to one cell.

A term is read by following links. Linking can close a cycle, so the functions here
that follow links take a bound on how deep they go; the bound is `Store.span`, which
no walk along different links can exceed.
-/

namespace TypeGraph

/-- What a store knows about a variable. -/
structure Var where
  level : Level
  constraints : ConstraintSet
deriving Inhabited

/-- The content of a cell. -/
inductive Cell where
  | free (v : VarId)
  | link (variance : Variance) (target : Ty)

structure Store where
  vars : Array Var
  cells : Array Cell

/-- Requests that a store cannot carry out. The caller has broken a rule and stops. -/
inductive Misuse where
  /-- A cell was linked a second time. -/
  | relinked
  /-- A term with a hole was copied. -/
  | incomplete
deriving DecidableEq, Repr

def Misuse.message : Misuse → String
  | relinked => "cannot link an already linked type variable cell"
  | incomplete => "unhandled type description for fresh: <nil>"

namespace Store

def empty : Store := ⟨#[], #[]⟩

instance : Inhabited Store := ⟨empty⟩

/-! ## Variables -/

def var (s : Store) (v : VarId) : Var := s.vars.getD v default

/-- The text of a variable shows its number, counted from one. -/
def varText (v : VarId) : String := s!"_{v + 1}"

/-- Draw a new variable. -/
def newVar (level : Level) (constraints : ConstraintSet) (s : Store) : VarId × Store :=
  (s.vars.size, { s with vars := s.vars.push ⟨level, constraints⟩ })

/-- Make a variable visible at `level` if it sits deeper. -/
def lowerLevel (v : VarId) (level : Level) (s : Store) : Store :=
  { s with vars := s.vars.modify v fun x => { x with level := x.level.min level } }

/-- Add a constraint to a variable. One of its kind that is already there stays. -/
def constrain (v : VarId) (c : Constraint) (s : Store) : Store :=
  { s with
    vars := s.vars.modify v fun x => { x with constraints := x.constraints.insertNew c } }

/-! ## Cells -/

def newCell (content : Cell) (s : Store) : CellId × Store :=
  (s.cells.size, { s with cells := s.cells.push content })

/-- The variable of a free cell. -/
def freeVar? (s : Store) (c : CellId) : Option VarId :=
  match s.cells[c]? with
  | some (.free v) => some v
  | _ => none

/-- The variance and the target of a linked cell. -/
def link? (s : Store) (c : CellId) : Option (Variance × Ty) :=
  match s.cells[c]? with
  | some (.link variance t) => some (variance, t)
  | _ => none

/-- Link a free cell to a term. A cell that is linked already refuses. -/
def setLink (c : CellId) (variance : Variance) (t : Ty) (s : Store) :
    Except Misuse Store :=
  match s.link? c with
  | some _ => .error .relinked
  | none => .ok { s with cells := s.cells.setIfInBounds c (.link variance t) }

/-- A node over a new cell that holds a new variable. -/
def makeVar (pos : Option Range) (level : Level) (constraints : ConstraintSet)
    (s : Store) : Ty × Store :=
  let (v, s) := s.newVar level constraints
  let (c, s) := s.newCell (.free v)
  (.node pos (.cell c), s)

/-! ## Following links -/

/-- The number of nodes that a linked cell adds to what can be walked through. -/
def cellSize : Cell → Nat
  | .free _ => 0
  | .link _ t => t.size + 1

/-- The number of nodes that all linked cells add. -/
def linkedSize : List Cell → Nat
  | [] => 0
  | cell :: rest => cellSize cell + linkedSize rest

/-- A bound on the length of every walk from `t` that goes down a node or through
a link at each step and takes no link twice. -/
def span (s : Store) (t : Ty) : Nat := t.size + linkedSize s.cells.toList

/-- Follow at most `n` links. -/
def follow (s : Store) : Nat → Ty → Ty
  | 0, t => t
  | n + 1, t =>
    match t.shape with
    | .cell c =>
      match s.link? c with
      | some (_, target) => s.follow n target
      | none => t
    | _ => t

/-- Follow links until a node is reached that is not a linked cell. -/
def deref (s : Store) (t : Ty) : Ty := s.follow s.cells.size t

/-- The shape of a term, behind all links. -/
def view (s : Store) (t : Ty) : Shape Ty := (s.deref t).shape

/-- The variable that a term stands for, if it is one. -/
def varOf? (s : Store) (t : Ty) : Option VarId :=
  match s.view t with
  | .cell c => s.freeVar? c
  | _ => none

/-- Is the term the empty tuple? -/
def isUnit (s : Store) (t : Ty) : Bool := (s.view t).isUnit

/-- Is the term one of the named ground types? With no names, any ground type will
do. -/
def isGround (s : Store) (t : Ty) (names : List String) : Bool :=
  match s.view t with
  | .custom (.ground name) _ => names.isEmpty || names.contains name
  | _ => false

end Store

end TypeGraph
