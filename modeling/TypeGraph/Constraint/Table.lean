import Std.Data.HashSet
import TypeGraph.Constraint

/-!
# Constraint sets in hash tables

A hash table tells constraints apart by their kinds, as a `ConstraintSet` does, but it
lists them in no particular order, which may be another one each time it is asked. So
the constraints are sorted before they are shown, and a copy of a set is made by
adding them one after the other as they are listed.

Tables are changed in place, behind references. So a set and its copy are separate
only because the copy is made in a table of its own.
-/

namespace TypeGraph

/-- An implementation of hash tables for constraints. -/
structure HashTables where
  Table : Type
  /-- A table without constraints, with room for some. -/
  create : Nat → Table
  /-- Is there a constraint of the same kind? -/
  contains : Table → Constraint → Bool
  /-- Put a constraint in, and tell whether its kind was new. -/
  insert : Table → Constraint → Bool × Table
  size : Table → Nat
  /-- The constraints, in an order that depends on a number drawn for each listing. -/
  list : Nat → Table → List Constraint

namespace HashTables

variable (H : HashTables)

/-- Add a constraint unless there is one of its kind, and tell whether it was added. -/
def add (t : H.Table) (c : Constraint) : Bool × H.Table :=
  if H.contains t c then (false, t) else H.insert t c

/-- Is there a constraint of a kind? The table is asked for one that has nothing but
its kind. -/
def has (t : H.Table) (kind : String) : Bool := H.contains t { kind, description := "" }

/-- The constraints, ordered by kind. -/
def slice (draw : Nat) (t : H.Table) : List Constraint :=
  (H.list draw t).mergeSort fun a b => a.kind ≤ b.kind

end HashTables

/-! ## References -/

abbrev TableRef := Nat

/-- The tables behind references. -/
structure HashTables.Heap (H : HashTables) where
  tables : Array H.Table := #[]

namespace HashTables.Heap

variable {H : HashTables}

def table? (h : H.Heap) (r : TableRef) : Option H.Table := h.tables[r]?

/-- A new table without constraints. -/
def create (room : Nat) (h : H.Heap) : TableRef × H.Heap :=
  (h.tables.size, ⟨h.tables.push (H.create room)⟩)

/-- Add a constraint to a table unless there is one of its kind, and tell whether it
was added. -/
def add (r : TableRef) (c : Constraint) (h : H.Heap) : Bool × H.Heap :=
  match h.table? r with
  | none => (false, h)
  | some t =>
    let (added, t) := H.add t c
    (added, ⟨h.tables.setIfInBounds r t⟩)

/-- A new table with some constraints, which are added from left to right. -/
def make (cs : List Constraint) (h : H.Heap) : TableRef × H.Heap :=
  let (r, h) := h.create cs.length
  (r, cs.foldl (fun h c => (h.add r c).2) h)

/-- A new table with the constraints of another. -/
def copy (draw : Nat) (r : TableRef) (h : H.Heap) : TableRef × H.Heap :=
  h.make (((h.table? r).map (H.list draw)).getD [])

end HashTables.Heap

/-! ## An implementation -/

/-- A constraint that counts as equal to any other of its kind. -/
structure OfKind where
  constraint : Constraint

namespace OfKind

instance : BEq OfKind := ⟨fun a b => a.constraint.kind == b.constraint.kind⟩

instance : Hashable OfKind := ⟨fun a => hash a.constraint.kind⟩

instance : EquivBEq OfKind where
  rfl := BEq.rfl (α := String)
  symm := BEq.symm (α := String)
  trans := BEq.trans (α := String)

instance : LawfulHashable OfKind where
  hash_eq _ _ h := congrArg (hash (α := String)) (eq_of_beq h)

end OfKind

/-- The hash sets of the standard library. Where a listing starts is drawn. -/
def HashTables.standard : HashTables where
  Table := Std.HashSet OfKind
  create n := .emptyWithCapacity n
  contains t c := t.contains ⟨c⟩
  insert t c := (!t.contains ⟨c⟩, t.insert ⟨c⟩)
  size := Std.HashSet.size
  list draw t := (t.toList.map OfKind.constraint).rotateLeft draw

end TypeGraph
