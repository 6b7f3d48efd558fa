import TypeGraph.Methods
import TypeGraph.Path

/-!
# Registries

The registry maps names to types. What is registered is not a type but an *origin*,
from which a new type is built each time one is asked for; `Registry τ` leaves open
what origins are.

A plain name replaces whatever the name stood for. A dotted name `root.a.b` extends
it: the type of `root` is built as before (unit, if there was none), and a field `b`
is put on its field `a`. So the entry of a root is a recipe: where to start, and the
fields to attach in the order in which they were registered.
-/

namespace TypeGraph

/-- A field to attach: `name` at the end of the fields in `path`. -/
structure Attachment (τ : Type) where
  path : List String
  name : String
  doc : String
  origin : τ

/-- How to build the type of a root. Without a start it is the unit type. -/
structure Recipe (τ : Type) where
  start : Option τ
  fields : List (Attachment τ)

structure Registry.Entry (τ : Type) where
  root : String
  recipe : Recipe τ

/-- The entries of a registry, in the order of their roots. -/
abbrev Registry (τ : Type) := Keyed (Registry.Entry.root (τ := τ))

/-- Attach a field below a path of fields. Fields on the way that do not exist are
created with the unit type, the others are put again on top with their type updated. -/
def Store.attach (s : Store) (base : Ty) (path : List String)
    (name doc : String) (leaf : Ty) : Ty :=
  match path with
  | [] => base.addMeth { name, scheme := .mono leaf, doc }
  | first :: rest =>
    let field := (s.findMeth? base first).getD { name := first, scheme := .mono .unit }
    let type := s.attach field.scheme.type rest name doc leaf
    base.addMeth { field with scheme := { field.scheme with type } }

namespace Recipe

variable {τ : Type} {m : Type → Type} [Monad m] [MonadStateOf Store m]

/-- Attach one more field to a type. The fields on the way to it are looked up before
its own type is built. -/
def attachField (build : τ → m Ty) (t : Ty) (a : Attachment τ) : m Ty := do
  let s ← getThe Store
  return s.attach t a.path a.name a.doc (← build a.origin)

/-- Build the type of a recipe, given how to build the type of an origin. -/
def make (build : τ → m Ty) (r : Recipe τ) : m Ty := do
  let start ← match r.start with
    | some origin => build origin
    | none => pure .unit
  r.fields.foldlM (attachField build) start

end Recipe

namespace Registry

variable {τ : Type}

def find? (r : Registry τ) (name : String) : Option (Recipe τ) :=
  (Keyed.find? r name).map (·.recipe)

/-- The roots, in order. -/
def names (r : Registry τ) : List String := r.keys

/-- Register an origin under a name. -/
def register (r : Registry τ) (name doc : String) (origin : τ) : Registry τ :=
  match Path.rootAndRest name with
  | (root, []) => r.insert ⟨root, ⟨some origin, []⟩⟩
  | (root, first :: others) =>
    let segments := first :: others
    let known := (r.find? root).getD ⟨none, []⟩
    let field := ⟨segments.dropLast, segments.getLast (by simp [segments]), doc, origin⟩
    r.insert ⟨root, { known with fields := known.fields ++ [field] }⟩

/-- A lookup of a type that is not registered. -/
def typeNotFound (name : String) : Error := .fault .zero (.notFound name "type")

/-- Build the type of a name. -/
def materialize {m : Type → Type} [Monad m] [MonadStateOf Store m]
    (r : Registry τ) (build : τ → m Ty) (name : String) : m (Except Error Ty) :=
  match r.find? name with
  | some recipe => return .ok (← recipe.make build)
  | none => return .error (typeNotFound name)

end Registry

end TypeGraph
