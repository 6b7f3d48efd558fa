import TypeGraph.Error
import TypeGraph.Store

/-!
# Methods

A type carries its methods as layers around a base, with links between any two layers.
`Store.layers` reads the layers off, and everything here is said in terms of that
list: a method is found by the outermost layer of its name, and the layers behind it
with the same name are shadowed.
-/

namespace TypeGraph

/-- A method layer as it stands in a term. -/
structure Layer where
  pos : Option Range
  method : Method Ty

namespace Layer

/-- Put layers around a type, the first one outermost. -/
def wrap (layers : List Layer) (base : Ty) : Ty :=
  layers.foldr (fun l inner => .node l.pos (.meth l.method inner)) base

/-- The methods that are not shadowed by an outer one of the same name. -/
def visible (layers : List Layer) : List (Method Ty) :=
  layers.foldr (fun l rest => l.method :: rest.filter (·.name ≠ l.method.name)) []

end Layer

namespace Store

/-- The outermost method layer of a term, if it has one, on top of those of its inner
type. -/
def nextLayer (s : Store) (inner : Ty → List Layer × Ty) (t : Ty) : List Layer × Ty :=
  match s.deref t with
  | .node pos (.meth m t) =>
    let (rest, base) := inner t
    (⟨pos, m⟩ :: rest, base)
  | _ => ([], t)

/-- At most `n` outer method layers of a term, outermost first, and the term they
stand on. -/
def layersWithin (s : Store) : Nat → Ty → List Layer × Ty
  | 0 => fun t => ([], t)
  | n + 1 => s.nextLayer (s.layersWithin n)

/-- The outer method layers of a term, outermost first, and the term they stand on.
That term is not a method layer behind its links, but may be a linked cell itself. -/
def layers (s : Store) (t : Ty) : List Layer × Ty := s.layersWithin (s.span t) t

/-- The base of a term: what is left without its outer method layers, behind all
links. -/
def demeth (s : Store) (t : Ty) : Ty := s.deref (s.layers t).2

/-- The visible methods of a term, outermost first, and its base. -/
def splitMeths (s : Store) (t : Ty) : List (Method Ty) × Ty :=
  let (layers, base) := s.layers t
  (Layer.visible layers, s.deref base)

/-- Put methods on a type so that the first one ends up outermost. -/
def foldMeths (methods : List (Method Ty)) (base : Ty) : Ty :=
  methods.foldr (fun m t => t.addMeth m) base

/-- Remove the outer methods whose names are excluded. -/
def filterMeths (s : Store) (excluded : String → Bool) (t : Ty) : Ty :=
  let (layers, base) := s.layers t
  Layer.wrap (layers.filter fun l => !excluded l.method.name) base

/-- Put the outer method layers of a term around another one. -/
def remeth (s : Store) (source base : Ty) : Ty := Layer.wrap (s.layers source).1 base

/-- Remove the method layers of `t` at every place that is reached within `n` layers
through structure. Methods are not entered, and neither are custom types. Every node
keeps its position. -/
def deepDemethWithin (s : Store) : Nat → Ty → Ty
  | 0, t => t
  | n + 1, t =>
    .node t.pos <|
      match (s.demeth t).shape with
      | .custom kind held => .custom kind held
      | shape => shape.map (s.deepDemethWithin n)

/-- Remove the method layers of a term at every structural place. -/
def deepDemeth (s : Store) (t : Ty) : Ty := s.deepDemethWithin (s.span t) t

/-! ## Lookup -/

/-- The outermost method of a name. -/
def findMeth? (s : Store) (t : Ty) (name : String) : Option (Method Ty) :=
  ((s.layers t).1.find? (·.method.name == name)).map (·.method)

def hasMeth (s : Store) (t : Ty) (name : String) : Bool := (s.findMeth? t name).isSome

/-- A lookup of a method that the term does not have. -/
def methodNotFound (t : Ty) (name : String) : Error :=
  .fault t.range (.notFound name "method")

/-- The scheme of the outermost method of a name. -/
def invoke (s : Store) (t : Ty) (name : String) : Except Error TypeScheme :=
  match s.findMeth? t name with
  | some m => .ok m.scheme
  | none => .error (methodNotFound t name)

/-- Look every name of a path up in the type of the one before. -/
def invokePath (s : Store) (t : Ty) (path : List String) : Except Error TypeScheme :=
  path.foldlM (fun scheme name => s.invoke scheme.type name) (.mono t)

/-- Add `leaf` at the end of a path of fields. Each field on the way is put again on
top of its parent, with its type updated. -/
def addMethPath (s : Store) (t : Ty) (path : List String)
    (leaf : Method Ty) : Except Error Ty :=
  match path with
  | [] => .ok (t.addMeth leaf)
  | name :: rest =>
    match s.findMeth? t name with
    | none => .error (methodNotFound t name)
    | some field => do
      let type ← s.addMethPath field.scheme.type rest leaf
      return t.addMeth { field with scheme := { field.scheme with type } }

end Store

end TypeGraph
