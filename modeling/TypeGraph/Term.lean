import TypeGraph.Range

/-!
# Type terms

A term is a node with an optional source position and a shape. Most shapes hold
further terms; a `cell` refers to a mutable place of a `Store`, which is where
variables live and where links are made, so a term alone is only half of a type: the
same term reads differently as its cells get linked.

`Shape α` is one layer with subterms of type `α`. Keeping it apart from the terms
gives the traversals one vocabulary: `Shape.children` and `Shape.binders` list what
a layer holds, `Shape.traverse` rebuilds it, and `Shape.alike` compares two layers
without looking at either.
-/

namespace TypeGraph

/-- The number of a type variable, in order of creation from 0. -/
abbrev VarId := Nat

/-- The index of a cell in its store. -/
abbrev CellId := Nat

/-- The variance of a constructor parameter or of a link. -/
inductive Variance where
  | covariant
  | invariant
deriving DecidableEq, Repr

/-- An argument of a constructor application. -/
structure Param (α : Type) where
  variance : Variance
  type : α
deriving DecidableEq, Repr

/-- An argument of an arrow. A positional argument has the empty label. -/
structure Arg (α : Type) where
  optional : Bool
  label : String
  type : α
deriving DecidableEq, Repr

/-- A type with the variables that are universally quantified in it. -/
structure Scheme (α : Type) where
  vars : List VarId
  type : α
deriving DecidableEq, Repr

/-- A scheme without quantified variables. -/
def Scheme.mono {α : Type} (t : α) : Scheme α := ⟨[], t⟩

/-- A named field layered on top of a type. -/
structure Method (α : Type) where
  name : String
  optional : Bool := false
  scheme : Scheme α
  doc : String := ""
  /-- The name used when the field is exported; empty to use `name`. -/
  jsonName : String := ""
deriving DecidableEq, Repr

/-- How a list is represented when it is exported. -/
inductive ListRepr where
  | array
  /-- An association list with text keys. -/
  | object
deriving DecidableEq, Repr

/-- What is known of a custom type besides the list of terms that it holds. -/
inductive Custom where
  /-- A type without parameters that is a subtype of itself. -/
  | ground (name : String)
  /-- A type from elsewhere, which brings its name and how it is written, given the
  texts of the terms that it holds in their order. Nothing else goes into its text, so
  a copy is written like the original. -/
  | supplied (name : String) (write : List String → String)

/-- One layer of a term. -/
inductive Shape (α : Type) where
  /-- A node whose description was never filled in. -/
  | hole
  /-- An occurrence of a variable, or of whatever it was linked to. -/
  | cell (c : CellId)
  /-- A nominal constructor application. -/
  | constr (name : String) (params : List (Param α))
  /-- A value of the type, or a function without arguments that produces one. -/
  | getter (t : α)
  | list (repr : ListRepr) (elem : α)
  /-- A tuple; the empty one is the unit type. -/
  | tuple (elems : List α)
  | nullable (t : α)
  | arrow (args : List (Arg α)) (ret : α)
  /-- A method on top of an inner type. It shadows inner methods of the same name. -/
  | meth (m : Method α) (inner : α)
  | custom (kind : Custom) (held : List α)

/-- A type term. -/
inductive Ty where
  | node (pos : Option Range) (shape : Shape Ty)

/-! ## One layer -/

namespace Custom

def name : Custom → String
  | ground n | supplied n _ => n

def isGround : Custom → Bool
  | ground _ => true
  | _ => false

/-- The text of a custom type, given those of the terms it holds. -/
def text (k : Custom) (held : List String) : String :=
  match k with
  | ground n => n
  | supplied _ write => write held

/-- A type that is written as its name applied to the terms it holds. -/
def applied (name : String) : Custom :=
  supplied name fun held => name ++ "(" ++ ", ".intercalate held ++ ")"

end Custom

namespace Shape

variable {α β : Type}

/-- The subterms of a layer, from left to right. The scheme of a method comes before
its inner type. -/
def children : Shape α → List α
  | hole | cell _ => []
  | constr _ params => params.map (·.type)
  | getter t | list _ t | nullable t => [t]
  | tuple elems => elems
  | arrow args ret => args.map (·.type) ++ [ret]
  | meth m inner => [m.scheme.type, inner]
  | custom _ held => held

/-- Is the layer the empty tuple? -/
def isUnit : Shape α → Bool
  | tuple [] => true
  | _ => false

/-- The variables that the layer itself quantifies. -/
def binders : Shape α → List VarId
  | meth m _ => m.scheme.vars
  | _ => []

/-- Rebuild a layer: first its binders, then its subterms, each from left to right. -/
def traverse {m : Type → Type} [Monad m] (onVar : VarId → m VarId) (onTerm : α → m β) :
    Shape α → m (Shape β)
  | hole => pure hole
  | cell c => pure (cell c)
  | constr name params =>
    return constr name (← params.mapM fun p => return ⟨p.variance, ← onTerm p.type⟩)
  | getter t => return getter (← onTerm t)
  | list repr t => return list repr (← onTerm t)
  | tuple elems => return tuple (← elems.mapM onTerm)
  | nullable t => return nullable (← onTerm t)
  | arrow args ret => do
    let args ← args.mapM fun a => return ⟨a.optional, a.label, ← onTerm a.type⟩
    return arrow args (← onTerm ret)
  | meth m inner => do
    let vars ← m.scheme.vars.mapM onVar
    let type ← onTerm m.scheme.type
    return meth { m with scheme := ⟨vars, type⟩ } (← onTerm inner)
  | custom kind held => return custom kind (← held.mapM onTerm)

/-- Replace every subterm. -/
def map (f : α → β) : Shape α → Shape β
  | hole => hole
  | cell c => cell c
  | constr name params => constr name (params.map fun p => ⟨p.variance, f p.type⟩)
  | getter t => getter (f t)
  | list repr t => list repr (f t)
  | tuple elems => tuple (elems.map f)
  | nullable t => nullable (f t)
  | arrow args ret => arrow (args.map fun a => ⟨a.optional, a.label, f a.type⟩) (f ret)
  | meth m inner => meth { m with scheme := ⟨m.scheme.vars, f m.scheme.type⟩ } (f inner)
  | custom kind held => custom kind (held.map f)

/-- Do two layers agree in everything but their binders, their subterms and the texts
that document a method? Custom types agree when their names do. A hole agrees with
nothing, and cells are never compared here. -/
def alike : Shape α → Shape β → Bool
  | constr n ps, constr n' ps' => n == n' && ps.map (·.variance) == ps'.map (·.variance)
  | getter _, getter _ => true
  | list r _, list r' _ => r == r'
  | tuple ts, tuple ts' => ts.length == ts'.length
  | nullable _, nullable _ => true
  | arrow as _, arrow as' _ =>
    as.map (fun a => (a.optional, a.label)) == as'.map (fun a => (a.optional, a.label))
  | meth m _, meth m' _ =>
    m.name == m'.name && m.optional == m'.optional && m.scheme.vars.length ==
      m'.scheme.vars.length
  | custom k ts, custom k' ts' => k.name == k'.name && ts.length == ts'.length
  | _, _ => false

end Shape

/-! ## Terms -/

namespace Ty

def pos : Ty → Option Range
  | node p _ => p

def shape : Ty → Shape Ty
  | node _ s => s

/-- A node without a position. -/
def of (s : Shape Ty) : Ty := node none s

instance : Inhabited Ty := ⟨of .hole⟩

/-- The range of a node, for diagnostics. -/
def range (t : Ty) : Range := .ofOption t.pos

/-- The empty tuple. -/
def unit : Ty := of (.tuple [])

def ground (name : String) : Ty := of (.custom (.ground name) [])

/-- A constructor without parameters. -/
def constant (name : String) : Ty := of (.constr name [])

/-- Put a method on top of a type. -/
def addMeth (t : Ty) (m : Method Ty) : Ty := of (.meth m t)

mutual

/-- The number of nodes of a term. Cells count as leaves. -/
def size : Ty → Nat
  | node _ s => shapeSize s + 1

def shapeSize : Shape Ty → Nat
  | .hole | .cell _ => 0
  | .constr _ params => paramsSize params
  | .getter t | .list _ t | .nullable t => t.size
  | .tuple elems => listSize elems
  | .arrow args ret => argsSize args + ret.size
  | .meth m inner => methodSize m + inner.size
  | .custom _ held => listSize held

def listSize : List Ty → Nat
  | [] => 0
  | t :: ts => t.size + listSize ts

def paramsSize : List (Param Ty) → Nat
  | [] => 0
  | p :: ps => paramSize p + paramsSize ps

def paramSize : Param Ty → Nat
  | ⟨_, t⟩ => t.size

def argsSize : List (Arg Ty) → Nat
  | [] => 0
  | a :: as => argSize a + argsSize as

def argSize : Arg Ty → Nat
  | ⟨_, _, t⟩ => t.size

def methodSize : Method Ty → Nat
  | ⟨_, _, s, _, _⟩ => schemeSize s

def schemeSize : Scheme Ty → Nat
  | ⟨_, t⟩ => t.size

end

/-- The names of the ground types that every registry knows. -/
def groundNames : List String := ["int", "float", "string", "bool"]

end Ty

/-- A scheme over terms. -/
abbrev TypeScheme := Scheme Ty

end TypeGraph
