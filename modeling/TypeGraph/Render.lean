import TypeGraph.Methods

/-!
# The text of a type

Variables are named `'a`, `'b`, … in the order in which they are first met, and their
constraints are listed behind the type:
`('a, 'a) -> bool where 'a is an orderable type`.

A type with methods is written with its visible fields in braces, `{a : t, b? : u}`,
behind its base unless that is the unit type. The fields are written, and their
variables named, before the base.
-/

namespace TypeGraph

/-- The variables named so far; the place of a variable decides its name. -/
abbrev Names := List VarId

namespace Names

/-- The names run through the alphabet, then through it again with a number behind the
letter. -/
def nameOf (i : Nat) : String :=
  let letter := Char.ofNat ('a'.toNat + i % 26)
  if i < 26 then "'".push letter else "'".push letter ++ toString (i / 26)

/-- The name of a variable, which gets the next one if it has none. -/
def name (v : VarId) : StateM Names String := modifyGet fun names =>
  match names.idxOf? v with
  | some i => (nameOf i, names)
  | none => (nameOf names.length, names ++ [v])

end Names

/-- An argument is shown with its label, and a question mark in front if it is
optional. -/
def Arg.text {α : Type} (a : Arg α) (type : String) : String :=
  let labelled := if a.label = "" then type else a.label ++ " : " ++ type
  if a.optional then "?" ++ labelled else labelled

/-- The text of a layer, given those of its subterms. Cells and methods are not
written layer by layer. -/
def Shape.text {α : Type} (x : Shape α) (parts : List String) : String :=
  let inner := ", ".intercalate parts
  match x with
  | hole | cell _ | meth _ _ => "?"
  | constr name _ => if parts.isEmpty then name else name ++ "(" ++ inner ++ ")"
  | getter _ => "\x7b" ++ inner ++ "\x7d"
  | list .array _ => "[" ++ inner ++ "]"
  | list .object _ => "[" ++ inner ++ "] as json object"
  | tuple _ => if parts.isEmpty then "unit" else "(" ++ " * ".intercalate parts ++ ")"
  | nullable _ => inner ++ "?"
  | arrow args _ =>
    "(" ++ ", ".intercalate (args.zipWith Arg.text parts) ++ ") -> " ++ parts.getLastD ""
  | custom kind _ => kind.text parts

namespace Store

/-- A method is shown as its name, with a question mark if it is optional, and its
type. -/
def fieldText (m : Method Ty) (type : String) : String :=
  (if m.optional then m.name ++ "?" else m.name) ++ " : " ++ type

/-- The text of a term, given those of the terms that it is made of. -/
def renderLayer (s : Store) (render : Ty → StateM Names String) (t : Ty) :
    StateM Names String :=
  match s.view t with
  | .cell c =>
    match s.freeVar? c with
    | some v => Names.name v
    | none => pure "?"
  | .meth _ _ => do
    let (methods, base) := s.splitMeths t
    let fields ← methods.mapM fun m => do
      discard <| m.scheme.vars.mapM Names.name
      return fieldText m (← render m.scheme.type)
    let fields := "\x7b" ++ ", ".intercalate fields ++ "\x7d"
    if s.isUnit base then return fields
    return (← render base) ++ "." ++ fields
  | shape => return shape.text (← shape.children.mapM render)

/-- The text of a term whose walks are no longer than `n`. -/
def renderWithin (s : Store) : Nat → Ty → StateM Names String
  | 0 => fun _ => pure "?"
  | n + 1 => s.renderLayer (s.renderWithin n)

/-- What is said about the constraints of the named variables. -/
def whereClause (s : Store) (names : Names) : String :=
  let clauses := names.zipIdx.filterMap fun (v, i) =>
    match (s.var v).constraints.items with
    | [] => none
    | cs =>
      some (Names.nameOf i ++ " is " ++ " and ".intercalate (cs.map (·.description)))
  if clauses.isEmpty then "" else " where " ++ ", ".intercalate clauses

/-- The text of a scheme. Its quantified variables are named first. -/
def renderScheme (s : Store) (scheme : TypeScheme) : String :=
  let naming : StateM Names String := do
    discard <| scheme.vars.mapM Names.name
    s.renderWithin (s.span scheme.type) scheme.type
  let (text, names) := naming.run []
  text ++ s.whereClause names

/-- The text of a term. -/
def render (s : Store) (t : Ty) : String := s.renderScheme (.mono t)

end Store

end TypeGraph
