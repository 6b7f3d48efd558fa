import TypeGraph.Command.Event
import TypeGraph.Command.Usage
import TypeGraph.Generalize
import TypeGraph.Render

/-!
# Commands

The commands themselves, on a registry of any kind of origin: listing the registered
names, showing a type with its fields, and printing instances of a generalized type.
-/

namespace TypeGraph.Command

/-- Why a command fails. -/
inductive Failure where
  | error (e : Error)
  | misuse (m : Misuse)

def Failure.message : Failure → String
  | error e => e.message
  | misuse m => m.message

/-- The output of a command, and what it logs. -/
structure Report where
  text : String := ""
  events : List Event := []

/-! ## Listing and showing -/

def listText (names : List String) : String := String.join (names.map (· ++ "\n"))

/-- A field with its type, and its documentation below. -/
def fieldLines (s : Store) (f : Method Ty) : String :=
  let mark := if f.optional then "?" else ""
  let doc := if f.doc = "" then "" else s!"      {f.doc}\n"
  s!"  .{f.name}{mark} : {s.renderScheme f.scheme}\n" ++ doc

/-- A type without its fields, and the fields below. -/
def typeText (s : Store) (name : String) (t : Ty) : String :=
  let (fields, base) := s.splitMeths t
  s!"{name} : {s.render base}\n" ++ String.join (fields.map (fieldLines s))

/-! ## Instances -/

/-- An instance, as it was when it was made. -/
structure Instance where
  type : Ty
  rendered : String
  vars : List VarId

namespace Instance

/-- Make an instance of a scheme. -/
def make (scheme : TypeScheme) (level : Level) :
    ExceptT Misuse (StateM Store) Instance := do
  let type ← ExceptT.mk (modifyGet fun s => s.instantiate scheme level)
  let s ← get
  return ⟨type, s.render type, s.freeVars type⟩

/-- Make several instances, one after the other. -/
def makeMany (scheme : TypeScheme) (level : Level) :
    Nat → ExceptT Misuse (StateM Store) (List Instance)
  | 0 => return []
  | n + 1 => do
    let first ← make scheme level
    return first :: (← makeMany scheme level n)

/-- An instance and the names of its variables, with its number in front. -/
def line (number : Nat) (i : Instance) : String :=
  let vars := " ".intercalate (i.vars.map Store.varText)
  s!"{number}: {i.rendered} [{vars}]\n"

end Instance

/-- The scheme of a type, and its instances below. -/
def instancesText (name scheme : String) (instances : List Instance) : String :=
  s!"{name} : {scheme}\n" ++
    String.join (instances.zipIdx.map fun (i, n) => i.line (n + 1))

/-! ## Running -/

variable {τ : Type} {m : Type → Type} [Monad m] [MonadStateOf Store m]

/-- Generalize a type over its variables above level 0, and print instances of it.
A negative count is none. -/
def printInstances (name : String) (t : Ty) (count level : Int) :
    m (Except Failure Report) := do
  let s ← getThe Store
  let scheme := s.generalize (.depth 0) t
  match ← modifyGetThe Store (Instance.makeMany scheme (.depth level) count.toNat) with
  | .ok instances =>
    return .ok ⟨instancesText name (s.renderScheme scheme) instances,
      [.generalized name scheme.vars.length]⟩
  | .error e => return .error (.misuse e)

/-- Run a command. -/
def Action.run (registry : Registry τ) (build : τ → m Ty) :
    Action → m (Except Failure Report)
  | .help => return .ok { text := usage }
  | .list => return .ok { text := listText registry.names }
  | .describe name => do
    match ← registry.materialize build name with
    | .ok t => return .ok { text := typeText (← getThe Store) name t }
    | .error e => return .error (.error e)
  | .instantiate name count level => do
    match ← registry.materialize build name with
    | .ok t => printInstances name t count level
    | .error e => return .error (.error e)

end TypeGraph.Command
