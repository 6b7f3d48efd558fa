import TypeGraph.Error
import TypeGraph.Store

/-!
# Hooks

Hooks are what the surroundings of the library provide back to it. Each hook is
missing until it is installed, and installing some hooks keeps the others. Calling
a missing hook fails with a fault that names it. A hook whose signature has a place
for errors reports the fault there; the others can only stop.
-/

namespace TypeGraph

/-- The hooks of a host whose actions run in `m`. -/
structure Hooks (m : Type → Type) where
  /-- Renders a type for diagnostics. -/
  print : Option (Ty → m String) := none
  /-- Opens the log of a section. -/
  logger : Option (String → m Unit) := none
  /-- Resolves the type of an encoding format. -/
  formatType : Option (Range → String → m (Except Error Ty)) := none
  /-- Builds an encoder from a format and the number of its parameters. -/
  makeEncoder : Option (Range → String → Nat → m (Except Error String)) := none
  /-- Recognizes the types of encoding formats. -/
  isFormat : Option (Ty → m Bool) := none
  /-- The directory of the standard library. -/
  libsDir : Option (m (Except Error String)) := none
  /-- Runs an action and cleans up behind it. -/
  collectAfter : Option (m (Option Error) → m (Option Error)) := none

namespace Hooks

variable {m : Type → Type}

/-- Replace the hooks that `new` provides. -/
def install (new old : Hooks m) : Hooks m where
  print := new.print <|> old.print
  logger := new.logger <|> old.logger
  formatType := new.formatType <|> old.formatType
  makeEncoder := new.makeEncoder <|> old.makeEncoder
  isFormat := new.isFormat <|> old.isFormat
  libsDir := new.libsDir <|> old.libsDir
  collectAfter := new.collectAfter <|> old.collectAfter

/-- The error of a hook that nobody installed. -/
def notInstalled (hook : String) : Error := .fault .zero (.hookNotInstalled hook)

/-- Call a hook, or report that it is missing. -/
def call {α β : Type} [Monad m] (hook : String) (h : Option α)
    (use : α → m (Except Error β)) :
    m (Except Error β) :=
  match h with
  | some f => use f
  | none => return .error (notInstalled hook)

/-- The text of a term, as the print hook gives it. -/
def typeText [Monad m] (h : Hooks m) (t : Ty) : m (Except Error String) :=
  call "print" h.print fun print => return .ok (← print t)

/-- The text of a scheme for diagnostics. Without quantified variables it is that of
the type; otherwise the list of variables stands in front, and a missing print hook is
noted in place of the type. -/
def schemeText [Monad m] (h : Hooks m) (scheme : TypeScheme) :
    m (Except Error String) := do
  let text ← h.typeText scheme.type
  if scheme.vars.isEmpty then return text
  let vars := "[" ++ " ".intercalate (scheme.vars.map Store.varText) ++ "]"
  let type := match text with
    | .ok type => type
    | .error e => "%!v(PANIC=String method: " ++ e.message ++ ")"
  return .ok s!"forall {vars}. {type}"

end Hooks

end TypeGraph
