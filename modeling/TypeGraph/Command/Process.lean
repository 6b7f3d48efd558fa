import TypeGraph.Command.Action
import TypeGraph.Manifest.Load

/-!
# Processes

The process of one command line: it reads the line, sets itself up by the
configuration, and runs the command. A configuration that fails to load changes
nothing but the log. The decoder of configurations is a parameter throughout.
-/

namespace TypeGraph.Command

open Manifest

/-- A registry that knows the ground types. -/
def groundRegistry : Registry TypeExpr :=
  Ty.groundNames.foldl (fun r name => r.register name "" (.name name)) .empty

structure Process where
  store : Store := .empty
  registry : Registry TypeExpr := groundRegistry
  settings : Log.Settings := {}
  /-- What has been logged so far. -/
  log : String := ""

/-- Why there is no text of a file: it cannot be opened, or it can be opened and not
read. -/
inductive FileError where
  | unopened (reason : String)
  | unread (reason : String)

/-- Why a process cannot be set up. -/
inductive SetupError where
  | unreadable (path : String) (e : FileError)
  | unloadable (path : String) (e : LoadError)

def SetupError.message : SetupError → String
  | unreadable path (.unopened reason) => s!"open config: open {path}: {reason}"
  | unreadable path (.unread reason) =>
    s!"config {path}: decode yaml: yaml: input error: read {path}: {reason}"
  | unloadable path e => s!"config {path}: {e.message}"

namespace Process

/-- Log an event under the settings in force. -/
def note (p : Process) (e : Event) : Process :=
  { p with log := p.log ++ e.record p.settings }

/-- Register an entry of the manifest. -/
def registerEntry (p : Process) (e : Entry) : Process :=
  let event := Event.ofRegistration p.registry e.name
  { p with registry := e.register p.registry }.note event

/-- Log why a configuration was refused, if the error alone does not tell. -/
def noteRefusal (p : Process) : LoadError → Process
  | .invalid first (other :: others) => p.note (.invalidConfig (first :: other :: others))
  | _ => p

/-- Apply a configuration from a path: its settings first, then its entries in order. -/
def configure (path : String) (c : Config) (p : Process) : Except LoadError Process :=
  match c.log.apply p.settings with
  | .ok settings =>
    .ok ((c.types.foldl registerEntry { p with settings }).note
      (.loaded path c.types.length))
  | .error f => .error (.invalid f [])

/-- Set a process up by the configuration at a path, given what reading the file
gives. -/
def setup (decode : Decoder) (path : String) (file : Except FileError String)
    (p : Process) : Except SetupError Unit × Process :=
  match file with
  | .error e => (.error (.unreadable path e), p)
  | .ok text =>
    match Config.load decode text with
    | .error e => (.error (.unloadable path e), p.noteRefusal e)
    | .ok c =>
      match p.configure path c with
      | .ok p => (.ok (), p)
      | .error e => (.error (.unloadable path e), p)

/-- Run a command in a process that has been set up. -/
def run (action : Action) (p : Process) : Except Failure String × Process :=
  match (action.run p.registry fun e => modifyGet e.build :
    StateM Store _).run p.store with
  | (.ok report, store) => (.ok report.text, report.events.foldl note { p with store })
  | (.error e, store) => (.error e, { p with store })

end Process

/-! ## Outcomes -/

/-- What is seen of a process from outside. -/
structure Outcome where
  exit : Nat
  stdout : String
  stderr : String

namespace Outcome

/-- A process that failed, after what it logged. -/
def failed (log message : String) : Outcome := ⟨1, "", s!"{log}Error: {message}\n"⟩

/-- Run a command line that has been understood. Without a path no configuration is
read. -/
def ofInvocation (decode : Decoder) (i : Invocation)
    (file : Except FileError String) : Outcome :=
  let (ready, p) :=
    if i.config = "" then (.ok (), {}) else Process.setup decode i.config file {}
  match ready with
  | .error e => failed p.log e.message
  | .ok () =>
    match p.run i.action with
    | (.ok text, p) => ⟨0, text, p.log⟩
    | (.error e, p) => failed p.log e.message

end Outcome

/-- Run a command line. Files are read through `read`, which gives a text or a
reason. -/
def execute {m : Type → Type} [Monad m] (decode : Decoder)
    (read : String → m (Except FileError String)) (args : List String) : m Outcome :=
  match Invocation.parse args with
  | .error e => return .failed "" e.message
  | .ok i => do
    let file ← if i.config = "" then pure (.ok "") else read i.config
    return .ofInvocation decode i file

end TypeGraph.Command
