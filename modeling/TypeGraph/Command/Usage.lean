import TypeGraph.Command.Integer
import TypeGraph.Text.Quoted

/-!
# The command line

A command is a path of words, such as `registry list`; flags may stand anywhere
between them. The words are found first, passing over flags and their values; then the
flags of the command are read, and last its arguments are counted.
-/

namespace TypeGraph.Command

/-! ## Commands and flags -/

/-- The places in the tree of commands. -/
inductive Verb where
  | root
  | registry
  | list
  | describe
  | instantiate
deriving DecidableEq, Repr

namespace Verb

/-- How a command is called. -/
def path : Verb → String
  | root => "streamtype"
  | registry => "streamtype registry"
  | list => "streamtype registry list"
  | describe => "streamtype registry show"
  | instantiate => "streamtype instantiate"

/-- The command that a word leads to. -/
def sub? : Verb → String → Option Verb
  | root, "registry" => some registry
  | root, "instantiate" => some instantiate
  | registry, "list" => some list
  | registry, "show" => some describe
  | _, _ => none

end Verb

inductive Flag where
  | config
  | count
  | level
  | help
deriving DecidableEq, Repr

namespace Flag

def long : Flag → String
  | config => "config"
  | count => "count"
  | level => "level"
  | help => "help"

def short : Flag → Char
  | config => 'c'
  | count => 'n'
  | level => 'l'
  | help => 'h'

/-- The flags of a command. -/
def available : Verb → List Flag
  | .instantiate => [config, count, level, help]
  | _ => [config, help]

/-- How a flag is called in messages. -/
def title (f : Flag) : String := "-" ++ f.short.toString ++ ", --" ++ f.long

end Flag

/-- What is wrong with a command line. -/
inductive UsageError where
  | badFlag (text : String)
  | unknownFlag (name : String)
  | unknownShorthand (letter : Char) (cluster : String)
  | missingValue (flag : String)
  | missingShorthandValue (letter : Char)
  | invalidInteger (flag : Flag) (value : String) (reason : IntegerError)
  | invalidSwitch (flag : Flag) (value : String)
  | wrongCount (expected received : Nat)
  | unknownCommand (word : String) (verb : Verb)

/-- A letter between apostrophes. A letter outside of ASCII shows as the first byte of
its encoding. -/
def letterText (c : Char) : String :=
  let byte := (c.toString.toUTF8.data.map (·.toNat))[0]?.getD 0
  let shown := Char.ofNat byte
  "'" ++ (if shown == '\'' then "\\'"
    else if shown == '"' then "\"" else Text.escape shown) ++ "'"

def UsageError.message : UsageError → String
  | badFlag text => s!"bad flag syntax: {text}"
  | unknownFlag name => s!"unknown flag: --{name}"
  | unknownShorthand letter cluster =>
    s!"unknown shorthand flag: {letterText letter} in -{cluster}"
  | missingValue flag => s!"flag needs an argument: {flag}"
  | missingShorthandValue letter =>
    s!"flag needs an argument: {letterText letter} in -{letter}"
  | invalidInteger flag value reason =>
    let (v, f) := (Text.quote value, Text.quote flag.title)
    s!"invalid argument {v} for {f} flag: strconv.ParseInt: parsing {v}: {reason.message}"
  | invalidSwitch flag value =>
    let (v, f) := (Text.quote value, Text.quote flag.title)
    s!"invalid argument {v} for {f} flag: strconv.ParseBool: parsing {v}: invalid syntax"
  | wrongCount expected received => s!"accepts {expected} arg(s), received {received}"
  | unknownCommand word verb =>
    let (w, p) := (Text.quote word, Text.quote verb.path)
    s!"unknown command {w} for {p}"

/-- What the program can be asked to do. -/
def usage : String :=
  "Usage:\n" ++
  "  streamtype registry list [-c FILE]\n" ++
  "  streamtype registry show NAME [-c FILE]\n" ++
  "  streamtype instantiate NAME [-c FILE] [-n COUNT] [-l LEVEL]\n"

/-! ## Finding the command -/

/-- Does the next word belong to this flag? -/
def takesNext (s : String) : Bool :=
  !s.toList.contains '=' &&
    ("--".toList.isPrefixOf s.toList ||
      (s.toList.head? == some '-' && s.utf8ByteSize == 2))

/-- The first word that is neither a flag nor the value of one. At the end of the line
a flag takes no value, and a bare `--` ends the search. -/
def firstWord? : List String → Option String
  | [] => none
  | [s] => if s ≠ "" && s.toList.head? ≠ some '-' then some s else none
  | s :: next :: rest =>
    if s = "--" then none
    else if takesNext s then (if rest.isEmpty then none else firstWord? rest)
    else if s ≠ "" && s.toList.head? ≠ some '-' then some s
    else firstWord? (next :: rest)

/-- The line without the first occurrence of a word that is neither a flag nor the
value of one. -/
def removeWord (word : String) : List String → List String
  | [] => []
  | [s] => if s = word then [] else [s]
  | s :: next :: rest =>
    if s = "--" then s :: next :: rest
    else if takesNext s then s :: next :: removeWord word rest
    else if s = word then next :: rest
    else s :: removeWord word (next :: rest)

/-- Go down the tree of commands as far as the words lead. -/
def findVerb : Nat → Verb → List String → Verb × List String
  | 0, verb, args => (verb, args)
  | depth + 1, verb, args =>
    match (firstWord? args).bind fun word => (verb.sub? word).map (word, ·) with
    | some (word, sub) => findVerb depth sub (removeWord word args)
    | none => (verb, args)

/-! ## Reading flags -/

/-- The values of the flags, and the arguments that are no flags. -/
structure Line where
  config : String := ""
  count : Int := 2
  level : Int := 1
  help : Bool := false
  args : List String := []

namespace Line

/-- Set an integer flag. -/
def setInt (flag : Flag) (value : String) (set : Int → Line) : Except UsageError Line :=
  match Integer.read value with
  | .ok n => .ok (set n)
  | .error reason => .error (.invalidInteger flag value reason)

/-- Set a switch. -/
def setSwitch (flag : Flag) (value : String) (set : Bool → Line) :
    Except UsageError Line :=
  if value ∈ ["1", "t", "T", "true", "TRUE", "True"] then .ok (set true)
  else if value ∈ ["0", "f", "F", "false", "FALSE", "False"] then .ok (set false)
  else .error (.invalidSwitch flag value)

def set (l : Line) (flag : Flag) (value : String) : Except UsageError Line :=
  match flag with
  | .config => .ok { l with config := value }
  | .count => setInt flag value fun n => { l with count := n }
  | .level => setInt flag value fun n => { l with level := n }
  | .help => setSwitch flag value fun b => { l with help := b }

def addArgs (l : Line) (args : List String) : Line := { l with args := l.args ++ args }

/-- Read the letters behind a hyphen. If the last of them still needs a value, it is
given back. From `test.` on they are meant for a test and left alone. -/
def cluster (flags : List Flag) (l : Line) :
    List Char → Except UsageError (Line × Option Flag)
  | [] => .ok (l, none)
  | c :: rest =>
    if "test.".toList.isPrefixOf (c :: rest) then .ok (l, none)
    else
      match flags.find? (·.short == c), rest with
      | none, _ => .error (.unknownShorthand c (.ofList (c :: rest)))
      | some flag, '=' :: v :: vs => return (← l.set flag (.ofList (v :: vs)), none)
      | some .help, _ => do cluster flags (← l.set .help "true") rest
      | some flag, [] => .ok (l, some flag)
      | some flag, vs => return (← l.set flag (.ofList vs), none)

/-- The flag of a long name, and the value behind an equals sign. -/
def longFlag (flags : List Flag) (name : List Char) :
    Except UsageError (Flag × Option String) :=
  let key := name.takeWhile (· != '=')
  match flags.find? (·.long.toList == key) with
  | none => .error (.unknownFlag (.ofList key))
  | some flag =>
    let value := match name.dropWhile (· != '=') with
      | [] => none
      | _ :: v => some (String.ofList v)
    .ok (flag, value)

/-- Read the flags and arguments of a command. -/
def read (flags : List Flag) (l : Line) : List String → Except UsageError Line
  | [] => .ok l
  | s :: rest =>
    match s.toList with
    | ['-', '-'] => .ok (l.addArgs rest)
    | '-' :: '-' :: name => do
      if name.head? == some '-' || name.head? == some '=' then throw (.badFlag s)
      match ← longFlag flags name with
      | (flag, some v) => read flags (← l.set flag v) rest
      | (.help, none) => read flags (← l.set .help "true") rest
      | (flag, none) =>
        match rest with
        | [] => throw (.missingValue s)
        | v :: rest => read flags (← l.set flag v) rest
    | '-' :: c :: cs => do
      match ← l.cluster flags (c :: cs) with
      | (l, none) => read flags l rest
      | (l, some flag) =>
        match rest with
        | [] => throw (.missingShorthandValue flag.short)
        | v :: rest => read flags (← l.set flag v) rest
    | _ => read flags (l.addArgs [s]) rest

end Line

/-! ## Invocations -/

/-- What a command is asked to do. -/
inductive Action where
  | help
  | list
  | describe (name : String)
  | instantiate (name : String) (count level : Int)
deriving DecidableEq, Repr

/-- A command line that has been understood. -/
structure Invocation where
  /-- The path of the configuration; empty if there is none. -/
  config : String
  action : Action
deriving DecidableEq, Repr

/-- The single argument of a command. -/
def oneArg (args : List String) : Except UsageError String :=
  match args with
  | [name] => .ok name
  | _ => .error (.wrongCount 1 args.length)

/-- Read a command line. A command that does nothing by itself asks for help, and help
needs no configuration. -/
def Invocation.parse (args : List String) : Except UsageError Invocation := do
  let (verb, rest) := findVerb 2 .root args
  let line ← Line.read (Flag.available verb) {} rest
  if line.help then return ⟨"", .help⟩
  match verb with
  | .root | .registry => return ⟨"", .help⟩
  | .list =>
    match line.args with
    | [] => return ⟨line.config, .list⟩
    | word :: _ => throw (.unknownCommand word verb)
  | .describe => return ⟨line.config, .describe (← oneArg line.args)⟩
  | .instantiate =>
    return ⟨line.config, .instantiate (← oneArg line.args) line.count line.level⟩

end TypeGraph.Command
