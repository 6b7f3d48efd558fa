import TypeGraph.Range

/-!
# Errors

A *fault* is a cause that the library itself can name; it carries a code and the
source range it is about. Callers bring errors of their own, so an error is a tree:
faults and plain messages at the leaves, and above them context lines, joins, and
faults that absorb another error.

`Error.first?` is the fault that an error is classified by: the first one in
pre-order. `Error.is` asks whether that one has a given code, so a fault that stands
deeper or later never decides.
-/

namespace TypeGraph

/-- The classes of faults, each shown with a stable number. -/
inductive Code where
  | unclassified
  | unimplemented
  | existentialBinding
  | unsatisfiedConstraint
  | notFound
  | hookNotInstalled
  | invalidConfig
deriving DecidableEq, Repr

namespace Code

def number : Code → Nat
  | unclassified => 0
  | unimplemented => 1
  | existentialBinding => 2
  | unsatisfiedConstraint => 3
  | notFound => 4
  | hookNotInstalled => 5
  | invalidConfig => 6

/-- All codes, in the order of their numbers. -/
def all : List Code :=
  [unclassified, unimplemented, existentialBinding, unsatisfiedConstraint,
    notFound, hookNotInstalled, invalidConfig]

end Code

/-- What went wrong, by cause. -/
inductive Fault where
  /-- A custom type has no rule for `operation` with an operand called `type` (empty:
  unknown). -/
  | unimplemented (operation type : String)
  /-- Something assumed to be defined at a source location is not. -/
  | existentialBinding (message : String)
  /-- A type fails the constraint `kind`, which asks for `description`. -/
  | unsatisfiedConstraint (kind description : String)
  /-- `name` was looked up in `place` and is not there. -/
  | notFound (name place : String)
  /-- A hook was called before anyone provided it. -/
  | hookNotInstalled (hook : String)
  /-- A configuration field has an unusable value. -/
  | invalidConfig (field reason : String)
deriving DecidableEq, Repr

namespace Fault

def code : Fault → Code
  | unimplemented .. => .unimplemented
  | existentialBinding .. => .existentialBinding
  | unsatisfiedConstraint .. => .unsatisfiedConstraint
  | notFound .. => .notFound
  | hookNotInstalled .. => .hookNotInstalled
  | invalidConfig .. => .invalidConfig

def message : Fault → String
  | unimplemented operation type =>
    if type = "" then s!"operation '{operation}' is not implemented"
    else s!"operation '{operation}' is not implemented for type '{type}'"
  | existentialBinding message => message
  | unsatisfiedConstraint kind description =>
    s!"type does not satisfy constraint '{kind}': expected {description}"
  | notFound name place => s!"{place} '{name}' not found"
  | hookNotInstalled hook => s!"hook '{hook}' was used before being installed"
  | invalidConfig field reason => s!"invalid configuration for '{field}': {reason}"

end Fault

/-- An error tree. -/
inductive Error where
  /-- A named fault at a range. -/
  | fault (range : Range) (fault : Fault)
  /-- An error of unknown origin, given a range; the cause may be missing. -/
  | unclassified (range : Range) (cause : Option Error)
  /-- A message of the caller's own. -/
  | plain (message : String)
  /-- `cause` with a line of context in front. -/
  | context (message : String) (cause : Error)
  /-- Several errors reported together, in order. -/
  | join (errors : List Error)
  /-- A fault raised because of `cause`; both are part of the error, the fault first. -/
  | raised (range : Range) (fault : Fault) (cause : Error)

namespace Error

mutual

/-- The text of an error. The parts of a join stand on lines of their own, and
a missing cause is shown as `<nil>`. -/
def message : Error → String
  | fault _ f => f.message
  | unclassified _ cause => "unclassified error: " ++ causeMessage cause
  | plain text => text
  | context text cause => text ++ ": " ++ cause.message
  | join errors => "\n".intercalate (messages errors)
  | raised _ f cause => f.message ++ ": " ++ cause.message

def causeMessage : Option Error → String
  | none => "<nil>"
  | some e => e.message

def messages : List Error → List String
  | [] => []
  | e :: es => e.message :: messages es

end

mutual

/-- The first classified error in pre-order: its code and range. -/
def first? : Error → Option (Code × Range)
  | fault range f => some (f.code, range)
  | unclassified range _ => some (.unclassified, range)
  | plain _ => none
  | context _ cause => cause.first?
  | join errors => firstOf? errors
  | raised range f _ => some (f.code, range)

def firstOf? : List Error → Option (Code × Range)
  | [] => none
  | e :: es => e.first? <|> firstOf? es

end

/-- Is the error classified by this code? -/
def is (e : Error) (code : Code) : Bool := e.first?.any (·.1 == code)

/-- The code of an error that is itself a fault, not one that merely contains a
fault. -/
def code? : Error → Option Code
  | fault _ f => some f.code
  | unclassified .. => some .unclassified
  | _ => none

/-- The error that an unclassified error was made from. -/
def cause? : Error → Option Error
  | unclassified _ cause => cause
  | _ => none

/-- Join the errors that are present; nothing is left of a join of no errors. -/
def join? (errors : List (Option Error)) : Option Error :=
  match errors.filterMap id with
  | [] => none
  | es => some (join es)

/-- A code is written with three digits. -/
def codeText (code : Code) : String :=
  let digits := toString code.number
  "E" ++ "".pushn '0' (3 - digits.length) ++ digits

/-- The text of an error behind the code it goes by. -/
def withCode (code : Code) (e : Error) : String := s!"({codeText code}) {e.message}"

end Error

end TypeGraph
