import TypeGraph.Text.Quoted

/-!
# What can be wrong with the text of a configuration

A text that is well formed may still not fit a configuration, at several places at
once; each of them is reported with its line.
-/

namespace TypeGraph.Manifest

/-- A place in a document that does not fit the configuration. Types go by the names
they are reported with. -/
inductive DecodeFault where
  | unknownField (line : Nat) (field type : String)
  | fieldSetTwice (line : Nat) (field type : String)
  | keyDefinedTwice (line : Nat) (key : String) (first : Nat)
  | wrongKind (line : Nat) (tag text type : String)

/-- The bytes of a text up to a limit. What is left of a character that does not fit
is shown by replacement characters. -/
def firstBytes : Nat → List Char → List Char
  | _, [] => []
  | limit, c :: rest =>
    if c.utf8Size ≤ limit then c :: firstBytes (limit - c.utf8Size) rest
    else List.replicate limit '\ufffd'

/-- A text as it is shown behind its tag. A long text is cut short, and one that is
tagged as a collection is not set apart. -/
def excerpt (tag s : String) : String :=
  if tag ∈ ["!!seq", "!!map"] then s
  else if s.utf8ByteSize > 10 then " \x60" ++ .ofList (firstBytes 7 s.toList) ++ "...\x60"
  else " \x60" ++ s ++ "\x60"

def DecodeFault.message : DecodeFault → String
  | unknownField line field type =>
    s!"line {line}: field {field} not found in type {type}"
  | fieldSetTwice line field type =>
    s!"line {line}: field {field} already set in type {type}"
  | keyDefinedTwice line key first =>
    s!"line {line}: mapping key " ++ Text.quote key ++
      s!" already defined at line {first}"
  | wrongKind line tag text type =>
    s!"line {line}: cannot unmarshal {tag}{excerpt tag text} into {type}"

/-- Why a text is not a configuration. -/
inductive DecodeError where
  /-- The text is not well formed. What its reader says about that may be empty. -/
  | malformed (reason : String)
  | mistyped (faults : List DecodeFault)

/-- The reason, if there is one, or the faults, one on each line. -/
def DecodeError.message : DecodeError → String
  | malformed reason => if reason = "" then "decode yaml" else s!"decode yaml: {reason}"
  | mistyped faults =>
    "decode yaml: yaml: unmarshal errors:" ++
      String.join (faults.map fun f => "\n  " ++ f.message)

end TypeGraph.Manifest
