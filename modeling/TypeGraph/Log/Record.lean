import TypeGraph.Text.Quoted
import TypeGraph.Log.Severity

/-!
# The text of log records

A record is one line of words `key=value`: its severity, its message, and its
attributes. A word behind the severity that tells which line of the program has made
the record is left out here, as nothing depends on it. The value of an attribute may
be a group of attributes, whose keys are written behind the key of the group and
a dot; a group without a key adds nothing to the keys of its members.

An attribute called `time` is never shown, and neither is one with no key and no
value. A group all of whose members are left out is left out too, but its key stays in
front of the keys that follow it. What stands there is kept as bytes, since the end of
a group takes as many of them away as its key has.
-/

namespace TypeGraph.Log

/-- The value of an attribute. -/
inductive Value where
  | text (s : String)
  | int (n : Int)
  | bool (b : Bool)
  | nothing
  | group (attrs : List (String × Value))

abbrev Attr := String × Value

namespace Value

mutual

/-- The text of a value. -/
def asText : Value → String
  | text s => s
  | int n => toString n
  | bool b => toString b
  | nothing => "<nil>"
  | group attrs => "[" ++ " ".intercalate (attrTexts attrs) ++ "]"

def attrText : Attr → String
  | (key, value) => key ++ "=" ++ value.asText

def attrTexts : List Attr → List String
  | [] => []
  | a :: rest => attrText a :: attrTexts rest

end

/-- Is the value a group without members? -/
def isEmptyGroup : Value → Bool
  | group [] => true
  | _ => false

end Value

/-- Leave out the attributes that are empty groups. -/
def withoutEmpty (attrs : List Attr) : List Attr := attrs.filter (!·.2.isEmptyGroup)

/-- The group of some attributes. Empty groups are no members. -/
def Value.groupOf (attrs : List Attr) : Value := .group (withoutEmpty attrs)

/-- What becomes of attributes: the words they are written as, the text that stands in
front of the keys that follow, and whether anything was shown. -/
structure Written where
  words : List String
  scope : List UInt8
  shown : Bool

/-- Write a key with its value. -/
def writeWord (scope : List UInt8) (key value : String) : Written :=
  if key = "time" then ⟨[], scope, false⟩
  else ⟨[Text.joinedWord scope key ++ "=" ++ Text.word value], scope, true⟩

/-- The scope of a group's members: its key and a dot go behind the scope around it. -/
def scopeWithin (scope : List UInt8) (key : String) : List UInt8 :=
  scope ++ Text.bytes key ++ Text.bytes "."

mutual

/-- Write an attribute behind the scope of the groups that are open. -/
def writeAttr (scope : List UInt8) : Attr → Written
  | (key, .group attrs) =>
    if attrs.isEmpty then ⟨[], scope, true⟩
    else if key = "" then writeAttrs scope attrs
    else
      let inner := writeAttrs (scopeWithin scope key) attrs
      if inner.shown then
        { inner with
          scope := inner.scope.take (inner.scope.length - (key.utf8ByteSize + 1)) }
      else inner
  | (key, .text s) => writeWord scope key s
  | (key, .int n) => writeWord scope key (toString n)
  | (key, .bool b) => writeWord scope key (toString b)
  | (key, .nothing) =>
    if key = "" then ⟨[], scope, false⟩ else writeWord scope key "<nil>"

/-- Write attributes one after the other. -/
def writeAttrs (scope : List UInt8) : List Attr → Written
  | [] => ⟨[], scope, false⟩
  | a :: rest =>
    let first := writeAttr scope a
    let others := writeAttrs first.scope rest
    ⟨first.words ++ others.words, others.scope, first.shown || others.shown⟩

end

/-- A record as one line, given the words of its attributes. -/
def line (severity : Severity) (message : String) (words : List String) : String :=
  let first := ["level=" ++ severity.text, "msg=" ++ Text.word message]
  " ".intercalate (first ++ words) ++ "\n"

end TypeGraph.Log
