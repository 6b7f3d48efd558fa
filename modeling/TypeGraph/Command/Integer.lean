import TypeGraph.Text.Digits

/-!
# Reading integers

Integers on the command line: an optional sign, an optional mark for the base (`0x`,
`0o`, `0b`, or a zero for base eight), and digits. Underscores may stand between
digits. Reading stops at the first digit that makes the number too large, whatever
follows it.
-/

namespace TypeGraph.Command

open Text

/-- Why a text is not an integer of 64 bits. -/
inductive IntegerError where
  | invalidSyntax
  | outOfRange
deriving DecidableEq, Repr

def IntegerError.message : IntegerError → String
  | invalidSyntax => "invalid syntax"
  | outOfRange => "value out of range"

namespace Integer

/-- The digits of a number behind the mark for their base, and the base. -/
def base (cs : List Char) : Nat × List Char :=
  match cs with
  | '0' :: c :: d :: rest =>
    if c == 'b' || c == 'B' then (2, d :: rest)
    else if c == 'o' || c == 'O' then (8, d :: rest)
    else if c == 'x' || c == 'X' then (16, d :: rest)
    else (8, c :: d :: rest)
  | '0' :: rest => (8, rest)
  | cs => (10, cs)

/-- The value of digits in a base, as long as it fits into 64 bits. Underscores do not
count. -/
def magnitude (base : Nat) : Nat → List Char → Except IntegerError Nat
  | n, [] => .ok n
  | n, c :: rest =>
    if c == '_' then magnitude base n rest
    else
      match digit? c with
      | none => .error .invalidSyntax
      | some d =>
        if base ≤ d then .error .invalidSyntax
        else if 18446744073709551616 ≤ base * n + d then .error .outOfRange
        else magnitude base (base * n + d) rest

/-- The value of digits without a sign. The mark for a base counts as a digit in front
of an underscore. -/
def unsigned (cs : List Char) : Except IntegerError Nat := do
  if cs.isEmpty then throw .invalidSyntax
  let (b, digits) := base cs
  let n ← magnitude b 0 digits
  let marked := digits.length + 2 == cs.length
  let isDigit (c : Char) : Bool := c.isDigit || (b == 16 && (digit? c).any (· < 16))
  if cs.contains '_' && !underscoresFit isDigit marked
    (if marked then digits else cs) then throw .invalidSyntax
  return n

/-- Read an integer that is not negative. -/
def positive (cs : List Char) : Except IntegerError Int := do
  let n ← unsigned cs
  if n < 9223372036854775808 then return (n : Int) else throw .outOfRange

/-- Read an integer of 64 bits. -/
def read (s : String) : Except IntegerError Int :=
  match s.toList with
  | '-' :: rest => do
    let n ← unsigned rest
    if n ≤ 9223372036854775808 then return -(n : Int) else throw .outOfRange
  | '+' :: rest => positive rest
  | cs => positive cs

end Integer

end TypeGraph.Command
