import TypeGraph.Text.Digits

/-!
# Dates

Dates in YAML: a date alone, or with a time of day behind it. Behind a `T` the time of
day has a zone, and behind blanks it has none.
-/

namespace TypeGraph.Yaml

/-- Digits, at least one and at most `width`, and what follows them. -/
def field? (width : Nat) (cs : List Char) : Option (Nat × List Char) :=
  let ds := (cs.take width).takeWhile Char.isDigit
  (Text.digitsIn? 10 ds).map (·, cs.drop ds.length)

/-- One or two digits behind a separator, and what follows them. -/
def fieldBehind? (separator : Char) : List Char → Option (Nat × List Char)
  | [] => none
  | c :: rest => if c == separator then field? 2 rest else none

def isLeap (year : Nat) : Bool := year % 4 == 0 && (year % 100 != 0 || year % 400 == 0)

def daysIn (year month : Nat) : Nat :=
  if month == 2 then (if isLeap year then 29 else 28)
  else if month == 4 || month == 6 || month == 9 || month == 11 then 30 else 31

/-- What follows a fraction of a second. There need not be one, and a comma may stand
for its point. -/
def afterFraction : List Char → List Char
  | c :: d :: rest =>
    if (c == '.' || c == ',') && d.isDigit then rest.dropWhile Char.isDigit
    else c :: d :: rest
  | cs => cs

/-- What follows a time of day. -/
def afterTime? (cs : List Char) : Option (List Char) := do
  let (h, rest) ← field? 2 cs
  let (m, rest) ← fieldBehind? ':' rest
  let (s, rest) ← fieldBehind? ':' rest
  if h < 24 && m < 60 && s < 60 then some (afterFraction rest) else none

/-- Are these two digits of a number that is at most `limit`? -/
def twoDigits (limit : Nat) (a b : Char) : Bool :=
  a.isDigit && b.isDigit && (Text.digitsIn? 10 [a, b]).all (· ≤ limit)

/-- A time zone: `Z`, or hours and minutes behind a sign. A whole day and a whole hour
are allowed. -/
def isZone : List Char → Bool
  | ['Z'] => true
  | [sign, a, b, ':', c, d] =>
    (sign == '+' || sign == '-') && twoDigits 24 a b && twoDigits 60 c d
  | _ => false

/-- What may follow a date: nothing, or a time of day. -/
def isTimePart : List Char → Bool
  | [] => true
  | 'T' :: rest | 't' :: rest => (afterTime? rest).any isZone
  | ' ' :: rest => (afterTime? (rest.dropWhile (· == ' '))).any List.isEmpty
  | _ => false

/-- Is this a date, with or without a time of day? Its year has four digits. -/
def isTimestamp (cs : List Char) : Bool :=
  let read : Option Bool := do
    let (year, rest) ← field? 4 cs
    let (month, rest) ← fieldBehind? '-' rest
    let (day, rest) ← fieldBehind? '-' rest
    some (1 ≤ month && month ≤ 12 && 1 ≤ day &&
      day ≤ daysIn year month && isTimePart rest)
  (cs.takeWhile Char.isDigit).length == 4 && read.getD false

end TypeGraph.Yaml
