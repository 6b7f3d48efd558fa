/-!
# Severities

Severities of log records: 64-bit numbers, four of which have names. A severity is
written as the closest name not above it and the distance from there, such as
`INFO+2`; below the lowest name the distance is negative. Reading takes the names in
any case and an optional signed distance.
-/

namespace TypeGraph.Log

abbrev Severity := Int

namespace Severity

def debug : Severity := -4
def info : Severity := 0
def warn : Severity := 4
def error : Severity := 8

/-- A sum of severities stays in the range of 64-bit numbers. -/
def wrap (n : Int) : Severity := Int.bmod n 18446744073709551616

/-- A name with the distance from it. -/
def textFrom (name : String) (distance : Int) : String :=
  if distance = 0 then name
  else if distance < 0 then name ++ toString distance
  else name ++ "+" ++ toString distance

def text (n : Severity) : String :=
  if n < info then textFrom "DEBUG" (wrap (n - debug))
  else if n < warn then textFrom "INFO" (n - info)
  else if n < error then textFrom "WARN" (n - warn)
  else textFrom "ERROR" (n - error)

/-- The upper-case letter of a letter of the alphabet. The dotless `ı` and the long
`ſ` are lower-case letters of the alphabet too. -/
def upper (c : Char) : Char :=
  if c = 'ı' then 'I' else if c = 'ſ' then 'S' else c.toUpper

/-- The severity of a name. -/
def ofName? (name : List Char) : Option Severity :=
  match String.ofList (name.map upper) with
  | "DEBUG" => some debug
  | "INFO" => some info
  | "WARN" => some warn
  | "ERROR" => some error
  | _ => none

/-- The number of a text of decimal digits, of which there must be at least one. -/
def digits? (cs : List Char) : Option Nat :=
  if cs.isEmpty || !cs.all Char.isDigit then none
  else some (cs.foldl (fun n c => 10 * n + (c.toNat - '0'.toNat)) 0)

/-- A signed distance, if it is a 64-bit number. -/
def distance? (cs : List Char) : Option Int :=
  match cs with
  | '+' :: ds =>
    (digits? ds).bind fun n => if n < 9223372036854775808 then some (n : Int) else none
  | '-' :: ds =>
    (digits? ds).bind fun n => if n ≤ 9223372036854775808 then some (-(n : Int)) else none
  | _ => none

def isSign (c : Char) : Bool := c == '+' || c == '-'

/-- Read a severity. -/
def ofText? (s : String) : Option Severity :=
  let cs := s.toList
  let name := cs.takeWhile (!isSign ·)
  match cs.dropWhile (!isSign ·) with
  | [] => ofName? name
  | signed => do
    let distance ← distance? signed
    let base ← ofName? name
    return wrap (base + distance)

end Severity

end TypeGraph.Log
