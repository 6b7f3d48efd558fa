import TypeGraph.Text.Digits

/-!
# Numbers

Numbers in YAML: integers of 64 bits in several bases, and decimal numbers that
a double can hold. A number too large for a double is not a number at all; one that is
too small is, and so is one that is cut off.
-/

namespace TypeGraph.Yaml

open Text

/-! ## Integers -/

/-- The value of digits behind a mark for their base: `0x`, `0o`, `0b`, or a zero for
base eight. -/
def unsigned? : List Char → Option Nat
  | '0' :: c :: rest =>
    if c == 'x' || c == 'X' then digitsIn? 16 rest
    else if c == 'o' || c == 'O' then digitsIn? 8 rest
    else if c == 'b' || c == 'B' then digitsIn? 2 rest
    else digitsIn? 8 (c :: rest)
  | cs => digitsIn? 10 cs

/-- The smallest integer that needs more than 64 bits with a sign. -/
def signedLimit : Nat := 9223372036854775808

/-- The smallest integer that needs more than 64 bits without a sign. -/
def unsignedLimit : Nat := 18446744073709551616

/-- A signed integer of 64 bits, given how its magnitude is read. -/
def signed? (magnitude? : List Char → Option Nat) : List Char → Option Int
  | '-' :: rest => ((magnitude? rest).filter (· ≤ signedLimit)).map fun n => -(n : Int)
  | '+' :: rest => ((magnitude? rest).filter (· < signedLimit)).map fun n => (n : Int)
  | _ => none

/-- An integer of 64 bits. One without a sign may use all of them. The sign stands in
front, or between the mark of base two or eight and the digits. -/
def integer? : List Char → Option Int
  | '0' :: 'b' :: '-' :: rest => signed? (digitsIn? 2) ('-' :: rest)
  | '0' :: 'b' :: '+' :: rest => signed? (digitsIn? 2) ('+' :: rest)
  | '0' :: 'o' :: '-' :: rest => signed? (digitsIn? 8) ('-' :: rest)
  | '0' :: 'o' :: '+' :: rest => signed? (digitsIn? 8) ('+' :: rest)
  | '-' :: rest => signed? unsigned? ('-' :: rest)
  | '+' :: rest => signed? unsigned? ('+' :: rest)
  | cs => ((unsigned? cs).filter (· < unsignedLimit)).map fun n => (n : Int)

/-! ## Decimal numbers -/

/-- A decimal number without its sign: its digits, and how many places the point moves
to the right from behind them. -/
structure Decimal where
  digits : List Char
  shift : Int

/-- The value of an exponent, or zero if there is nothing. Beyond ten thousand further
digits do not count. -/
def exponent? : List Char → Option Int
  | [] => some 0
  | e :: rest =>
    let (negative, digits) := match rest with
      | '+' :: ds => (false, ds)
      | '-' :: ds => (true, ds)
      | ds => (false, ds)
    if (e == 'e' || e == 'E') && !digits.isEmpty && digits.all Char.isDigit then
      let n := digits.foldl
        (fun n c => if n < 10000 then 10 * n + (c.toNat - '0'.toNat) else n) 0
      some (if negative then -(n : Int) else n)
    else none

/-- A decimal number with an optional fraction and exponent. -/
def Decimal.read? (cs : List Char) : Option Decimal :=
  let whole := cs.takeWhile Char.isDigit
  match cs.dropWhile Char.isDigit with
  | '.' :: rest =>
    let fraction := rest.takeWhile Char.isDigit
    if whole.isEmpty && fraction.isEmpty then none
    else (exponent? (rest.dropWhile Char.isDigit)).map fun e =>
      ⟨whole ++ fraction, e - fraction.length⟩
  | rest => if whole.isEmpty then none else (exponent? rest).map (⟨whole, ·⟩)

/-- The numbers from here on are rounded to more than the largest double. -/
def doubleLimit : Nat := 1 <<< 1024 - 1 <<< 970

/-- Is a number small enough for a double? The limit has 309 digits, so only the
digits in front of the point count, and they only if there are as many of them. -/
def Decimal.fitsDouble (d : Decimal) : Bool :=
  let significant := d.digits.dropWhile (· == '0')
  let places := significant.length + d.shift
  significant.isEmpty || places < 309 ||
    (places == 309 && (digitsIn? 10
      ((significant ++ List.replicate 309 '0').take 309)).all (· < doubleLimit))

/-- Is this a decimal number that a double can hold, with or without a sign? -/
def isFloat : List Char → Bool
  | '-' :: rest | '+' :: rest => (Decimal.read? rest).any Decimal.fitsDouble
  | cs => (Decimal.read? cs).any Decimal.fitsDouble

/-- Is this such a number whose digits may be grouped by underscores? -/
def isGroupedFloat (cs : List Char) : Bool :=
  underscoresFit Char.isDigit false cs && isFloat (cs.filter (· != '_'))

end TypeGraph.Yaml
