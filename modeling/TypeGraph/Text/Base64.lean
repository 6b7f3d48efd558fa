/-!
# Base 64

Bytes written in base 64: four characters for three bytes, and equals signs to fill up
the last four. Line breaks do not count.
-/

namespace TypeGraph.Text

/-- The value of a character in base 64. -/
def sextet? (c : Char) : Option Nat :=
  if 'A' ≤ c && c ≤ 'Z' then some (c.toNat - 'A'.toNat)
  else if 'a' ≤ c && c ≤ 'z' then some (c.toNat - 'a'.toNat + 26)
  else if c.isDigit then some (c.toNat - '0'.toNat + 52)
  else if c == '+' then some 62
  else if c == '/' then some 63
  else none

/-- The first `count` of three bytes that four characters stand for. -/
def quantum? (count : Nat) (a b c d : Char) : Option (List UInt8) := do
  let n :=
    64 * (64 * (64 * (← sextet? a) + (← sextet? b)) + (← sextet? c)) + (← sextet? d)
  return ([n / 65536, n / 256 % 256, n % 256].map UInt8.ofNat).take count

/-- The bytes that characters without line breaks stand for. -/
def quanta? : List Char → Option (List UInt8)
  | [] => some []
  | [a, b, '=', '='] => quantum? 1 a b 'A' 'A'
  | [a, b, c, '='] => quantum? 2 a b c 'A'
  | a :: b :: c :: d :: rest => do return (← quantum? 3 a b c d) ++ (← quanta? rest)
  | _ => none

/-- The bytes that a text in base 64 stands for. -/
def ofBase64? (s : String) : Option (List UInt8) :=
  quanta? (s.toList.filter fun c => c != '\n' && c != '\r')

end TypeGraph.Text
