/-!
# Digits

Letters stand for the digits from ten on. Underscores may group digits, but only
between two of them.
-/

namespace TypeGraph.Text

/-- The value of a digit. -/
def digit? (c : Char) : Option Nat :=
  if c.isDigit then some (c.toNat - '0'.toNat)
  else if c.isAlpha then some (c.toLower.toNat - 'a'.toNat + 10)
  else none

/-- The value of digits in a base. There has to be at least one. -/
def digitsIn? (base : Nat) (cs : List Char) : Option Nat :=
  if cs.isEmpty then none
  else cs.foldlM (fun n c => ((digit? c).filter (· < base)).map (base * n + ·)) 0

/-- Does every underscore stand between digits? `before` says whether something that
counts as a digit stands in front. -/
def underscoresFit (isDigit : Char → Bool) : Bool → List Char → Bool
  | _, [] => true
  | _, ['_'] => false
  | before, '_' :: c :: rest => before && isDigit c && underscoresFit isDigit true rest
  | _, c :: rest => underscoresFit isDigit (isDigit c) rest

end TypeGraph.Text
