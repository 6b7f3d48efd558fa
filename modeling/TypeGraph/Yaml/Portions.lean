/-!
# How a YAML stream is read

A stream comes in portions of at most 512 bytes, none of which ends within
a character. A character that is not allowed makes its whole portion unreadable, and
is noticed only when that portion is asked for.
-/

namespace TypeGraph.Yaml

/-- The characters that a stream may hold. -/
def isAllowed (c : Char) : Bool :=
  let n := c.toNat
  n == 9 || n == 10 || n == 13 || (0x20 ≤ n && n ≤ 0x7E) || n == 0x85 ||
    (0xA0 ≤ n && n ≤ 0xFFFD) || 0x10000 ≤ n

/-- The number of bytes in a portion. -/
def portionSize : Nat := 512

/-- The number of characters up to the end of each portion, if `room` bytes are left
in the first one and `count` characters come before. -/
def portionEnds (room count : Nat) : List Char → List Nat
  | [] => [count]
  | c :: rest =>
    if c.utf8Size ≤ room then portionEnds (room - c.utf8Size) (count + 1) rest
    else count :: portionEnds (portionSize - c.utf8Size) (count + 1) rest

/-- The portions of a stream. -/
structure Portions where
  /-- How many characters the stream has. -/
  size : Nat
  /-- The number of characters up to the end of each portion. -/
  ends : List Nat
  /-- How many of them lie before the first portion that cannot be read, if there is
  one. -/
  readable : Option Nat

namespace Portions

/-- The portions of a text that stands behind `skipped` bytes. -/
def ofText (skipped : Nat) (cs : List Char) : Portions :=
  let ends := portionEnds (portionSize - skipped) 0 cs
  let readable :=
    (cs.findIdx? (!isAllowed ·)).map fun i => ((ends.takeWhile (· ≤ i)).getLast?).getD 0
  ⟨cs.length, ends, readable⟩

/-- Is it possible to read so many characters? The end of the stream can always be
read again. -/
def admits (p : Portions) (count : Nat) : Bool := p.readable.all (count ≤ ·)

/-- How many characters have been read once there are at least `count` of them. Only
whole portions are read; at the end of the stream, `held` being what was read before,
one more is put for the end. -/
def extent (p : Portions) (held count : Nat) : Nat :=
  (p.ends.find? (count ≤ ·)).getD (max p.size held + 1)

end Portions

end TypeGraph.Yaml
