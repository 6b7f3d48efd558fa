/-!
# Ranges of source positions

A range names the first position of a piece of source text and the position right
after it; the zero range stands for "no position". Nothing requires a range to be
ordered: the library carries ranges from its callers to its diagnostics and never does
arithmetic on them.
-/

namespace TypeGraph

/-- A range of 64-bit source positions, from `start` up to `stop`. -/
structure Range where
  start : Int
  stop : Int
deriving DecidableEq, Repr

namespace Range

/-- The range of a node that was never given a position. -/
def zero : Range := ⟨0, 0⟩

instance : Inhabited Range := ⟨zero⟩

def isZero (r : Range) : Bool := r == zero

/-- The range of an optional position: a missing one reads as the zero range. -/
def ofOption (r : Option Range) : Range := r.getD zero

/-- From the start of the first range to the end of the second. -/
def between (a b : Range) : Range := ⟨a.start, b.stop⟩

/-- A range is shown as `start-stop`, and one whose ends meet as that one position. -/
def text (r : Range) : String :=
  if r.start = r.stop then toString r.start else s!"{r.start}-{r.stop}"

/-! ## Hashing -/

/-- The eight bytes of a 64-bit position in two's complement, least significant
first. -/
def positionBytes (i : Int) : List UInt8 :=
  let word := (i % 18446744073709551616).toNat
  (List.range 8).map fun k => (word >>> (8 * k) % 256).toUInt8

/-- The 64-bit Fowler–Noll–Vo hash in its "xor, then multiply" form. -/
def fnv (bytes : List UInt8) : UInt64 :=
  bytes.foldl (fun h b => (h ^^^ b.toUInt64) * 1099511628211) 14695981039346656037

/-- The hash of a range is that of the bytes of its two ends. -/
def hash (r : Range) : UInt64 := fnv (positionBytes r.start ++ positionBytes r.stop)

end Range

end TypeGraph
