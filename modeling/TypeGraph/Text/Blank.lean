/-!
# White space

White space in the sense of Unicode, and texts without it at their ends.
-/

namespace TypeGraph.Text

/-- The characters with the Unicode property `White_Space`. -/
def isBlank (c : Char) : Bool :=
  let n := c.toNat
  (9 ≤ n && n ≤ 13) || n == 32 || n == 0x85 || n == 0xA0 || n == 0x1680 ||
    (0x2000 ≤ n && n ≤ 0x200A) ||
    n == 0x2028 || n == 0x2029 || n == 0x202F || n == 0x205F || n == 0x3000

/-- A text without the blanks at its end. -/
def trimEnd : List Char → List Char
  | [] => []
  | c :: rest =>
    match trimEnd rest with
    | [] => if isBlank c then [] else [c]
    | trimmed => c :: trimmed

/-- A text without the blanks at its two ends. -/
def trim (cs : List Char) : List Char := trimEnd (cs.dropWhile isBlank)

theorem length_trimEnd_le : ∀ cs : List Char, (trimEnd cs).length ≤ cs.length
  | [] => Nat.le_refl 0
  | c :: rest => by
    have ih := length_trimEnd_le rest
    unfold trimEnd
    split
    · split <;> simp
    · simpa using ih

theorem length_trim_le (cs : List Char) : (trim cs).length ≤ cs.length := by
  have h := length_trimEnd_le (cs.dropWhile isBlank)
  have d := (List.dropWhile_sublist isBlank (l := cs)).length_le
  exact Nat.le_trans h d

end TypeGraph.Text
