/-!
# Problems that are collected over time

A list of problems is shared by everyone who holds a reference to it, and adding to it
is seen by all of them. A reference may also be empty; adding to an empty reference
starts a new list, and merging with one hands out the other reference.
-/

namespace TypeGraph

/-- A reference to a list of problems, or none. -/
abbrev ProblemRef := Option Nat

/-- All lists of problems of a kind. -/
structure Problems (ε : Type) where
  lists : Array (List ε) := #[]

namespace Problems

variable {ε : Type}

/-- The problems of a reference, in the order in which they were added. -/
def errors (p : Problems ε) (r : ProblemRef) : List ε :=
  match r with
  | some i => p.lists.getD i []
  | none => []

/-- Add problems behind a reference, or in a new list if it is empty. -/
def add (r : ProblemRef) (errors : List ε) (p : Problems ε) : ProblemRef × Problems ε :=
  match r with
  | some i => (r, { p with lists := p.lists.modify i (· ++ errors) })
  | none => (some p.lists.size, { p with lists := p.lists.push errors })

/-- Add the problems of `other` behind `r`. If one of them is empty, the result is the
other. -/
def merge (r other : ProblemRef) (p : Problems ε) : ProblemRef × Problems ε :=
  match r, other with
  | none, _ => (other, p)
  | _, none => (r, p)
  | some _, some _ => p.add r (p.errors other)

/-! ## What is behind a reference -/

variable {p : Problems ε} {r : ProblemRef}

/-- A reference is known if it is empty or there is a list behind it. -/
def Known (p : Problems ε) (r : ProblemRef) : Prop := ∀ i ∈ r, i < p.lists.size

theorem known_none (p : Problems ε) : p.Known none := fun _ h => by simp at h

theorem known_add (h : p.Known r) (found : List ε) :
    (p.add r found).2.Known (p.add r found).1 := by
  cases r with
  | none => simp [add, Known]
  | some i => simpa [add, Known] using h

/-- What is added comes after what was there. -/
theorem errors_add (h : p.Known r) (found : List ε) :
    (p.add r found).2.errors (p.add r found).1 = p.errors r ++ found := by
  cases r with
  | none => simp [add, errors]
  | some i =>
    have hi : i < p.lists.size := h i rfl
    simp [add, errors, hi, Array.getElem_modify]

/-- **Problems that are added one by one** are all behind one reference in the end, in
order. -/
theorem errors_foldl_add (h : p.Known r) (found : List ε) :
    let added := found.foldl (fun (r, p) problem => p.add r [problem]) (r, p)
    added.2.errors added.1 = p.errors r ++ found := by
  induction found generalizing p r with
  | nil => simp
  | cons problem rest ih =>
    have hrest := ih (known_add h [problem])
    rwa [errors_add h, List.append_assoc] at hrest

end Problems

end TypeGraph
