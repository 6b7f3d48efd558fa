import TypeGraph.Store

/-!
# The variables of a term

The variables of a term, read behind all links. `freeVars` lists those that are not
quantified by a method's own scheme, in order of first occurrence; `occurs` asks for
a variable anywhere, quantified or not, which is what a unifier must know before it
links a cell.
-/

namespace TypeGraph.Store

/-- The free occurrences of variables in `t` without those in `bound`, given those in
its subterms. -/
def occurrencesLayer (s : Store) (below : List VarId → Ty → List VarId)
    (bound : List VarId) (t : Ty) :
    List VarId :=
  match s.view t with
  | .cell c => (s.freeVar? c).toList.filter (!bound.contains ·)
  | .meth m inner => below (m.scheme.vars ++ bound) m.scheme.type ++ below bound inner
  | shape => shape.children.flatMap (below bound)

/-- The free occurrences of variables in `t`, from left to right, without those in
`bound`, at most `n` layers deep. -/
def occurrences (s : Store) : Nat → List VarId → Ty → List VarId
  | 0 => fun _ _ => []
  | n + 1 => s.occurrencesLayer (s.occurrences n)

/-- The free variables of a term, in order of first occurrence. -/
def freeVars (s : Store) (t : Ty) : List VarId :=
  (s.occurrences (s.span t) [] t).eraseDups

/-- Does `v` occur in `t`, given whether it does in the subterms? -/
def occursLayer (s : Store) (v : VarId) (below : Ty → Bool) (t : Ty) : Bool :=
  match s.view t with
  | .cell c => s.freeVar? c == some v
  | shape => shape.children.any below

/-- Does a free cell that holds `v` lie within `n` layers of `t`? -/
def occursWithin (s : Store) (v : VarId) : Nat → Ty → Bool
  | 0 => fun _ => false
  | n + 1 => s.occursLayer v (s.occursWithin v n)

/-- Does the variable occur in the term? -/
def occurs (s : Store) (v : VarId) (t : Ty) : Bool := s.occursWithin v (s.span t) t

end TypeGraph.Store
