import TypeGraph.Store

/-!
# Isomorphism

Two terms are isomorphic if they have the same structure, behind all links, up to
a one-to-one renaming of variables that carry the same kinds of constraints.
Positions, levels and the texts that document methods play no part.

The renaming is built on the way, from left to right. A pair of variables that meets
for the first time on both sides is added to it; a pair of which one side is renamed
already has to agree with what is there.
-/

namespace TypeGraph

/-- A one-to-one renaming in the making, as pairs of a variable and its image. -/
abbrev Renaming := List (VarId × VarId)

namespace Renaming

def image? (r : Renaming) (a : VarId) : Option VarId := (r.find? (·.1 == a)).map (·.2)

def preimage? (r : Renaming) (b : VarId) : Option VarId := (r.find? (·.2 == b)).map (·.1)

end Renaming

namespace Store

/-- Rename `a` to `b`, if that is consistent with the renaming so far. -/
def renameVar (s : Store) (a b : VarId) (r : Renaming) : Option Renaming :=
  match r.image? a, r.preimage? b with
  | some b', some a' => if b' = b ∧ a' = a then some r else none
  | none, none =>
    if (s.var a).constraints.sameKinds (s.var b).constraints then some ((a, b) :: r)
    else none
  | _, _ => none

/-- Rename variables pairwise. -/
def renameVars (s : Store) : List VarId → List VarId → Renaming → Option Renaming
  | [], [], r => some r
  | a :: as, b :: bs, r => s.renameVar a b r >>= s.renameVars as bs
  | _, _, _ => none

/-- Go through two lists side by side; they must end together. -/
def matchAll (matchOne : Ty → Ty → Renaming → Option Renaming) :
    List Ty → List Ty → Renaming → Option Renaming
  | [], [], r => some r
  | a :: as, b :: bs, r => matchOne a b r >>= matchAll matchOne as bs
  | _, _, _ => none

/-- Extend a renaming so that it takes `a` to `b`, given how to do it for subterms. -/
def matchLayer (s : Store) (matchOne : Ty → Ty → Renaming → Option Renaming)
    (a b : Ty) (r : Renaming) :
    Option Renaming :=
  match s.view a, s.view b with
  | .cell c, .cell d =>
    match s.freeVar? c, s.freeVar? d with
    | some v, some w => s.renameVar v w r
    | _, _ => none
  | x, y =>
    if x.alike y then
      s.renameVars x.binders y.binders r >>= matchAll matchOne x.children y.children
    else none

/-- Extend a renaming so that it takes `a` to `b`, looking at most `n` layers deep. -/
def matchTerms (s : Store) : Nat → Ty → Ty → Renaming → Option Renaming
  | 0 => fun _ _ _ => none
  | n + 1 => s.matchLayer (s.matchTerms n)

/-- Are two terms equal up to a renaming of variables? -/
def isomorphic (s : Store) (a b : Ty) : Bool := (s.matchTerms (s.span a) a b []).isSome

end Store

end TypeGraph
