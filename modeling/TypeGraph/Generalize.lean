import TypeGraph.Copy
import TypeGraph.Variables

/-!
# Generalization and instantiation

A term is generalized at a level by quantifying the free variables that lie above it;
an instance of a scheme has new variables in place of the quantified ones and shares
everything else.
-/

namespace TypeGraph.Store

/-- Quantify the free variables of `t` that were introduced deeper than `level`. -/
def generalize (s : Store) (level : Level) (t : Ty) : TypeScheme :=
  ⟨(s.freeVars t).filter fun v => (s.var v).level.above level, t⟩

/-- Selects exactly the given variables, for copies at one level. -/
def instanceOptions (vars : List VarId) (level : Level) : CopyOptions :=
  { selects := fun v _ => vars.contains v, level := some level }

/-- An instance of a scheme. A scheme that quantifies nothing is its own instance. -/
def instantiate (s : Store) (scheme : TypeScheme) (level : Level) :
    Except Misuse Ty × Store :=
  if scheme.vars.isEmpty then (.ok scheme.type, s)
  else s.fresh (instanceOptions scheme.vars level) scheme.type

end TypeGraph.Store
