import TypeGraph.Store

/-!
# Fresh copies

A copy gives new identities to the selected variables of a term and keeps its sharing:
every occurrence of a variable, and of a cell, goes to the same variable or cell of
the copy. Cells of variables that are not selected are kept as they are; linked cells
are always copied. A linked cell is entered in the table before its target is copied,
so a cell that is reachable from its own target is copied as such.

Copying fails on a term with a hole somewhere. What was drawn from the store up to
that point stays drawn, but nothing that existed before is changed.
-/

namespace TypeGraph

/-- What to copy, and how. -/
structure CopyOptions where
  /-- The variables that get new identities. -/
  selects : VarId → Var → Bool := fun _ _ => true
  /-- The level of the new variables; without it they keep the level of those they
  replace. -/
  level : Option Level := none

/-- A copy in progress: the store it draws from and what has been copied so far. -/
structure Copying where
  store : Store
  vars : List (VarId × VarId) := []
  cells : List (CellId × CellId) := []

/-- Steps of a copy. A failed step leaves its state behind. -/
abbrev CopyM := ExceptT Misuse (StateM Copying)

namespace Copying

variable (opts : CopyOptions)

def selected (p : Copying) (v : VarId) : Bool := opts.selects v (p.store.var v)

/-- Draw the replacement of a variable and note it. -/
def drawVar (v : VarId) (p : Copying) : VarId × Copying :=
  let old := p.store.var v
  let (v', store) := p.store.newVar (opts.level.getD old.level) old.constraints
  (v', { p with store, vars := (v, v') :: p.vars })

/-- The copy of a variable. -/
def copyVar (v : VarId) (p : Copying) : VarId × Copying :=
  if p.selected opts v then
    match p.vars.lookup v with
    | some v' => (v', p)
    | none => p.drawVar opts v
  else (v, p)

/-- Allocate the copy of a cell and note it. -/
def drawCell (c : CellId) (content : Cell) (p : Copying) : CellId × Copying :=
  let (c', store) := p.store.newCell content
  (c', { p with store, cells := (c, c') :: p.cells })

/-- Complete the copy of a linked cell. -/
def fillCell (c : CellId) (content : Cell) (p : Copying) : Copying :=
  { p with store.cells := p.store.cells.setIfInBounds c content }

/-- The copy of a cell, given how to copy the target of a link. -/
def copyCell (copyTarget : Ty → CopyM Ty) (c : CellId) : CopyM CellId := do
  let p ← get
  match p.cells.lookup c, p.store.cells[c]? with
  | some c', _ => return c'
  | none, some (.free v) =>
    if p.selected opts v then
      let v' ← modifyGet (copyVar opts v)
      modifyGet (drawCell c (.free v'))
    else return c
  | none, some (.link variance target) =>
    let c' ← modifyGet (drawCell c (.link variance (.of .hole)))
    let target ← copyTarget target
    modify (fillCell c' (.link variance target))
    return c'
  | none, none => return c

/-- The copy of a term whose walks are no longer than `n`. It carries no positions. -/
def copyTerm : Nat → Ty → CopyM Ty
  | 0, _ => throw .incomplete
  | n + 1, t =>
    match t.shape with
    | .hole => throw .incomplete
    | .cell c => return .of (.cell (← copyCell opts (copyTerm n) c))
    | shape =>
      return .of (← shape.traverse (fun v => modifyGet (copyVar opts v)) (copyTerm n))

end Copying

namespace Store

/-- Copy a term. There is no copy of a term with a hole. -/
def fresh (s : Store) (opts : CopyOptions) (t : Ty) : Except Misuse Ty × Store :=
  let (result, done) := (Copying.copyTerm opts (s.span t) t).run.run { store := s }
  (result, done.store)

end Store

end TypeGraph
