import TypeGraph.Generalize
import TypeGraph.Proofs.CopiedStore
import TypeGraph.Proofs.Occurrence
import TypeGraph.Proofs.Termination

/-!
# Stores in use

A store starts empty and is changed by drawing variables and cells, by copies and
instances, and by links. The one rule is that a cell is linked to a term only after
the occurs check has not found its variable in the term. Under that rule no store ever
has a cycle (`Guarded.valid`, `Reached.valid`), and so every function that follows
links ends on every term.
-/

namespace TypeGraph.Store

variable {s s' : Store} {t : Ty} {c : CellId} {v : VarId}

/-- One change of a store, by the rule. Terms are those of the store. -/
inductive Guarded : Store → Store → Prop
  | newVar {s : Store} (level : Level) (constraints : ConstraintSet) :
    Guarded s (s.newVar level constraints).2
  | newCell {s : Store} {v : VarId} (hv : v < s.vars.size) :
    Guarded s (s.newCell (.free v)).2
  | fresh {s : Store} {t : Ty} (opts : CopyOptions) (ht : s.Scoped t) :
    Guarded s (s.fresh opts t).2
  | instantiate {s : Store} {scheme : TypeScheme} (level : Level)
      (ht : s.Scoped scheme.type) : Guarded s (s.instantiate scheme level).2
  | setLink {s s' : Store} {c : CellId} {v : VarId} {t : Ty} {variance : Variance}
      (hf : s.freeVar? c = some v)
      (ht : s.Scoped t) (ho : s.occurs v t = false)
      (hlink : s.setLink c variance t = .ok s') : Guarded s s'

/-- The store comes out of changes by the rule. -/
def Reached (s : Store) : Prop := Relation.ReflTransGen Guarded empty s

/-- What the rule keeps. -/
structure Valid (s : Store) : Prop where
  wellFormed : s.WellFormed
  acyclic : s.Acyclic

namespace Valid

theorem empty : Valid empty := ⟨by decide, acyclic_of_rank id (by decide)⟩

theorem newVar (hs : s.Valid) (level : Level) (constraints : ConstraintSet) :
    (s.newVar level constraints).2.Valid :=
  ⟨hs.wellFormed.of_cells (s.within_newVar level constraints).vars_le rfl,
    hs.acyclic.of_links fun _ _ _ hl => hl⟩

theorem newCell (hs : s.Valid) (hv : v < s.vars.size) :
    (s.newCell (.free v)).2.Valid := by
  refine ⟨hs.wellFormed.newCell hv, hs.acyclic.of_links fun c variance u hl => ?_⟩
  rw [link?_eq_some] at hl ⊢
  change (s.cells.push (.free v))[c]? = some (.link variance u) at hl
  rw [Array.getElem?_push] at hl
  split at hl
  · cases hl
  · exact hl

/-- A copy is made or fails; what it leaves behind is valid in both cases. -/
theorem fresh (hs : s.Valid) (ht : s.Scoped t) (opts : CopyOptions) :
    (s.fresh opts t).2.Valid := by
  obtain ⟨result, q, hrun, hq, -⟩ := CopyTask.fresh_cases ⟨s, opts, t, hs.wellFormed, ht⟩
  rw [hrun]
  exact ⟨hq.wellFormed, hq.acyclic hs.acyclic⟩

theorem setLink {variance : Variance} (hs : s.Valid)
    (hf : s.freeVar? c = some v) (ht : s.Scoped t) (ho : s.occurs v t = false)
    (h : s.setLink c variance t = .ok s') : s'.Valid :=
  ⟨hs.wellFormed.setLink hf ht h, setLink_acyclic hs.acyclic hf ho h⟩

end Valid

/-- **One change keeps a store acyclic.** -/
theorem Guarded.valid (h : Guarded s s') (hs : s.Valid) : s'.Valid := by
  cases h with
  | newVar level constraints => exact hs.newVar level constraints
  | newCell hv => exact hs.newCell hv
  | fresh opts ht => exact hs.fresh ht opts
  | @instantiate scheme level ht =>
    unfold Store.instantiate
    split
    · exact hs
    · exact hs.fresh ht _
  | setLink hf ht ho hlink => exact hs.setLink hf ht ho hlink

/-- So does any number of changes. -/
theorem Reached.valid (h : Reached s) : s.Valid := by
  induction h with
  | refl => exact Valid.empty
  | tail _ hstep ih => exact hstep.valid ih

/-- **Links that the occurs check allows keep a store acyclic**, and therefore, as
long as all links are made so, every function that follows links ends on every term. -/
theorem acyclic_of_guarded_links :
    (∀ (s : Store) c v t variance, s.Acyclic → s.freeVar? c = some v →
        s.occurs v t = false → ∃ s', s.setLink c variance t = .ok s' ∧ s'.Acyclic) ∧
      ∀ s, Reached s → s.Acyclic ∧ ∀ t, s.Ends t := by
  constructor
  · intro s c v t variance hs hf ho
    obtain ⟨s', hlink⟩ := setLink_free hf variance t
    exact ⟨s', hlink, setLink_acyclic hs hf ho hlink⟩
  · intro s hs
    exact ⟨hs.valid.acyclic, fun t => hs.valid.acyclic.ends t⟩

/-- Two variables with a cell each, of which the first is linked to a list of the
second. -/
def guardedExample : Store :=
  ⟨#[⟨.unbounded, .empty⟩, ⟨.depth 2, .empty⟩],
    #[.link .covariant (.of (.list .array (.of (.cell 1)))), .free 1]⟩

theorem guardedExample_reached : Reached guardedExample := by
  have hfirst : Reached ⟨#[⟨.unbounded, .empty⟩], #[.free 0]⟩ :=
    .tail (.single (.newVar .unbounded .empty)) (.newCell (by decide))
  have hsecond : Reached ⟨#[⟨.unbounded, .empty⟩, ⟨.depth 2, .empty⟩],
      #[.free 0, .free 1]⟩ :=
    .tail (.tail hfirst (.newVar (.depth 2) .empty)) (.newCell (by decide))
  have hfree :
      freeVar? ⟨#[⟨.unbounded, .empty⟩, ⟨.depth 2, .empty⟩],
        #[.free 0, .free 1]⟩ 0 = some 0 := rfl
  exact .tail hsecond (.setLink hfree (by decide) (by decide) rfl)

/-- The store is reached with one link, and takes a second one. -/
theorem acyclic_of_guarded_links_twice :
    (∃ s', guardedExample.setLink 1 .invariant (.ground "int") = .ok s' ∧ s'.Acyclic) ∧
      guardedExample.Acyclic ∧ ∀ t, guardedExample.Ends t := by
  obtain ⟨hacyclic, hends⟩ :=
    acyclic_of_guarded_links.2 guardedExample guardedExample_reached
  exact ⟨acyclic_of_guarded_links.1 guardedExample 1 1 _ _ hacyclic rfl (by decide),
    hacyclic, hends⟩

end TypeGraph.Store
