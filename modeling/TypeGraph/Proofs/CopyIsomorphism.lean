import TypeGraph.Generalize
import TypeGraph.Proofs.CopiedStore
import TypeGraph.Proofs.Renaming

/-!
# Copies and isomorphism

A copy is isomorphic to its original. The renaming of variables by which a copy was
made is what the comparison looks for: it is one to one, because new variables are
new, and it keeps constraints. Behind links the two terms unfold in step
(`GraphCopy.deref_relabel`), since a cell is linked just when its copy is.
-/

namespace TypeGraph.Store

variable {s s' : Store} {opts : CopyOptions} {t t' u : Ty} {onVar : VarId → VarId}
  {onCell : CellId → CellId} {v : VarId} {c : CellId} {variance : Variance}

namespace GraphCopy

/-- The copy of a cell holds the copy of its variable, or none. -/
theorem freeVar?_relabel (h : s.GraphCopy s' opts t t' onVar onCell)
    (hc : s.ReachesCell t c) :
    s'.freeVar? (onCell c) = (s.freeVar? c).map onVar := by
  rw [Store.freeVar?, Store.freeVar?, h.content c hc]
  cases s.cells[c]? with
  | none => rfl
  | some content => cases content <;> rfl

/-- The copy of a cell is linked to the copy of its target, or not at all. -/
theorem link?_relabel (h : s.GraphCopy s' opts t t' onVar onCell)
    (hc : s.ReachesCell t c) :
    s'.link? (onCell c) = (s.link? c).map (Prod.map id (Ty.relabel onVar onCell)) := by
  rw [Store.link?, Store.link?, h.content c hc]
  cases s.cells[c]? with
  | none => rfl
  | some content => cases content <;> rfl

theorem freeVar? (h : s.GraphCopy s' opts t t' onVar onCell) (hc : s.ReachesCell t c)
    (hf : s.freeVar? c = some v) : s'.freeVar? (onCell c) = some (onVar v) := by
  rw [h.freeVar?_relabel hc, hf]
  rfl

theorem link? (h : s.GraphCopy s' opts t t' onVar onCell) (hc : s.ReachesCell t c)
    (hl : s.link? c = some (variance, u)) :
    s'.link? (onCell c) = some (variance, u.relabel onVar onCell) := by
  rw [h.link?_relabel hc, hl]
  rfl

/-- **The copy of a term stands for the copy of what the term stands for.** -/
theorem deref_relabel (h : s.GraphCopy s' opts t t' onVar onCell)
    (hw : s.WellFormed) (ht : s.Scoped t) (hs' : s'.Acyclic) (hu : s.Reaches t u) :
    s.Reaches t (s'.deref u) ∧
      s'.deref (u.relabel onVar onCell) = (s'.deref u).relabel onVar onCell := by
  induction u using chainInduction hs' with
  | linked u c variance w hc hl ih =>
    have hcell : s.ReachesCell t c := ⟨u, hu, hc⟩
    rw [h.within.link? (hcell.lt hw ht)] at hl
    have hl' := h.within.link? (hcell.lt hw ht)
    rw [hl] at hl'
    have hcopy : (u.relabel onVar onCell).shape = .cell (onCell c) :=
      Ty.shape_relabel_eq_cell.2 ⟨c, hc, rfl⟩
    rw [deref_link hs' hc hl', deref_link hs' hcopy (h.link? hcell hl)]
    exact ih (hu.tail (.link hc hl))
  | settled u hset =>
    rw [deref_settled hset, deref_settled fun d hd => ?_]
    · exact ⟨hu, rfl⟩
    · obtain ⟨c, hc, rfl⟩ := Ty.shape_relabel_eq_cell.1 hd
      have hcell : s.ReachesCell t c := ⟨u, hu, hc⟩
      rcases free_or_linked (hcell.lt hw ht) with ⟨v, hf⟩ | ⟨variance, w, hl⟩
      · exact link?_eq_none_of_freeVar? (h.freeVar? hcell hf)
      · rw [← h.within.link? (hcell.lt hw ht), hset c hc] at hl
        cases hl

/-- The variables of the term and what they became. -/
def Pairs (s : Store) (t : Ty) (onVar : VarId → VarId) (v w : VarId) : Prop :=
  s.ReachesVar t v ∧ onVar v = w

/-- The pairs are one to one and have the same constraints. -/
theorem fair (h : s.GraphCopy s' opts t t' onVar onCell)
    (hw : s.WellFormed) (ht : s.Scoped t) :
    s'.Fair (Pairs s t onVar) where
  oneToOne := by
    constructor
    · rintro v w x ⟨hv, hvx⟩ ⟨hw', hwx⟩
      exact h.var_inj (hv.lt hw ht) (hw'.lt hw ht) (hvx.trans hwx.symm)
    · rintro v x y ⟨-, hx⟩ ⟨-, hy⟩
      exact hx.symm.trans hy
  kinds := by
    rintro v w ⟨hv, rfl⟩
    suffices hsame : (s'.var (onVar v)).constraints =
      (s'.var v).constraints from fun kind => by rw [hsame]
    rw [h.within.var (hv.lt hw ht)]
    cases hsel : opts.selects v (s.var v) with
    | false => rw [(h.var_kept v hv).2 hsel, h.within.var (hv.lt hw ht)]
    | true =>
      rw [var, Array.getD_eq_getD_getElem?, (h.var_new v hv hsel).2]
      rfl

/-- **The outline of the copy is the outline of the term, with variables replaced.** -/
theorem renames (h : s.GraphCopy s' opts t t' onVar onCell)
    (hw : s.WellFormed) (ht : s.Scoped t) (hs' : s'.Acyclic) (hw' : s'.WellFormed)
    (hc : s.Complete t) (hu : s.Reaches t u) :
    Outline.Renames (Pairs s t onVar) (s'.outline u)
      (s'.outline (u.relabel onVar onCell)) := by
  induction u using viewInduction hs' with
  | layer u ih =>
    obtain ⟨hreach, hderef⟩ := h.deref_relabel hw ht hs' hu
    have hview : s'.view (u.relabel onVar onCell) =
        ((s'.deref u).relabel onVar onCell).shape := by
      rw [view, hderef]
    rcases outline_cases hs' u with ⟨c, v, hx, hf, ho⟩ | ⟨label, hl, ho⟩ | ⟨-, ho⟩
    · have hcell : s.ReachesCell t c := ⟨s'.deref u, hreach, hx⟩
      rw [h.within.freeVar? (hcell.lt hw ht)] at hf
      have hx' := hview.trans (Ty.shape_relabel_eq_cell.2 ⟨c, hx, rfl⟩)
      rw [ho, outline_of_free hs' hx' (h.freeVar? hcell hf)]
      exact .var ⟨Or.inl ⟨c, hcell, hf⟩, rfl⟩
    · have hl' : (s'.view (u.relabel onVar onCell)).label? = some label := by
        rw [hview, Ty.relabel_eq, Ty.shape_of, Shape.label?_relabel, Shape.label?_map]
        exact hl
      rw [ho, outline_of_label hs' hl', hview, Ty.binders_relabel,
        Ty.children_relabel, List.map_map]
      refine Outline.renames_node_iff.2 ⟨rfl, ?_, ?_⟩
      · rw [List.forall₂_map_right_iff]
        exact List.forall₂_same.2 fun v hv => ⟨Or.inr ⟨s'.deref u, hreach, hv⟩, rfl⟩
      · rw [List.forall₂_map_left_iff, List.forall₂_map_right_iff]
        exact List.forall₂_same.2 fun w hmem => ih w hmem (hreach.tail (.child hmem))
    · have hscope : s.Scoped u := ht.of_reaches hw hu
      have hcomplete : s'.Complete u := fun w hwu =>
        hc w (hu.trans ((h.within.reaches_iff hw hscope).1 hwu))
      have hgapless := (gapless_iff hs' hw' (h.within.scope hscope)).2 hcomplete
      rw [ho] at hgapless
      simp only [Outline.Gapless] at hgapless

/-- A copy is isomorphic to the term that was copied. -/
theorem isomorphic (h : s.GraphCopy s' opts t t' onVar onCell)
    (hw : s.WellFormed) (ht : s.Scoped t) (hs' : s'.Acyclic) (hw' : s'.WellFormed)
    (hc : s.Complete t) : s'.isomorphic t t' = true := by
  rw [h.result]
  exact (isomorphic_iff_fair hs' _ _).2 ⟨_, h.fair hw ht,
    h.renames hw ht hs' hw' hc .refl⟩

end GraphCopy

/-- A complete term is isomorphic to itself. -/
theorem isomorphic_refl (hs : s.Acyclic) (hw : s.WellFormed) (ht : s.Scoped t)
    (hc : s.Complete t) :
    s.isomorphic t t = true := by
  refine (isomorphic_iff_fair hs t t).2 ⟨Eq, ⟨⟨?_, ?_⟩, ?_⟩,
    Outline.renames_refl ((gapless_iff hs hw ht).2 hc)⟩
  · exact fun _ _ _ h h' => h.trans h'.symm
  · exact fun _ _ _ h h' => h.symm.trans h'
  · rintro v _ rfl
    exact fun _ => Iff.rfl

/-- Copying a complete term of an acyclic store gives an isomorphic one. -/
theorem exists_fresh_isomorphic (hs : s.Acyclic) (hw : s.WellFormed)
    (ht : s.Scoped t) (hc : s.Complete t) (opts : CopyOptions) :
    ∃ t' s', s.fresh opts t = (.ok t', s') ∧ s'.isomorphic t t' = true := by
  obtain ⟨t', s', onVar, onCell, hrun, hcopy, hw', hs'⟩ := exists_graphCopy hw ht hc opts
  exact ⟨t', s', hrun, hcopy.isomorphic hw ht (hs' hs) hw' hc⟩

/-- **Copies and instances are isomorphic to their originals**, in the store after the
copy. -/
theorem isomorphic_copies (hs : s.Acyclic) (hw : s.WellFormed) (ht : s.Scoped t)
    (hc : s.Complete t) :
    (∀ opts, ∃ t' s', s.fresh opts t = (.ok t', s') ∧ s'.isomorphic t t' = true) ∧
      ∀ vars level, ∃ t' s', s.instantiate ⟨vars, t⟩ level = (.ok t', s') ∧
        s'.isomorphic t t' = true := by
  refine ⟨exists_fresh_isomorphic hs hw ht hc, fun vars level => ?_⟩
  unfold instantiate
  split
  · exact ⟨t, s, rfl, isomorphic_refl hs hw ht hc⟩
  · exact exists_fresh_isomorphic hs hw ht hc _

/-- A pair of a variable and a list of it, behind a link, under a method that
quantifies the variable. -/
theorem isomorphic_copies_linked :
    (∀ opts, ∃ t' s', linkedExample.fresh opts linkedExampleTerm = (.ok t', s') ∧
        s'.isomorphic linkedExampleTerm t' = true) ∧
      ∀ vars level, ∃ t' s', linkedExample.instantiate ⟨vars, linkedExampleTerm⟩
          level = (.ok t', s') ∧
        s'.isomorphic linkedExampleTerm t' = true :=
  isomorphic_copies linkedExample_acyclic (by decide) (by decide)
    (complete_of_everywhere (by decide) (by decide))

end TypeGraph.Store
