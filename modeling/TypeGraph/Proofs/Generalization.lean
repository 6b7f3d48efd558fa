import TypeGraph.Generalize
import TypeGraph.Proofs.CopiedStore
import TypeGraph.Proofs.CopyIsomorphism
import TypeGraph.Proofs.Mirror
import TypeGraph.Proofs.Occurrence

/-!
# What generalization quantifies and instances replace

A copy mirrors its original (`GraphCopy.mirror`), so its free variables are those of
the original in the same order, with those replaced that were selected. An instance of
a term that was generalized at a level selects the free variables above that level,
each of which gives way to a variable of its own, and keeps all others, down to the
cells that hold them (`Store.Instance`).

Generalized once more at the same level, the instance therefore quantifies just the
variables that were replaced, if the level at which it was made is above, and none if
not (`instantiate_generalize`).
-/

namespace TypeGraph.Store

variable {s s' : Store} {opts : CopyOptions} {t t' : Ty} {onVar : VarId → VarId}
  {onCell : CellId → CellId} {v : VarId} {level drawn : Level}

/-! ## Copies as mirrors -/

/-- A term of the smaller store stands for the same in both. -/
theorem Within.deref (h : s.Within s') (hs : s.Acyclic) (hs' : s'.Acyclic)
    (hw : s.WellFormed) (ht : s.Scoped t) :
    s'.deref t = s.deref t := by
  induction t using chainInduction hs with
  | linked t c variance u hc hl ih =>
    rw [deref_link hs hc hl, deref_link hs' hc ((h.link? (lt_of_link? hl)).trans hl)]
    exact ih (hw.target_scope hl)
  | settled t hset =>
    rw [deref_settled hset, deref_settled fun c hc => ?_]
    rw [h.link? (ht.here.2 c (Shape.mem_cells.2 hc)), hset c hc]

/-- **A copy mirrors the term that was copied**, and all that can be reached from it. -/
theorem GraphCopy.mirror (h : s.GraphCopy s' opts t t' onVar onCell)
    (hs : s.Acyclic) (hs' : s'.Acyclic) (hw : s.WellFormed) (ht : s.Scoped t) :
    Mirror s s' (s.Reaches t) {v | v < s.vars.size}
      (Ty.relabel onVar onCell) onVar onCell where
  settled u hu := hu.trans (reaches_deref hs u)
  subterm u hu w hmem := hu.trans (reaches_of_mem_view hs hmem)
  deref u hu := by
    rw [(h.deref_relabel hw ht hs' hu).2, h.within.deref hs hs' hw (ht.of_reaches hw hu)]
  shape u _ := by
    rw [Ty.relabel_eq]
    rfl
  freeVar u c hu hc := h.freeVar?_relabel ⟨s.deref u, hu.trans (reaches_deref hs u), hc⟩
  binder_known u hu v hv :=
    ReachesVar.lt hw ht (Or.inr ⟨s.deref u, hu.trans (reaches_deref hs u), hv⟩)
  free_known _ _ _ _ _ hf := hw.var_lt hf
  injective := h.var_inj

/-- The variables of a copy stand for those of its original, in the same order. -/
theorem GraphCopy.freeVars (h : s.GraphCopy s' opts t t' onVar onCell)
    (hs : s.Acyclic) (hs' : s'.Acyclic) (hw : s.WellFormed) (ht : s.Scoped t) :
    s'.freeVars t' = (s.freeVars t).map onVar := by
  rw [h.result]
  exact (h.mirror hs hs' hw ht).freeVars hs hs' .refl

/-! ## Instances -/

/-- **An instance of a term that was generalized at a level**, with its variables
drawn at another: `onVar` and `onCell` say what stands in the instance for the
variables and the cells of the term. -/
structure Instance (s s' : Store) (level drawn : Level) (t t' : Ty)
    (onVar : VarId → VarId) (onCell : CellId → CellId) : Prop where
  /-- Nothing that existed before has changed. -/
  within : s.Within s'
  /-- Behind links the instance is the term with its variables and cells replaced. -/
  term : (s'.expand t').unplaced = (s.expand t).relabel onVar onCell
  /-- The variables are replaced place by place. -/
  freeVars : s'.freeVars t' = (s.freeVars t).map onVar
  injective : Set.InjOn onVar {v | v ∈ s.freeVars t}
  /-- A variable above the level gives way to a new one, and so do the cells that hold
  it. -/
  replaced : ∀ v ∈ s.freeVars t, (s.var v).level.above level = true →
    (s.vars.size ≤ onVar v ∧ s'.vars[onVar v]? = some ⟨drawn, (s.var v).constraints⟩) ∧
      ∀ c, s.ReachesCell t c → s.freeVar? c = some v →
        s.cells.size ≤ onCell c ∧ s'.freeVar? (onCell c) = some (onVar v)
  /-- Any other variable is kept, with its cells. -/
  kept : ∀ v, s.ReachesVar t v →
    (v ∈ s.freeVars t → (s.var v).level.above level = false) →
    (onVar v = v ∧ s'.var v = s.var v) ∧ ∀ c, s.ReachesCell t c →
      s.freeVar? c = some v → onCell c = c

/-- A term without variables above the level is its own instance. -/
theorem instance_self (h : (s.generalize level t).vars = []) :
    s.Instance s level drawn t t id id where
  within := .refl s
  term := rfl
  freeVars := (List.map_id _).symm
  injective := Function.injective_id.injOn
  replaced v hv habove := absurd habove (List.filter_eq_nil_iff.1 h v hv)
  kept _ _ _ := ⟨⟨rfl, rfl⟩, fun _ _ _ => rfl⟩

theorem selects_generalized {x : Var} :
    (instanceOptions (s.generalize level t).vars drawn).selects v x = true ↔
      v ∈ s.freeVars t ∧ (s.var v).level.above level = true := by
  simp [instanceOptions, generalize]

/-- **A copy that selects what was quantified is an instance.** -/
theorem GraphCopy.toInstance
    (h : s.GraphCopy s' (instanceOptions (s.generalize level t).vars drawn) t t' onVar
      onCell) (hs : s.Acyclic)
    (hs' : s'.Acyclic) (hw : s.WellFormed) (ht : s.Scoped t) :
    s.Instance s' level drawn t t' onVar onCell where
  within := h.within
  term := h.result ▸ (h.mirror hs hs' hw ht).expand hs hs' .refl
  freeVars := h.freeVars hs hs' hw ht
  injective := h.var_inj.mono fun _ hv => (reachesVar_of_mem_freeVars hs hv).lt hw ht
  replaced v hv habove := by
    have hsel :
        (instanceOptions (s.generalize level t).vars drawn).selects v (s.var v) = true :=
      selects_generalized.2 ⟨hv, habove⟩
    refine ⟨h.var_new v (reachesVar_of_mem_freeVars hs hv) hsel,
      fun c hc hf => ⟨?_, h.freeVar? hc hf⟩⟩
    refine h.cell_new c hc fun w hw => ?_
    cases hf.symm.trans hw
    exact hsel
  kept v hv hbelow := by
    have hsel : (instanceOptions (s.generalize level t).vars drawn).selects v (s.var v) =
        false := by
      refine Bool.eq_false_of_not_eq_true fun hsel => ?_
      obtain ⟨hfree, habove⟩ := selects_generalized.1 hsel
      rw [hbelow hfree] at habove
      cases habove
    exact ⟨⟨(h.var_kept v hv).2 hsel, h.within.var (hv.lt hw ht)⟩,
      fun c hc hf => h.cell_kept c v hc hf hsel⟩

/-- **What an instance quantifies** when it is generalized at the level of the term:
what was replaced, or nothing. -/
theorem Instance.generalize
    (h : s.Instance s' level drawn t t' onVar onCell) (hs : s.Acyclic) :
    (s'.generalize level t').vars =
      if drawn.above level then (s.generalize level t).vars.map onVar else [] := by
  -- What stands for a variable is as high as it was, or as high as it was drawn.
  have hlevel : ∀ v ∈ s.freeVars t, (s'.var (onVar v)).level.above level =
      ((s.var v).level.above level && drawn.above level) := by
    intro v hv
    cases habove : (s.var v).level.above level with
    | true =>
      rw [var, Array.getD_eq_getD_getElem?, (h.replaced v hv habove).1.2]
      rfl
    | false =>
      obtain ⟨⟨hkept, hsame⟩, -⟩ :=
        h.kept v (reachesVar_of_mem_freeVars hs hv) fun _ => habove
      rw [hkept, hsame, habove]
      rfl
  have hfilter : (s'.generalize level t').vars =
      ((s.freeVars t).filter fun v => (s.var v).level.above level &&
        drawn.above level).map onVar := by
    rw [Store.generalize, h.freeVars, List.filter_map]
    exact congrArg (List.map onVar) (List.filter_congr hlevel)
  rw [hfilter]
  cases drawn.above level with
  | true => simp only [Bool.and_true, if_true, Store.generalize]
  | false => simp

/-- **Instances of a generalized term leak no quantified variable and capture no
other**, whatever the level at which the term was generalized and that at which the
instance is made. -/
theorem instantiate_generalize (hs : s.Acyclic) (hw : s.WellFormed)
    (ht : s.Scoped t) (hc : s.Complete t) (level drawn : Level) :
    ∃ t' s' onVar onCell, s.instantiate (s.generalize level t) drawn = (.ok t', s') ∧
      s.Instance s' level drawn t t' onVar onCell ∧
      (drawn.above level = false → (s'.generalize level t').vars = []) ∧
      (drawn.above level = true →
        (s'.generalize level t').vars = (s.generalize level t).vars.map onVar) := by
  suffices hinst : ∃ t' s' onVar onCell,
      s.instantiate (s.generalize level t) drawn = (.ok t', s') ∧
      s.Instance s' level drawn t t' onVar onCell by
    obtain ⟨t', s', onVar, onCell, hrun, h⟩ := hinst
    refine ⟨t', s', onVar, onCell, hrun, h, fun hlow => ?_, fun habove => ?_⟩
    · rw [h.generalize hs, hlow]
      rfl
    · rw [h.generalize hs, habove]
      rfl
  unfold instantiate
  split
  · exact ⟨t, s, id, id, rfl, instance_self (List.isEmpty_iff.1 ‹_›)⟩
  · obtain ⟨t', s', onVar, onCell, hrun, hcopy, -, hs'⟩ := exists_graphCopy hw ht hc _
    exact ⟨t', s', onVar, onCell, hrun, hcopy.toInstance hs (hs' hs) hw ht⟩

/-- Of two variables, of which a method quantifies the one that is below the level,
the other one is replaced. -/
theorem instantiate_generalize_linked :
    linkedExample.freeVars linkedExampleTerm = [1, 0] ∧
      (linkedExample.generalize (.depth 1) linkedExampleTerm).vars = [1] ∧
      ∃ t' s' onVar onCell,
        linkedExample.instantiate
            (linkedExample.generalize (.depth 1) linkedExampleTerm) (.depth 2) =
            (.ok t', s') ∧
          linkedExample.Instance s' (.depth 1) (.depth 2)
            linkedExampleTerm t' onVar onCell ∧
          (s'.generalize (.depth 1) t').vars = [onVar 1] := by
  have hcomplete : linkedExample.Complete linkedExampleTerm :=
    complete_of_everywhere (by decide) (by decide)
  have hquantified :
      (linkedExample.generalize (.depth 1) linkedExampleTerm).vars = [1] := by decide
  obtain ⟨t', s', onVar, onCell, hrun, hinst, -, habove⟩ :=
    instantiate_generalize linkedExample_acyclic (by decide)
      (by decide) hcomplete (.depth 1) (.depth 2)
  refine ⟨by decide, hquantified, t', s', onVar, onCell, hrun, hinst, ?_⟩
  rw [habove (by decide), hquantified]
  rfl

end TypeGraph.Store
