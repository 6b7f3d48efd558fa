import TypeGraph.Proofs.Attempt
import TypeGraph.Proofs.Generalization
import TypeGraph.Proofs.LocalCopies
import TypeGraph.Proofs.MirrorText
import TypeGraph.Proofs.StoreHistory

/-!
# The text of copies

What can be read off a term in larger stores and off its copies. A store that only
grows mirrors its terms in themselves, so their variables and their texts stay
(`Within.freeVars`, `Within.render`). A copy has other variables but the constraints
of the old ones, and so the text of its original (`GraphCopy.render`).

The two together say what instances of a scheme look like that are made one after the
other: each of them has the text of the type when it is made, and keeps it when the
store grows by the next one (`exists_instances_render`).
-/

namespace TypeGraph.Store

variable {s s' : Store} {opts : CopyOptions} {t t' : Ty} {onVar : VarId → VarId}
  {onCell : CellId → CellId} {v : VarId}

/-! ## Larger stores -/

/-- What is added to a store does not undo cycles. -/
theorem Within.acyclic (h : s.Within s') (hs' : s'.Acyclic) : s.Acyclic :=
  hs'.of_links fun _ _ _ hl => (h.link? (lt_of_link? hl)).trans hl

/-- **A larger store mirrors the terms of the smaller one in themselves.** -/
theorem Within.mirror (h : s.Within s') (hs' : s'.Acyclic)
    (hw : s.WellFormed) (ht : s.Scoped t) :
    Mirror s s' (s.Reaches t) {v | v < s.vars.size} id id id where
  settled u hu := hu.trans (reaches_deref (h.acyclic hs') u)
  subterm u hu w hmem := hu.trans (reaches_of_mem_view (h.acyclic hs') hmem)
  deref u hu := h.deref (h.acyclic hs') hs' hw (ht.of_reaches hw hu)
  shape u _ := by
    rw [Shape.relabel_id, Shape.map_id]
    rfl
  freeVar u c hu hc := by
    have hc : s.ReachesCell t c :=
      ⟨s.deref u, hu.trans (reaches_deref (h.acyclic hs') u), hc⟩
    rw [Option.map_id, id, id, h.freeVar? (hc.lt hw ht)]
  binder_known u hu v hv :=
    ReachesVar.lt hw ht (Or.inr ⟨s.deref u,
      hu.trans (reaches_deref (h.acyclic hs') u), hv⟩)
  free_known _ _ _ _ _ hf := hw.var_lt hf
  injective := Function.injective_id.injOn

theorem Within.freeVars (h : s.Within s') (hs' : s'.Acyclic)
    (hw : s.WellFormed) (ht : s.Scoped t) :
    s'.freeVars t = s.freeVars t :=
  ((h.mirror hs' hw ht).freeVars (h.acyclic hs') hs' .refl).trans (List.map_id _)

theorem Within.render (h : s.Within s') (hs' : s'.Acyclic)
    (hw : s.WellFormed) (ht : s.Scoped t) :
    s'.render t = s.render t :=
  (h.mirror hs' hw ht).render (h.acyclic hs') hs' .refl fun _ hv =>
    congrArg Var.constraints (h.var hv)

/-! ## Copies -/

namespace GraphCopy

variable (h : s.GraphCopy s' opts t t' onVar onCell)

include h

/-- What stands for a variable in a copy has its constraints. -/
theorem constraints (hw : s.WellFormed) (ht : s.Scoped t) (hv : s.ReachesVar t v) :
    (s'.var (onVar v)).constraints = (s.var v).constraints := by
  cases hsel : opts.selects v (s.var v) with
  | true =>
    rw [var, Array.getD_eq_getD_getElem?, (h.var_new v hv hsel).2, Option.getD_some]
  | false => rw [(h.var_kept v hv).2 hsel, h.within.var (hv.lt hw ht)]

/-- **A copy has the text of its original**: variables get their names in the same
order, and have the same constraints. -/
theorem render (hs : s.Acyclic) (hs' : s'.Acyclic) (hw : s.WellFormed) (ht : s.Scoped t) :
    s'.render t' = s.render t := by
  have hmirror := h.mirror hs hs' hw ht
  -- Of variables that are not in the term the copy says nothing, so they must not be
  -- among those that are known.
  have hreached : Mirror s s' (s.Reaches t) {v | s.ReachesVar t v}
      (Ty.relabel onVar onCell) onVar onCell :=
    { hmirror with
      binder_known :=
        fun u hu v hv => Or.inr ⟨s.deref u, hu.trans (reaches_deref hs u), hv⟩
      free_known := fun u c v hu hc hf =>
        Or.inl ⟨c, ⟨s.deref u, hu.trans (reaches_deref hs u), hc⟩, hf⟩
      injective := h.var_inj.mono fun v hv => ReachesVar.lt hw ht hv }
  rw [h.result]
  exact hreached.render hs hs' .refl fun v hv => h.constraints hw ht hv

end GraphCopy

/-- A complete term can be copied, and the copy is shown as the term is. -/
theorem exists_fresh_render (hs : s.Acyclic) (hw : s.WellFormed)
    (ht : s.Scoped t) (hc : s.Complete t) (opts : CopyOptions) :
    ∃ t' s', s.fresh opts t = (.ok t', s') ∧ s'.Acyclic ∧ s'.render t' = s.render t := by
  obtain ⟨t', s', onVar, onCell, hrun, hcopy, -, hs'⟩ := exists_graphCopy hw ht hc opts
  exact ⟨t', s', hrun, hs' hs, hcopy.render hs (hs' hs) hw ht⟩

/-! ## Instances -/

theorem exists_instance_render (hs : s.Acyclic) (hw : s.WellFormed)
    (ht : s.Scoped t) (hc : s.Complete t) (vars : List VarId) (level : Level) :
    ∃ t' s', s.instantiate ⟨vars, t⟩ level = (.ok t', s') ∧ s'.Acyclic ∧
      s'.render t' = s.render t := by
  unfold instantiate
  split
  · exact ⟨t, s, rfl, hs, rfl⟩
  · exact exists_fresh_render hs hw ht hc _

/-- Make an instance of a scheme. -/
def instanceOf (scheme : TypeScheme) (level : Level) : StoreM Ty :=
  ExceptT.mk (modifyGet fun s => s.instantiate scheme level)

/-- Make an instance at each of the levels, one after the other. -/
def instances (scheme : TypeScheme) (levels : List Level) : StoreM (List Ty) :=
  levels.mapM (instanceOf scheme)

/-- Any number of instances can be made, at any levels. In the store that the last one
leaves they are all shown as the type of the scheme was. -/
theorem exists_instances_render (hs : s.Acyclic) (hw : s.WellFormed)
    (ht : s.Scoped t) (hc : s.Complete t) (vars : List VarId) (levels : List Level) :
    ∃ made s', (instances ⟨vars, t⟩ levels).outcome s = (.ok made, s') ∧
      made.length = levels.length ∧
      s.Within s' ∧ s'.Acyclic ∧ ∀ t' ∈ made, s'.render t' = s.render t := by
  induction levels generalizing s with
  | nil => exact ⟨[], s, rfl, rfl, .refl s, hs, by simp⟩
  | cons level levels ih =>
    obtain ⟨t₁, s₁, hfirst, hs₁, hrender⟩ := exists_instance_render hs hw ht hc vars level
    have hadds :=
      instantiate_adds hw (show s.Scoped (⟨vars, t⟩ : TypeScheme).type from ht) level
    rw [hfirst] at hadds
    obtain ⟨hwithin, hw₁, hscope⟩ := hadds
    have hsame : s₁.render t = s.render t := hwithin.render hs₁ hw ht
    obtain ⟨rest, s', hrest, hlength, hwithin', hs', hrenders⟩ :=
      ih hs₁ hw₁ (hwithin.scope ht) (hwithin.complete hw ht hc)
    refine ⟨t₁ :: rest, s', ?_, congrArg (· + 1) hlength, hwithin.trans hwithin', hs', ?_⟩
    · have hmade : (instanceOf ⟨vars, t⟩ level).outcome s = (.ok t₁, s₁) := hfirst
      rw [instances, List.mapM_cons]
      exact (Attempt.outcome_bind_ok hmade).trans (Attempt.outcome_bind_ok hrest)
    · -- What the first one is shown as does not change when the others are made.
      refine List.forall_mem_cons.2 ⟨?_, fun t' ht' => (hrenders t' ht').trans hsame⟩
      rw [hwithin'.render hs' hw₁ (hscope t₁ rfl), hrender]

/-- **Copies and instances are shown as their originals**, with the names of variables
and what is said about their constraints, and whatever else is copied later. -/
theorem copies_render (hs : s.Acyclic) (hw : s.WellFormed) (ht : s.Scoped t)
    (hc : s.Complete t) :
    (∀ opts, ∃ t' s', s.fresh opts t = (.ok t', s') ∧ s'.render t' = s.render t) ∧
      ∀ vars levels, ∃ made s', (instances ⟨vars, t⟩ levels).outcome s = (.ok made, s') ∧
        made.length = levels.length ∧ ∀ t' ∈ t :: made, s'.render t' = s.render t := by
  refine ⟨fun opts => ?_, fun vars levels => ?_⟩
  · obtain ⟨t', s', hrun, -, hrender⟩ := exists_fresh_render hs hw ht hc opts
    exact ⟨t', s', hrun, hrender⟩
  · obtain ⟨made, s', hrun, hlength, hwithin, hs', hrenders⟩ :=
      exists_instances_render hs hw ht hc vars levels
    exact ⟨made, s', hrun, hlength,
      List.forall_mem_cons.2 ⟨hwithin.render hs' hw ht, hrenders⟩⟩

/-- A variable with two constraints and one with none, a custom type of both behind
links, and on top of it a field that is hidden by another one of its name. -/
def constrainedExample : Store :=
  ⟨#[⟨.depth 1, .ofList [.num, .ord]⟩, ⟨.unbounded, .empty⟩],
    #[.free 0, .free 1,
      .link .covariant (.of (.custom (.applied "pair") [.of (.cell 0), .of (.cell 1)])),
        .link .covariant (.of (.meth
          { name := "m", scheme := ⟨[], .of (.cell 0)⟩ } (.of (.cell 2))))]⟩

def constrainedExampleTerm : Ty :=
  .of (.meth { name := "m", scheme := ⟨[1], .of (.list .array (.of (.cell 1)))⟩,
               optional := true } (.of (.cell 3)))

/-- The names go by the fields that can be seen, before the base, and so they do in
all copies. -/
theorem copies_render_constrained :
    let text :=
      "pair('b, 'a).\x7bm? : ['a]\x7d where 'b is a number type and an orderable type"
    constrainedExample.render constrainedExampleTerm = text ∧
      (∀ opts, ∃ t' s', constrainedExample.fresh opts constrainedExampleTerm =
        (.ok t', s') ∧ s'.render t' = text) ∧
      ∀ levels, ∃ made s',
        (instances ⟨[0, 1], constrainedExampleTerm⟩ levels).outcome constrainedExample =
            (.ok made, s') ∧
          made.length = levels.length ∧ ∀ t' ∈ constrainedExampleTerm :: made,
            s'.render t' = text := by
  intro text
  have htext : constrainedExample.render constrainedExampleTerm = text := by
    decide +kernel
  obtain ⟨hcopies, hinstances⟩ :=
    copies_render (acyclic_of_rank id (by decide)) (by decide) (by decide)
      (complete_of_everywhere (by decide) (by decide)) (s := constrainedExample)
        (t := constrainedExampleTerm)
  rw [htext] at hcopies hinstances
  exact ⟨htext, hcopies, hinstances [0, 1]⟩

end TypeGraph.Store
