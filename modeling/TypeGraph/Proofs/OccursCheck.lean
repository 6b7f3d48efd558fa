import TypeGraph.Proofs.Orderability

/-!
# What the occurs check knows

The occurs check finds the variables of all free cells that can be reached. The free
variables of a term are fewer: a method may quantify a variable in its scheme, and
then the cells that hold it do not count as far as one comes to them through that
scheme. A variable is therefore free just when there is a way to one of its cells that
enters no scheme which quantifies it (`mem_freeVars_iff`). Where no scheme quantifies
the variable, every way is of that kind, and the two notions agree
(`occurs_iff_free`).

Links act as substitution. After a cell was linked, one comes to what one came to
before, and, if one came to the cell, to what can be reached from the target. The cell
itself is not free any more, so its variable occurs only where another cell holds it,
or in the target (`occurs_setLink`).
-/

namespace TypeGraph.Store

variable {s s' : Store} {t u : Ty} {c d : CellId} {v w : VarId} {variance : Variance}

/-! ## Ways that enter no scheme of a variable -/

/-- One step down that does not enter a scheme which quantifies `v`. The inner type of
a method is outside of its scheme. -/
inductive OpenStep (s : Store) (v : VarId) : Ty → Ty → Prop
  | child {t u : Ty} (h : u ∈ t.shape.children) (hv : v ∉ t.shape.binders) :
    OpenStep s v t u
  | inner {t u : Ty} {m : Method Ty} (h : t.shape = .meth m u) : OpenStep s v t u
  | link {t u : Ty} {c : CellId} {variance : Variance} (hc : t.shape = .cell c)
      (hl : s.link? c = some (variance, u)) : OpenStep s v t u

/-- A node over the cell can be reached by such steps. -/
def OpenTo (s : Store) (v : VarId) (t : Ty) (c : CellId) : Prop :=
  ∃ u, Relation.ReflTransGen (s.OpenStep v) t u ∧ u.shape = .cell c

theorem OpenStep.step (h : s.OpenStep v t u) : s.Step t u := by
  cases h with
  | child h _ => exact .child h
  | inner h => exact .child (Shape.inner_mem_children h)
  | link hc hl => exact .link hc hl

theorem Step.openStep (h : s.Step t u) (hv : v ∉ t.shape.binders) : s.OpenStep v t u := by
  cases h with
  | child h => exact .child h hv
  | link hc hl => exact .link hc hl

theorem OpenTo.reachesCell (h : s.OpenTo v t c) : s.ReachesCell t c := by
  obtain ⟨u, hu, hc⟩ := h
  exact ⟨u, Relation.ReflTransGen.mono (fun _ _ hstep => OpenStep.step hstep) _ _ hu, hc⟩

/-- If nothing that can be reached quantifies the variable, every way is open to it. -/
theorem ReachesCell.openTo (h : s.ReachesCell t c)
    (hv : ∀ u, s.Reaches t u → v ∉ u.shape.binders) :
    s.OpenTo v t c := by
  obtain ⟨u, hu, hc⟩ := h
  refine ⟨u, ?_, hc⟩
  clear hc
  induction hu with
  | refl => exact .refl
  | tail hprev hstep ih => exact ih.tail (hstep.openStep (hv _ hprev))

theorem openTo_deref (hs : s.Acyclic) (h : s.OpenTo v (s.deref t) c) :
    s.OpenTo v t c := by
  induction t using chainInduction hs with
  | linked t d variance u hd hl ih =>
    rw [deref_link hs hd hl] at h
    obtain ⟨x, hx, hc⟩ := ih h
    exact ⟨x, hx.head (.link hd hl), hc⟩
  | settled t hset =>
    rw [deref_settled hset] at h
    exact h

theorem OpenTo.of_step (hs : s.Acyclic) (hstep : s.OpenStep v (s.deref t) u)
    (h : s.OpenTo v u c) :
    s.OpenTo v t c := by
  apply openTo_deref hs
  obtain ⟨x, hx, hc⟩ := h
  exact ⟨x, hx.head hstep, hc⟩

/-! ## Free variables -/

/-- The bound variables are left out wherever they occur. -/
theorem openTo_of_mem_freeOccurrences (hs : s.Acyclic) {bound : List VarId}
    (h : v ∈ s.freeOccurrences bound t) :
    v ∉ bound ∧ ∃ c, s.OpenTo v t c ∧ s.freeVar? c = some v := by
  induction t using viewInduction hs generalizing bound with
  | layer t ih =>
    rw [freeOccurrences_eq hs, occurrencesLayer] at h
    -- Outside of methods a step down keeps what is bound.
    have hplain : (s.view t).binders = [] →
        v ∈ (s.view t).children.flatMap (s.freeOccurrences bound) →
        v ∉ bound ∧ ∃ c, s.OpenTo v t c ∧ s.freeVar? c = some v := by
      intro hb hv
      obtain ⟨u, hu, hv⟩ := List.mem_flatMap.1 hv
      obtain ⟨hbound, c, hc, hf⟩ := ih u hu hv
      exact ⟨hbound, c, hc.of_step hs (.child hu (by rw [view] at hb; simp [hb])), hf⟩
    cases hx : s.view t <;> rw [hx] at h hplain ih
    case cell c =>
      obtain ⟨hf, hbound⟩ := List.mem_filter.1 h
      exact ⟨by simpa using hbound, c, openTo_deref hs ⟨_, .refl, hx⟩, by simpa using hf⟩
    case meth m inner =>
      rcases List.mem_append.1 h with h | h
      · obtain ⟨hbound, c, hc, hf⟩ := ih m.scheme.type (by simp [Shape.children]) h
        rw [List.mem_append, not_or] at hbound
        have hstep : s.OpenStep v (s.deref t) m.scheme.type := by
          change (s.deref t).shape = _ at hx
          exact .child (by simp [hx, Shape.children]) (by rw [hx]; exact hbound.1)
        exact ⟨hbound.2, c, hc.of_step hs hstep, hf⟩
      · obtain ⟨hbound, c, hc, hf⟩ := ih inner (by simp [Shape.children]) h
        exact ⟨hbound, c, hc.of_step hs (.inner hx), hf⟩
    all_goals exact hplain rfl h

/-- A term that holds others is not a cell. -/
theorem view_of_mem_children (h : u ∈ t.shape.children) : s.view t = t.shape := by
  rw [view, deref_settled]
  intro c hc
  rw [hc] at h
  exact absurd h List.not_mem_nil

/-- An open step comes to free occurrences only. -/
theorem OpenStep.mem_freeOccurrences (hs : s.Acyclic) (h : s.OpenStep v t u)
    (hu : ∀ bound, v ∉ bound → v ∈ s.freeOccurrences bound u)
    {bound : List VarId} (hb : v ∉ bound) : v ∈ s.freeOccurrences bound t := by
  cases h with
  | link hc hl =>
    rw [freeOccurrences_of_deref hs (deref_link hs hc hl)]
    exact hu bound hb
  | inner hx =>
    have hmem := Shape.inner_mem_children hx
    rw [freeOccurrences_eq hs, occurrencesLayer, view_of_mem_children hmem, hx]
    exact List.mem_append_right _ (hu bound hb)
  | child hmem hv =>
    rw [freeOccurrences_eq hs, occurrencesLayer, view_of_mem_children hmem]
    cases hx : t.shape <;> rw [hx] at hmem hv
    case cell c => exact absurd hmem List.not_mem_nil
    case meth m inner =>
      rcases List.mem_pair.1 hmem with rfl | rfl
      · refine List.mem_append_left _ (hu _ ?_)
        rw [List.mem_append, not_or]
        exact ⟨hv, hb⟩
      · exact List.mem_append_right _ (hu bound hb)
    all_goals exact List.mem_flatMap.2 ⟨u, hmem, hu bound hb⟩

theorem mem_freeOccurrences_of_openTo (hs : s.Acyclic) (h : s.OpenTo v t c)
    (hf : s.freeVar? c = some v) {bound : List VarId} (hb : v ∉ bound) :
    v ∈ s.freeOccurrences bound t := by
  obtain ⟨u, hu, hc⟩ := h
  induction hu using Relation.ReflTransGen.head_induction_on generalizing bound with
  | refl =>
    have hview : s.view u = .cell c := by
      rw [view, deref_settled, hc]
      intro d hd
      cases hc.symm.trans hd
      exact link?_eq_none_of_freeVar? hf
    rw [freeOccurrences_eq hs, occurrencesLayer, hview]
    simpa [hf] using hb
  | head hstep _ ih => exact hstep.mem_freeOccurrences hs (fun bound hb => ih hb) hb

/-- **A variable is free in a term if there is an open way to a cell that holds it.** -/
theorem mem_freeVars_iff (hs : s.Acyclic) :
    v ∈ s.freeVars t ↔ ∃ c, s.OpenTo v t c ∧ s.freeVar? c = some v := by
  rw [freeVars, List.mem_eraseDups]
  constructor
  · intro h
    exact (openTo_of_mem_freeOccurrences hs h).2
  · rintro ⟨c, hc, hf⟩
    exact mem_freeOccurrences_of_openTo hs hc hf List.not_mem_nil

/-- **The occurs check and the free variables of a term agree**, as far as no method
quantifies the variable. The check finds just the variables of free cells that can be
reached, and no variable is listed twice. -/
theorem occurs_iff_free (hs : s.Acyclic) (t : Ty) :
    (∀ v ∈ s.freeVars t, s.occurs v t = true) ∧
      (∀ v, s.occurs v t = true →
        (∀ u, s.Reaches t u → v ∉ u.shape.binders) → v ∈ s.freeVars t) ∧
      (s.freeVars t).Nodup ∧
      ∀ v, s.occurs v t = true ↔ ∃ c, s.ReachesCell t c ∧ s.freeVar? c = some v := by
  refine ⟨fun v hv => ?_, fun v hv hbinders => ?_, s.freeVars_nodup t,
    fun v => occurs_iff hs⟩
  · obtain ⟨c, hc, hf⟩ := (mem_freeVars_iff hs).1 hv
    exact (occurs_iff hs).2 ⟨c, hc.reachesCell, hf⟩
  · obtain ⟨c, hc, hf⟩ := (occurs_iff hs).1 hv
    exact (mem_freeVars_iff hs).2 ⟨c, hc.openTo hbinders, hf⟩

/-- Two variables. The first one is held by two cells, and a fourth cell is linked to
a list of the first cell. -/
def quantifiedExample : Store :=
  ⟨#[⟨.depth 1, .empty⟩, ⟨.unbounded, .empty⟩],
    #[.free 0, .free 1, .free 0, .link .covariant (.of (.list .array (.of (.cell 0))))]⟩

/-- A method that quantifies the first variable, on top of a type. -/
def quantifiedExampleTerm (inner : Ty) : Ty :=
  .of (.meth
    { name := "id",
      scheme := ⟨[0], .of (.arrow [⟨false, "", .of (.cell 2)⟩] (.of (.cell 1)))⟩ }
    inner)

theorem quantifiedExample_acyclic : quantifiedExample.Acyclic :=
  acyclic_of_rank id (by decide)

/-- The variable that the method quantifies is free if it occurs below the method,
behind a link, and not if it occurs in the scheme only. The check finds it in both
terms. -/
theorem occurs_iff_free_quantified :
    quantifiedExample.freeVars (quantifiedExampleTerm (.of (.cell 3))) = [1, 0] ∧
      quantifiedExample.freeVars (quantifiedExampleTerm .unit) = [1] ∧
      (∀ v ∈ quantifiedExample.freeVars (quantifiedExampleTerm (.of (.cell 3))),
        quantifiedExample.occurs v (quantifiedExampleTerm (.of (.cell 3))) = true) ∧
      quantifiedExample.occurs 0 (quantifiedExampleTerm .unit) = true ∧
      ∃ c, quantifiedExample.ReachesCell (quantifiedExampleTerm .unit) c ∧
        quantifiedExample.freeVar? c = some 0 := by
  obtain ⟨hfound, -, -, -⟩ :=
    occurs_iff_free quantifiedExample_acyclic (quantifiedExampleTerm (.of (.cell 3)))
  obtain ⟨-, -, -, hcell⟩ :=
    occurs_iff_free quantifiedExample_acyclic (quantifiedExampleTerm .unit)
  have hocc : quantifiedExample.occurs 0 (quantifiedExampleTerm .unit) = true := by decide
  exact ⟨by decide, by decide, hfound, hocc, (hcell 0).1 hocc⟩

/-! ## Links as substitution -/

section Linked

variable (hf : s.freeVar? c = some v)
  (hcells : ∀ d, s'.cells[d]? = if d = c then some (.link variance u) else s.cells[d]?)

include hcells in
/-- The cell is not free any more, and the others hold what they held. -/
theorem freeVar?_linked_iff : s'.freeVar? d = some w ↔ d ≠ c ∧ s.freeVar? d = some w := by
  rw [freeVar?_eq_some, freeVar?_eq_some, hcells]
  by_cases hd : d = c
  · simp [hd]
  · simp [hd]

include hf hcells

/-- **With one more link one comes to what one came to before**, and, if one came to
the cell, to what can be reached from the target. -/
theorem reachesCell_linked_iff :
    s'.ReachesCell t d ↔ s.ReachesCell t d ∨ s.ReachesCell t c ∧ s.ReachesCell u d := by
  have hmono : ∀ {x y : Ty}, s.Reaches x y → s'.Reaches x y :=
    Reaches.mono fun _ _ _ hl => link?_kept hf hcells hl
  constructor
  · rintro ⟨x, hx, hd⟩
    rcases reaches_linked hcells hx with h | ⟨hc, h⟩
    · exact Or.inl ⟨x, h, hd⟩
    · exact Or.inr ⟨hc, x, h, hd⟩
  · rintro (⟨x, hx, hd⟩ | ⟨⟨y, hy, hc⟩, x, hx, hd⟩)
    · exact ⟨x, hmono hx, hd⟩
    · have hlink : s'.link? c = some (variance, u) := by rw [link?, hcells, if_pos rfl]
      exact ⟨x, ((hmono hy).tail (.link hc hlink)).trans (hmono hx), hd⟩

/-- A variable occurs after the link if another cell than the linked one holds it, or
if the linked cell can be reached and the variable occurs in the target. -/
theorem occurs_linked_iff (hs : s.Acyclic) (hu : ¬ s.ReachesCell u c) :
    s'.occurs w t = true ↔
      (∃ d, d ≠ c ∧ s.ReachesCell t d ∧ s.freeVar? d = some w) ∨
        s.ReachesCell t c ∧ s.occurs w u = true := by
  rw [occurs_iff (acyclic_linked hcells hs hu), occurs_iff hs]
  simp only [reachesCell_linked_iff hf hcells, freeVar?_linked_iff hcells]
  constructor
  · rintro ⟨d, hd | ⟨hc, hd⟩, hne, hw⟩
    · exact Or.inl ⟨d, hne, hd, hw⟩
    · exact Or.inr ⟨hc, d, hd, hw⟩
  · rintro (⟨d, hne, hd, hw⟩ | ⟨hc, d, hd, hw⟩)
    · exact ⟨d, Or.inl hd, hne, hw⟩
    · -- The target does not lead back to the cell.
      have hne : d ≠ c := fun hdc => hu (hdc ▸ hd)
      exact ⟨d, Or.inr ⟨hc, hd⟩, hne, hw⟩

end Linked

/-- **For the occurs check a link is a substitution.** A free cell can be linked to
any term from which it cannot be reached. Another variable than that of the cell then
occurs in a term if it did before, or if it occurs in the target and the cell is in
the term. The variable of the cell occurs where another cell holds it, or if it occurs
in the target and the cell is in the term. -/
theorem occurs_setLink (hs : s.Acyclic) (hf : s.freeVar? c = some v)
    (hu : ¬ s.ReachesCell u c) (variance : Variance) :
    ∃ s', s.setLink c variance u = .ok s' ∧ s'.Acyclic ∧ ∀ t,
      (∀ w, w ≠ v → (s'.occurs w t = true ↔
          s.occurs w t = true ∨ s.ReachesCell t c ∧ s.occurs w u = true)) ∧
        (s'.occurs v t = true ↔
          (∃ d, d ≠ c ∧ s.ReachesCell t d ∧ s.freeVar? d = some v) ∨
            s.ReachesCell t c ∧ s.occurs v u = true) := by
  obtain ⟨s', hlink⟩ := setLink_free hf variance u
  obtain ⟨-, -, hcells⟩ := setLink_changes hf hlink
  refine ⟨s', hlink, acyclic_linked hcells hs hu,
    fun t => ⟨fun w hw => ?_, occurs_linked_iff hf hcells hs hu⟩⟩
  -- The cell held another variable, so it was none of those in which `w` was found.
  have hothers : (∃ d, d ≠ c ∧ s.ReachesCell t d ∧ s.freeVar? d = some w) ↔
      s.occurs w t = true := by
    rw [occurs_iff hs]
    constructor
    · rintro ⟨d, -, hd, hfree⟩
      exact ⟨d, hd, hfree⟩
    · rintro ⟨d, hd, hfree⟩
      refine ⟨d, ?_, hd, hfree⟩
      rintro rfl
      exact hw (Option.some.inj (hfree.symm.trans hf))
  rw [occurs_linked_iff hf hcells hs hu, hothers]

/-- The first of the two cells of a variable is linked to a list of the other
variable. The first variable still occurs where its second cell is, and no longer
behind the link, where the other variable occurs instead. -/
theorem occurs_setLink_shared :
    let target : Ty := .of (.list .array (.of (.cell 1)))
    ¬ quantifiedExample.ReachesCell target 0 ∧
      ∃ s', quantifiedExample.setLink 0 .invariant target = .ok s' ∧
        s'.occurs 0 (quantifiedExampleTerm (.of (.cell 3))) = true ∧
        s'.occurs 0 (.of (.cell 3)) = false ∧ s'.occurs 1 (.of (.cell 3)) = true := by
  intro target
  have hreach : ¬ quantifiedExample.ReachesCell target 0 :=
    not_reachesCell_of_occurs quantifiedExample_acyclic (v := 0) rfl (by decide)
  obtain ⟨s', hlink, -, h⟩ :=
    occurs_setLink quantifiedExample_acyclic (v := 0) rfl hreach .invariant
  have hcell : quantifiedExample.ReachesCell (.of (.cell 3)) 0 :=
    ⟨.of (.cell 0), .tail (.single (.link rfl rfl)) (.child (by simp [Shape.children])),
      rfl⟩
  have hsecond :
      quantifiedExample.ReachesCell (quantifiedExampleTerm (.of (.cell 3))) 2 :=
    ⟨.of (.cell 2), .tail (.single (.child (List.mem_pair.2 (Or.inl rfl))))
      (.child (by simp [Shape.children])), rfl⟩
  refine ⟨hreach, s', hlink, (h _).2.2 (Or.inl ⟨2, by decide, hsecond, rfl⟩), ?_, ?_⟩
  · cases hlink
    decide
  · exact ((h _).1 1 (by decide)).2 (Or.inr ⟨hcell, by decide⟩)

end TypeGraph.Store
