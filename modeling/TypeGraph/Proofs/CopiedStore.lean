import TypeGraph.Proofs.GraphCopy

/-!
# Stores after a copy

The store after a copy, whether the copy succeeded or failed half-way. It is
well-formed if the original store was, and acyclic if the original store was. A copied
cell leads only to copies of what the original cell leads to
(`CopyTask.Sound.reaches_copyOf`), so a cycle through copies is the copy of a cycle.
A cell that still waits for its target leads to a hole and nowhere else, and the cells
that existed before are what they were.

A copy fails just when a hole can be reached (`fresh_fails_iff_hole`). It may have
drawn variables and cells by then, but all of these are out of reach of the terms that
existed before (`Unharmed`).
-/

namespace TypeGraph

namespace CopyTask

open Store

variable {k : CopyTask} {q : Copying} {t u w : Ty} {v : VarId}
  {c x : CellId} {content : Cell}

namespace Sound

/-- **What a cell holds while a copy is made**: what it held before, the copy of the
content of a cell, or a link to a hole. -/
theorem cell_cases (hq : k.Sound q) (hx : q.store.cells[x]? = some content) :
    k.store.cells[x]? = some content ∨
      (∃ c old, q.cells.lookup c = some x ∧ k.store.cells[c]? = some old ∧
          k.CoversContent q old ∧
        content = k.contentOf q old) ∨
      ∃ variance, content = .link variance (.of .hole) := by
  have hlt := (Array.getElem?_eq_some_iff.1 hx).1
  by_cases hold : x < k.store.cells.size
  · exact Or.inl ((hq.within.cells x hold).symm.trans hx)
  · obtain ⟨c, hc⟩ := hq.cell_noted x (Nat.le_of_not_lt hold) hlt
    obtain ⟨-, -, -, ⟨old, hc', hcov, hcopy⟩ | ⟨variance, u, -, hcopy⟩⟩ := hq.cell c x hc
    · exact Or.inr (Or.inl ⟨c, old, hc, hc', hcov, Option.some.inj (hx.symm.trans hcopy)⟩)
    · exact Or.inr (Or.inr ⟨variance, Option.some.inj (hx.symm.trans hcopy)⟩)

/-! ## The store is well-formed -/

theorem varOf_lt (hq : k.Sound q) (hv : v < k.store.vars.size) :
    k.varOf q v < q.store.vars.size := by
  rcases k.varOf_noted_or_kept q v with hnote | hkept
  · exact hq.var_lt hnote
  · rw [hkept]
    exact Nat.lt_of_lt_of_le hv hq.within.vars_le

theorem cellOf_lt (hq : k.Sound q) (hc : c < k.store.cells.size) :
    k.cellOf q c < q.store.cells.size := by
  rcases k.cellOf_noted_or_kept q c with hnote | hkept
  · exact hq.cell_lt hnote
  · rw [hkept]
    exact Nat.lt_of_lt_of_le hc hq.within.cells_le

/-- The copy of a term of the store is a term of the store. -/
theorem scope_copyOf (hq : k.Sound q) (ht : k.store.Scoped t) :
    q.store.Scoped (k.copyOf q t) := by
  induction ht with
  | @layer t here _ ih =>
    refine .layer ⟨?_, ?_⟩ ?_
    · rw [copyOf, Ty.binders_relabel, List.forall_mem_map]
      exact fun v hv => hq.varOf_lt (here.1 v hv)
    · rw [copyOf, Ty.cells_relabel, List.forall_mem_map]
      exact fun c hc => hq.cellOf_lt (here.2 c hc)
    · rw [copyOf, Ty.children_relabel, List.forall_mem_map]
      exact ih

theorem wellFormed (hq : k.Sound q) : q.store.WellFormed := by
  refine wellFormed_of_holds fun x content hx => ?_
  rcases hq.cell_cases hx with hold | ⟨c, old, -, hc, -, rfl⟩ | ⟨variance, rfl⟩
  · exact hq.within.holds (k.wellFormed.holds hold)
  · have hholds := k.wellFormed.holds hc
    cases old with
    | free v => exact hq.varOf_lt hholds
    | link variance u => exact hq.scope_copyOf hholds
  · exact .layer ⟨nofun, nofun⟩ nofun

/-! ## The store is acyclic -/

/-- **From the copy of a term one comes to copies only**, of what can be reached from
the term, or to a hole. -/
theorem reaches_copyOf (hq : k.Sound q) (hcov : k.Covers q u)
    (h : q.store.Reaches (k.copyOf q u) w) :
    w = .of .hole ∨ ∃ t, w = k.copyOf q t ∧ k.store.Reaches u t ∧ k.Covers q t := by
  induction h with
  | refl => exact Or.inr ⟨u, rfl, .refl, hcov⟩
  | @tail w w' _ hstep ih =>
    rcases ih with rfl | ⟨t, rfl, hut, ht⟩
    · cases hstep with
      | child hw => exact nomatch hw
      | link hc _ => exact nomatch hc
    · cases hstep with
      | child hw =>
        rw [copyOf, Ty.children_relabel] at hw
        obtain ⟨t', ht', rfl⟩ := List.mem_map.1 hw
        exact Or.inr ⟨t', rfl, hut.tail (.child ht'), ht.sub ht'⟩
      | @link x variance hx hl =>
        obtain ⟨c, hc, rfl⟩ := Ty.shape_relabel_eq_cell.1 hx
        cases hk : k.keeps c with
        | true =>
          -- A shared cell is free.
          obtain ⟨v, hf, -⟩ := k.keeps_iff.1 hk
          have hfree := hq.within.freeVar? (lt_of_freeVar? hf)
          rw [cellOf, hk, if_pos rfl, link?_eq_none_of_freeVar? (hfree.trans hf)] at hl
          cases hl
        | false =>
          have hnote := lookup_cellOf hk (ht.here.2.1 c (Shape.mem_cells.2 hc))
          rw [link?_eq_some] at hl
          obtain ⟨-, -, -, ⟨old, hold, hcov', hcopy⟩ | ⟨variance', u', -, hcopy⟩⟩ :=
            hq.cell c _ hnote
          · cases old with
            | free v => cases hl.symm.trans hcopy
            | link variance' u' =>
              cases hl.symm.trans hcopy
              have hstep : k.store.Step t u' := .link hc (link?_eq_some.2 hold)
              exact Or.inr ⟨u', rfl, hut.tail hstep, hcov'⟩
          · cases hl.symm.trans hcopy
            exact Or.inl rfl

/-- **A copy closes no cycle.** -/
theorem acyclic (hq : k.Sound q) (hs : k.store.Acyclic) : q.store.Acyclic := by
  rintro x variance u' hl ⟨w, hw, hwx⟩
  rcases hq.cell_cases (link?_eq_some.1 hl) with hold | ⟨c, old, hnote, hc, hcov,
    hcontent⟩ | ⟨variance', hhole⟩
  · have hscope : k.store.Scoped u' := k.wellFormed.holds hold
    refine hs x variance u' (link?_eq_some.2 hold) ?_
    exact (hq.within.reachesCell_iff k.wellFormed hscope).1 ⟨w, hw, hwx⟩
  · cases old with
    | free v => cases hcontent
    | link variance' u =>
      cases hcontent
      -- The way back to the copy of `c` is the copy of a way back to `c`.
      rcases hq.reaches_copyOf hcov hw with rfl | ⟨t, rfl, hut, ht⟩
      · cases hwx
      · obtain ⟨d, hd, hdx⟩ := Ty.shape_relabel_eq_cell.1 hwx
        have hdc : d = c := by
          cases hk : k.keeps d with
          | false =>
            exact hq.cell_inj d c x (hdx ▸ lookup_cellOf hk
              (ht.here.2.1 d (Shape.mem_cells.2 hd))) hnote
          | true =>
            obtain ⟨v, hf, -⟩ := k.keeps_iff.1 hk
            rw [cellOf, hk, if_pos rfl] at hdx
            subst hdx
            exact absurd (lt_of_freeVar? hf) (Nat.not_lt_of_ge (hq.cell c d hnote).2.2.1)
        subst hdc
        exact hs d variance u (link?_eq_some.2 hc) ⟨t, hut, hd⟩
  · cases hhole
    exact not_reachesCell_hole ⟨w, hw, hwx⟩

end Sound

end CopyTask

/-- A complete term can be copied; the store stays well-formed, and acyclic if it
was. -/
theorem Store.exists_graphCopy {s : Store} {t : Ty} (hw : s.WellFormed)
    (ht : s.Scoped t) (hc : s.Complete t) (opts : CopyOptions) :
    ∃ t' s' onVar onCell, s.fresh opts t = (.ok t', s') ∧
      s.GraphCopy s' opts t t' onVar onCell ∧
      s'.WellFormed ∧ (s.Acyclic → s'.Acyclic) := by
  obtain ⟨result, q, hrun, hq, hresult⟩ := CopyTask.fresh_cases ⟨s, opts, t, hw, ht⟩
  cases result with
  | error e => exact absurd hc hresult
  | ok t' =>
    obtain ⟨he, rfl⟩ := hresult
    exact ⟨_, q.store, _, _, hrun, he.graphCopy hq, hq.wellFormed, hq.acyclic⟩

namespace Store

variable {s s' : Store} {t : Ty}

/-! ## Failed copies -/

/-- **Nothing that the store had has changed**, neither a variable with its level and
its constraints nor a cell, and the terms of the store lead to what they led to and to
nothing that was added. -/
structure Unharmed (s s' : Store) : Prop where
  within : s.Within s'
  reaches : ∀ u w, s.Scoped u → (s'.Reaches u w ↔ s.Reaches u w)
  cells : ∀ u c, s.Scoped u → s'.ReachesCell u c → c < s.cells.size
  vars : ∀ u v, s.Scoped u → s'.ReachesVar u v → v < s.vars.size

theorem Within.unharmed (h : s.Within s') (hw : s.WellFormed) : s.Unharmed s' where
  within := h
  reaches _ _ hu := h.reaches_iff hw hu
  cells _ _ hu hc := ((h.reachesCell_iff hw hu).1 hc).lt hw hu
  vars _ _ hu hv := ((h.reachesVar_iff hw hu).1 hv).lt hw hu

/-- **A copy fails just when a hole can be reached, and does no harm.** The only error
is that the term is incomplete. Whether the copy is made or fails half-way, the store
that it leaves has all that was there before, unharmed. -/
theorem fresh_fails_iff_hole (hw : s.WellFormed) (ht : s.Scoped t) (opts : CopyOptions) :
    (∀ e, (s.fresh opts t).1 = .error e ↔
        e = .incomplete ∧ ∃ u, s.Reaches t u ∧ u.shape = .hole) ∧
      s.Unharmed (s.fresh opts t).2 := by
  obtain ⟨result, q, hrun, hq, hresult⟩ := CopyTask.run_ends ⟨s, opts, t, hw, ht⟩
  have hhole : (∃ u, s.Reaches t u ∧ u.shape = .hole) ↔
      ¬ s.Complete t := by simp [Complete]
  rw [CopyTask.fresh_of_run hrun, hhole]
  refine ⟨fun e => ?_, hq.within.unharmed hw⟩
  cases result with
  | ok t' => exact ⟨nofun, fun h => absurd hresult.1.complete h.2⟩
  | error e' =>
    obtain ⟨rfl, hincomplete⟩ := hresult
    exact ⟨fun h => ⟨(Except.error.inj h).symm, hincomplete⟩,
      fun h => congrArg Except.error h.1.symm⟩

/-- A store with a cycle through the second cell, from which the third one can be
reached. Its target lacks an element. -/
def unfinishedExample : Store :=
  ⟨#[⟨.depth 1, .empty⟩],
    #[.free 0,
      .link .covariant (.of (.tuple [.of (.cell 1), .of (.cell 0), .of (.cell 2)])),
        .link .invariant (.of (.list .array (.of .hole)))]⟩

/-- A custom type that holds a method whose type leads into the cycle. -/
def unfinishedExampleTerm : Ty :=
  .of (.custom (.applied "box")
    [.addMeth .unit { name := "m", scheme := ⟨[0], .of (.cell 1)⟩ }])

/-- The copy fails late: by then it has drawn a variable and three cells. -/
theorem fresh_fails_iff_hole_late :
    let outcome := unfinishedExample.fresh {} unfinishedExampleTerm
    outcome.1 = .error .incomplete ∧
      (∃ u, unfinishedExample.Reaches unfinishedExampleTerm u ∧ u.shape = .hole) ∧
      outcome.2.vars.size = 2 ∧ outcome.2.cells.size = 6 ∧
        unfinishedExample.Unharmed outcome.2 := by
  intro outcome
  obtain ⟨hfails, hunharmed⟩ :=
    fresh_fails_iff_hole (s := unfinishedExample) (t := unfinishedExampleTerm)
      (by decide) (by decide) {}
  have hfailed : outcome.1 = .error .incomplete := rfl
  exact ⟨hfailed, ((hfails .incomplete).1 hfailed).2, rfl, rfl, hunharmed⟩

end Store

end TypeGraph
