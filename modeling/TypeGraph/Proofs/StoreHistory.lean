import TypeGraph.Generalize
import TypeGraph.Proofs.CopiedStore
import TypeGraph.Proofs.Keys
import TypeGraph.Proofs.Occurrence

/-!
# What can become of a store

Whatever is done to a store, variables and cells are only added; levels are only
lowered, and constraints only added; and a link stays what it is (`Evolves`). Each
request keeps the store well-formed besides, given terms of the store, and what it
returns is again of the store. That holds of those that fail, too: a copy that stops
halfway leaves cells behind that nothing refers to.
-/

namespace TypeGraph

namespace Level

/-- No level is above itself. -/
theorem above_self (a : Level) : a.above a = false := by
  cases a <;> simp [above]

theorem not_above_trans {a b c : Level} (hab : a.above b = false)
    (hbc : b.above c = false) : a.above c = false := by
  cases a <;> cases b <;> cases c <;> simp_all [above]
  omega

/-- The lower of two levels is not above the first. -/
theorem min_not_above (a b : Level) : (a.min b).above a = false := by
  rw [min]
  split
  · cases a <;> cases b <;> simp_all [above]
    omega
  · exact above_self a

end Level

namespace Store

variable {s s' : Store} {t : Ty} {c : CellId} {v : VarId} {variance : Variance}

/-! ## Changes -/

/-- **What can become of a store.** -/
structure Evolves (s s' : Store) : Prop where
  vars_le : s.vars.size ≤ s'.vars.size
  cells_le : s.cells.size ≤ s'.cells.size
  /-- The level of a variable never rises. -/
  level : ∀ v < s.vars.size, (s'.var v).level.above (s.var v).level = false
  /-- A variable loses no constraint. -/
  constraints : ∀ v < s.vars.size, ∀ c ∈ (s.var v).constraints.items,
    c ∈ (s'.var v).constraints.items
  /-- A link stays as it is. -/
  links : ∀ c variance t, s.link? c = some (variance, t) → s'.link? c = some (variance, t)

namespace Evolves

theorem trans {s₁ s₂ s₃ : Store} (h : s₁.Evolves s₂)
    (h' : s₂.Evolves s₃) : s₁.Evolves s₃ where
  vars_le := h.vars_le.trans h'.vars_le
  cells_le := h.cells_le.trans h'.cells_le
  level v hv :=
    Level.not_above_trans (h'.level v (Nat.lt_of_lt_of_le hv h.vars_le)) (h.level v hv)
  constraints v hv c hc :=
    h'.constraints v (Nat.lt_of_lt_of_le hv h.vars_le) c (h.constraints v hv c hc)
  links c variance t hl := h'.links c variance t (h.links c variance t hl)

/-- Additions change nothing. -/
theorem of_within (h : s.Within s') : s.Evolves s' where
  vars_le := h.vars_le
  cells_le := h.cells_le
  level v hv := by
    rw [h.var hv]
    exact Level.above_self _
  constraints v hv c hc := by rwa [h.var hv]
  links c variance t hl := (h.link? (lt_of_link? hl)).trans hl

theorem refl (s : Store) : s.Evolves s := of_within (.refl s)

theorem scope (h : s.Evolves s') (ht : s.Scoped t) : s'.Scoped t :=
  ht.mono h.vars_le h.cells_le

/-- What can be reached through links can still be reached. -/
theorem reaches (h : s.Evolves s') {u : Ty} (hr : s.Reaches t u) :
    s'.Reaches t u := hr.mono h.links

end Evolves

/-! ## Requests -/

theorem var_modify {w : VarId} (hw : w < s.vars.size) (v : VarId) (f : Var → Var) :
    ({ s with vars := s.vars.modify v f } : Store).var w = if v = w then
      f (s.var w) else s.var w := by
  rw [var, var, Array.getD_eq_getD_getElem?, Array.getD_eq_getD_getElem?,
    Array.getElem?_modify, Array.getElem?_eq_getElem hw]
  split <;> rfl

/-- A variable may be changed so that its level does not rise and it loses no
constraint. -/
theorem Evolves.modifyVar (v : VarId) {f : Var → Var}
    (hlevel : ∀ x, (f x).level.above x.level = false)
    (hconstraints : ∀ x : Var, ∀ c ∈ x.constraints.items, c ∈ (f x).constraints.items) :
    s.Evolves { s with vars := s.vars.modify v f } where
  vars_le := by simp
  cells_le := le_rfl
  level w hw := by
    rw [var_modify hw]
    split
    · exact hlevel _
    · exact Level.above_self _
  constraints w hw c hc := by
    rw [var_modify hw]
    split
    · exact hconstraints _ c hc
    · exact hc
  links _ _ _ hl := hl

theorem Evolves.lowerLevel (s : Store) (v : VarId) (level : Level) :
    s.Evolves (s.lowerLevel v level) :=
  modifyVar v (fun x => x.level.min_not_above level) fun _ _ hc => hc

theorem Evolves.constrain (s : Store) (v : VarId) (c : Constraint) :
    s.Evolves (s.constrain v c) :=
  modifyVar v (fun x => x.level.above_self) fun _ _ hc => Keyed.mem_items_insertNew hc c

/-- A cell that is linked refuses any other link. -/
theorem setLink_linked {u : Ty} (h : s.link? c = some (variance, u))
    (variance' : Variance) (t : Ty) :
    s.setLink c variance' t = .error .relinked := by
  rw [setLink, h]

/-- The store after a request to link a cell, which may have been refused. -/
def linked (s : Store) (c : CellId) (variance : Variance) (t : Ty) : Store :=
  match s.setLink c variance t with
  | .ok s' => s'
  | .error _ => s

theorem Evolves.linked (hc : c < s.cells.size) (hw : s.WellFormed) (ht : s.Scoped t)
    (variance : Variance) :
    s.Evolves (s.linked c variance t) ∧ (s.linked c variance t).WellFormed := by
  rw [Store.linked]
  split
  · rename_i s' h
    obtain ⟨v, hf⟩ := freeVar?_of_setLink hc h
    obtain ⟨hvars, hsize, hcells⟩ := setLink_changes hf h
    refine ⟨⟨hvars ▸ le_rfl, hsize.ge, ?_, ?_, ?_⟩, hw.setLink hf ht h⟩
    · intro w _
      rw [var, var, hvars]
      exact Level.above_self _
    · intro w _ d hd
      rwa [var, hvars]
    · intro d variance' u hl
      have hd : d ≠ c := by
        rintro rfl
        rw [link?_eq_none_of_freeVar? hf] at hl
        cases hl
      rw [link?_eq_some] at hl ⊢
      rw [hcells, if_neg hd, hl]
  · exact ⟨.refl s, hw⟩

/-- A copy is made or fails. It adds to the store in both cases. -/
theorem fresh_adds (hw : s.WellFormed) (ht : s.Scoped t) (opts : CopyOptions) :
    s.Within (s.fresh opts t).2 ∧ (s.fresh opts t).2.WellFormed ∧
      ∀ t', (s.fresh opts t).1 = .ok t' → (s.fresh opts t).2.Scoped t' := by
  obtain ⟨result, q, hrun, hq, hresult⟩ := CopyTask.fresh_cases ⟨s, opts, t, hw, ht⟩
  rw [hrun]
  refine ⟨hq.within, hq.wellFormed, fun t' h => ?_⟩
  cases h
  rw [hresult.2]
  exact hq.scope_copyOf ht

theorem instantiate_adds {scheme : TypeScheme} (hw : s.WellFormed)
    (ht : s.Scoped scheme.type) (level : Level) :
    s.Within (s.instantiate scheme level).2 ∧ (s.instantiate scheme level).2.WellFormed ∧
      ∀ t', (s.instantiate scheme level).1 = .ok t' →
        (s.instantiate scheme level).2.Scoped t' := by
  rw [instantiate]
  split
  · refine ⟨.refl s, hw, fun t' h => ?_⟩
    cases h
    exact ht
  · exact fresh_adds hw ht _

/-- The free variables of a term have been drawn. -/
theorem lt_of_mem_freeVars (hw : s.WellFormed) (h : v ∈ s.freeVars t) :
    v < s.vars.size := by
  have hheld : ∀ n bound (t : Ty), v ∈ s.occurrences n bound t →
      ∃ c, s.freeVar? c = some v := by
    intro n
    induction n with
    | zero => exact fun bound t hv => absurd hv List.not_mem_nil
    | succ n ih =>
      intro bound t hv
      rw [occurrences, occurrencesLayer] at hv
      split at hv
      · rename_i c _
        exact ⟨c, Option.mem_toList.1 (List.mem_of_mem_filter hv)⟩
      · rcases List.mem_append.1 hv with hv | hv
        · exact ih _ _ hv
        · exact ih _ _ hv
      · obtain ⟨u, -, hu⟩ := List.mem_flatMap.1 hv
        exact ih _ _ hu
  obtain ⟨c, hc⟩ := hheld _ _ _ (List.mem_eraseDups.1 h)
  exact hw.var_lt hc

end Store

end TypeGraph
