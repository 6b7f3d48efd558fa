import TypeGraph.Proofs.Recursion

/-!
# The occurs check and the links it guards

`occurs` finds a variable exactly when a free cell that holds it can be reached, so
a cell whose variable does not occur in a term cannot be reached from that term.
A link from the one to the other then closes no cycle: a way around it would have to
lead back to the cell from the target.

The check is about variables and cycles are about cells. Other cells may hold the same
variable; the check refuses more links than it has to, never fewer.
-/

namespace TypeGraph.Store

variable {s s' : Store} {t x y : Ty} {c d : CellId} {v : VarId} {variance : Variance}

/-- **The occurs check finds the reachable variables.** -/
theorem occurs_iff (hs : s.Acyclic) :
    s.occurs v t = true ↔ ∃ c, s.ReachesCell t c ∧ s.freeVar? c = some v := by
  induction t using viewInduction hs with
  | layer t ih =>
    have hbelow : (s.view t).children.any (s.occurs v) = true ↔
        ∃ c, (∃ u ∈ (s.view t).children, s.ReachesCell u c) ∧ s.freeVar? c = some v := by
      rw [List.any_eq_true]
      constructor
      · rintro ⟨u, hu, hocc⟩
        obtain ⟨c, hc, hf⟩ := (ih u hu).1 hocc
        exact ⟨c, ⟨u, hu, hc⟩, hf⟩
      · rintro ⟨c, ⟨u, hu, hc⟩, hf⟩
        exact ⟨u, hu, (ih u hu).2 ⟨c, hc, hf⟩⟩
    have hsplit : (∃ c, s.ReachesCell t c ∧ s.freeVar? c = some v) ↔
        ∃ c, (s.view t = .cell c ∨ ∃ u ∈ (s.view t).children, s.ReachesCell u c) ∧
          s.freeVar? c = some v := by
      refine exists_congr fun c => and_congr_left fun hf => ?_
      exact reachesCell_iff_view hs (link?_eq_none_of_freeVar? hf)
    rw [occurs_eq hs, hsplit, occursLayer]
    cases hx : s.view t <;> rw [hx] at hbelow
    case cell c => simp [Shape.children]
    all_goals simpa using hbelow

/-- A free occurrence of a variable is an occurrence. -/
theorem occurs_of_mem_freeOccurrences (hs : s.Acyclic) {bound : List VarId}
    (h : v ∈ s.freeOccurrences bound t) :
    s.occurs v t = true := by
  induction t using viewInduction hs generalizing bound with
  | layer t ih =>
    rw [freeOccurrences_eq hs, occurrencesLayer] at h
    rw [occurs_eq hs, occursLayer]
    cases hx : s.view t <;> rw [hx] at h ih
    case cell c => simpa using (List.mem_filter.1 h).1
    case meth m inner =>
      refine List.any_eq_true.2 ?_
      rcases List.mem_append.1 h with h | h
      · exact ⟨_, by simp [Shape.children], ih _ (by simp [Shape.children]) h⟩
      · exact ⟨_, by simp [Shape.children], ih _ (by simp [Shape.children]) h⟩
    all_goals
      obtain ⟨u, hu, hv⟩ := List.mem_flatMap.1 h
      exact List.any_eq_true.2 ⟨u, hu, ih u hu hv⟩

/-- A free variable of a term is held by a cell that can be reached. -/
theorem reachesVar_of_mem_freeVars (hs : s.Acyclic)
    (h : v ∈ s.freeVars t) : s.ReachesVar t v :=
  Or.inl ((occurs_iff hs).1 (occurs_of_mem_freeOccurrences hs (List.mem_eraseDups.1 h)))

theorem nodup_eraseDups (l : List VarId) : l.eraseDups.Nodup := by
  -- The head is removed from the tail, so the recursion is on the length.
  induction hn : l.length using Nat.strong_induction_on generalizing l with
  | _ n ih =>
    cases l with
    | nil => simp
    | cons v l =>
      rw [List.eraseDups_cons, List.nodup_cons]
      refine ⟨by simp, ih _ ?_ _ rfl⟩
      rw [← hn, List.length_cons]
      exact Nat.lt_succ_of_le (List.length_filter_le _ _)

/-- No variable is listed twice. -/
theorem freeVars_nodup (s : Store) (t : Ty) : (s.freeVars t).Nodup := nodup_eraseDups _

/-! ## Links -/

/-- A free cell can be linked. -/
theorem setLink_free (hf : s.freeVar? c = some v) (variance : Variance) (t : Ty) :
    ∃ s', s.setLink c variance t = .ok s' := by
  rw [setLink, link?_eq_none_of_freeVar? hf]
  exact ⟨_, rfl⟩

/-- A cell of the store that was linked was free. -/
theorem freeVar?_of_setLink (hc : c < s.cells.size)
    (h : s.setLink c variance t = .ok s') :
    ∃ v, s.freeVar? c = some v := by
  rcases free_or_linked hc with hf | ⟨variance', u, hl⟩
  · exact hf
  · rw [setLink, hl] at h
    cases h

/-- Linking a free cell changes that cell only. -/
theorem setLink_changes (hf : s.freeVar? c = some v)
    (h : s.setLink c variance t = .ok s') :
    s'.vars = s.vars ∧ s'.cells.size = s.cells.size ∧
      ∀ d, s'.cells[d]? = if d = c then some (.link variance t) else s.cells[d]? := by
  rw [setLink, link?_eq_none_of_freeVar? hf] at h
  cases h
  refine ⟨rfl, Array.size_setIfInBounds, fun d => ?_⟩
  rw [Array.getElem?_setIfInBounds]
  by_cases hd : d = c
  · rw [if_pos hd.symm, if_pos hd, if_pos (lt_of_freeVar? hf)]
  · rw [if_neg (Ne.symm hd), if_neg hd]

theorem WellFormed.setLink (hw : s.WellFormed)
    (hf : s.freeVar? c = some v) (ht : s.Scoped t)
    (h : s.setLink c variance t = .ok s') : s'.WellFormed := by
  obtain ⟨hvars, hsize, hcells⟩ := setLink_changes hf h
  have hmono : ∀ {content : Cell}, s.Holds content → s'.Holds content :=
    Holds.mono (hvars ▸ le_rfl) hsize.ge
  refine wellFormed_of_holds fun d content hd => ?_
  rw [hcells] at hd
  split at hd
  · cases hd
    exact hmono ht
  · exact hmono (hw.holds hd)

section Linked

variable (hcells : ∀ d,
  s'.cells[d]? = if d = c then some (.link variance t) else s.cells[d]?)

include hcells

theorem link?_linked {u : Ty} {variance' : Variance}
    (h : s'.link? d = some (variance', u)) :
    d = c ∧ u = t ∨ s.link? d = some (variance', u) := by
  rw [link?_eq_some, hcells] at h
  split at h
  · rename_i hd
    cases h
    exact Or.inl ⟨hd, rfl⟩
  · exact Or.inr (link?_eq_some.2 h)

/-- A way through the store with one more link either avoids the new link, or leads to
the cell and goes on from the target. -/
theorem reaches_linked (h : s'.Reaches x y) :
    s.Reaches x y ∨ s.ReachesCell x c ∧ s.Reaches t y := by
  induction h with
  | refl => exact Or.inl .refl
  | tail _ hstep ih =>
    cases hstep with
    | child hy =>
      rcases ih with h | ⟨hx, h⟩
      · exact Or.inl (h.tail (.child hy))
      · exact Or.inr ⟨hx, h.tail (.child hy)⟩
    | link hy hl =>
      rcases link?_linked hcells hl with ⟨rfl, rfl⟩ | hl
      · rcases ih with h | ⟨hx, -⟩
        · exact Or.inr ⟨⟨_, h, hy⟩, .refl⟩
        · exact Or.inr ⟨hx, .refl⟩
      · rcases ih with h | ⟨hx, h⟩
        · exact Or.inl (h.tail (.link hy hl))
        · exact Or.inr ⟨hx, h.tail (.link hy hl)⟩

/-- **A link to a term from which the cell cannot be reached closes no cycle.** -/
theorem acyclic_linked (hs : s.Acyclic) (ht : ¬ s.ReachesCell t c) : s'.Acyclic := by
  rintro d variance' u hl ⟨w, hw, hwd⟩
  rcases link?_linked hcells hl with ⟨rfl, rfl⟩ | hl
  · rcases reaches_linked hcells hw with h | ⟨h, -⟩
    · exact ht ⟨w, h, hwd⟩
    · exact ht h
  · rcases reaches_linked hcells hw with h | ⟨hu, h⟩
    · exact hs d variance' u hl ⟨w, h, hwd⟩
    · -- The way leads from the target to `d`, through the old link of `d`, and so to
      -- the cell.
      have htu : s.Reaches t u := h.tail (.link hwd hl)
      exact ht (hu.of_reaches htu)

end Linked

/-- A cell whose variable does not occur in a term cannot be reached from it. -/
theorem not_reachesCell_of_occurs (hs : s.Acyclic) (hf : s.freeVar? c = some v)
    (ho : s.occurs v t = false) :
    ¬ s.ReachesCell t c := by
  intro h
  have := (occurs_iff hs).2 ⟨c, h, hf⟩
  rw [ho] at this
  cases this

/-- A link that the occurs check allows closes no cycle. -/
theorem setLink_acyclic (hs : s.Acyclic) (hf : s.freeVar? c = some v)
    (ho : s.occurs v t = false) (h : s.setLink c variance t = .ok s') : s'.Acyclic := by
  obtain ⟨-, -, hcells⟩ := setLink_changes hf h
  exact acyclic_linked hcells hs (not_reachesCell_of_occurs hs hf ho)

end TypeGraph.Store
