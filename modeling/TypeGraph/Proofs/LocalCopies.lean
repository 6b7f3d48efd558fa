import TypeGraph.Proofs.CopyIsomorphism
import TypeGraph.Proofs.Locality

/-!
# Copies in stores with cycles

A term may be acyclic although its store is not, and a copy of such a term is acyclic
too and isomorphic to it (`GraphCopy.isomorphic_of_acyclicBelow`). The cycles are out
of sight: if all cells are cleared that can be reached neither from the term nor from
its copy, the store is acyclic, the copy is still a copy, and by locality the
comparison comes to the same result.
-/

namespace TypeGraph.Store

variable {s s' : Store} {opts : CopyOptions} {t t' u w : Ty} {onVar : VarId → VarId}
  {onCell : CellId → CellId} {c : CellId} {keep : Set CellId}

/-- No cell below the term can be reached from the target of its own link. -/
def AcyclicBelow (s : Store) (t : Ty) : Prop :=
  ∀ c variance u, s.ReachesCell t c → s.link? c = some (variance, u) → ¬ s.ReachesCell u c

theorem AcyclicBelow.of_reaches (ha : s.AcyclicBelow t)
    (h : s.Reaches t u) : s.AcyclicBelow u :=
  fun c variance w hc => ha c variance w (hc.of_reaches h)

/-- A term is acyclic if its cells rank below a bound, and the link of every cell
below the bound leads to a term whose cells rank lower than its own. -/
theorem acyclicBelow_of_rank (rank : CellId → Nat) {n : Nat}
    (ht : t.Everywhere fun x => ∀ d ∈ x.cells, rank d < n)
        (h : ∀ c (hc : c < s.cells.size), rank c < n →
      s.cells[c].Everywhere fun x =>
        ∀ d ∈ x.cells, rank d < rank c) : s.AcyclicBelow t := by
  have hlow : ∀ {c variance u}, rank c < n → s.link? c = some (variance, u) →
      u.Everywhere fun x => ∀ d ∈ x.cells, rank d < rank c := by
    intro c variance u hc hl
    obtain ⟨hlt, hcell⟩ := Array.getElem?_eq_some_iff.1 (link?_eq_some.1 hl)
    have hrank := h c hlt hc
    rw [hcell] at hrank
    exact hrank
  -- From a term whose cells rank below some bound up to `n`, all cells that can be
  -- reached do.
  have hreach : ∀ {u w k}, k ≤ n →
      (u.Everywhere fun x => ∀ d ∈ x.cells, rank d < k) → s.Reaches u w →
      ∀ d, w.shape = .cell d → rank d < k := by
    intro u w k hk hu hw d hd
    refine (everywhere_of_reaches hu (fun c variance w' hc hl => ?_) hw).here d
      (by simp [hd])
    have hlt : rank c < k := hc c (by simp)
    exact (hlow (by omega) hl).imp fun x hx e he => by have := hx e he; omega
  rintro c variance u ⟨w, hw, hwc⟩ hl ⟨w', hw', hwc'⟩
  have hc : rank c < n := hreach (Nat.le_refl n) ht hw c hwc
  exact absurd (hreach (by omega) (hlow hc hl) hw' c hwc') (Nat.lt_irrefl _)

/-! ## Terms of a smaller store -/

namespace Within

theorem acyclicBelow (h : s.Within s') (hw : s.WellFormed) (ht : s.Scoped t)
    (ha : s.AcyclicBelow t) :
    s'.AcyclicBelow t := by
  intro c variance u hc hl hcycle
  rw [h.reachesCell_iff hw ht] at hc
  rw [h.link? (hc.lt hw ht)] at hl
  rw [h.reachesCell_iff hw (hw.target_scope hl)] at hcycle
  exact ha c variance u hc hl hcycle

theorem complete (h : s.Within s') (hw : s.WellFormed) (ht : s.Scoped t)
    (hc : s.Complete t) : s'.Complete t :=
  fun u hu => hc u ((h.reaches_iff hw ht).1 hu)

end Within

/-! ## What can be reached from a copy -/

namespace GraphCopy

/-- **From a copy one comes to the copies of what can be reached from the original.** -/
theorem reaches_iff (h : s.GraphCopy s' opts t t' onVar onCell) (hu : s.Reaches t u) :
    s'.Reaches (u.relabel onVar onCell) w ↔
      ∃ x, s.Reaches u x ∧ x.relabel onVar onCell = w := by
  constructor
  · intro hw
    induction hw with
    | refl => exact ⟨u, .refl, rfl⟩
    | tail _ hstep ih =>
      obtain ⟨x, hx, rfl⟩ := ih
      cases hstep with
      | child hchild =>
        rw [Ty.children_relabel] at hchild
        obtain ⟨y, hy, rfl⟩ := List.mem_map.1 hchild
        exact ⟨y, hx.tail (.child hy), rfl⟩
      | link hcell hl =>
        obtain ⟨c, hc, rfl⟩ := Ty.shape_relabel_eq_cell.1 hcell
        rw [h.link?_relabel ⟨x, hu.trans hx, hc⟩] at hl
        obtain ⟨⟨variance, y⟩, hlink, hy⟩ := Option.map_eq_some_iff.1 hl
        cases hy
        exact ⟨y, hx.tail (.link hc hlink), rfl⟩
  · rintro ⟨x, hx, rfl⟩
    induction hx with
    | refl => exact .refl
    | tail hprev hstep ih =>
      cases hstep with
      | child hchild =>
        refine ih.tail (.child ?_)
        rw [Ty.children_relabel]
        exact List.mem_map_of_mem hchild
      | link hc hl =>
        have hlink := h.link? ⟨_, hu.trans hprev, hc⟩ hl
        exact ih.tail (.link (Ty.shape_relabel_eq_cell.2 ⟨_, hc, rfl⟩) hlink)

theorem reachesCell_iff (h : s.GraphCopy s' opts t t' onVar onCell)
    (hu : s.Reaches t u) {d : CellId} :
    s'.ReachesCell (u.relabel onVar onCell) d ↔
      ∃ c, s.ReachesCell u c ∧ onCell c = d := by
  constructor
  · rintro ⟨w, hw, hd⟩
    obtain ⟨x, hx, rfl⟩ := (h.reaches_iff hu).1 hw
    obtain ⟨c, hc, rfl⟩ := Ty.shape_relabel_eq_cell.1 hd
    exact ⟨c, ⟨x, hx, hc⟩, rfl⟩
  · rintro ⟨c, ⟨x, hx, hc⟩, rfl⟩
    exact ⟨_, (h.reaches_iff hu).2 ⟨x, hx, rfl⟩, Ty.shape_relabel_eq_cell.2 ⟨c, hc, rfl⟩⟩

theorem exists_of_reachesVar (h : s.GraphCopy s' opts t t' onVar onCell) {w : VarId}
    (hv : s'.ReachesVar t' w) :
    ∃ v, s.ReachesVar t v ∧ onVar v = w := by
  rw [h.result] at hv
  rcases hv with ⟨d, hd, hf⟩ | ⟨y, hy, hw⟩
  · obtain ⟨c, hc, rfl⟩ := (h.reachesCell_iff .refl).1 hd
    rw [h.freeVar?_relabel hc] at hf
    obtain ⟨v, hv, rfl⟩ := Option.map_eq_some_iff.1 hf
    exact ⟨v, Or.inl ⟨c, hc, hv⟩, rfl⟩
  · obtain ⟨x, hx, rfl⟩ := (h.reaches_iff .refl).1 hy
    rw [Ty.binders_relabel] at hw
    obtain ⟨v, hv, rfl⟩ := List.mem_map.1 hw
    exact ⟨v, Or.inr ⟨x, hx, hv⟩, rfl⟩

/-- A cell of the copy is new, or it is shared with the original: a free cell of
a variable that was not selected. -/
theorem cell_new_or_shared (h : s.GraphCopy s' opts t t' onVar onCell)
    (hw : s.WellFormed) (ht : s.Scoped t) {d : CellId} (hd : s'.ReachesCell t' d) :
    (s.cells.size ≤ d ∧ d < s'.cells.size) ∨
      s.ReachesCell t d ∧ ∃ v, s.freeVar? d = some v ∧
        opts.selects v (s.var v) = false := by
  rw [h.result, h.reachesCell_iff .refl] at hd
  obtain ⟨c, hc, rfl⟩ := hd
  by_cases hsel : ∀ v, s.freeVar? c = some v → opts.selects v (s.var v) = true
  · refine Or.inl ⟨h.cell_new c hc hsel, ?_⟩
    have hcontent := h.content c hc
    rw [Array.getElem?_eq_getElem (hc.lt hw ht)] at hcontent
    exact (Array.getElem?_eq_some_iff.1 hcontent).1
  · obtain ⟨v, hv⟩ := not_forall.1 hsel
    obtain ⟨hf, hv⟩ := Classical.not_imp.1 hv
    have hkept := Bool.eq_false_of_not_eq_true hv
    rw [h.cell_kept c v hc hf hkept]
    exact Or.inr ⟨hc, v, hf, hkept⟩

/-- A variable of the copy is new, or it is one of the original that was not
selected. -/
theorem var_new_or_shared (h : s.GraphCopy s' opts t t' onVar onCell) {w : VarId}
    (hw : s'.ReachesVar t' w) :
    (s.vars.size ≤ w ∧ w < s'.vars.size) ∨
      s.ReachesVar t w ∧ opts.selects w (s.var w) = false := by
  obtain ⟨v, hv, rfl⟩ := h.exists_of_reachesVar hw
  cases hsel : opts.selects v (s.var v) with
  | true =>
    obtain ⟨hnew, hcontent⟩ := h.var_new v hv hsel
    exact Or.inl ⟨hnew, (Array.getElem?_eq_some_iff.1 hcontent).1⟩
  | false =>
    rw [(h.var_kept v hv).2 hsel]
    exact Or.inr ⟨hv, hsel⟩

/-- **The copy of an acyclic term is acyclic.** -/
theorem acyclicBelow (h : s.GraphCopy s' opts t t' onVar onCell)
    (hw : s.WellFormed) (ht : s.Scoped t) (ha : s.AcyclicBelow t) :
    s'.AcyclicBelow t' := by
  intro d variance w hd hl hcycle
  rw [h.result, h.reachesCell_iff .refl] at hd
  obtain ⟨c, ⟨x, hx, hxc⟩, rfl⟩ := hd
  rw [h.link?_relabel ⟨x, hx, hxc⟩] at hl
  obtain ⟨⟨variance', u⟩, hlink, hu⟩ := Option.map_eq_some_iff.1 hl
  cases hu
  have htarget : s.Reaches t u := hx.tail (.link hxc hlink)
  obtain ⟨e, he, hec⟩ := (h.reachesCell_iff htarget).1 hcycle
  have hsame : e = c := by
    refine h.cell_inj ?_ ?_ hec
    · exact (he.of_reaches htarget).lt hw ht
    · exact ReachesCell.lt hw ht ⟨x, hx, hxc⟩
  subst hsame
  exact ha e variance' u ⟨x, hx, hxc⟩ hlink he

end GraphCopy

/-! ## Clearing the other cells -/

open Classical in
/-- The store in which all cells but some are linked to a hole. -/
noncomputable def only (s : Store) (keep : Set CellId) : Store :=
  ⟨s.vars, s.cells.mapIdx fun c content =>
    if c ∈ keep then content else .link .covariant (.of .hole)⟩

theorem size_only (s : Store) (keep : Set CellId) :
    (s.only keep).cells.size = s.cells.size := Array.size_mapIdx

theorem cells_only_of_mem (hc : c ∈ keep) : (s.only keep).cells[c]? = s.cells[c]? := by
  rw [only, Array.getElem?_mapIdx]
  simp [hc]

theorem cells_only_of_not_mem (hc : c ∉ keep) :
    (s.only keep).cells[c]? =
      (s.cells[c]?).map fun _ => .link .covariant (.of .hole) := by
  rw [only, Array.getElem?_mapIdx]
  simp [hc]

theorem sameBelow_only (h : ∀ c, s.ReachesCell t c → c ∈ keep) :
    SameBelow s (s.only keep) t :=
  ⟨s.size_only keep, fun c hc => cells_only_of_mem (h c hc)⟩

theorem WellFormed.only (hw : s.WellFormed) (keep : Set CellId) :
    (s.only keep).WellFormed := by
  have hvars : s.vars.size ≤ (s.only keep).vars.size := le_rfl
  refine wellFormed_of_holds fun c content hc => ?_
  by_cases hkeep : c ∈ keep
  · rw [cells_only_of_mem hkeep] at hc
    exact (hw.holds hc).mono hvars (s.size_only keep).ge
  · rw [cells_only_of_not_mem hkeep] at hc
    obtain ⟨_, -, rfl⟩ := Option.map_eq_some_iff.1 hc
    exact .layer ⟨nofun, nofun⟩ nofun

theorem Within.only (h : s.Within s') (keep : Set CellId) :
    (s.only keep).Within (s'.only keep) := by
  refine ⟨h.vars, fun c hc => ?_⟩
  rw [size_only] at hc
  by_cases hkeep : c ∈ keep
  · rw [cells_only_of_mem hkeep, cells_only_of_mem hkeep, h.cells c hc]
  · rw [cells_only_of_not_mem hkeep, cells_only_of_not_mem hkeep, h.cells c hc]

/-- **What is left of a store below some acyclic terms is an acyclic store.** -/
theorem acyclic_only {roots : List Ty} (h : ∀ t ∈ roots, s.AcyclicBelow t) :
    (s.only {c | ∃ t ∈ roots, s.ReachesCell t c}).Acyclic := by
  intro c variance u hl hcycle
  rw [link?_eq_some] at hl
  -- A cell that is kept leads to kept cells only; one that is cleared leads nowhere.
  by_cases hkeep : c ∈ {c | ∃ t ∈ roots, s.ReachesCell t c}
  · rw [cells_only_of_mem hkeep] at hl
    obtain ⟨t, ht, w, hw, hwc⟩ := hkeep
    have hlink := link?_eq_some.2 hl
    have hbelow : SameBelow s (s.only {c | ∃ t ∈ roots, s.ReachesCell t c}) t :=
      sameBelow_only fun c hc => ⟨t, ht, hc⟩
    have hu : s.Reaches t u := hw.tail (.link hwc hlink)
    exact h t ht c variance u ⟨w, hw, hwc⟩ hlink
      ((hbelow.of_reaches hu).reachesCell_iff.1 hcycle)
  · rw [cells_only_of_not_mem hkeep] at hl
    obtain ⟨_, -, hhole⟩ := Option.map_eq_some_iff.1 hl
    cases hhole
    exact not_reachesCell_hole hcycle

/-- **An acyclic term can be read in an acyclic store** that agrees with the store on
all that can be reached from it. -/
theorem AcyclicBelow.exists_acyclic (ha : s.AcyclicBelow t) :
    ∃ s' : Store, s'.Acyclic ∧ s'.vars = s.vars ∧ SameBelow s s' t :=
  ⟨_, acyclic_only (List.forall_mem_singleton.2 ha), rfl,
    sameBelow_only fun _ hc => ⟨t, List.mem_singleton_self t, hc⟩⟩

/-- All cells that can be reached from `u` can be reached from `t`. -/
def CellsAmong (s : Store) (u t : Ty) : Prop := ∀ c, s.ReachesCell u c → s.ReachesCell t c

theorem CellsAmong.of_reaches (h : s.Reaches t u) : s.CellsAmong u t :=
  fun _ hc => hc.of_reaches h

/-- **Terms over the cells of an acyclic term** can all be read in one acyclic store. -/
theorem AcyclicBelow.exists_cleared (ha : s.AcyclicBelow t) :
    ∃ s' : Store, s'.Acyclic ∧ s'.vars = s.vars ∧ (s.WellFormed → s'.WellFormed) ∧
      ∀ u, s.CellsAmong u t → SameBelow s s' u :=
  ⟨_, acyclic_only (List.forall_mem_singleton.2 ha), rfl, fun hw => hw.only _,
    fun _ hu => sameBelow_only fun c hc => ⟨t, List.mem_singleton_self t, hu c hc⟩⟩

/-- **Terms with one outline are isomorphic**, if the one is acyclic and complete and
the other is over its cells. -/
theorem AcyclicBelow.isomorphic_of_outline (ha : s.AcyclicBelow t)
    (hw : s.WellFormed) (ht : s.Scoped t) (hc : s.Complete t) (hu : s.CellsAmong u t)
    (houtline : ∀ s' : Store, s'.Acyclic → SameBelow s s' t → SameBelow s s' u →
      s'.outline u = s'.outline t) :
    s.isomorphic u t = true := by
  obtain ⟨s', hs', hvars, hwell, hsame⟩ := ha.exists_cleared
  have hbelow : SameBelow s s' t := hsame t fun _ hc => hc
  have hscoped : s'.Scoped t := ht.mono (by rw [hvars]) hbelow.size.ge
  have hcomplete : s'.Complete t := fun w hreach => hc w (hbelow.reaches_iff.1 hreach)
  have hrefl := isomorphic_refl hs' (hwell hw) hscoped hcomplete
  rw [(hsame u hu).isomorphic hbelow hvars hs', isomorphic_iff_fair hs',
    houtline s' hs' hbelow (hsame u hu)]
  exact (isomorphic_iff_fair hs' t t).1 hrefl

namespace GraphCopy

/-- A copy is still a copy when cells are cleared that neither the term nor the copy
leads to. -/
theorem only (h : s.GraphCopy s' opts t t' onVar onCell)
    (hkeep : ∀ c, s.ReachesCell t c → c ∈ keep)
    (hkeep' : ∀ c, s.ReachesCell t c → onCell c ∈ keep) :
    (s.only keep).GraphCopy (s'.only keep) opts t t' onVar onCell := by
  have hbelow : SameBelow s (s.only keep) t := sameBelow_only hkeep
  have hcell : ∀ {c}, (s.only keep).ReachesCell t c → s.ReachesCell t c :=
    hbelow.reachesCell_iff.1
  exact {
    within := h.within.only keep
    var_inj := h.var_inj
    cell_inj := by
      rw [size_only]
      exact h.cell_inj
    var_kept := fun v hv => h.var_kept v (hbelow.reachesVar_iff.1 hv)
    var_new := fun v hv => h.var_new v (hbelow.reachesVar_iff.1 hv)
    cell_kept :=
      fun c v hc hf => h.cell_kept c v (hcell hc) (hbelow.freeVar? (hcell hc) ▸ hf)
    cell_new := fun c hc hsel => by
      rw [size_only]
      exact h.cell_new c (hcell hc) fun v hf =>
        hsel v ((hbelow.freeVar? (hcell hc)).trans hf)
    content := fun c hc => by
      rw [cells_only_of_mem (hkeep' c (hcell hc)), cells_only_of_mem (hkeep c (hcell hc)),
        h.content c (hcell hc)]
    var_onto := fun x hx hlt => by
      obtain ⟨v, hv, hvx⟩ := h.var_onto x hx hlt
      exact ⟨v, hbelow.reachesVar_iff.2 hv, hvx⟩
    cell_onto := fun x hx hlt => by
      rw [size_only] at hx hlt
      obtain ⟨c, hc, hcx⟩ := h.cell_onto x hx hlt
      exact ⟨c, hbelow.reachesCell_iff.2 hc, hcx⟩
    result := h.result }

/-- **A copy of an acyclic term is isomorphic to it**, whatever cycles there are
elsewhere in the store. -/
theorem isomorphic_of_acyclicBelow
    (h : s.GraphCopy s' opts t t' onVar onCell) (hw : s.WellFormed) (ht : s.Scoped t)
    (hw' : s'.WellFormed) (hc : s.Complete t) (ha : s.AcyclicBelow t) :
    s'.isomorphic t t' = true := by
  have hroots : ∀ r ∈ [t, t'], s'.AcyclicBelow r := by
    intro r hr
    rcases List.mem_pair.1 hr with rfl | rfl
    · exact h.within.acyclicBelow hw ht ha
    · exact h.acyclicBelow hw ht ha
  -- The same cells are kept in both stores, so that the one is still within the
  -- other.
  generalize hkeep : {c | ∃ r ∈ [t, t'], s'.ReachesCell r c} = keep
  have hacyclic : (s'.only keep).Acyclic := hkeep ▸ acyclic_only hroots
  have hbelow : ∀ r ∈ [t, t'], SameBelow s' (s'.only keep) r := fun r hr =>
    sameBelow_only fun c hc => hkeep ▸ ⟨r, hr, hc⟩
  have hkept : ∀ c, s.ReachesCell t c → c ∈ keep := fun c hc =>
    hkeep ▸ ⟨t, by simp, (h.within.reachesCell_iff hw ht).2 hc⟩
  have hkept' : ∀ c, s.ReachesCell t c → onCell c ∈ keep := fun c hc =>
    hkeep ▸ ⟨t', by simp, h.result ▸ (h.reachesCell_iff .refl).2 ⟨c, hc, rfl⟩⟩
  have hscoped : (s.only keep).Scoped t :=
    ht.mono (Nat.le_refl s.vars.size) (s.size_only keep).ge
  have hcomplete : (s.only keep).Complete t :=
    fun u hu => hc u ((sameBelow_only hkept).reaches_iff.1 hu)
  have hclear :=
    (h.only hkept hkept').isomorphic (hw.only keep) hscoped hacyclic
      (hw'.only keep) hcomplete
  rw [(hbelow t (by simp)).isomorphic (hbelow t' (by simp)) rfl hacyclic]
  exact hclear

end GraphCopy

end TypeGraph.Store
