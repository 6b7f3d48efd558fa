import TypeGraph.Proofs.Terms
import TypeGraph.Store
import Mathlib.Logic.Relation

/-!
# What can be reached in a store

From a term one comes to its subterms, also those within the schemes of methods and
those that custom types hold, and from a linked cell to the target of the link.
Everything that is said here about cyclic and acyclic stores, complete terms and the
cells and variables of a term is said through `Reaches`.

A term belongs to a store (`Scoped`) when the store has the cells and the variables
that the term names. In a well-formed store the targets of links belong to it too, and
then so does all that can be reached.
-/

namespace TypeGraph

/-- Every layer of the target of the link has the property. A free cell has no
target. -/
def Cell.Everywhere (P : Shape Ty → Prop) : Cell → Prop
  | free _ => True
  | link _ u => u.Everywhere P

instance (P : Shape Ty → Prop) [DecidablePred P] : DecidablePred (Cell.Everywhere P)
  | .free _ => inferInstanceAs (Decidable True)
  | .link _ u => inferInstanceAs (Decidable (u.Everywhere P))

namespace Store

variable {s s' : Store} {t u w : Ty} {c d : CellId} {v : VarId} {variance : Variance}

theorem link?_eq_some : s.link? c = some (variance, u) ↔
    s.cells[c]? = some (.link variance u) := by
  unfold link?
  split
  · rename_i h; rw [h]; simp
  · rename_i h
    constructor
    · intro hn; cases hn
    · intro hs; exact absurd hs (h _ _)

theorem freeVar?_eq_some : s.freeVar? c = some v ↔ s.cells[c]? = some (.free v) := by
  unfold freeVar?
  split
  · rename_i h; rw [h]; simp
  · rename_i h
    constructor
    · intro hn; cases hn
    · intro hs; exact absurd hs (h _)

theorem link?_eq_none_of_freeVar? (h : s.freeVar? c = some v) : s.link? c = none := by
  rw [freeVar?_eq_some] at h
  rw [link?, h]

theorem lt_of_link? (h : s.link? c = some (variance, u)) : c < s.cells.size := by
  rw [link?_eq_some] at h
  exact (Array.getElem?_eq_some_iff.1 h).1

theorem lt_of_freeVar? (h : s.freeVar? c = some v) : c < s.cells.size := by
  rw [freeVar?_eq_some] at h
  exact (Array.getElem?_eq_some_iff.1 h).1

/-- A cell of the store is free or linked. -/
theorem free_or_linked (hc : c < s.cells.size) :
    (∃ v, s.freeVar? c = some v) ∨ ∃ variance u, s.link? c = some (variance, u) := by
  have hcell := Array.getElem?_eq_getElem hc
  cases hx : s.cells[c] with
  | free v => exact Or.inl ⟨v, freeVar?_eq_some.2 (hx ▸ hcell)⟩
  | link variance u => exact Or.inr ⟨variance, u, link?_eq_some.2 (hx ▸ hcell)⟩

/-! ## Reachability -/

/-- One step down: to a subterm, or through the link of a cell. -/
inductive Step (s : Store) : Ty → Ty → Prop
  | child {t u : Ty} (h : u ∈ t.shape.children) : Step s t u
  | link {t u : Ty} {c : CellId} {variance : Variance} (hc : t.shape = .cell c)
      (hl : s.link? c = some (variance, u)) : Step s t u

/-- `u` can be reached from `t` through structure and links. -/
abbrev Reaches (s : Store) : Ty → Ty → Prop := Relation.ReflTransGen s.Step

/-- A node over the cell can be reached from `t`. -/
def ReachesCell (s : Store) (t : Ty) (c : CellId) : Prop :=
  ∃ u, s.Reaches t u ∧ u.shape = .cell c

/-- The variable is held by a free cell that can be reached from `t`, or quantified by
a method there. -/
def ReachesVar (s : Store) (t : Ty) (v : VarId) : Prop :=
  (∃ c, s.ReachesCell t c ∧ s.freeVar? c = some v) ∨
    ∃ u, s.Reaches t u ∧ v ∈ u.shape.binders

/-- No hole can be reached from `t`. -/
def Complete (s : Store) (t : Ty) : Prop := ∀ u, s.Reaches t u → u.shape ≠ .hole

/-- **An acyclic store**: no cell can be reached from the target of its own link. -/
def Acyclic (s : Store) : Prop :=
  ∀ c variance u, s.link? c = some (variance, u) → ¬ s.ReachesCell u c

theorem ReachesCell.of_reaches (h : s.Reaches t u) (hc : s.ReachesCell u c) :
    s.ReachesCell t c := by
  obtain ⟨w, hw, hs⟩ := hc
  exact ⟨w, h.trans hw, hs⟩

theorem Complete.of_reaches (h : s.Reaches t u) (hc : s.Complete t) : s.Complete u :=
  fun w hw => hc w (h.trans hw)

theorem not_reachesCell_hole : ¬ s.ReachesCell (.of .hole) c := by
  rintro ⟨w, hw, hs⟩
  rcases hw.cases_head with rfl | ⟨u, hu, -⟩
  · cases hs
  · cases hu with
    | child h => exact nomatch h
    | link h _ => exact nomatch h

/-- More links reach further. -/
theorem Reaches.mono (h : ∀ c variance u, s.link? c = some (variance, u) →
    s'.link? c = some (variance, u))
    (hr : s.Reaches t u) : s'.Reaches t u := by
  induction hr with
  | refl => exact .refl
  | tail _ hs ih =>
    cases hs with
    | child hc => exact ih.tail (.child hc)
    | link hc hl => exact ih.tail (.link hc (h _ _ _ hl))

section SameCells

variable (h : ∀ c, s.ReachesCell t c → s'.cells[c]? = s.cells[c]?)

include h

/-- **What can be reached from a term depends on the cells that can be reached**, and
on no others. -/
theorem reaches_iff_of_cells : s'.Reaches t u ↔ s.Reaches t u := by
  have hlink : ∀ c, s.ReachesCell t c → s'.link? c = s.link? c :=
    fun c hc => by rw [link?, link?, h c hc]
  constructor
  · intro hr
    induction hr with
    | refl => exact .refl
    | tail _ hs ih =>
      cases hs with
      | child hc => exact ih.tail (.child hc)
      | link hc hl => exact ih.tail (.link hc (hlink _ ⟨_, ih, hc⟩ ▸ hl))
  · intro hr
    induction hr with
    | refl => exact .refl
    | tail hprev hs ih =>
      cases hs with
      | child hc => exact ih.tail (.child hc)
      | link hc hl => exact ih.tail (.link hc ((hlink _ ⟨_, hprev, hc⟩).trans hl))

theorem reachesCell_iff_of_cells : s'.ReachesCell t c ↔ s.ReachesCell t c := by
  simp only [ReachesCell, reaches_iff_of_cells h]

theorem reachesVar_iff_of_cells : s'.ReachesVar t v ↔ s.ReachesVar t v := by
  simp only [ReachesVar, reachesCell_iff_of_cells h, reaches_iff_of_cells h]
  refine or_congr (exists_congr fun c => and_congr_right fun hc => ?_) Iff.rfl
  rw [freeVar?, freeVar?, h c hc]

end SameCells

/-- A store whose links are links of an acyclic store is acyclic. -/
theorem Acyclic.of_links (hs : s.Acyclic)
    (h : ∀ c variance u, s'.link? c = some (variance, u) →
      s.link? c = some (variance, u)) : s'.Acyclic := by
  rintro c variance u hl ⟨w, hw, hwc⟩
  exact hs c variance u (h c variance u hl) ⟨w, hw.mono h, hwc⟩

/-- **A property of layers that links keep holds of all that can be reached.** -/
theorem everywhere_of_reaches {P : Shape Ty → Prop} (ht : t.Everywhere P)
    (hl : ∀ c variance u, P (.cell c) → s.link? c = some (variance, u) → u.Everywhere P)
    (hr : s.Reaches t u) : u.Everywhere P := by
  induction hr with
  | refl => exact ht
  | tail _ hs ih =>
    cases hs with
    | child hc => exact ih.sub hc
    | link hc hlink => exact hl _ _ _ (hc ▸ ih.here) hlink

/-- A property that every layer of the term has, and every layer of the target of any
link, holds of all that can be reached. -/
theorem layer_of_reaches {P : Shape Ty → Prop} (ht : t.Everywhere P)
    (hl : ∀ cell ∈ s.cells.toList, cell.Everywhere P)
    (hr : s.Reaches t u) : P u.shape := by
  refine (everywhere_of_reaches ht (fun c variance u _ hlink => ?_) hr).here
  exact hl _ (Array.mem_toList_iff.2 (Array.mem_of_getElem? (link?_eq_some.1 hlink)))

/-- A term is complete if no layer of it is a hole, and no layer of the target of any
link. -/
theorem complete_of_everywhere (ht : t.Everywhere (· ≠ .hole))
    (hl : ∀ cell ∈ s.cells.toList, cell.Everywhere (· ≠ .hole)) : s.Complete t :=
  fun _ hu => layer_of_reaches ht hl hu

/-- A cell cannot be reached if no layer of the term refers to it, and no layer of the
target of any link. -/
theorem not_reachesCell_of_everywhere (ht : t.Everywhere fun x => c ∉ x.cells)
    (hl : ∀ cell ∈ s.cells.toList, cell.Everywhere fun x => c ∉ x.cells) :
    ¬ s.ReachesCell t c := by
  rintro ⟨u, hu, hc⟩
  exact layer_of_reaches ht hl hu (by simp [hc])

/-- A store is acyclic if every link leads to a term whose cells rank lower than its
own. -/
theorem acyclic_of_rank (rank : CellId → Nat)
    (h : ∀ c (hc : c < s.cells.size),
      s.cells[c].Everywhere fun x => ∀ d ∈ x.cells, rank d < rank c) :
    s.Acyclic := by
  have hlow : ∀ c variance u, s.link? c = some (variance, u) →
      u.Everywhere fun x => ∀ d ∈ x.cells, rank d < rank c := by
    intro c variance u hl
    obtain ⟨hc, hcell⟩ := Array.getElem?_eq_some_iff.1 (link?_eq_some.1 hl)
    have hrank := h c hc
    rw [hcell] at hrank
    exact hrank
  rintro c variance u hl ⟨w, hw, hs⟩
  have hbelow : w.Everywhere fun x => ∀ d ∈ x.cells, rank d < rank c := by
    refine everywhere_of_reaches (hlow _ _ _ hl) (fun d _ u' hd hl' => ?_) hw
    refine (hlow _ _ _ hl').imp fun x hx e he => ?_
    exact Nat.lt_trans (hx e he) (hd d (by simp))
  exact absurd (hbelow.here c (by simp [hs])) (Nat.lt_irrefl _)

/-! ## Terms of a store -/

/-- The store has the variables and the cell that a layer names. -/
def InScope (s : Store) (x : Shape Ty) : Prop :=
  (∀ v ∈ x.binders, v < s.vars.size) ∧ ∀ c ∈ x.cells, c < s.cells.size

instance (s : Store) : DecidablePred s.InScope :=
  fun _ => inferInstanceAs (Decidable (_ ∧ _))

/-- The term belongs to the store. -/
def Scoped (s : Store) (t : Ty) : Prop := t.Everywhere s.InScope

instance (s : Store) : DecidablePred s.Scoped :=
  fun t => inferInstanceAs (Decidable (t.Everywhere _))

/-- What a cell holds belongs to the store. -/
def Holds (s : Store) : Cell → Prop
  | .free v => v < s.vars.size
  | .link _ u => s.Scoped u

instance (s : Store) : DecidablePred s.Holds
  | .free v => inferInstanceAs (Decidable (v < s.vars.size))
  | .link _ u => inferInstanceAs (Decidable (s.Scoped u))

theorem Scoped.mono (hv : s.vars.size ≤ s'.vars.size)
    (hc : s.cells.size ≤ s'.cells.size) (ht : s.Scoped t) :
    s'.Scoped t :=
  ht.imp fun _ hx => ⟨fun v h => Nat.lt_of_lt_of_le (hx.1 v h) hv,
    fun c h => Nat.lt_of_lt_of_le (hx.2 c h) hc⟩

theorem Holds.mono (hv : s.vars.size ≤ s'.vars.size)
    (hc : s.cells.size ≤ s'.cells.size) {content : Cell} (h : s.Holds content) :
    s'.Holds content := by
  cases content with
  | free v => exact Nat.lt_of_lt_of_le h hv
  | link variance u => exact Scoped.mono hv hc h

/-- **A well-formed store**: cells hold variables that have been drawn, or are linked
to terms of the store. -/
def WellFormed (s : Store) : Prop := ∀ cell ∈ s.cells.toList, s.Holds cell

instance (s : Store) : Decidable s.WellFormed := inferInstanceAs (Decidable (∀ _ ∈ _, _))

theorem WellFormed.holds (h : s.WellFormed) {content : Cell}
    (hc : s.cells[c]? = some content) :
    s.Holds content :=
  h content (Array.mem_toList_iff.2 (Array.mem_of_getElem? hc))

theorem wellFormed_of_holds
    (h : ∀ (c : CellId) content, s.cells[c]? = some content → s.Holds content) :
    s.WellFormed := by
  intro content hmem
  obtain ⟨c, hc⟩ := Array.mem_iff_getElem?.1 (Array.mem_toList_iff.1 hmem)
  exact h c content hc

theorem WellFormed.var_lt (h : s.WellFormed)
    (hf : s.freeVar? c = some v) : v < s.vars.size :=
  h.holds (freeVar?_eq_some.1 hf)

theorem WellFormed.target_scope (h : s.WellFormed)
    (hl : s.link? c = some (variance, u)) : s.Scoped u :=
  h.holds (link?_eq_some.1 hl)

theorem Scoped.of_reaches (hw : s.WellFormed) (ht : s.Scoped t)
    (hr : s.Reaches t u) : s.Scoped u :=
  everywhere_of_reaches ht (fun _ _ _ _ hl => hw.target_scope hl) hr

theorem ReachesCell.lt (hw : s.WellFormed) (ht : s.Scoped t) (hc : s.ReachesCell t c) :
    c < s.cells.size := by
  obtain ⟨u, hu, hs⟩ := hc
  exact (ht.of_reaches hw hu).here.2 c (by simp [hs])

theorem ReachesVar.lt (hw : s.WellFormed) (ht : s.Scoped t) (hv : s.ReachesVar t v) :
    v < s.vars.size := by
  rcases hv with ⟨c, -, hf⟩ | ⟨u, hu, hb⟩
  · exact hw.var_lt hf
  · exact (ht.of_reaches hw hu).here.1 v hb

/-! ## Larger stores -/

/-- The larger store has everything that `s` has, unchanged. -/
structure Within (s s' : Store) : Prop where
  vars : ∀ v < s.vars.size, s'.vars[v]? = s.vars[v]?
  cells : ∀ c < s.cells.size, s'.cells[c]? = s.cells[c]?

namespace Within

theorem refl (s : Store) : s.Within s := ⟨fun _ _ => rfl, fun _ _ => rfl⟩

theorem vars_le (h : s.Within s') : s.vars.size ≤ s'.vars.size := by
  apply Nat.le_of_not_lt
  intro hlt
  have hv := h.vars s'.vars.size hlt
  rw [Array.getElem?_eq_none (Nat.le_refl _), Array.getElem?_eq_getElem hlt] at hv
  cases hv

theorem cells_le (h : s.Within s') : s.cells.size ≤ s'.cells.size := by
  apply Nat.le_of_not_lt
  intro hlt
  have hc := h.cells s'.cells.size hlt
  rw [Array.getElem?_eq_none (Nat.le_refl _), Array.getElem?_eq_getElem hlt] at hc
  cases hc

theorem trans {s₁ s₂ s₃ : Store} (h : s₁.Within s₂)
    (h' : s₂.Within s₃) : s₁.Within s₃ where
  vars v hv := (h'.vars v (Nat.lt_of_lt_of_le hv h.vars_le)).trans (h.vars v hv)
  cells c hc := (h'.cells c (Nat.lt_of_lt_of_le hc h.cells_le)).trans (h.cells c hc)

theorem var (h : s.Within s') (hv : v < s.vars.size) : s'.var v = s.var v := by
  simp only [Store.var, Array.getD_eq_getD_getElem?, h.vars v hv]

theorem link? (h : s.Within s') (hc : c < s.cells.size) : s'.link? c = s.link? c := by
  simp only [Store.link?, h.cells c hc]

theorem freeVar? (h : s.Within s') (hc : c < s.cells.size) :
    s'.freeVar? c = s.freeVar? c := by
  simp only [Store.freeVar?, h.cells c hc]

theorem scope (h : s.Within s') (ht : s.Scoped t) : s'.Scoped t :=
  ht.mono h.vars_le h.cells_le

theorem holds (h : s.Within s') {content : Cell}
    (hc : s.Holds content) : s'.Holds content :=
  hc.mono h.vars_le h.cells_le

/-- From a term of the smaller store, the larger one reaches nothing more. -/
theorem reaches_iff (h : s.Within s') (hw : s.WellFormed) (ht : s.Scoped t) :
    s'.Reaches t u ↔ s.Reaches t u :=
  reaches_iff_of_cells fun c hc => h.cells c (hc.lt hw ht)

theorem reachesCell_iff (h : s.Within s') (hw : s.WellFormed) (ht : s.Scoped t) :
    s'.ReachesCell t c ↔ s.ReachesCell t c :=
  reachesCell_iff_of_cells fun c hc => h.cells c (hc.lt hw ht)

theorem reachesVar_iff (h : s.Within s') (hw : s.WellFormed) (ht : s.Scoped t) :
    s'.ReachesVar t v ↔ s.ReachesVar t v :=
  reachesVar_iff_of_cells fun c hc => h.cells c (hc.lt hw ht)

/-- A variable that the smaller store does not have may change. -/
theorem modifyVar (h : s.Within s') (hv : s.vars.size ≤ v) (f : Var → Var) :
    s.Within { s' with vars := s'.vars.modify v f } := by
  refine ⟨fun w hw => ?_, h.cells⟩
  have hne : v ≠ w := Nat.ne_of_gt (Nat.lt_of_lt_of_le hw hv)
  rw [Array.getElem?_modify, if_neg hne, h.vars w hw]

end Within

theorem within_newVar (s : Store) (level : Level) (constraints : ConstraintSet) :
    s.Within (s.newVar level constraints).2 := by
  refine ⟨fun v hv => ?_, fun _ _ => rfl⟩
  exact (Array.getElem?_push_lt hv).trans (Array.getElem?_eq_getElem hv).symm

theorem within_newCell (s : Store) (content : Cell) : s.Within (s.newCell content).2 := by
  refine ⟨fun _ _ => rfl, fun c hc => ?_⟩
  exact (Array.getElem?_push_lt hc).trans (Array.getElem?_eq_getElem hc).symm

/-- A store stays well-formed if only variables are drawn or changed. -/
theorem WellFormed.of_cells (hw : s.WellFormed) (hv : s.vars.size ≤ s'.vars.size)
    (hc : s'.cells = s.cells) :
    s'.WellFormed := by
  refine wellFormed_of_holds fun c content hcell => ?_
  rw [hc] at hcell
  exact (hw.holds hcell).mono hv (hc ▸ Nat.le_refl _)

theorem WellFormed.newCell (hw : s.WellFormed) {content : Cell} (h : s.Holds content) :
    (s.newCell content).2.WellFormed := by
  refine wellFormed_of_holds fun c held hc => (s.within_newCell content).holds ?_
  change (s.cells.push content)[c]? = some held at hc
  rw [Array.getElem?_push] at hc
  split at hc
  · exact Option.some.inj hc ▸ h
  · exact hw.holds hc

end Store

end TypeGraph
