import TypeGraph.Proofs.LocalCopies
import TypeGraph.Proofs.Occurrence
import TypeGraph.Proofs.Renaming

/-!
# Independent instances

Instances of a scheme are independent of each other. A run makes instances of one
scheme and, in between, uses those it has made: it links their cells, to any term, and
constrains and lowers their variables. Such uses may close cycles through the cells of
instances. They never touch what was there before the run, and so not the scheme.

Therefore each instance, when it is made, is isomorphic to the type of the scheme,
whatever has been done to the earlier ones, and what it introduces is disjoint from
what they introduced (`instances_independent`).
-/

namespace TypeGraph.Store

variable {s s' s₀ : Store} {scheme : TypeScheme} {t : Ty} {c : CellId} {v : VarId}
  {variance : Variance}

/-! ## Runs -/

/-- An instance that was made: the store before, its type, and the store after. -/
structure Made where
  before : Store
  type : Ty
  after : Store

namespace Made

/-- The cells that the instance introduced. -/
def cells (m : Made) : Set CellId :=
  {c | m.before.cells.size ≤ c ∧ c < m.after.cells.size}

/-- The variables that the instance introduced. -/
def vars (m : Made) : Set VarId := {v | m.before.vars.size ≤ v ∧ v < m.after.vars.size}

/-- What one instance introduced the other did not. -/
def Apart (m m' : Made) : Prop :=
  (∀ c ∈ m.cells, c ∉ m'.cells) ∧ ∀ v ∈ m.vars, v ∉ m'.vars

end Made

/-- The store that a run has come to, and the instances it has made, the last one
first. -/
structure Run where
  store : Store
  made : List Made

/-- One step of a run that uses the scheme. Variables and cells may be drawn besides,
for the terms that cells of instances are linked to. -/
inductive Use (scheme : TypeScheme) : Run → Run → Prop
  | instantiate {r : Run} {t : Ty} {s' : Store} (level : Level)
      (h : r.store.instantiate scheme level = (.ok t, s')) :
      Use scheme r ⟨s', ⟨r.store, t, s'⟩ :: r.made⟩
  | setLink {r : Run} {m : Made} {c : CellId} {variance : Variance} {t : Ty}
      {s' : Store} (hm : m ∈ r.made)
      (hc : c ∈ m.cells) (ht : r.store.Scoped t)
      (h : r.store.setLink c variance t = .ok s') : Use scheme r ⟨s', r.made⟩
  | constrain {r : Run} {m : Made} {v : VarId} (hm : m ∈ r.made) (hv : v ∈ m.vars)
      (constraint : Constraint) : Use scheme r ⟨r.store.constrain v constraint, r.made⟩
  | lowerLevel {r : Run} {m : Made} {v : VarId} (hm : m ∈ r.made)
      (hv : v ∈ m.vars) (level : Level) :
      Use scheme r ⟨r.store.lowerLevel v level, r.made⟩
  | newVar {r : Run} (level : Level) (constraints : ConstraintSet) :
      Use scheme r ⟨(r.store.newVar level constraints).2, r.made⟩
  | newCell {r : Run} {content : Cell} (h : r.store.Holds content) :
      Use scheme r ⟨(r.store.newCell content).2, r.made⟩

/-- The run comes out of using the scheme, from a given store on. -/
def Uses (scheme : TypeScheme) (s₀ : Store) (r : Run) : Prop :=
  Relation.ReflTransGen (Use scheme) ⟨s₀, []⟩ r

/-! ## One instance -/

/-- **What holds of an instance when it has been made**, with `s₀` the store of the
scheme. -/
structure Made.IsInstance (scheme : TypeScheme) (s₀ : Store) (m : Made) : Prop where
  /-- Nothing that existed was changed. -/
  within : m.before.Within m.after
  isomorphic : m.after.isomorphic scheme.type m.type = true
  /-- Its cells are new, apart from those that hold variables which the scheme does
  not quantify. -/
  cell : ∀ c, m.after.ReachesCell m.type c → c ∈ m.cells ∨
    s₀.ReachesCell scheme.type c ∧ ∃ v, s₀.freeVar? c = some v ∧ v ∉ scheme.vars
  /-- Its variables are new, apart from those that the scheme does not quantify. -/
  var : ∀ v, m.after.ReachesVar m.type v →
    v ∈ m.vars ∨ s₀.ReachesVar scheme.type v ∧ v ∉ scheme.vars

/-- What is asked of a scheme: its type is complete and acyclic, in a well-formed
store that may have cycles elsewhere, and it quantifies something. -/
structure Usable (s₀ : Store) (scheme : TypeScheme) : Prop where
  quantifies : scheme.vars ≠ []
  wellFormed : s₀.WellFormed
  scope : s₀.Scoped scheme.type
  complete : s₀.Complete scheme.type
  acyclic : s₀.AcyclicBelow scheme.type

/-- **In every larger store the scheme can be instantiated**, and gives an instance. -/
theorem Usable.exists_instance (h : s₀.Usable scheme) (hin : s₀.Within s)
    (hw : s.WellFormed) (level : Level) :
    ∃ t s', s.instantiate scheme level = (.ok t, s') ∧ s'.WellFormed ∧
      Made.IsInstance scheme s₀ ⟨s, t, s'⟩ := by
  have ht := hin.scope h.scope
  have hc := hin.complete h.wellFormed h.scope h.complete
  have ha := hin.acyclicBelow h.wellFormed h.scope h.acyclic
  have hsel : ∀ {v x}, (instanceOptions scheme.vars level).selects v x = false →
      v ∉ scheme.vars := by
    simp [instanceOptions]
  obtain ⟨t, s', onVar, onCell, hrun, hcopy, hw', -⟩ :=
    exists_graphCopy hw ht hc (instanceOptions scheme.vars level)
  refine ⟨t, s', ?_, hw', hcopy.within, hcopy.isomorphic_of_acyclicBelow hw ht hw' hc ha,
    fun c hcell => ?_, ?_⟩
  · -- Only a scheme that quantifies nothing would be its own instance.
    rw [instantiate, if_neg (by simpa using h.quantifies), hrun]
  · rcases hcopy.cell_new_or_shared hw ht hcell with hnew | ⟨hold, v, hf, hv⟩
    · exact Or.inl hnew
    · rw [hin.reachesCell_iff h.wellFormed h.scope] at hold
      rw [hin.freeVar? (hold.lt h.wellFormed h.scope)] at hf
      exact Or.inr ⟨hold, v, hf, hsel hv⟩
  · intro v hvar
    rcases hcopy.var_new_or_shared hvar with hnew | ⟨hold, hv⟩
    · exact Or.inl hnew
    · exact Or.inr ⟨(hin.reachesVar_iff h.wellFormed h.scope).1 hold, hsel hv⟩

/-! ## What a run keeps -/

/-- The invariant of a run. -/
structure Kept (scheme : TypeScheme) (s₀ : Store) (r : Run) : Prop where
  wellFormed : r.store.WellFormed
  within : s₀.Within r.store
  instances : ∀ m ∈ r.made, m.IsInstance scheme s₀
  /-- What an instance introduced was not there before the run, and is there now. -/
  cells : ∀ m ∈ r.made, s₀.cells.size ≤ m.before.cells.size ∧
    m.after.cells.size ≤ r.store.cells.size
  vars : ∀ m ∈ r.made, s₀.vars.size ≤ m.before.vars.size ∧
    m.after.vars.size ≤ r.store.vars.size
  apart : r.made.Pairwise Made.Apart

namespace Kept

variable {r : Run} {m : Made}

theorem start (hw : s₀.WellFormed) : Kept scheme s₀ ⟨s₀, []⟩ where
  wellFormed := hw
  within := .refl s₀
  instances := nofun
  cells := nofun
  vars := nofun
  apart := .nil

/-- A step that makes no instance keeps the invariant, if it leaves alone what was
there before the run. -/
theorem edit (h : Kept scheme s₀ r) (hw : s'.WellFormed) (hin : s₀.Within s')
    (hv : r.store.vars.size ≤ s'.vars.size) (hc : r.store.cells.size ≤ s'.cells.size) :
    Kept scheme s₀ ⟨s', r.made⟩ where
  wellFormed := hw
  within := hin
  instances := h.instances
  cells m hm := ⟨(h.cells m hm).1, (h.cells m hm).2.trans hc⟩
  vars m hm := ⟨(h.vars m hm).1, (h.vars m hm).2.trans hv⟩
  apart := h.apart

/-- So does changing what is known about a variable of an instance. -/
theorem modifyVar (h : Kept scheme s₀ r) (hm : m ∈ r.made)
    (hv : v ∈ m.vars) (f : Var → Var) :
    Kept scheme s₀ ⟨{ r.store with vars := r.store.vars.modify v f }, r.made⟩ := by
  have hnew : s₀.vars.size ≤ v := (h.vars m hm).1.trans hv.1
  have hsize : r.store.vars.size ≤ (r.store.vars.modify v f).size := Array.size_modify.ge
  exact h.edit (h.wellFormed.of_cells hsize rfl) (h.within.modifyVar hnew f) hsize
    (Nat.le_refl r.store.cells.size)

/-- And linking a cell of an instance. -/
theorem setLink (h : Kept scheme s₀ r) (hm : m ∈ r.made) (hc : c ∈ m.cells)
    (ht : r.store.Scoped t) (hlink : r.store.setLink c variance t = .ok s') :
    Kept scheme s₀ ⟨s', r.made⟩ := by
  have hold : s₀.cells.size ≤ c := (h.cells m hm).1.trans hc.1
  obtain ⟨v, hf⟩ := freeVar?_of_setLink (hc.2.trans_le (h.cells m hm).2) hlink
  obtain ⟨hvars, hsize, hcells⟩ := setLink_changes hf hlink
  refine h.edit (h.wellFormed.setLink hf ht hlink) ⟨fun w hw => ?_, fun d hd => ?_⟩
    (hvars ▸ le_rfl) hsize.ge
  · rw [hvars, h.within.vars w hw]
  · rw [hcells, if_neg (Nat.ne_of_lt (Nat.lt_of_lt_of_le hd hold)), h.within.cells d hd]

/-- **An instance is made apart from all earlier ones.** -/
theorem instantiate (h : Kept scheme s₀ r) (hscheme : s₀.Usable scheme) {level : Level}
    (hrun : r.store.instantiate scheme level = (.ok t, s')) :
    Kept scheme s₀ ⟨s', ⟨r.store, t, s'⟩ :: r.made⟩ := by
  obtain ⟨t', s'', hrun', hw', hinst⟩ :=
    hscheme.exists_instance h.within h.wellFormed level
  cases hrun.symm.trans hrun'
  have hin : r.store.Within s' := hinst.within
  have hbounds := h.edit hw' (h.within.trans hin) hin.vars_le hin.cells_le
  exact {
    wellFormed := hw'
    within := hbounds.within
    instances := List.forall_mem_cons.2 ⟨hinst, h.instances⟩
    cells := List.forall_mem_cons.2 ⟨⟨h.within.cells_le, le_rfl⟩, hbounds.cells⟩
    vars := List.forall_mem_cons.2 ⟨⟨h.within.vars_le, le_rfl⟩, hbounds.vars⟩
    apart := by
      -- Whatever was introduced before is part of the store in which the instance is
      -- made.
      refine List.pairwise_cons.2 ⟨fun m hm => ⟨?_, ?_⟩, h.apart⟩
      · intro c hnew hold
        exact Nat.not_lt_of_ge hnew.1 (hold.2.trans_le (h.cells m hm).2)
      · intro v hnew hold
        exact Nat.not_lt_of_ge hnew.1 (hold.2.trans_le (h.vars m hm).2) }

end Kept

/-- **One step keeps the invariant.** -/
theorem Use.kept {r r' : Run} (h : Use scheme r r') (hscheme : s₀.Usable scheme)
    (hr : Kept scheme s₀ r) :
    Kept scheme s₀ r' := by
  cases h with
  | instantiate level hrun => exact hr.instantiate hscheme hrun
  | setLink hm hc ht hlink => exact hr.setLink hm hc ht hlink
  | constrain hm hv constraint => exact hr.modifyVar hm hv _
  | lowerLevel hm hv level => exact hr.modifyVar hm hv _
  | newVar level constraints =>
    have hin := r.store.within_newVar level constraints
    exact hr.edit (hr.wellFormed.of_cells hin.vars_le rfl) (hr.within.trans hin)
      hin.vars_le hin.cells_le
  | @newCell content hcontent =>
    have hin := r.store.within_newCell content
    exact hr.edit (hr.wellFormed.newCell hcontent) (hr.within.trans hin)
      hin.vars_le hin.cells_le

/-- So does a run. -/
theorem Uses.kept {r : Run} (h : Uses scheme s₀ r) (hscheme : s₀.Usable scheme) :
    Kept scheme s₀ r := by
  induction h with
  | refl => exact .start hscheme.wellFormed
  | tail _ hstep ih => exact hstep.kept hscheme ih

/-- **Instances of a scheme are independent.** However a run uses the instances that
it makes, what existed before the run is unchanged, each instance is isomorphic to the
type of the scheme when it is made, no two introduce the same cell or variable, and
the scheme can always be instantiated once more. -/
theorem instances_independent (hscheme : s₀.Usable scheme) {r : Run}
    (h : Uses scheme s₀ r) :
    s₀.Within r.store ∧ (∀ m ∈ r.made, m.IsInstance scheme s₀) ∧
      r.made.Pairwise Made.Apart ∧
      ∀ level, ∃ t s', r.store.instantiate scheme level = (.ok t, s') := by
  have hr := h.kept hscheme
  refine ⟨hr.within, hr.instances, hr.apart, fun level => ?_⟩
  obtain ⟨t, s', hrun, -⟩ := hscheme.exists_instance hr.within hr.wellFormed level
  exact ⟨t, s', hrun⟩

/-- A variable, a list of it behind a link, and another variable. The first variable
is quantified. -/
def usedScheme : TypeScheme :=
  ⟨[0], .of (.tuple [.of (.cell 0), .of (.cell 1), .of (.cell 2)])⟩

theorem usedScheme_usable : linkedExample.Usable usedScheme where
  quantifies := by decide
  wellFormed := by decide
  scope := by decide
  complete := complete_of_everywhere (by decide) (by decide)
  acyclic c variance u _ hl := linkedExample_acyclic c variance u hl

/-- The store with an instance of the scheme in it, whose variable is held by the
fifth cell. -/
def usedExample : Store :=
  ⟨#[⟨.depth 1, .empty⟩, ⟨.unbounded, .empty⟩, ⟨.depth 2, .empty⟩],
    #[.free 0, .link .covariant (.of (.list .array (.of (.cell 0)))), .free 1, .free 0,
      .free 2, .link .covariant (.of (.list .array (.of (.cell 4))))]⟩

/-- An instance whose cell is linked into a cycle and whose variable is constrained
does not disturb the next one. -/
theorem instances_independent_cyclic :
    ∃ r, Uses usedScheme linkedExample r ∧ r.made.length = 2 ∧ ¬ r.store.Acyclic ∧
      linkedExample.Within r.store ∧
        (∀ m ∈ r.made, m.IsInstance usedScheme linkedExample) ∧
      r.made.Pairwise Made.Apart ∧ ∀ level, ∃ t s',
        r.store.instantiate usedScheme level = (.ok t, s') := by
  let m : Made :=
    ⟨linkedExample, .of (.tuple [.of (.cell 4), .of (.cell 5), .of (.cell 2)]),
      usedExample⟩
  let loop : Ty := .of (.list .array (.of (.cell 4)))
  have hcell : 4 ∈ m.cells := ⟨by decide, by decide⟩
  have hvar : 2 ∈ m.vars := ⟨by decide, by decide⟩
  obtain ⟨s₁, hlink⟩ : ∃ s₁, usedExample.setLink 4 .invariant loop = .ok s₁ := ⟨_, rfl⟩
  have hmade : Uses usedScheme linkedExample ⟨usedExample, [m]⟩ :=
    .single (.instantiate (.depth 2) rfl)
  have hlinked : Uses usedScheme linkedExample ⟨s₁, [m]⟩ :=
    hmade.tail (.setLink List.mem_cons_self hcell (by decide) hlink)
  have hconstrained : Uses usedScheme linkedExample ⟨s₁.constrain 2 .num, [m]⟩ :=
    hlinked.tail (.constrain List.mem_cons_self hvar .num)
  cases hlink
  have hagain := hconstrained.tail (.instantiate .unbounded rfl)
  refine ⟨_, hagain, rfl, fun hacyclic => ?_,
    instances_independent usedScheme_usable hagain⟩
  exact hacyclic 4 .invariant loop rfl ⟨.of (.cell 4),
    .single (.child List.mem_cons_self), rfl⟩

end TypeGraph.Store
