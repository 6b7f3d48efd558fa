import TypeGraph.Proofs.CopyRun
import Mathlib.Data.Set.Function

/-!
# Copies of graphs

A copy is a copy of the graph. A term together with the links that can be followed
from it is a graph whose nodes are cells and variables, and it may have cycles.
`Store.GraphCopy` says that a second term in a larger store has the same graph: there
is one renaming of the variables and one of the cells, both one-to-one, that carry the
one onto the other, and only selected variables and the cells that lead to them, or to
anything through a link, are renamed at all.

`Store.fresh` makes such a copy of every term from which no hole can be reached
(`fresh_graphCopy`).
-/

namespace TypeGraph

/-- **A copy of the graph of `t`.** -/
structure Store.GraphCopy (s s' : Store) (opts : CopyOptions) (t t' : Ty)
    (onVar : VarId → VarId) (onCell : CellId → CellId) : Prop where
  /-- Nothing that existed before has changed. -/
  within : s.Within s'
  var_inj : Set.InjOn onVar {v | v < s.vars.size}
  cell_inj : Set.InjOn onCell {c | c < s.cells.size}
  /-- A variable is kept just when it is not selected. -/
  var_kept : ∀ v, s.ReachesVar t v → (onVar v = v ↔ opts.selects v (s.var v) = false)
  /-- A selected variable gives way to a new one with its constraints, at the level
  asked for or its own. -/
  var_new : ∀ v, s.ReachesVar t v → opts.selects v (s.var v) = true →
    s.vars.size ≤ onVar v ∧
    s'.vars[onVar v]? = some ⟨opts.level.getD (s.var v).level, (s.var v).constraints⟩
  /-- A free cell is kept if its variable is. -/
  cell_kept : ∀ c v, s.ReachesCell t c → s.freeVar? c = some v →
    opts.selects v (s.var v) = false → onCell c = c
  /-- Every other cell goes to a new one. -/
  cell_new : ∀ c, s.ReachesCell t c →
    (∀ v, s.freeVar? c = some v → opts.selects v (s.var v) = true) →
    s.cells.size ≤ onCell c
  /-- The image of a cell holds the image of its content: of its variable, or of the
  target of its link. -/
  content : ∀ c, s.ReachesCell t c →
    s'.cells[onCell c]? = (s.cells[c]?).map (Cell.relabel onVar onCell)
  /-- No variables and no cells are drawn but for the copy. -/
  var_onto : ∀ x, s.vars.size ≤ x → x < s'.vars.size → ∃ v, s.ReachesVar t v ∧ onVar v = x
  cell_onto : ∀ x, s.cells.size ≤ x → x < s'.cells.size →
    ∃ c, s.ReachesCell t c ∧ onCell c = x
  result : t' = t.relabel onVar onCell

namespace CopyTask

open Store

variable {k : CopyTask} {q : Copying} {t u : Ty} {v : VarId} {c : CellId}

theorem lookup_varOf (hr : k.renews v = true) (hv : k.HasVar q v) :
    q.vars.lookup v = some (k.varOf q v) := by
  obtain ⟨v', hv'⟩ := Option.isSome_iff_exists.1 (hv hr)
  rw [varOf, hr, hv']
  rfl

theorem lookup_cellOf (hk : k.keeps c = false) (hc : k.HasCell q c) :
    q.cells.lookup c = some (k.cellOf q c) := by
  obtain ⟨c', hc'⟩ := Option.isSome_iff_exists.1 (hc hk)
  rw [cellOf, hk, hc']
  rfl

theorem varOf_noted_or_kept (k : CopyTask) (q : Copying) (v : VarId) :
    q.vars.lookup v = some (k.varOf q v) ∨ k.varOf q v = v := by
  unfold varOf
  split
  · cases q.vars.lookup v with
    | none => exact Or.inr rfl
    | some v' => exact Or.inl rfl
  · exact Or.inr rfl

theorem cellOf_noted_or_kept (k : CopyTask) (q : Copying) (c : CellId) :
    q.cells.lookup c = some (k.cellOf q c) ∨ k.cellOf q c = c := by
  unfold cellOf
  split
  · exact Or.inr rfl
  · cases q.cells.lookup c with
    | none => exact Or.inr rfl
    | some c' => exact Or.inl rfl

/-- Old names, some of which are replaced by different new ones, stay different. -/
theorem injOn_of_noted_or_kept {f : Nat → Nat} {notes : List (Nat × Nat)} {n : Nat}
    (hf : ∀ a, notes.lookup a = some (f a) ∨ f a = a)
    (hnew : ∀ a x, notes.lookup a = some x → n ≤ x)
    (hinj : ∀ a b x, notes.lookup a = some x → notes.lookup b = some x → a = b) :
    Set.InjOn f {a | a < n} := by
  intro a ha b hb hab
  change a < n at ha
  change b < n at hb
  rcases hf a with hfa | hfa <;> rcases hf b with hfb | hfb
  · rw [hab] at hfa
    exact hinj a b _ hfa hfb
  · have := hnew a _ hfa
    omega
  · have := hnew b _ hfb
    omega
  · omega

/-- The whole graph has been copied. -/
structure Ended (k : CopyTask) (q : Copying) : Prop where
  root : k.Covers q k.root
  copied : ∀ c c', q.cells.lookup c = some c' → k.Copied q c c'

/-- **How a copy ends.** -/
theorem run_ends (k : CopyTask) :
    ∃ result q, (Copying.copyTerm k.opts (k.store.span k.root) k.root).run.run
        { store := k.store } = (result, q) ∧
      k.Sound q ∧
      match result with
      | .ok t' => k.Ended q ∧ t' = k.copyOf q k.root
      | .error e => e = .incomplete ∧ ¬ k.store.Complete k.root := by
  have hspan : k.root.size + k.store.linkWeight (k.unnoted { store := k.store }) ≤
      k.store.span k.root := by
    rw [span_eq]
    exact Nat.add_le_add_left (linkWeight_mono (Finset.filter_subset _ _)) _
  obtain ⟨result, q, hrun, hq, -, hresult⟩ :=
    copies_copyTerm .refl hspan _ (.start k) le_rfl
  refine ⟨result, q, hrun, hq, ?_⟩
  cases result with
  | ok t' =>
    obtain ⟨hfin, hroot, hvalue⟩ := hresult
    exact ⟨⟨hroot, fun c c' h => hfin c c' h rfl⟩, hvalue⟩
  | error e => exact hresult

theorem fresh_of_run {result : Except Misuse Ty}
    (h : (Copying.copyTerm k.opts (k.store.span k.root) k.root).run.run
      { store := k.store } = (result, q)) :
    k.store.fresh k.opts k.root = (result, q.store) := by
  rw [fresh, h]

theorem fresh_cases (k : CopyTask) :
    ∃ result q, k.store.fresh k.opts k.root = (result, q.store) ∧ k.Sound q ∧
      match result with
      | .ok t' => k.Ended q ∧ t' = k.copyOf q k.root
      | .error _ => ¬ k.store.Complete k.root := by
  obtain ⟨result, q, hrun, hq, hresult⟩ := k.run_ends
  refine ⟨result, q, fresh_of_run hrun, hq, ?_⟩
  cases result with
  | ok t' => exact hresult
  | error e => exact hresult.2

/-- When the copy has ended, the notes cover everything that can be reached. -/
theorem Ended.covers (hq : k.Ended q) (hu : k.store.Reaches k.root u) : k.Covers q u := by
  -- A linked cell is never shared, so it has a note, and its copy could only be
  -- completed with its target.
  refine everywhere_of_reaches hq.root (fun c variance u hc hl => ?_) hu
  have hnote := lookup_cellOf (k.keeps_link hl) (hc.2.1 c (Shape.mem_cells.2 rfl))
  obtain ⟨content, hcontent, hcov, -⟩ := hq.copied c _ hnote
  rw [link?_eq_some.1 hl] at hcontent
  cases hcontent
  exact hcov

theorem Ended.hasCell (hq : k.Ended q)
    (hc : k.store.ReachesCell k.root c) : k.HasCell q c := by
  obtain ⟨u, hu, hs⟩ := hc
  exact (hq.covers hu).here.2.1 c (Shape.mem_cells.2 hs)

theorem Ended.hasVar (hq : k.Ended q)
    (hv : k.store.ReachesVar k.root v) : k.HasVar q v := by
  rcases hv with ⟨c, hc, hf⟩ | ⟨u, hu, hb⟩
  · intro hr
    have hk : k.keeps c = false := by rw [keeps_free k hf, hr]; rfl
    obtain ⟨content, hcontent, hcov, -⟩ :=
      hq.copied c _ (lookup_cellOf hk (hq.hasCell hc))
    rw [freeVar?_eq_some.1 hf] at hcontent
    cases hcontent
    exact hcov hr
  · exact (hq.covers hu).here.1 v hb

/-- No hole can be reached if the copy has ended. -/
theorem Ended.complete (hq : k.Ended q) : k.store.Complete k.root :=
  fun _ hu => (hq.covers hu).here.2.2

/-- The image of a cell holds the image of its content, whether the cell is shared or
copied. -/
theorem Ended.content (hq : k.Sound q) (he : k.Ended q)
    (hc : k.store.ReachesCell k.root c) :
    q.store.cells[k.cellOf q c]? =
      (k.store.cells[c]?).map (Cell.relabel (k.varOf q) (k.cellOf q)) := by
  cases hk : k.keeps c with
  | false =>
    obtain ⟨content, hcontent, -, hcopy⟩ :=
      he.copied c _ (lookup_cellOf hk (he.hasCell hc))
    rw [hcopy, hcontent]
    rfl
  | true =>
    obtain ⟨v, hf, hr⟩ := k.keeps_iff.1 hk
    have hcell : k.cellOf q c = c := by rw [cellOf, hk]; rfl
    have hvar : k.varOf q v = v := by rw [varOf, hr]; rfl
    rw [hcell, hq.within.cells c (lt_of_freeVar? hf), freeVar?_eq_some.1 hf]
    exact congrArg (fun w => some (Cell.free w)) hvar.symm

/-- **When a copy has ended, its notes are a renaming of the graph.** -/
theorem Ended.graphCopy (hq : k.Sound q) (he : k.Ended q) :
    GraphCopy k.store q.store k.opts k.root (k.copyOf q k.root)
      (k.varOf q) (k.cellOf q) where
  within := hq.within
  var_inj :=
    injOn_of_noted_or_kept (k.varOf_noted_or_kept q)
      (fun v x h => (hq.var v x h).2.2.1) hq.var_inj
  cell_inj :=
    injOn_of_noted_or_kept (k.cellOf_noted_or_kept q)
      (fun c x h => (hq.cell c x h).2.2.1) hq.cell_inj
  var_kept v hv := by
    change _ ↔ k.renews v = false
    constructor
    · intro hkept
      by_contra hr
      have hnote := lookup_varOf (Bool.eq_true_of_not_eq_false hr) (he.hasVar hv)
      have hnew := (hq.var v _ hnote).2.2.1
      rw [hkept] at hnew
      exact absurd (hv.lt k.wellFormed k.rootScope) (Nat.not_lt_of_ge hnew)
    · intro hr
      rw [varOf, hr]
      rfl
  var_new v hv hr := (hq.var v _ (lookup_varOf hr (he.hasVar hv))).2.2
  cell_kept c v _ hf hr := by
    have hk : k.keeps c = true := by rw [keeps_free k hf, renews, hr]; rfl
    rw [cellOf, hk]
    rfl
  cell_new c hc hsel := by
    have hk : k.keeps c = false := by
      refine Bool.eq_false_of_not_eq_true fun hk => ?_
      obtain ⟨v, hf, hr⟩ := k.keeps_iff.1 hk
      rw [renews, hsel v hf] at hr
      cases hr
    exact (hq.cell c _ (lookup_cellOf hk (he.hasCell hc))).2.2.1
  content c hc := he.content hq hc
  var_onto x hx hlt := by
    obtain ⟨v, hv⟩ := hq.var_noted x hx hlt
    obtain ⟨hreach, hr, -⟩ := hq.var v x hv
    refine ⟨v, hreach, ?_⟩
    rw [varOf, hr, hv]
    rfl
  cell_onto x hx hlt := by
    obtain ⟨c, hc⟩ := hq.cell_noted x hx hlt
    obtain ⟨hreach, hk, -⟩ := hq.cell c x hc
    refine ⟨c, hreach, ?_⟩
    rw [cellOf, hk, hc]
    rfl
  result := rfl

end CopyTask

namespace Store

/-- **Copying gives a copy of the graph**, of every term without holes in every store,
with or without cycles. -/
theorem fresh_graphCopy {s : Store} {t : Ty} (hs : s.WellFormed)
    (ht : s.Scoped t) (hc : s.Complete t) (opts : CopyOptions) :
    ∃ t' s' onVar onCell, s.fresh opts t = (.ok t', s') ∧
      s.GraphCopy s' opts t t' onVar onCell := by
  obtain ⟨result, q, hrun, hq, hresult⟩ := CopyTask.fresh_cases ⟨s, opts, t, hs, ht⟩
  cases result with
  | error e => exact absurd hc hresult
  | ok t' =>
    obtain ⟨he, rfl⟩ := hresult
    exact ⟨_, q.store, _, _, hrun, he.graphCopy hq⟩

/-- A store with a cycle: the second cell is linked to a list of pairs of itself and
of the first cell. The second variable is held by the third cell and quantified by
a method as well. -/
def cyclicExample : Store :=
  ⟨#[⟨.depth 1, .empty⟩, ⟨.unbounded, .empty⟩],
    #[.free 0, .link .invariant
      (.of (.list .array (.of (.tuple [.of (.cell 1), .of (.cell 0)])))), .free 1]⟩

def cyclicExampleTerm : Ty :=
  .of (.meth { name := "m", scheme := ⟨[1], .of (.cell 2)⟩ }
    (.of (.tuple [.of (.cell 1), .of (.cell 0)])))

theorem fresh_graphCopy_cyclic :
    ¬ cyclicExample.Acyclic ∧
      ∃ t' s' onVar onCell,
        cyclicExample.fresh { selects := fun v _ => v == 1 } cyclicExampleTerm =
          (.ok t', s') ∧
        cyclicExample.GraphCopy s' { selects := fun v _ => v == 1 } cyclicExampleTerm
          t' onVar onCell := by
  have hcomplete : cyclicExample.Complete cyclicExampleTerm :=
    complete_of_everywhere (by decide) (by decide)
  refine ⟨fun h => ?_, fresh_graphCopy (by decide) (by decide) hcomplete _⟩
  have hlink : cyclicExample.link? 1 =
      some (.invariant,
        .of (.list .array (.of (.tuple [.of (.cell 1), .of (.cell 0)])))) := rfl
  refine h 1 _ _ hlink ⟨.of (.cell 1), ?_, rfl⟩
  have hpair :
      cyclicExample.Step (.of (.tuple [.of (.cell 1), .of (.cell 0)])) (.of (.cell 1)) :=
    .child List.mem_cons_self
  exact .tail (.single (.child List.mem_cons_self)) hpair

end Store

end TypeGraph
