import TypeGraph.Proofs.LocalCopies

/-!
# The way to the base

The way to the base of a term. From a method layer it goes on to the type that the
method is put on, and from a linked cell to its target. It ends at the base, unless it
runs into a cycle; whatever else can be reached from the term, such as the types of
its methods, may well be cyclic. A way that ends takes no link twice, so the bound of
`Store.layers` covers it, and the layers of a term with a base are those of its inner
type and one more (`HasBase.layers_cases`).

Layers can be taken off a term and put on another one. `layers_wrap` says that they
are read off again as they were put on, above the layers that the other term has.
-/

namespace TypeGraph.Store

open Finset

variable {s s' : Store} {t u w base : Ty} {m : Method Ty} {c : CellId}
  {variance : Variance} {n k : Nat} {pos : Option Range}

/-! ## Ways that end -/

/-- One step on the way to the base. -/
inductive Onward (s : Store) : Ty → Ty → Prop
  | layer {t u : Ty} {m : Method Ty} (hx : t.shape = .meth m u) : Onward s t u
  | link {t u : Ty} {c : CellId} {variance : Variance} (hc : t.shape = .cell c)
      (hl : s.link? c = some (variance, u)) : Onward s t u

namespace Onward

theorem unique (h : s.Onward t u) (h' : s.Onward t w) : u = w := by
  cases h with
  | layer hx =>
    cases h' with
    | layer hx' =>
      cases hx.symm.trans hx'
      rfl
    | link hc _ => cases hx.symm.trans hc
  | link hc hl =>
    cases h' with
    | layer hx => cases hc.symm.trans hx
    | link hc' hl' =>
      cases hc.symm.trans hc'
      cases hl.symm.trans hl'
      rfl

theorem step (h : s.Onward t u) : s.Step t u := by
  cases h with
  | layer hx => exact .child (Shape.inner_mem_children hx)
  | link hc hl => exact .link hc hl

end Onward

/-- **The base of the term is `n` steps away.** -/
inductive BaseIn (s : Store) : Nat → Ty → Prop
  | here {t : Ty} (h : ∀ u, ¬ s.Onward t u) : BaseIn s 0 t
  | further {n : Nat} {t u : Ty} (hstep : s.Onward t u) (h : BaseIn s n u) :
    BaseIn s (n + 1) t

/-- **The term has a base**: the way to it ends. -/
def HasBase (s : Store) (t : Ty) : Prop := ∃ n, s.BaseIn n t

namespace BaseIn

theorem unique (h : s.BaseIn n t) (h' : s.BaseIn k t) : n = k := by
  induction h generalizing k with
  | here h =>
    cases h' with
    | here _ => rfl
    | further hstep _ => exact absurd hstep (h _)
  | further hstep _ ih =>
    cases h' with
    | here h' => exact absurd hstep (h' _)
    | further hstep' h' =>
      cases hstep.unique hstep'
      rw [ih h']

/-- The way goes on from a method layer. -/
theorem inner (h : s.BaseIn n t) (hx : t.shape = .meth m u) :
    ∃ j, n = j + 1 ∧ s.BaseIn j u := by
  cases h with
  | here h => exact absurd (.layer hx) (h u)
  | @further j _ _ hstep h =>
    cases hstep.unique (.layer hx)
    exact ⟨j, rfl, h⟩

end BaseIn

/-! ## Ways are within the bound -/

open Classical in
/-- The cells whose targets are less than `n` steps away from their base. -/
noncomputable def cellsToBase (s : Store) (n : Nat) : Finset CellId :=
  {c ∈ range s.cells.size | ∃ variance u k, s.link? c = some (variance, u) ∧
    k < n ∧ s.BaseIn k u}

theorem mem_cellsToBase :
    c ∈ s.cellsToBase n ↔ ∃ variance u k, s.link? c = some (variance, u) ∧
      k < n ∧ s.BaseIn k u := by
  simp only [cellsToBase, mem_filter, mem_range, and_iff_right_iff_imp]
  rintro ⟨variance, u, k, hl, -⟩
  exact lt_of_link? hl

theorem cellsToBase_mono (h : k ≤ n) : s.cellsToBase k ⊆ s.cellsToBase n := by
  intro c hc
  obtain ⟨variance, u, j, hl, hj, hu⟩ := mem_cellsToBase.1 hc
  exact mem_cellsToBase.2 ⟨variance, u, j, hl, by omega, hu⟩

theorem cellsToBase_subset : s.cellsToBase n ⊆ range s.cells.size := by
  intro c hc
  obtain ⟨variance, u, k, hl, -⟩ := mem_cellsToBase.1 hc
  exact mem_range.2 (lt_of_link? hl)

/-- The way through a link does not come back to it. -/
theorem cellsToBase_link (hl : s.link? c = some (variance, u)) (h : s.BaseIn n u) :
    c ∉ s.cellsToBase n ∧ c ∈ s.cellsToBase (n + 1) := by
  refine ⟨fun hc => ?_, mem_cellsToBase.2 ⟨variance, u, n, hl, Nat.lt_succ_self n, h⟩⟩
  obtain ⟨variance', u', k, hl', hk, hu⟩ := mem_cellsToBase.1 hc
  cases hl.symm.trans hl'
  have heq := hu.unique h
  omega

/-- The nodes of a term, and those behind the links that lie on a way of `n` steps. -/
noncomputable def wayWeight (s : Store) (n : Nat) (t : Ty) : Nat :=
  t.size + s.linkWeight (s.cellsToBase n)

theorem wayWeight_le_span (s : Store) (n : Nat) (t : Ty) :
    s.wayWeight n t ≤ s.span t := by
  rw [wayWeight, span_eq]
  exact Nat.add_le_add_left (linkWeight_mono cellsToBase_subset) _

/-- Behind the links of a term its way goes on, and is no longer, if as many links are
followed as lie on it. -/
theorem BaseIn.follow (h : s.BaseIn n t) (hk : (s.cellsToBase n).card ≤ k) :
    ∃ j ≤ n, s.BaseIn j (s.follow k t) ∧
      (∀ c, (s.follow k t).shape = .cell c → s.link? c = none) ∧
      s.wayWeight j (s.follow k t) ≤ s.wayWeight n t := by
  induction h generalizing k with
  | @here t h =>
    have hset : ∀ c, t.shape = .cell c → s.link? c = none := by
      intro c hc
      by_contra hl
      obtain ⟨⟨variance, u⟩, hl⟩ := Option.ne_none_iff_exists'.1 hl
      exact h u (.link hc hl)
    rw [follow_settled hset]
    exact ⟨0, Nat.le_refl 0, .here h, hset, Nat.le_refl _⟩
  | @further n t u hstep h ih =>
    cases hstep with
    | layer hx =>
      have hset : ∀ c, t.shape = .cell c → s.link? c = none :=
        fun c hc => by cases hx.symm.trans hc
      rw [follow_settled hset]
      exact ⟨n + 1, Nat.le_refl _, .further (.layer hx) h, hset, Nat.le_refl _⟩
    | @link c variance hc hl =>
      obtain ⟨hout, hin⟩ := cellsToBase_link hl h
      have hsub : s.cellsToBase n ⊆ s.cellsToBase (n + 1) :=
        cellsToBase_mono (Nat.le_succ n)
      have hcard := card_lt_card ((ssubset_iff_of_subset hsub).2 ⟨c, hin, hout⟩)
      obtain ⟨k, rfl⟩ : ∃ i, k = i + 1 := ⟨k - 1, by omega⟩
      rw [follow_link hc hl]
      obtain ⟨j, hj, hbase, hset, hweight⟩ := ih (k := k) (by omega)
      have hlink := linkWeight_target hl hout hin hsub
      refine ⟨j, by omega, hbase, hset, ?_⟩
      unfold wayWeight at hweight ⊢
      omega

/-- The way goes on from what the term stands for. -/
theorem BaseIn.deref (h : s.BaseIn n t) :
    ∃ j ≤ n, s.BaseIn j (s.deref t) ∧ (∀ c, s.view t = .cell c → s.link? c = none) ∧
      s.wayWeight j (s.deref t) ≤ s.wayWeight n t := by
  have hcells : s.cellsToBase n ⊆ range s.cells.size := cellsToBase_subset
  exact h.follow (by simpa using card_le_card hcells)

/-- If the term stands for a method layer, the way from the inner type is shorter. -/
theorem BaseIn.inner_of_deref (h : s.BaseIn n t)
    (hd : s.deref t = .node pos (.meth m u)) :
    ∃ j < n, s.BaseIn j u ∧ s.wayWeight j u < s.wayWeight n t := by
  obtain ⟨j, hj, hbase, -, hweight⟩ := h.deref
  have hx : (s.deref t).shape = .meth m u := congrArg Ty.shape hd
  obtain ⟨i, rfl, hinner⟩ := hbase.inner hx
  have hsize : u.size < (s.deref t).size :=
    Ty.size_lt_of_mem (Shape.inner_mem_children hx)
  have hlinks : s.linkWeight (s.cellsToBase i) ≤ s.linkWeight (s.cellsToBase (i + 1)) :=
    linkWeight_mono (cellsToBase_mono (Nat.le_succ i))
  refine ⟨i, by omega, hinner, ?_⟩
  unfold wayWeight at hweight ⊢
  omega

/-- **Any two bounds that cover the way to the base give the same layers.** -/
theorem BaseIn.layersWithin (h : s.BaseIn n t) {i : Nat} (hi : s.wayWeight n t ≤ i)
    (hk : s.wayWeight n t ≤ k) :
    s.layersWithin i t = s.layersWithin k t := by
  induction i generalizing t n k with
  | zero =>
    have hpos := t.size_pos
    unfold wayWeight at hi
    omega
  | succ i ih =>
    obtain ⟨k, rfl⟩ : ∃ j, k = j + 1 := by
      have hpos := t.size_pos
      unfold wayWeight at hk
      exact ⟨k - 1, by omega⟩
    rw [Store.layersWithin, Store.layersWithin, nextLayer, nextLayer]
    split
    · rename_i pos m inner hd
      obtain ⟨j, -, hinner, hweight⟩ := h.inner_of_deref hd
      rw [ih hinner (k := k) (by omega) (by omega)]
    · rfl

/-! ## The layers of a term with a base -/

namespace HasBase

/-- A term stands for a method layer, whose inner type has the other layers; or it has
no layers. -/
theorem layers_cases (h : s.HasBase t) :
    (∃ pos m inner, s.deref t = .node pos (.meth m inner) ∧ s.HasBase inner ∧
        s.layers t = (⟨pos, m⟩ :: (s.layers inner).1, (s.layers inner).2)) ∨
      (∀ m inner, s.view t ≠ .meth m inner) ∧
        (∀ c, s.view t = .cell c → s.link? c = none) ∧ s.layers t = ([], t) := by
  obtain ⟨n, hn⟩ := h
  have hspan := s.wayWeight_le_span n t
  have hmore : s.layers t = s.layersWithin (s.span t + 1) t :=
    hn.layersWithin hspan (by omega)
  rw [hmore, layersWithin, nextLayer]
  split
  · rename_i pos m inner hd
    obtain ⟨j, -, hinner, hweight⟩ := hn.inner_of_deref hd
    have hsame : s.layersWithin (s.span t) inner = s.layers inner :=
      hinner.layersWithin (by omega) (s.wayWeight_le_span j inner)
    rw [hsame]
    exact Or.inl ⟨pos, m, inner, hd, ⟨j, hinner⟩, rfl⟩
  · rename_i hd
    obtain ⟨j, -, -, hset, -⟩ := hn.deref
    refine Or.inr ⟨fun m inner hm => ?_, hset, rfl⟩
    cases hx : s.deref t with
    | node pos x =>
      rw [view, hx] at hm
      exact hd pos m inner (hx.trans (congrArg (Ty.node pos) hm))

/-- **Induction on the way to the base**, a layer at a time. -/
@[elab_as_elim]
theorem induction {motive : (t : Ty) → s.HasBase t → Prop}
    (layer : ∀ t h pos m inner (hinner : s.HasBase inner),
      s.deref t = .node pos (.meth m inner) →
      s.layers t = (⟨pos, m⟩ :: (s.layers inner).1, (s.layers inner).2) →
        motive inner hinner → motive t h)
    (base : ∀ t h, (∀ m inner, s.view t ≠ .meth m inner) →
      (∀ c, s.view t = .cell c → s.link? c = none) →
      s.layers t = ([], t) → motive t h) (t : Ty) (h : s.HasBase t) : motive t h := by
  obtain ⟨n, hn⟩ := id h
  induction n using Nat.strongRecOn generalizing t with
  | ind n ih =>
    rcases h.layers_cases with ⟨pos, m, inner, hd, hinner, hl⟩ | ⟨hmeth, hset, hl⟩
    · obtain ⟨j, hj, hjinner, -⟩ := hn.inner_of_deref hd
      exact layer t h pos m inner hinner hd hl (ih j hj inner hinner hjinner)
    · exact base t h hmeth hset hl

/-- The term below all layers has no layers itself, and behind its links there is
neither a method layer nor a linked cell. -/
theorem base_bare (h : s.HasBase t) :
    s.HasBase (s.layers t).2 ∧ s.layers (s.layers t).2 = ([], (s.layers t).2) ∧
      (∀ m inner, (s.demeth t).shape ≠ .meth m inner) ∧ ∀ c,
        (s.demeth t).shape = .cell c → s.link? c = none := by
  induction t, h using HasBase.induction with
  | layer t _ pos m inner _ _ hl ih =>
    rw [demeth, hl]
    exact ih
  | base t h hmeth hset hl =>
    rw [demeth, hl]
    exact ⟨h, hl, hmeth, hset⟩

end HasBase

/-- A term that is neither a method layer nor a linked cell is its own base. -/
theorem layers_of_bare (hmeth : ∀ m inner, t.shape ≠ .meth m inner)
    (hset : ∀ c, t.shape = .cell c → s.link? c = none) :
    s.HasBase t ∧ s.layers t = ([], t) ∧ s.demeth t = t := by
  have hself : s.deref t = t := deref_settled hset
  have hbase : s.HasBase t := by
    refine ⟨0, .here fun u hu => ?_⟩
    cases hu with
    | layer hx => exact hmeth _ u hx
    | link hc hl =>
      rw [hset _ hc] at hl
      cases hl
  rcases hbase.layers_cases with ⟨pos, m, inner, hd, -⟩ | ⟨-, -, hl⟩
  · exact absurd (congrArg Ty.shape (hself.symm.trans hd)) (hmeth m inner)
  · refine ⟨hbase, hl, ?_⟩
    rw [demeth, hl]
    exact hself

/-- What is left of a term without its layers is its own base. -/
theorem HasBase.layers_demeth (h : s.HasBase t) :
    s.HasBase (s.demeth t) ∧ s.layers (s.demeth t) = ([], s.demeth t) ∧
      s.demeth (s.demeth t) = s.demeth t :=
  layers_of_bare h.base_bare.2.2.1 h.base_bare.2.2.2

/-- A term with a base has one under one more method. -/
theorem HasBase.node (h : s.HasBase t) (pos : Option Range) (m : Method Ty) :
    s.HasBase (.node pos (.meth m t)) := by
  obtain ⟨n, hn⟩ := h
  exact ⟨n + 1, .further (.layer rfl) hn⟩

theorem layers_node (h : s.HasBase t) (pos : Option Range) (m : Method Ty) :
    s.layers (.node pos (.meth m t)) = (⟨pos, m⟩ :: (s.layers t).1, (s.layers t).2) := by
  have hself : s.deref (.node pos (.meth m t)) = .node pos (.meth m t) :=
    deref_settled fun c hc => by cases hc
  rcases (h.node pos m).layers_cases with ⟨pos', m', inner, hd, -, hl⟩ | ⟨hmeth, -⟩
  · cases hself.symm.trans hd
    exact hl
  · exact absurd (view_of_deref hself) (hmeth m t)

theorem hasBase_wrap (h : s.HasBase base) (layers : List Layer) :
    s.HasBase (Layer.wrap layers base) := by
  induction layers with
  | nil => exact h
  | cons l rest ih => exact ih.node l.pos l.method

/-- **Layers that are put around a term are its outer layers.** -/
theorem layers_wrap (h : s.HasBase base) (layers : List Layer) :
    s.layers (Layer.wrap layers base) = (layers ++ (s.layers base).1,
      (s.layers base).2) := by
  induction layers with
  | nil => rfl
  | cons l rest ih =>
    have hnode := layers_node (hasBase_wrap h rest) l.pos l.method
    rw [ih] at hnode
    exact hnode

theorem HasBase.demeth_wrap (h : s.HasBase base) (layers : List Layer) :
    s.demeth (Layer.wrap layers base) = s.demeth base := by
  rw [demeth, demeth, layers_wrap h]

/-! ## Acyclic terms -/

theorem Acyclic.hasBase (hs : s.Acyclic) (t : Ty) : s.HasBase t := by
  induction t using weightInduction s with
  | lighter t ih =>
    by_cases h : ∃ u, s.Onward t u
    · obtain ⟨u, hu⟩ := h
      obtain ⟨n, hn⟩ := ih u (weight_lt_of_step hs hu.step)
      exact ⟨n + 1, .further hu hn⟩
    · exact ⟨0, .here fun u hu => h ⟨u, hu⟩⟩

theorem SameBelow.onward_iff (h : SameBelow s s' t) : s'.Onward t u ↔ s.Onward t u := by
  constructor
  · intro hu
    cases hu with
    | layer hx => exact .layer hx
    | link hc hl => exact .link hc ((h.link? ⟨t, .refl, hc⟩).symm.trans hl)
  · intro hu
    cases hu with
    | layer hx => exact .layer hx
    | link hc hl => exact .link hc ((h.link? ⟨t, .refl, hc⟩).trans hl)

theorem SameBelow.hasBase (h : SameBelow s s' t)
    (hbase : s'.HasBase t) : s.HasBase t := by
  obtain ⟨n, hn⟩ := hbase
  refine ⟨n, ?_⟩
  induction hn with
  | here hend => exact .here fun u hu => hend u (h.onward_iff.2 hu)
  | further hstep _ ih =>
    have hu := h.onward_iff.1 hstep
    exact .further hu (ih (h.of_reaches (.single hu.step)))

/-- **An acyclic term has a base.** -/
theorem AcyclicBelow.hasBase (ha : s.AcyclicBelow t) : s.HasBase t := by
  obtain ⟨s', hs', -, hbelow⟩ := ha.exists_acyclic
  exact hbelow.hasBase (hs'.hasBase t)

end TypeGraph.Store
