import TypeGraph.Proofs.Reach
import Mathlib.Algebra.BigOperators.Group.Finset.Basic
import Mathlib.Algebra.Order.BigOperators.Group.Finset

/-!
# Why walks end

The functions that follow links go down a term, a layer or a link at a time, and stop
after `Store.span` layers at the latest. In an acyclic store that bound is never what
stops them: `Store.weight` counts the nodes of a term and those behind the links that
can be reached from it, it drops with every step down, and it is at most the span. So
each such function satisfies its own recursion equation without the bound
(`bounded_eq`), and what is proved about it needs no bound either.

Links are followed first of all by `deref`, which reaches the end of every chain of
links (`deref_not_linked`).
-/

namespace TypeGraph.Store

open Finset

variable {s : Store} {t u : Ty} {c : CellId} {variance : Variance}

/-! ## The weight of links -/

/-- The nodes behind the link of a cell, and one for the link itself. -/
def linkSize (s : Store) (c : CellId) : Nat :=
  match s.link? c with
  | some (_, u) => u.size + 1
  | none => 0

theorem linkSize_of_link (h : s.link? c = some (variance, u)) :
    s.linkSize c = u.size + 1 := by
  rw [linkSize, h]

/-- The nodes behind the links of all cells of a set. -/
def linkWeight (s : Store) (cells : Finset CellId) : Nat := ∑ c ∈ cells, s.linkSize c

theorem linkWeight_mono {A B : Finset CellId} (h : A ⊆ B) :
    s.linkWeight A ≤ s.linkWeight B :=
  sum_le_sum_of_subset h

/-- A linked cell weighs more than the term it is linked to. -/
theorem linkWeight_target {A B : Finset CellId}
    (hl : s.link? c = some (variance, u)) (hA : c ∉ A) (hB : c ∈ B) (h : A ⊆ B) :
    s.linkWeight A + (u.size + 1) ≤ s.linkWeight B := by
  have hins : s.linkWeight (insert c A) ≤ s.linkWeight B :=
    linkWeight_mono (insert_subset hB h)
  rw [linkWeight, sum_insert hA, linkSize_of_link hl] at hins
  rw [linkWeight]
  omega

theorem linkedSize_eq (l : List Cell) :
    linkedSize l = ∑ i ∈ range l.length, (l[i]?).elim 0 cellSize := by
  induction l with
  | nil => rfl
  | cons x l ih =>
    rw [linkedSize, ih, List.length_cons, sum_range_succ', Nat.add_comm]
    rfl

theorem span_eq (s : Store) (t : Ty) :
    s.span t = t.size + s.linkWeight (range s.cells.size) := by
  rw [span, linkedSize_eq, Array.length_toList, linkWeight]
  refine congrArg (t.size + ·) (sum_congr rfl fun i _ => ?_)
  rw [linkSize, link?, Array.getElem?_toList]
  cases s.cells[i]? with
  | none => rfl
  | some x => cases x <;> rfl

/-! ## The weight of a term -/

open Classical in
/-- The cells of the store that can be reached from a term. -/
noncomputable def cellsBelow (s : Store) (t : Ty) : Finset CellId :=
  {c ∈ range s.cells.size | s.ReachesCell t c}

theorem mem_cellsBelow : c ∈ s.cellsBelow t ↔ c < s.cells.size ∧ s.ReachesCell t c := by
  simp [cellsBelow]

theorem cellsBelow_subset (s : Store) (t : Ty) : s.cellsBelow t ⊆ range s.cells.size := by
  intro c hc
  exact mem_range.2 (mem_cellsBelow.1 hc).1

theorem cellsBelow_mono (h : s.Reaches t u) : s.cellsBelow u ⊆ s.cellsBelow t := by
  intro c hc
  rw [mem_cellsBelow] at hc ⊢
  exact ⟨hc.1, hc.2.of_reaches h⟩

/-- A linked cell is below itself, and in an acyclic store not below its target. -/
theorem cellsBelow_link (hs : s.Acyclic) (hc : t.shape = .cell c)
    (hl : s.link? c = some (variance, u)) :
    c ∉ s.cellsBelow u ∧ c ∈ s.cellsBelow t ∧ s.cellsBelow u ⊆ s.cellsBelow t := by
  refine ⟨fun h => ?_, ?_, cellsBelow_mono (.single (.link hc hl))⟩
  · exact hs _ _ _ hl (mem_cellsBelow.1 h).2
  · exact mem_cellsBelow.2 ⟨lt_of_link? hl, t, .refl, hc⟩

/-- The nodes of a term and those behind all links that can be reached from it. -/
noncomputable def weight (s : Store) (t : Ty) : Nat :=
  t.size + s.linkWeight (s.cellsBelow t)

theorem weight_pos (s : Store) (t : Ty) : 0 < s.weight t :=
  Nat.lt_of_lt_of_le t.size_pos (Nat.le_add_right _ _)

theorem weight_le_span (s : Store) (t : Ty) : s.weight t ≤ s.span t := by
  rw [span_eq]
  exact Nat.add_le_add_left (linkWeight_mono (s.cellsBelow_subset t)) _

/-- **The weight drops with every step down.** -/
theorem weight_lt_of_step (hs : s.Acyclic) (h : s.Step t u) :
    s.weight u < s.weight t := by
  cases h with
  | child hu =>
    have hsize := Ty.size_lt_of_mem hu
    have hr : s.Reaches t u := .single (.child hu)
    have hlinks := linkWeight_mono (s := s) (cellsBelow_mono hr)
    rw [weight, weight]
    omega
  | link hc hl =>
    obtain ⟨hu, ht, hsub⟩ := cellsBelow_link hs hc hl
    have hlinks := linkWeight_target hl hu ht hsub
    have hpos := t.size_pos
    rw [weight, weight]
    omega

theorem weight_le_of_reaches (hs : s.Acyclic) (h : s.Reaches t u) :
    s.weight u ≤ s.weight t := by
  induction h with
  | refl => exact le_rfl
  | tail _ hstep ih => exact (weight_lt_of_step hs hstep).le.trans ih

/-- **Induction on the weight.** -/
@[elab_as_elim]
theorem weightInduction (s : Store) {motive : Ty → Prop}
    (lighter : ∀ t : Ty, (∀ u, s.weight u < s.weight t → motive u) → motive t)
    (t : Ty) : motive t :=
  (measure s.weight).wf.induction t lighter

/-! ## Chains of links -/

theorem follow_link {n : Nat} (hc : t.shape = .cell c)
    (hl : s.link? c = some (variance, u)) :
    s.follow (n + 1) t = s.follow n u := by
  simp only [follow, hc, hl]

theorem follow_settled (h : ∀ c, t.shape = .cell c → s.link? c = none) (n : Nat) :
    s.follow n t = t := by
  cases n with
  | zero => rfl
  | succ n =>
    unfold follow
    split
    · rename_i c hc
      rw [h c hc]
    · rfl

/-- A term that is not a linked cell stands for itself. -/
theorem deref_settled (h : ∀ c, t.shape = .cell c → s.link? c = none) : s.deref t = t :=
  follow_settled h _

/-- A term is a linked cell or it is not; most proofs about `deref` split here. -/
theorem linked_or_settled (s : Store) (t : Ty) :
    (∃ c variance u, t.shape = .cell c ∧ s.link? c = some (variance, u)) ∨
      ∀ c, t.shape = .cell c → s.link? c = none := by
  by_cases h : ∃ c, t.shape = .cell c ∧ s.link? c ≠ none
  · obtain ⟨c, hc, hl⟩ := h
    obtain ⟨⟨variance, u⟩, hl⟩ := Option.ne_none_iff_exists'.1 hl
    exact Or.inl ⟨c, variance, u, hc, hl⟩
  · exact Or.inr fun c hc => by_contra fun hl => h ⟨c, hc, hl⟩

theorem card_cellsBelow_link (hs : s.Acyclic) (hc : t.shape = .cell c)
    (hl : s.link? c = some (variance, u)) :
    (s.cellsBelow u).card < (s.cellsBelow t).card := by
  obtain ⟨hu, ht, hsub⟩ := cellsBelow_link hs hc hl
  exact card_lt_card ((ssubset_iff_of_subset hsub).2 ⟨c, ht, hu⟩)

/-- Any two bounds that cover the cells below a term follow its chain to the same
end. -/
theorem follow_congr (hs : s.Acyclic) {m n : Nat} (hm : (s.cellsBelow t).card ≤ m)
    (hn : (s.cellsBelow t).card ≤ n) : s.follow m t = s.follow n t := by
  induction m generalizing t n with
  | zero =>
    rcases s.linked_or_settled t with ⟨c, variance, u, hc, hl⟩ | h
    · have := card_cellsBelow_link hs hc hl
      omega
    · rw [follow_settled h, follow_settled h]
  | succ m ih =>
    rcases s.linked_or_settled t with ⟨c, variance, u, hc, hl⟩ | h
    · have hlt := card_cellsBelow_link hs hc hl
      obtain ⟨n, rfl⟩ : ∃ k, n = k + 1 := ⟨n - 1, by omega⟩
      rw [follow_link hc hl, follow_link hc hl]
      exact ih (by omega) (by omega)
    · rw [follow_settled h, follow_settled h]

theorem card_cellsBelow_le (s : Store) (t : Ty) :
    (s.cellsBelow t).card ≤ s.cells.size := by
  have h := card_le_card (s.cellsBelow_subset t)
  rwa [card_range] at h

/-- A linked cell stands for what its target stands for. -/
theorem deref_link (hs : s.Acyclic) (hc : t.shape = .cell c)
    (hl : s.link? c = some (variance, u)) :
    s.deref t = s.deref u := by
  have ht := s.card_cellsBelow_le t
  rw [deref, deref, follow_congr hs ht (Nat.le_succ_of_le ht), follow_link hc hl]

/-- **Induction along a chain of links.** -/
@[elab_as_elim]
theorem chainInduction (hs : s.Acyclic) {motive : Ty → Prop}
    (linked : ∀ (t : Ty) c variance u, t.shape = .cell c →
      s.link? c = some (variance, u) → motive u → motive t)
    (settled : ∀ t : Ty, (∀ c, t.shape = .cell c → s.link? c = none) → motive t)
    (t : Ty) : motive t := by
  induction t using weightInduction s with
  | lighter t ih =>
    rcases s.linked_or_settled t with ⟨c, variance, u, hc, hl⟩ | h
    · exact linked t c variance u hc hl (ih u (weight_lt_of_step hs (.link hc hl)))
    · exact settled t h

theorem reaches_deref (hs : s.Acyclic) (t : Ty) : s.Reaches t (s.deref t) := by
  induction t using chainInduction hs with
  | linked t c variance u hc hl ih =>
    rw [deref_link hs hc hl]; exact ih.head (.link hc hl)
  | settled t h => rw [deref_settled h]

/-- **Behind all links there is no linked cell.** -/
theorem deref_not_linked (hs : s.Acyclic) (h : (s.deref t).shape = .cell c) :
    s.link? c = none := by
  induction t using chainInduction hs with
  | linked t d variance u hc hl ih => rw [deref_link hs hc hl] at h; exact ih h
  | settled t ht => rw [deref_settled ht] at h; exact ht c h

theorem deref_deref (hs : s.Acyclic) (t : Ty) : s.deref (s.deref t) = s.deref t :=
  deref_settled fun _ hc => deref_not_linked hs hc

theorem weight_deref_le (hs : s.Acyclic) (t : Ty) : s.weight (s.deref t) ≤ s.weight t :=
  weight_le_of_reaches hs (reaches_deref hs t)

/-- The subterms of what a term stands for weigh less than the term. -/
theorem weight_lt_of_mem_view (hs : s.Acyclic) (h : u ∈ (s.view t).children) :
    s.weight u < s.weight t :=
  (weight_lt_of_step hs (.child h)).trans_le (weight_deref_le hs t)

/-- **Induction behind links.** What holds of a term as soon as it holds of the
subterms of what the term stands for holds of every term. -/
@[elab_as_elim]
theorem viewInduction (hs : s.Acyclic) {motive : Ty → Prop}
    (layer : ∀ t : Ty, (∀ u ∈ (s.view t).children, motive u) → motive t)
    (t : Ty) : motive t := by
  induction t using weightInduction s with
  | lighter t ih => exact layer t fun u hu => ih u (weight_lt_of_mem_view hs hu)

/-! ## What can be reached behind links -/

/-- What can be reached from a term, linked cells apart, is what the term stands for
or can be reached from a subterm of it. -/
theorem reaches_settled (hs : s.Acyclic) {w : Ty} (h : s.Reaches t w)
    (hw : ∀ c, w.shape = .cell c → s.link? c = none) :
    w = s.deref t ∨ ∃ u ∈ (s.view t).children, s.Reaches u w := by
  induction t using chainInduction hs with
  | linked t c variance u hc hl ih =>
    rcases h.cases_head with rfl | ⟨x, hx, hxw⟩
    · rw [hw c hc] at hl
      cases hl
    · cases hx with
      | child hx => simp [hc, Shape.children] at hx
      | link hc' hl' =>
        cases hc.symm.trans hc'
        cases hl.symm.trans hl'
        rw [view, deref_link hs hc hl]
        exact ih hxw
  | settled t ht =>
    rw [view, deref_settled ht]
    rcases h.cases_head with rfl | ⟨x, hx, hxw⟩
    · exact Or.inl rfl
    · cases hx with
      | child hx => exact Or.inr ⟨x, hx, hxw⟩
      | link hc hl => rw [ht _ hc] at hl; cases hl

theorem reaches_of_mem_view (hs : s.Acyclic)
    (h : u ∈ (s.view t).children) : s.Reaches t u :=
  (reaches_deref hs t).tail (.child h)

/-- A free cell can be reached from a term that stands for it, or if it can be from
a subterm. -/
theorem reachesCell_iff_view (hs : s.Acyclic) (hc : s.link? c = none) :
    s.ReachesCell t c ↔ s.view t = .cell c ∨ ∃ u ∈ (s.view t).children,
      s.ReachesCell u c := by
  constructor
  · rintro ⟨w, hw, hwc⟩
    have hset : ∀ d, w.shape = .cell d → s.link? d = none := fun d hd => by
      cases hwc.symm.trans hd
      exact hc
    rcases reaches_settled hs hw hset with rfl | ⟨u, hu, huw⟩
    · exact Or.inl hwc
    · exact Or.inr ⟨u, hu, w, huw, hwc⟩
  · rintro (h | ⟨u, hu, huc⟩)
    · exact ⟨s.deref t, reaches_deref hs t, h⟩
    · exact huc.of_reaches (reaches_of_mem_view hs hu)

theorem complete_iff_view (hs : s.Acyclic) :
    s.Complete t ↔ s.view t ≠ .hole ∧ ∀ u ∈ (s.view t).children, s.Complete u := by
  constructor
  · intro h
    exact ⟨h _ (reaches_deref hs t), fun u hu => h.of_reaches (reaches_of_mem_view hs hu)⟩
  · rintro ⟨hview, hsub⟩ w hw hwh
    have hset : ∀ d, w.shape = .cell d → s.link? d = none := fun d hd => by
      cases hwh.symm.trans hd
    rcases reaches_settled hs hw hset with rfl | ⟨u, hu, huw⟩
    · exact hview hwh
    · exact hsub u hu w huw hwh

/-! ## Bounded recursion -/

section Bounded

variable {β : Type} (f : Nat → Ty → β) (body : (Ty → β) → Ty → β)

/-- Any two bounds that cover the weight of a term give the same result, if each layer
calls the function only on terms that weigh less. -/
theorem bound_irrelevant (hstep : ∀ n t, f (n + 1) t = body (f n) t)
    (hlocal : ∀ t g h, (∀ u, s.weight u < s.weight t → g u = h u) → body g t = body h t)
    {m n : Nat} (hm : s.weight t ≤ m) (hn : s.weight t ≤ n) : f m t = f n t := by
  induction m generalizing t n with
  | zero => exact absurd hm (Nat.not_le_of_gt (s.weight_pos t))
  | succ m ih =>
    have hpos := s.weight_pos t
    obtain ⟨n, rfl⟩ : ∃ k, n = k + 1 := ⟨n - 1, by omega⟩
    rw [hstep, hstep]
    exact hlocal t _ _ fun u hu => ih (by omega) (by omega)

/-- **A function that is bounded by the span satisfies its recursion equation without
the bound.** -/
theorem bounded_eq (hstep : ∀ n t, f (n + 1) t = body (f n) t)
    (hlocal : ∀ t g h, (∀ u, s.weight u < s.weight t → g u = h u) → body g t = body h t)
    (t : Ty) : f (s.span t) t = body (fun u => f (s.span u) u) t := by
  have ht := s.weight_le_span t
  rw [bound_irrelevant f body hstep hlocal ht (Nat.le_succ_of_le ht), hstep]
  refine hlocal t _ _ fun u hu =>
    bound_irrelevant f body hstep hlocal ?_ (s.weight_le_span u)
  exact hu.le.trans ht

end Bounded

end TypeGraph.Store
