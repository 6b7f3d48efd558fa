import TypeGraph.Proofs.Recursion

/-!
# Locality

What a store says about a term depends on the cells that can be reached from the term,
and on no others: two stores that agree on those (`SameBelow`) give the term the same
meaning. So a function that reads a term does not see whatever happens to other cells,
not even if they are linked into a cycle.

The store itself need not be acyclic. Where the bound of a function could show, it is
enough that the other store is.
-/

namespace TypeGraph.Store

variable {s s' : Store} {t u a b : Ty} {c : CellId}

/-- The stores have equally many cells, and those that can be reached from the term
hold the same. -/
structure SameBelow (s s' : Store) (t : Ty) : Prop where
  size : s'.cells.size = s.cells.size
  cells : ∀ c, s.ReachesCell t c → s'.cells[c]? = s.cells[c]?

theorem reaches_follow (s : Store) (n : Nat) (t : Ty) : s.Reaches t (s.follow n t) := by
  induction n generalizing t with
  | zero => exact .refl
  | succ n ih =>
    rcases s.linked_or_settled t with ⟨c, variance, u, hc, hl⟩ | hset
    · rw [follow_link hc hl]
      exact (ih u).head (.link hc hl)
    · rw [follow_settled hset]

/-- The methods of a term and the term they stand on can be reached. -/
theorem reaches_layersWithin (s : Store) (n : Nat) (t : Ty) :
    (∀ l ∈ (s.layersWithin n t).1, ∃ inner,
        s.Reaches t (.node l.pos (.meth l.method inner))) ∧
      s.Reaches t (s.layersWithin n t).2 := by
  induction n generalizing t with
  | zero => exact ⟨fun l hl => absurd hl List.not_mem_nil, .refl⟩
  | succ n ih =>
    rw [layersWithin, nextLayer]
    split
    · rename_i pos m inner hd
      have hlayer : s.Reaches t (.node pos (.meth m inner)) := hd ▸ s.reaches_follow _ t
      have hinner : s.Reaches t inner :=
        hlayer.tail (.child (by simp [Ty.shape, Shape.children]))
      obtain ⟨ihlayers, ihbase⟩ := ih inner
      refine ⟨List.forall_mem_cons.2 ⟨⟨inner, hlayer⟩, fun l hl => ?_⟩,
        hinner.trans ihbase⟩
      obtain ⟨inner', hl⟩ := ihlayers l hl
      exact ⟨inner', hinner.trans hl⟩
    · exact ⟨fun l hl => absurd hl List.not_mem_nil, .refl⟩

theorem reaches_demeth (s : Store) (t : Ty) : s.Reaches t (s.demeth t) :=
  (s.reaches_layersWithin _ t).2.trans (s.reaches_follow _ _)

/-- A method layer of a visible method can be reached. -/
theorem reaches_layer {m : Method Ty} (hm : m ∈ (s.splitMeths t).1) :
    ∃ pos inner, s.Reaches t (.node pos (.meth m inner)) := by
  obtain ⟨l, hl, rfl⟩ := mem_of_mem_visible hm
  obtain ⟨inner, h⟩ := (s.reaches_layersWithin _ t).1 l hl
  exact ⟨l.pos, inner, h⟩

theorem reaches_method {m : Method Ty} (hm : m ∈ (s.splitMeths t).1) :
    s.Reaches t m.scheme.type := by
  obtain ⟨pos, inner, h⟩ := reaches_layer hm
  exact h.tail (.child (by simp [Ty.shape, Shape.children]))

namespace SameBelow

theorem of_cells (h : s'.cells = s.cells) (t : Ty) : SameBelow s s' t := by
  constructor
  · rw [h]
  · intro c _
    rw [h]

theorem of_reaches (h : SameBelow s s' t) (hr : s.Reaches t u) : SameBelow s s' u :=
  ⟨h.size, fun c hc => h.cells c (hc.of_reaches hr)⟩

/-- The stores agree on the subterms of what the term stands for. -/
theorem sub (h : SameBelow s s' t) (hu : u ∈ (s.view t).children) : SameBelow s s' u :=
  h.of_reaches ((s.reaches_follow _ t).tail (.child hu))

theorem link? (h : SameBelow s s' t) (hc : s.ReachesCell t c) :
    s'.link? c = s.link? c := by
  rw [Store.link?, Store.link?, h.cells c hc]

theorem freeVar? (h : SameBelow s s' t) (hc : s.ReachesCell t c) :
    s'.freeVar? c = s.freeVar? c := by
  rw [Store.freeVar?, Store.freeVar?, h.cells c hc]

theorem reaches_iff (h : SameBelow s s' t) : s'.Reaches t u ↔ s.Reaches t u :=
  reaches_iff_of_cells h.cells

theorem reachesCell_iff (h : SameBelow s s' t) : s'.ReachesCell t c ↔ s.ReachesCell t c :=
  reachesCell_iff_of_cells h.cells

theorem reachesVar_iff (h : SameBelow s s' t) {v : VarId} :
    s'.ReachesVar t v ↔ s.ReachesVar t v :=
  reachesVar_iff_of_cells h.cells

theorem follow (h : SameBelow s s' t) (n : Nat) : s'.follow n t = s.follow n t := by
  induction n generalizing t with
  | zero => rfl
  | succ n ih =>
    rcases s.linked_or_settled t with ⟨c, variance, u, hc, hl⟩ | hset
    · rw [follow_link hc hl, follow_link hc ((h.link? ⟨t, .refl, hc⟩).trans hl)]
      exact ih (h.of_reaches (.single (.link hc hl)))
    · rw [follow_settled hset,
        follow_settled fun c hc => (h.link? ⟨t, .refl, hc⟩).trans (hset c hc)]

/-- **The term stands for the same in both stores.** -/
theorem deref (h : SameBelow s s' t) : s'.deref t = s.deref t := by
  rw [Store.deref, Store.deref, h.size, h.follow]

theorem view (h : SameBelow s s' t) : s'.view t = s.view t := by
  rw [Store.view, Store.view, h.deref]

theorem freeVar?_view (h : SameBelow s s' t) (hx : s.view t = .cell c) :
    s'.freeVar? c = s.freeVar? c :=
  h.freeVar? ⟨_, s.reaches_follow _ _, hx⟩

theorem layersWithin (h : SameBelow s s' t) (n : Nat) :
    s'.layersWithin n t = s.layersWithin n t := by
  induction n generalizing t with
  | zero => rfl
  | succ n ih =>
    calc s'.nextLayer (s'.layersWithin n) t
        = s.nextLayer (s'.layersWithin n) t := by rw [nextLayer, nextLayer, h.deref]
      _ = s.nextLayer (s.layersWithin n) t := nextLayer_congr fun u hu => ih (h.sub hu)

/-! ## Comparison -/

theorem matchLayer (ha : SameBelow s s' a) (hb : SameBelow s s' b) (hv : s'.vars = s.vars)
    (g : Ty → Ty → Renaming → Option Renaming) (r : Renaming) :
    s'.matchLayer g a b r = s.matchLayer g a b r := by
  have hvar : s'.renameVar = s.renameVar := by
    funext v w r
    have hvar : s'.var = s.var := funext fun v => by rw [var, var, hv]
    rw [renameVar, renameVar, hvar]
  have hvars : s'.renameVars = s.renameVars := by
    funext vs ws r
    induction vs generalizing ws r with
    | nil => cases ws <;> rfl
    | cons v vs ih =>
      cases ws with
      | nil => rfl
      | cons w ws =>
        rw [renameVars, renameVars, hvar]
        exact congrArg _ (funext fun r => ih ws r)
  unfold Store.matchLayer
  rw [ha.view, hb.view]
  cases hx : s.view a with
  | cell c =>
    cases hy : s.view b with
    | cell d => simp only [ha.freeVar?_view hx, hb.freeVar?_view hy, hvar]
    | _ => simp only [hvars]
  | _ => simp only [hvars]

/-- **Two terms are compared alike** in stores that agree on both of them. -/
theorem matchTerms (ha : SameBelow s s' a) (hb : SameBelow s s' b) (hv : s'.vars = s.vars)
    (n : Nat) (r : Renaming) :
    s'.matchTerms n a b r = s.matchTerms n a b r := by
  induction n generalizing a b r with
  | zero => rfl
  | succ n ih =>
    calc s'.matchLayer (s'.matchTerms n) a b r
        = s.matchLayer (s'.matchTerms n) a b r := ha.matchLayer hb hv _ r
      _ = s.matchLayer (s.matchTerms n) a b r :=
        matchLayer_congr (fun _ hu _ hw => funext fun r => ih (ha.sub hu) (hb.sub hw) r) r

/-!
## Reading within bounds

The functions that read a term have different bounds in the two stores, but both cover
its weight.
-/

theorem weight (h : SameBelow s s' t) : s'.weight t = s.weight t := by
  have hcells : s'.cellsBelow t = s.cellsBelow t := by
    ext c
    rw [mem_cellsBelow, mem_cellsBelow, h.size, h.reachesCell_iff]
  have hlinks : s'.linkWeight (s.cellsBelow t) = s.linkWeight (s.cellsBelow t) := by
    refine Finset.sum_congr rfl fun c hc => ?_
    rw [linkSize, linkSize, h.link? (mem_cellsBelow.1 hc).2]
  rw [Store.weight, Store.weight, hcells, hlinks]

theorem weight_le_span (h : SameBelow s s' t) : s'.weight t ≤ s.span t :=
  h.weight ▸ s.weight_le_span t

/-- **Terms are isomorphic in both stores or in neither.** -/
theorem isomorphic (ha : SameBelow s s' a) (hb : SameBelow s s' b) (hv : s'.vars = s.vars)
    (hs' : s'.Acyclic) :
    s.isomorphic a b = s'.isomorphic a b := by
  rw [Store.isomorphic, Store.isomorphic, ← ha.matchTerms hb hv,
    matchTerms_bound hs' ha.weight_le_span (s'.weight_le_span a)]

theorem layers (h : SameBelow s s' t) (hs' : s'.Acyclic) : s'.layers t = s.layers t := by
  rw [Store.layers, Store.layers, ← h.layersWithin,
    layersWithin_bound hs' (s'.weight_le_span t) h.weight_le_span]

theorem splitMeths (h : SameBelow s s' t) (hs' : s'.Acyclic) :
    s'.splitMeths t = s.splitMeths t := by
  have hbase : SameBelow s s' (s.layers t).2 :=
    h.of_reaches (s.reaches_layersWithin _ t).2
  rw [Store.splitMeths, Store.splitMeths, h.layers hs']
  exact congrArg (Layer.visible (s.layers t).1, ·) hbase.deref

theorem demeth (h : SameBelow s s' t) (hs' : s'.Acyclic) : s'.demeth t = s.demeth t :=
  congrArg Prod.snd (h.splitMeths hs')

theorem hasMeth (h : SameBelow s s' t) (hs' : s'.Acyclic) (name : String) :
    s'.hasMeth t name = s.hasMeth t name := by
  rw [Store.hasMeth, Store.hasMeth, findMeth?, findMeth?, h.layers hs']

theorem occurrences (h : SameBelow s s' t) (n : Nat) (bound : List VarId) :
    s'.occurrences n bound t = s.occurrences n bound t := by
  induction n generalizing t bound with
  | zero => rfl
  | succ n ih =>
    have hlayer : s'.occurrencesLayer (s'.occurrences n) bound t =
        s.occurrencesLayer (s'.occurrences n) bound t := by
      unfold occurrencesLayer
      rw [h.view]
      cases hx : s.view t with
      | cell c => simp only [h.freeVar?_view hx]
      | _ => rfl
    rw [Store.occurrences, Store.occurrences, hlayer]
    exact occurrencesLayer_congr fun u hu bound => ih (h.sub hu) bound

/-- **The term has the same free variables in both stores.** -/
theorem freeVars (h : SameBelow s s' t) (hs' : s'.Acyclic) :
    s'.freeVars t = s.freeVars t := by
  rw [Store.freeVars, Store.freeVars, ← h.occurrences,
    occurrences_bound hs' (s'.weight_le_span t) h.weight_le_span]

theorem renderWithin (h : SameBelow s s' t) (hs' : s'.Acyclic) (n : Nat) :
    s'.renderWithin n t = s.renderWithin n t := by
  induction n generalizing t with
  | zero => rfl
  | succ n ih =>
    have hbase : SameBelow s s' (s.splitMeths t).2 := h.of_reaches (s.reaches_demeth t)
    have hunit : s'.isUnit (s.splitMeths t).2 = s.isUnit (s.splitMeths t).2 := by
      rw [isUnit, isUnit, hbase.view]
    have hlayer : s'.renderLayer (s'.renderWithin n) t =
        s.renderLayer (s'.renderWithin n) t := by
      unfold renderLayer
      rw [h.view, h.splitMeths hs']
      cases hx : s.view t with
      | cell c => simp only [h.freeVar?_view hx]
      | meth m inner =>
        generalize s.splitMeths t = split at hunit
        obtain ⟨methods, base⟩ := split
        simp only [hunit]
      | _ => rfl
    rw [Store.renderWithin, Store.renderWithin, hlayer]
    exact renderLayer_congr (fun u hu => ih (h.sub hu)) (fun m hm =>
      ih (h.of_reaches (reaches_method hm)))
      fun _ _ _ => ih hbase

/-- **The term is written alike in both stores**, and its variables are named in the
same order. -/
theorem rendered (h : SameBelow s s' t) (hs' : s'.Acyclic) :
    s'.rendered t = s.rendered t := by
  rw [Store.rendered, Store.rendered, ← h.renderWithin hs',
    renderWithin_bound hs' (s'.weight_le_span t) h.weight_le_span]

end SameBelow

/-! ## Stores with the same cells -/

theorem splitMeths_of_cells (h : s'.cells = s.cells) (t : Ty) :
    s'.splitMeths t = s.splitMeths t := by
  have hlayers : s'.layers t = s.layers t := by
    have hspan : s'.span t = s.span t := by rw [span, span, h]
    rw [layers, layers, hspan, (SameBelow.of_cells h t).layersWithin]
  rw [splitMeths, splitMeths, hlayers]
  exact congrArg (Layer.visible (s.layers t).1, ·) (SameBelow.of_cells h _).deref

theorem Acyclic.of_cells (hs : s.Acyclic) (h : s'.cells = s.cells) : s'.Acyclic :=
  hs.of_links fun c variance u hl => by
    rwa [link?, h] at hl

end TypeGraph.Store
