import TypeGraph.Proofs.NamingOrder
import TypeGraph.Proofs.VisibleMethods

/-!
# Terms without methods

`deepDemeth` takes the method layers off a term wherever one comes from it through
structure: to parameters, getters, elements, items, optional values, arguments and
results, and on through links. It does not go into methods, since they are gone, and
what a custom type holds is left as it is.

`Stripped` says what becomes of a term, without a bound on the depth: each place gets
the layer of its base and keeps its own position. The result is bare
(`Stripped.bare`), and a bare term stays as it is (`Bare.deepDemethWithin`), so
nothing changes the second time. A term without methods at its places loses nothing
but links (`Stripped.outline`).
-/

namespace TypeGraph

/-! ## Structural places -/

namespace Shape

variable {α β : Type} {f g : α → α} {x : Shape α} {a : α} {c : CellId}

/-- The terms at the structural places of a layer. Those of a method are none, nor is
what a custom type holds. -/
def parts : Shape α → List α
  | meth _ _ | custom _ _ => []
  | x => x.children

/-- Replace the terms at the structural places. -/
def onParts (f : α → α) : Shape α → Shape α
  | meth m inner => meth m inner
  | custom kind held => custom kind held
  | x => x.map f

/-- A layer has no places and stays as it is, or all its subterms are at places. -/
theorem onParts_cases (x : Shape α) :
    (x.parts = [] ∧ ∀ f, x.onParts f = x) ∨ x.parts = x.children ∧ ∀ f,
      x.onParts f = x.map f := by
  cases x with
  | meth m inner => exact Or.inl ⟨rfl, fun _ => rfl⟩
  | custom kind held => exact Or.inl ⟨rfl, fun _ => rfl⟩
  | _ => exact Or.inr ⟨rfl, fun _ => rfl⟩

theorem parts_subset : x.parts ⊆ x.children := by
  rcases x.onParts_cases with ⟨hparts, -⟩ | ⟨hparts, -⟩
  · rw [hparts]
    exact List.nil_subset _
  · rw [hparts]
    exact List.Subset.refl _

theorem parts_onParts (f : α → α) (x : Shape α) :
    (x.onParts f).parts = x.parts.map f := by
  cases x <;> simp [onParts, parts, map, children]

theorem mem_children_onParts (h : a ∈ (x.onParts f).children) :
    a ∈ x.children ∨ ∃ b ∈ x.parts, f b = a := by
  rcases x.onParts_cases with ⟨-, hx⟩ | ⟨hparts, hx⟩
  · rw [hx] at h
    exact Or.inl h
  · rw [hx, children_map] at h
    rw [hparts]
    exact Or.inr (List.mem_map.1 h)

theorem onParts_congr (h : ∀ a ∈ x.parts, f a = g a) : x.onParts f = x.onParts g := by
  rcases x.onParts_cases with ⟨-, hx⟩ | ⟨hparts, hx⟩
  · rw [hx, hx]
  · rw [hx, hx]
    exact map_congr fun a ha => h a (hparts ▸ ha)

theorem onParts_id (x : Shape α) : x.onParts id = x := by
  rcases x.onParts_cases with ⟨-, hx⟩ | ⟨-, hx⟩
  · exact hx id
  · rw [hx, map_id]

/-- A reading of the subterms that does not see the replacement does not see it in the
layer. -/
theorem map_onParts {read : α → β} (h : ∀ a ∈ x.parts, read (f a) = read a) :
    (x.onParts f).map read = x.map read := by
  rcases x.onParts_cases with ⟨-, hx⟩ | ⟨hparts, hx⟩
  · rw [hx]
  · rw [hx, map_map]
    exact map_congr fun a ha => h a (hparts ▸ ha)

theorem onParts_eq_cell : x.onParts f = .cell c ↔ x = .cell c := by
  cases x <;> simp [onParts, map]

theorem onParts_eq_meth {m : Method α} {inner : α} :
    x.onParts f = .meth m inner ↔ x = .meth m inner := by
  cases x <;> simp [onParts, map]

end Shape

namespace Store

variable {s s' : Store} {t u : Ty}

/-- One step to a structural place: to a part of a layer, or through the link of
a cell. -/
inductive PlaceStep (s : Store) : Ty → Ty → Prop
  | part {t u : Ty} (h : u ∈ t.shape.parts) : PlaceStep s t u
  | link {t u : Ty} {c : CellId} {variance : Variance} (hc : t.shape = .cell c)
      (hl : s.link? c = some (variance, u)) : PlaceStep s t u

/-- `u` stands at a structural place of `t`. -/
abbrev Place (s : Store) : Ty → Ty → Prop := Relation.ReflTransGen s.PlaceStep

/-- No method layer stands at a structural place of the term. -/
def MethodFree (s : Store) (t : Ty) : Prop :=
  ∀ u, s.Place t u → ∀ m inner, u.shape ≠ .meth m inner

/-- **Neither a method layer nor a linked cell stands at a structural place of the
term.** -/
structure Bare (s : Store) (t : Ty) : Prop where
  methodFree : s.MethodFree t
  unlinked : ∀ u, s.Place t u → ∀ c, u.shape = .cell c → s.link? c = none

theorem PlaceStep.step (h : s.PlaceStep t u) : s.Step t u := by
  cases h with
  | part h => exact .child (Shape.parts_subset h)
  | link hc hl => exact .link hc hl

theorem forall_place {P : Ty → Prop} (here : P t)
    (h : ∀ u, s.PlaceStep t u → ∀ w, s.Place u w → P w) :
    ∀ w, s.Place t w → P w := by
  intro w hw
  rcases hw.cases_head with rfl | ⟨u, hu, huw⟩
  · exact here
  · exact h u hu w huw

theorem place_deref (hs : s.Acyclic) (t : Ty) : s.Place t (s.deref t) := by
  induction t using chainInduction hs with
  | linked t c variance u hc hl ih =>
    rw [deref_link hs hc hl]
    exact ih.head (.link hc hl)
  | settled t hset => rw [deref_settled hset]

theorem MethodFree.of_place (h : s.MethodFree t) (hu : s.Place t u) : s.MethodFree u :=
  fun w hw => h w (hu.trans hw)

theorem MethodFree.sameBelow (h : s.MethodFree t) (hsame : SameBelow s s' t) :
    s'.MethodFree t := by
  intro u hu
  refine h u ?_
  induction hu with
  | refl => exact .refl
  | @tail w u _ hstep ih =>
    have hw : s.Reaches t w :=
      Relation.ReflTransGen.mono (fun _ _ => PlaceStep.step) _ _ ih
    cases hstep with
    | part hu => exact ih.tail (.part hu)
    | link hc hl => exact ih.tail (.link hc ((hsame.link? ⟨w, hw, hc⟩).symm.trans hl))

theorem Bare.of_parts (hmeth : ∀ m inner, t.shape ≠ .meth m inner)
    (hset : ∀ c, t.shape = .cell c → s.link? c = none)
    (hparts : ∀ u ∈ t.shape.parts, s.Bare u) : s.Bare t := by
  have hstep : ∀ u, s.PlaceStep t u → s.Bare u := by
    intro u hu
    cases hu with
    | part hu => exact hparts u hu
    | link hc hl =>
      rw [hset _ hc] at hl
      cases hl
  exact ⟨forall_place hmeth fun u hu => (hstep u hu).methodFree,
    forall_place hset fun u hu => (hstep u hu).unlinked⟩

theorem Bare.part (h : s.Bare t) (hu : u ∈ t.shape.parts) : s.Bare u where
  methodFree := h.methodFree.of_place (.single (.part hu))
  unlinked w hw := h.unlinked w (hw.head (.part hu))

/-! ## Stripping a term -/

/-- The layer of the base, at the position of the term and with its parts replaced. -/
def stripLayer (s : Store) (below : Ty → Ty) (t : Ty) : Ty :=
  .node t.pos ((s.demeth t).shape.onParts below)

/-- **`u` is the term without methods**: the layer of its base at its own position,
each part without methods in the same way. -/
inductive Stripped (s : Store) : Ty → Ty → Prop
  | node {t : Ty} {below : Ty → Ty} (h : ∀ u ∈ (s.demeth t).shape.parts,
      Stripped s u (below u)) :
      Stripped s t (s.stripLayer below t)

theorem HasBase.deepDemethWithin_succ (h : s.HasBase t) (n : Nat) :
    s.deepDemethWithin (n + 1) t = s.stripLayer (s.deepDemethWithin n) t := by
  rw [deepDemethWithin, stripLayer]
  refine congrArg (Ty.node t.pos) ?_
  cases hx : (s.demeth t).shape with
  | meth m inner => exact absurd hx (h.base_bare.2.2.1 m inner)
  | _ => rfl

theorem reaches_part (hu : u ∈ (s.demeth t).shape.parts) : s.Reaches t u :=
  (s.reaches_demeth t).tail (.child (Shape.parts_subset hu))

theorem weight_lt_of_part (hs : s.Acyclic) (hu : u ∈ (s.demeth t).shape.parts) :
    s.weight u < s.weight t := by
  have hbase : s.weight (s.demeth t) ≤ s.weight t :=
    weight_le_of_reaches hs (s.reaches_demeth t)
  have hpart : s.weight u < s.weight (s.demeth t) :=
    weight_lt_of_step hs (.child (Shape.parts_subset hu))
  omega

theorem stripLayer_local (hs : s.Acyclic) (t : Ty) (g h : Ty → Ty)
    (hgh : ∀ u, s.weight u < s.weight t → g u = h u) :
    s.stripLayer g t = s.stripLayer h t :=
  congrArg (Ty.node t.pos) (Shape.onParts_congr fun u hu =>
    hgh u (weight_lt_of_part hs hu))

theorem deepDemeth_eq (hs : s.Acyclic) (t : Ty) :
    s.deepDemeth t = s.stripLayer s.deepDemeth t :=
  bounded_eq s.deepDemethWithin s.stripLayer
    (fun n t => (hs.hasBase t).deepDemethWithin_succ n) (stripLayer_local hs) t

theorem Acyclic.stripped (hs : s.Acyclic) (t : Ty) : s.Stripped t (s.deepDemeth t) := by
  induction t using weightInduction s with
  | lighter t ih =>
    rw [deepDemeth_eq hs]
    exact .node fun u hu => ih u (weight_lt_of_part hs hu)

/-! ## Stripping in stores that agree -/

namespace SameBelow

theorem deepDemethWithin (h : SameBelow s s' t) (hs' : s'.Acyclic) (n : Nat) :
    s'.deepDemethWithin n t = s.deepDemethWithin n t := by
  induction n generalizing t with
  | zero => rfl
  | succ n ih =>
    have hbase := hs'.hasBase t
    rw [hbase.deepDemethWithin_succ, (h.hasBase hbase).deepDemethWithin_succ, stripLayer,
      stripLayer, h.demeth hs']
    exact congrArg (Ty.node t.pos) (Shape.onParts_congr fun u hu =>
      ih (h.of_reaches (reaches_part hu)))

theorem deepDemeth (h : SameBelow s s' t) (hs' : s'.Acyclic) :
    s'.deepDemeth t = s.deepDemeth t := by
  rw [Store.deepDemeth, Store.deepDemeth, ← h.deepDemethWithin hs']
  exact bound_irrelevant s'.deepDemethWithin s'.stripLayer (fun n t =>
    (hs'.hasBase t).deepDemethWithin_succ n)
    (stripLayer_local hs') (s'.weight_le_span t) h.weight_le_span

theorem stripped (h : SameBelow s s' t) (hs' : s'.Acyclic) (hu : s'.Stripped t u) :
    s.Stripped t u := by
  induction hu with
  | @node t below _ ih =>
    rw [stripLayer, h.demeth hs']
    rw [h.demeth hs'] at ih
    exact .node fun u hu => ih u hu (h.of_reaches (reaches_part hu))

end SameBelow

/-- **An acyclic term is stripped.** -/
theorem AcyclicBelow.stripped (ha : s.AcyclicBelow t) :
    s.Stripped t (s.deepDemeth t) := by
  obtain ⟨s', hs', -, hbelow⟩ := ha.exists_acyclic
  rw [← hbelow.deepDemeth hs']
  exact hbelow.stripped hs' (hs'.stripped t)

/-! ## What is left -/

theorem Stripped.pos (h : s.Stripped t u) : u.pos = t.pos := by
  cases h with
  | node _ => rfl

/-- **What is left is bare.** -/
theorem Stripped.bare (h : s.Stripped t u) (ha : s.AcyclicBelow t) : s.Bare u := by
  induction h with
  | @node t below _ ih =>
    obtain ⟨-, -, hmeth, hset⟩ := ha.hasBase.base_bare
    refine .of_parts (fun m inner hx => ?_) (fun c hc => ?_) fun u hu => ?_
    · exact hmeth m inner (Shape.onParts_eq_meth.1 hx)
    · exact hset c (Shape.onParts_eq_cell.1 hc)
    · rw [stripLayer, Ty.shape, Shape.parts_onParts] at hu
      obtain ⟨p, hp, rfl⟩ := List.mem_map.1 hu
      exact ih p hp (ha.of_reaches (reaches_part hp))

/-- **A bare term stays as it is**, within every bound. -/
theorem Bare.deepDemethWithin (h : s.Bare t) (n : Nat) : s.deepDemethWithin n t = t := by
  induction n generalizing t with
  | zero => rfl
  | succ n ih =>
    obtain ⟨hbase, -, hself⟩ := layers_of_bare (h.methodFree t .refl) (h.unlinked t .refl)
    have hparts : t.shape.onParts (s.deepDemethWithin n) = t.shape.onParts id :=
      Shape.onParts_congr fun u hu => ih (h.part hu)
    rw [hbase.deepDemethWithin_succ, stripLayer, hself, hparts, Shape.onParts_id]
    cases t
    rfl

/-- The cells of what is left are cells of the term. -/
theorem Stripped.cellsAmong (h : s.Stripped t u) : s.CellsAmong u t := by
  induction h with
  | @node t below _ ih =>
    have hbase := s.reaches_demeth t
    rintro c ⟨w, hw, hc⟩
    rcases hw.cases_head with rfl | ⟨x, hx, hxw⟩
    · exact ⟨_, hbase, Shape.onParts_eq_cell.1 hc⟩
    · cases hx with
      | child hx =>
        rcases Shape.mem_children_onParts hx with hx | ⟨p, hp, rfl⟩
        · exact ⟨w, (hbase.tail (.child hx)).trans hxw, hc⟩
        · exact (ih p hp c ⟨w, hxw, hc⟩).of_reaches (reaches_part hp)
      | link hd hl =>
        exact ⟨w, (hbase.tail (.link (Shape.onParts_eq_cell.1 hd) hl)).trans hxw, hc⟩

/-- The layer of a stripped term, behind all links. -/
theorem view_stripLayer (h : s.HasBase t) (below : Ty → Ty) :
    s.view (s.stripLayer below t) = (s.demeth t).shape.onParts below := by
  rw [view, deref_settled]
  · rfl
  · intro c hc
    exact h.base_bare.2.2.2 c (Shape.onParts_eq_cell.1 hc)

/-- A variable that is free in what is left is free in the term. -/
theorem Stripped.freeOccurrences_subset (h : s.Stripped t u) (hs : s.Acyclic)
    (bound : List VarId) :
    s.freeOccurrences bound u ⊆ s.freeOccurrences bound t := by
  induction h with
  | @node t below _ ih =>
    intro v hv
    rw [freeOccurrences_layers hs]
    refine List.mem_append_right _ ?_
    have hset : s.view (s.demeth t) = (s.demeth t).shape :=
      congrArg Ty.shape (deref_settled (hs.hasBase t).base_bare.2.2.2)
    rw [freeOccurrences_eq hs, occurrencesLayer, view_stripLayer (hs.hasBase t)] at hv
    rw [freeOccurrences_eq hs, occurrencesLayer, hset]
    -- Where the layer quantifies nothing, what is free in it is free in one of its
    -- parts.
    have hparts : (s.demeth t).shape.parts = (s.demeth t).shape.children →
        v ∈ ((s.demeth t).shape.map below).children.flatMap (s.freeOccurrences bound) →
          v ∈ (s.demeth t).shape.children.flatMap (s.freeOccurrences bound) := by
      intro hall hv
      rw [Shape.children_map, List.flatMap_map] at hv
      obtain ⟨p, hp, hv⟩ := List.mem_flatMap.1 hv
      exact List.mem_flatMap.2 ⟨p, hp, ih p (hall ▸ hp) hv⟩
    cases hx : (s.demeth t).shape <;> rw [hx] at hv hparts
    case cell c => exact hv
    case meth m inner => exact hv
    case custom kind held => exact hv
    all_goals exact hparts rfl hv

theorem AcyclicBelow.freeVars_deepDemeth (ha : s.AcyclicBelow t) :
    s.freeVars (s.deepDemeth t) ⊆ s.freeVars t := by
  obtain ⟨s', hs', -, -, hsame⟩ := ha.exists_cleared
  have hbelow : SameBelow s s' t := hsame t fun _ hc => hc
  have hstripped := hs'.stripped t
  rw [hbelow.deepDemeth hs'] at hstripped
  rw [← hbelow.freeVars hs',
    ← (hsame _ ha.stripped.cellsAmong).freeVars hs', freeVars, freeVars]
  intro v hv
  rw [List.mem_eraseDups] at hv ⊢
  exact hstripped.freeOccurrences_subset hs' [] hv

/-- **Without methods at its places a term loses nothing but links.** -/
theorem Stripped.outline (h : s.Stripped t u) (hs : s.Acyclic) (hfree : s.MethodFree t) :
    s.outline u = s.outline t := by
  induction h with
  | @node t below _ ih =>
    have hbase : s.demeth t = s.deref t := by
      rw [demeth, layers_of_base hs fun m inner => hfree _ (place_deref hs t) m inner]
    rw [outline_eq hs, outline_eq hs t, view_stripLayer (hs.hasBase t), hbase, ← view]
    rw [hbase] at ih
    refine congrArg (Shape.outline s) (Shape.map_onParts fun p hp => ?_)
    exact ih p hp (hfree.of_place ((place_deref hs t).tail (.part hp)))

theorem AcyclicBelow.isomorphic_deepDemeth (ha : s.AcyclicBelow t)
    (hfree : s.MethodFree t) (hw : s.WellFormed) (ht : s.Scoped t) (hc : s.Complete t) :
    s.isomorphic (s.deepDemeth t) t = true := by
  refine ha.isomorphic_of_outline hw ht hc ha.stripped.cellsAmong fun s' hs' hbelow _ =>
    ?_
  rw [← hbelow.deepDemeth hs']
  exact (hs'.stripped t).outline hs' (hfree.sameBelow hbelow)

/-- **Stripping an acyclic term gives its form without methods.** The form is said by
`Stripped`: at the position of the term stands the layer of its base, each part at its
own position in the same way, and what custom types hold is not touched. There is
neither a method layer nor a linked cell at any place of it, so stripping it again
changes nothing, not even a position. No variable becomes free, and a term that had no
methods at its places is isomorphic to its form. -/
theorem deepDemeth_canonical (ha : s.AcyclicBelow t) :
    s.Stripped t (s.deepDemeth t) ∧ (s.deepDemeth t).pos = t.pos ∧
      s.Bare (s.deepDemeth t) ∧ s.deepDemeth (s.deepDemeth t) = s.deepDemeth t ∧
      (∀ v ∈ s.freeVars (s.deepDemeth t), v ∈ s.freeVars t) ∧
      (s.MethodFree t → s.WellFormed → s.Scoped t → s.Complete t →
        s.isomorphic (s.deepDemeth t) t = true) :=
  have hbare := ha.stripped.bare ha
  ⟨ha.stripped, ha.stripped.pos, hbare, hbare.deepDemethWithin _,
    fun _ hv => ha.freeVars_deepDemeth hv, ha.isomorphic_deepDemeth⟩

/-- The first cell is linked to a method on the second one, which is linked to a list
of a variable. The last one is linked into a cycle. -/
def methodsExample : Store :=
  ⟨#[⟨.depth 1, .empty⟩, ⟨.depth 1, .empty⟩],
    #[.link .covariant (.addMeth (.of (.cell 1))
        { name := "a", scheme := .mono (.of (.cell 3)) }),
      .link .invariant (.node (some ⟨5, 6⟩) (.list .array (.of (.cell 2)))),
      .free 0, .free 1,
      .link .covariant (.of (.getter (.of (.cell 4))))]⟩

/-- Methods behind a link in an argument, under an optional value, and in a custom
type. -/
def methodsExampleTerm : Ty :=
  .node (some ⟨1, 9⟩) (.arrow [⟨false, "", .node (some ⟨2, 3⟩) (.cell 0)⟩] (.of (.tuple
    [.of (.nullable (.addMeth (.of (.cell 0)) { name := "b", scheme := .mono .unit })),
      .of (.custom (.applied "box")
        [.addMeth .unit { name := "c", scheme := .mono .unit }])])))

theorem methodsExample_acyclicBelow :
    methodsExample.AcyclicBelow methodsExampleTerm ∧
      methodsExample.AcyclicBelow (.of (.cell 1)) :=
  ⟨acyclicBelow_of_rank (fun c => if c < 4 then 3 - c else c) (n := 4)
      (by decide) (by decide),
    acyclicBelow_of_rank (fun c => if c < 4 then 3 - c else c) (n := 4)
      (by decide) (by decide)⟩

theorem methodsExample_methodFree : methodsExample.MethodFree (.of (.cell 1)) := by
  refine forall_place (by simp) fun u hu => ?_
  cases hu with
  | part hu => cases hu
  | link hc hl =>
    cases hc
    cases hl
    refine forall_place (by simp [Ty.shape]) fun u hu => ?_
    cases hu with
    | link hc hl => cases hc
    | part hu =>
      cases List.mem_singleton.1 hu
      refine forall_place (by simp) fun u hu => ?_
      cases hu with
      | part hu => cases hu
      | link hc hl =>
        cases hc
        cases hl

/-- Only the method in the custom type is left, and the variable of the others is
gone. A list behind a link has no methods, and is isomorphic to what becomes of it. -/
theorem deepDemeth_canonical_nested :
    let stripped := methodsExample.deepDemeth methodsExampleTerm
    methodsExample.Stripped methodsExampleTerm stripped ∧ methodsExample.Bare stripped ∧
      methodsExample.render methodsExampleTerm =
        "(['b].\x7ba : 'a\x7d) -> (['b].\x7bb : unit, a : 'a\x7d? * box(\x7bc : unit\x7d))" ∧
      methodsExample.render stripped = "(['a]) -> (['a]? * box(\x7bc : unit\x7d))" ∧
      methodsExample.deepDemeth stripped = stripped ∧
        methodsExample.freeVars methodsExampleTerm = [1, 0] ∧
      (∀ v ∈ methodsExample.freeVars stripped, v ∈ [1, 0]) ∧
      methodsExample.isomorphic (methodsExample.deepDemeth (.of (.cell 1)))
        (.of (.cell 1)) = true := by
  intro stripped
  obtain ⟨hterm, hlist⟩ := methodsExample_acyclicBelow
  obtain ⟨hstripped, -, hbare, hagain, hvars, -⟩ := deepDemeth_canonical hterm
  obtain ⟨-, -, -, -, -, hiso⟩ := deepDemeth_canonical hlist
  refine ⟨hstripped, hbare, by decide +kernel, by decide +kernel, hagain,
    by decide, hvars, ?_⟩
  exact hiso methodsExample_methodFree (by decide) (by decide)
    (complete_of_everywhere (by decide) (by decide))

end Store

end TypeGraph
