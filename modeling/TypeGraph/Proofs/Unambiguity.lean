import TypeGraph.Proofs.Spelling
import TypeGraph.Proofs.Transparency

/-!
# What the text of a type tells

A question mark is written behind a type without parentheses, and what an arrow
returns extends to the right. So the text of a nullable arrow is also that of the
arrow that returns a nullable, although these types are not isomorphic
(`render_nullable_arrow`).

This is all that is lost. `Store.asRead` moves every nullable over an arrow to what
the arrow returns. Two types of the plain type language (`Readable`) have the same
text just when they are isomorphic as read (`render_eq_iff_asRead`).
-/

namespace TypeGraph

/-- Is the layer an arrow? -/
def Shape.isArrow {α : Type} : Shape α → Bool
  | arrow _ _ => true
  | _ => false

/-! ## Moving marks -/

namespace Ty

/-- Put a nullable at a position around a term, or around what it returns if it is an
arrow. -/
def marked (pos : Option Range) : Ty → Ty
  | node p (.arrow args ret) => node p (.arrow args (ret.marked pos))
  | t => node pos (.nullable t)

/-- A layer with its nullable moved. -/
def readLayer (pos : Option Range) : Shape Ty → Ty
  | .nullable t => t.marked pos
  | x => node pos x

/-- The term with every nullable over an arrow moved to what the arrow returns. -/
def asRead : Ty → Ty := fold readLayer

end Ty

namespace Store

/-- The term behind all links, as its text is read. -/
def asRead (s : Store) (t : Ty) : Ty := (s.expand t).asRead

variable {s s' : Store} {t a b : Ty}

/-! ## Terms as read -/

theorem outline_of_shape (s : Store) (pos : Option Range) (x : Shape Ty) :
    (Ty.node pos x).outline s = (x.map (Ty.outline s)).outline s := Ty.fold_eq _ _

/-- The outline of a layer with a label. -/
theorem outline_layer {x : Shape Ty} {label : Label} (h : x.label? = some label)
    (pos : Option Range) :
    (Ty.node pos x).outline s =
      .node label x.binders (x.children.map (Ty.outline s)) := by
  rw [outline_of_shape, ← Shape.binders_map (Ty.outline s), ← Shape.children_map]
  rw [← Shape.label?_map (Ty.outline s)] at h
  generalize x.map (Ty.outline s) = y at h
  cases y with
  | hole | cell c => cases h
  | _ => simp only [Shape.outline, h]

theorem outline_cell {c : CellId} {v : VarId} (hf : s.freeVar? c = some v)
    (pos : Option Range) :
    (Ty.node pos (.cell c)).outline s = .var v := by
  rw [outline_of_shape]
  simp only [Shape.map, Shape.outline, hf]

/-- Only arrows have the outlines of arrows. -/
theorem eq_arrow_of_outline {labels : List (Bool × String)} {vs : List VarId}
    {parts : List Outline} (h : t.outline s = .node (.arrow labels) vs parts) :
    ∃ pos args ret, t = .node pos (.arrow args ret) := by
  obtain ⟨pos, x⟩ := t
  cases x with
  | arrow args ret => exact ⟨pos, args, ret, rfl⟩
  | hole =>
    rw [outline_of_shape] at h
    cases h
  | cell c =>
    rw [outline_of_shape] at h
    cases hf : s.freeVar? c <;> simp [Shape.map, Shape.outline, hf] at h
  | _ =>
    rw [outline_layer rfl] at h
    cases h

theorem asRead_eq (hs : s.Acyclic) (t : Ty) :
    s.asRead t = Ty.readLayer (s.deref t).pos ((s.view t).map s.asRead) := by
  rw [asRead, Ty.asRead, Ty.fold_eq, shape_expand hs, Shape.map_map, expand_eq hs]
  rfl

/-- A term with the outline of a phrase, marked, has that of the marked phrase. -/
theorem outline_marked {p : Phrase Atom} (h : t.outline s = p.outline)
    (pos : Option Range) :
    (t.marked pos).outline s = p.mark.outline := by
  fun_induction Ty.marked pos t generalizing p with
  | case1 pos' args ret ih =>
    rw [outline_layer rfl] at h
    obtain ⟨args', ret', rfl⟩ := Phrase.eq_arrow_of_outline h.symm
    rw [Phrase.outline, Outline.node.injEq] at h
    obtain ⟨hlabel, -, hparts⟩ := h
    rw [Shape.children, List.map_append] at hparts
    obtain ⟨hargs, hret⟩ := List.append_inj' hparts rfl
    have ih := ih (List.cons.inj hret).1
    rw [outline_layer rfl, Phrase.mark, Phrase.outline, ← hlabel, Shape.children,
      List.map_append, hargs, ← ih]
    rfl
  | case2 t hnot =>
    have hp : ∀ args ret, p ≠ .arrow args ret := by
      rintro args ret rfl
      rw [Phrase.outline] at h
      obtain ⟨pos', args', ret', rfl⟩ := eq_arrow_of_outline h
      exact hnot pos' args' ret' rfl
    rw [outline_layer rfl, Phrase.outline_mark hp, ← h]
    rfl

/-- A layer as read has the outline of its phrase, if its subterms have. -/
theorem Spells.outline {x : Shape Ty} {p : Phrase Atom}
    (h : s.Spells x p) {read : Ty → Ty}
    (hread : ∀ u ∈ x.children, (read u).outline s = (s.phrase u).outline)
    (pos : Option Range) : (Ty.readLayer pos (x.map read)).outline s = p.outline := by
  have hnode : ∀ label, x.label? = some label → (Ty.node pos (x.map read)).outline s =
      .node label x.binders (x.children.map fun u => (s.phrase u).outline) := by
    intro label hlabel
    rw [outline_layer (by rw [Shape.label?_map, hlabel]), Shape.binders_map,
      Shape.children_map, List.map_map]
    exact congrArg _ (List.map_congr_left hread)
  cases h with
  | ground name =>
    exact (hnode _ rfl).trans (by simp only [Phrase.outline, Phrase.marked]; rfl)
  | unit => exact (hnode _ rfl).trans (by simp only [Phrase.outline, Phrase.marked]; rfl)
  | tuple first rest =>
    exact (hnode _ rfl).trans
      (by simp [Phrase.outline, Phrase.marked, Shape.binders, Shape.children])
  | list elem =>
    exact (hnode _ rfl).trans
      (by simp [Phrase.outline, Phrase.marked, Shape.binders, Shape.children])
  | nullable inner => exact outline_marked (hread inner (by simp [Shape.children])) pos
  | arrow args ret plain =>
    have hlabels : args.map (fun a => (a.optional, a.label)) =
        args.map fun _ => (false, "") :=
      List.map_congr_left fun a ha => Prod.ext (plain a ha).1 (plain a ha).2
    exact (hnode _ rfl).trans
      (by simp [Phrase.outline, Shape.binders, Shape.children, hlabels, Function.comp_def])

/-- **A term as read has the outline that its phrase is read as.** -/
theorem outline_asRead (hs : s.Acyclic) (h : s.Readable t) :
    (s.asRead t).outline s = (s.phrase t).outline := by
  induction t using viewInduction hs with
  | layer t ih =>
    rw [asRead_eq hs]
    rcases h.cases hs with ⟨c, v, hx, hf, hp⟩ | hspells
    · rw [hx, hp, Phrase.outline, Phrase.marked, Atom.outline]
      exact outline_cell hf _
    · exact hspells.outline (fun u hu => ih u hu (h.sub hs hu)) _

/-- Marks are moved past layers without cells. -/
theorem everywhere_marked {Q : CellId → Prop}
    (h : t.Everywhere fun x => ∀ c ∈ x.cells, Q c) (pos : Option Range) :
    (t.marked pos).Everywhere fun x => ∀ c ∈ x.cells, Q c := by
  fun_induction Ty.marked pos t with
  | case1 pos' args ret ih =>
    refine .layer (by simp [Ty.shape]) fun u hu => ?_
    rcases List.mem_append.1 hu with hu | hu
    · exact h.sub (List.mem_append_left _ hu)
    · rw [List.mem_singleton.1 hu]
      exact ih (h.sub (by simp [Ty.shape, Shape.children]))
  | case2 t hnot =>
    refine .layer (by simp [Ty.shape]) fun u hu => ?_
    rw [List.mem_singleton.1 hu]
    exact h

theorem everywhere_asRead {Q : CellId → Prop}
    (h : t.Everywhere fun x => ∀ c ∈ x.cells, Q c) :
    t.asRead.Everywhere fun x => ∀ c ∈ x.cells, Q c := by
  induction h with
  | @layer t here _ ih =>
    have hlayer : (Ty.node t.pos (t.shape.map Ty.asRead)).Everywhere fun x =>
        ∀ c ∈ x.cells, Q c := by
      refine .layer (by simpa [Ty.shape] using here) fun u hu => ?_
      rw [Ty.shape, Shape.children_map] at hu
      obtain ⟨w, hw, rfl⟩ := List.mem_map.1 hu
      exact ih w hw
    rw [Ty.asRead, Ty.fold_eq]
    cases hx : t.shape with
    | nullable u => exact everywhere_marked (ih u (by simp [hx, Shape.children])) _
    | _ =>
      rw [hx] at hlayer
      exact hlayer

/-- The cells of a term as read are free, and can be reached from the term. -/
theorem cells_asRead (hs : s.Acyclic) (t : Ty) :
    (s.asRead t).Everywhere fun x =>
      ∀ c ∈ x.cells, s.ReachesCell t c ∧ s.link? c = none := by
  refine everywhere_asRead ?_
  induction t using viewInduction hs with
  | layer t ih =>
    refine .layer (fun c hc => ?_) fun u hu => ?_
    · rw [shape_expand hs, Shape.cells_map, Shape.mem_cells] at hc
      exact ⟨⟨s.deref t, reaches_deref hs t, hc⟩, deref_not_linked hs hc⟩
    · rw [shape_expand hs, Shape.children_map] at hu
      obtain ⟨w, hw, rfl⟩ := List.mem_map.1 hu
      refine (ih w hw).imp fun x hx c hc => ⟨?_, (hx c hc).2⟩
      exact (hx c hc).1.of_reaches (reaches_of_mem_view hs hw)

/-- A term without links is its own expansion. -/
theorem expand_of_unlinked (hs : s.Acyclic)
    (h : t.Everywhere fun x => ∀ c ∈ x.cells, s.link? c = none) :
    s.expand t = t := by
  induction h with
  | @layer t here _ ih =>
    have hderef : s.deref t = t := deref_settled fun c hc => here c (Shape.mem_cells.2 hc)
    have hshape : t.shape.map s.expand = t.shape :=
      (Shape.map_congr ih).trans t.shape.map_id
    rw [expand_eq hs, expandLayer, view, hderef, hshape]
    cases t
    rfl

/-- **The outline of a term as read is what its phrase is read as.** -/
theorem outline_of_asRead (hs : s.Acyclic) (h : s.Readable t) :
    s.outline (s.asRead t) = (s.phrase t).outline := by
  have hunlinked := (cells_asRead hs t).imp fun x hx c hc => (hx c hc).2
  rw [outline, expand_of_unlinked hs hunlinked, outline_asRead hs h]

/-! ## Texts and isomorphism -/

/-- The variables at the same place of two orders. -/
def SamePlace (names names' : Names) (v w : VarId) : Prop :=
  ∃ i : Nat, names[i]? = some v ∧ names'[i]? = some w

theorem biUnique_samePlace {names names' : Names} (h : names.Nodup) (h' : names'.Nodup) :
    Relator.BiUnique (SamePlace names names') := by
  have hplace : ∀ {names : Names} {i j : Nat} {v : VarId}, names.Nodup →
      names[i]? = some v → names[j]? = some v → i = j := by
    intro names i j v hnodup hi hj
    obtain ⟨hlt, -⟩ := List.getElem?_eq_some_iff.1 hi
    exact (List.getElem?_inj hlt hnodup).1 (hi.trans hj.symm)
  constructor
  · rintro v v' w ⟨i, hv, hw⟩ ⟨j, hv', hw'⟩
    cases hplace h' hw hw'
    exact Option.some.inj (hv.symm.trans hv')
  · rintro v w w' ⟨i, hv, hw⟩ ⟨j, hv', hw'⟩
    cases hplace h hv hv'
    exact Option.some.inj (hw.symm.trans hw')

theorem mem_freeVars_of_word (hs : s.Acyclic) (h : s.Readable t) {v : VarId}
    (hv : .var v ∈ (s.phrase t).words) :
    v ∈ s.freeVars t := by
  refine List.mem_eraseDups.2 ?_
  change v ∈ s.freeOccurrences [] t
  rw [← vars_phrase hs h]
  exact List.mem_flatMap.2 ⟨.var v, hv, List.mem_singleton_self v⟩

/-- **Terms with the same text are isomorphic as read.** -/
theorem isomorphic_of_render (hs : s.Acyclic) (ha : s.Readable a) (hb : s.Readable b)
    (h : s.render a = s.render b) :
    s.isomorphic (s.asRead a) (s.asRead b) = true := by
  rw [render_eq_spelling hs ha, render_eq_spelling hs hb] at h
  have hphrase := Phrase.chars_injective (String.ofList_injective h)
  have hfair : s.Fair (SamePlace (s.freeVars a) (s.freeVars b)) := by
    refine ⟨biUnique_samePlace (s.freeVars_nodup a) (s.freeVars_nodup b), ?_⟩
    rintro v w ⟨i, hv, hw⟩ kind
    have hv := ha.unconstrained (reachesVar_of_mem_freeVars hs (List.mem_of_getElem? hv))
    have hw := hb.unconstrained (reachesVar_of_mem_freeVars hs (List.mem_of_getElem? hw))
    rw [hv, hw]
  refine (isomorphic_iff_fair hs _ _).2 ⟨_, hfair, ?_⟩
  rw [outline_of_asRead hs ha, outline_of_asRead hs hb]
  refine Phrase.renames_outline hphrase fun x hx y hy hxy => ?_
  rcases Atom.word_inj hxy with ⟨v, w, rfl, rfl, hplace⟩ | ⟨rfl, hvars⟩
  · -- Two variables with one name stand at the same place of their orders.
    refine .var ⟨(s.freeVars a).idxOf v,
      List.getElem?_idxOf (mem_freeVars_of_word hs ha hx), ?_⟩
    rw [hplace]
    exact List.getElem?_idxOf (mem_freeVars_of_word hs hb hy)
  · exact Atom.renames_self hvars

/-- A phrase is spelled alike when its variables are replaced one to one, and named in
the order in which they are met. -/
theorem spelling_rename {p : Phrase Atom} {σ : VarId → VarId}
    (hσ : Set.InjOn σ {v | v ∈ p.words.flatMap Atom.vars}) :
    spelling ((p.map (Atom.rename σ)).words.flatMap Atom.vars).eraseDups
        (p.map (Atom.rename σ)) =
      spelling (p.words.flatMap Atom.vars).eraseDups p := by
  have hatom : ∀ x : Atom, (x.rename σ).vars = x.vars.map σ := fun x => by cases x <;> rfl
  have hvars : (p.map (Atom.rename σ)).words.flatMap Atom.vars =
      (p.words.flatMap Atom.vars).map σ := by
    rw [Phrase.words_map, List.flatMap_map, List.map_flatMap]
    exact List.flatMap_congr fun x _ => hatom x
  rw [hvars, Mirror.eraseDups_map_known hσ fun v hv => hv, spelling,
    spelling, Phrase.map_map]
  refine congrArg (fun q : Phrase Word => String.ofList q.chars)
    (Phrase.map_congr fun x hx => ?_)
  cases x with
  | var v =>
    have hv : v ∈ p.words.flatMap Atom.vars :=
      List.mem_flatMap.2 ⟨.var v, hx, List.mem_singleton_self v⟩
    have hplace := SameNaming.idxOf?_map hσ hv fun w hw => List.mem_eraseDups.1 hw
    rw [Atom.rename, Atom.word, Atom.word, List.idxOf_eq_getD_idxOf?,
      List.idxOf_eq_getD_idxOf?, hplace, List.length_map]
  | ground name => rfl
  | unit => rfl

/-- **Terms that are isomorphic as read have the same text.** -/
theorem render_of_isomorphic (hs : s.Acyclic) (ha : s.Readable a) (hb : s.Readable b)
    (h : s.isomorphic (s.asRead a) (s.asRead b) = true) : s.render a = s.render b := by
  obtain ⟨-, -, ρ, hdefined, -, hrename⟩ := (isomorphic_iff_renaming hs _ _).1 h
  change ∀ v ∈ (s.outline (s.asRead a)).vars, (ρ v).isSome = true at hdefined
  change (s.outline (s.asRead a)).rename _ = s.outline (s.asRead b) at hrename
  rw [outline_of_asRead hs ha, Phrase.vars_outline, vars_phrase hs ha] at hdefined
  rw [outline_of_asRead hs ha, outline_of_asRead hs hb] at hrename
  -- The phrase of the second term is that of the first one with other variables.
  have hphrase := congrArg Outline.phrase hrename
  rw [Outline.phrase_rename, Phrase.phrase_outline, Phrase.phrase_outline] at hphrase
  have hinj : Set.InjOn (fun v => (ρ v).getD v)
      {v | v ∈ (s.phrase a).words.flatMap Atom.vars} := by
    intro v hv w hw hvw
    rw [vars_phrase hs ha] at hv hw
    obtain ⟨v', hv'⟩ := Option.isSome_iff_exists.1 (hdefined v hv)
    obtain ⟨w', hw'⟩ := Option.isSome_iff_exists.1 (hdefined w hw)
    simp only [hv', hw', Option.getD_some] at hvw
    exact ρ.inj hv' (hvw ▸ hw')
  have hspelling := spelling_rename hinj
  rw [hphrase, vars_phrase hs ha, vars_phrase hs hb] at hspelling
  rw [render_eq_spelling hs ha, render_eq_spelling hs hb]
  exact hspelling.symm

/-! ## Bare arrows -/

/-- The layer is no nullable over an arrow. -/
def BareLayer (s : Store) : Shape Ty → Prop
  | .nullable t => (s.view t).isArrow = false
  | _ => True

instance (s : Store) : DecidablePred s.BareLayer
  | .nullable t => inferInstanceAs (Decidable ((s.view t).isArrow = false))
  | .hole | .cell _ | .constr _ _ | .getter _ | .list _ _ | .tuple _ | .arrow _ _
  | .meth _ _ | .custom _ _ =>
    inferInstanceAs (Decidable True)

/-- **No nullable stands over an arrow**, behind all links. -/
def BareArrows (s : Store) (t : Ty) : Prop := ∀ u, s.Reaches t u → s.BareLayer u.shape

theorem marked_of_ne (h : ∀ args ret, t.shape ≠ .arrow args ret) (pos : Option Range) :
    t.marked pos = .node pos (.nullable t) := by
  fun_cases Ty.marked pos t with
  | case1 pos' args ret => exact absurd rfl (h args ret)
  | case2 => rfl

/-- A term without nullables over arrows is read as it is. -/
theorem asRead_of_bareArrows (hs : s.Acyclic) (h : s.BareArrows t) :
    s.asRead t = s.expand t := by
  induction t using viewInduction hs with
  | layer t ih =>
    have hparts : (s.view t).map s.asRead = (s.view t).map s.expand :=
      Shape.map_congr fun u hu => ih u hu fun w hw =>
        h w ((reaches_of_mem_view hs hu).trans hw)
    rw [asRead_eq hs, expand_eq hs, expandLayer, hparts]
    cases hx : s.view t with
    | nullable u =>
      have hbare := h _ (reaches_deref hs t)
      change s.BareLayer (s.view t) at hbare
      rw [hx, BareLayer] at hbare
      refine marked_of_ne (fun args ret harrow => ?_) _
      rw [shape_expand hs] at harrow
      cases hy : s.view u with
      | arrow args' ret' => rw [hy] at hbare; cases hbare
      | _ => rw [hy] at harrow; cases harrow
    | _ => rfl

/-! ## Stores with cycles -/

namespace SameBelow

theorem expandWithin (h : SameBelow s s' t) (n : Nat) :
    s'.expandWithin n t = s.expandWithin n t := by
  induction n generalizing t with
  | zero => rfl
  | succ n ih =>
    rw [Store.expandWithin, Store.expandWithin, expandLayer, expandLayer, h.deref, h.view]
    exact congrArg _ (Shape.map_congr fun u hu => ih (h.sub hu))

theorem expand (h : SameBelow s s' t) (hs' : s'.Acyclic) : s'.expand t = s.expand t := by
  rw [Store.expand, Store.expand, ← h.expandWithin]
  refine bound_irrelevant s'.expandWithin s'.expandLayer (fun _ _ => rfl)
    (fun t _ _ heq => ?_) (s'.weight_le_span t) h.weight_le_span
  exact congrArg (Ty.node (s'.deref t).pos) (Shape.map_congr fun u hu =>
    heq u (weight_lt_of_mem_view hs' hu))

theorem asRead (h : SameBelow s s' t) (hs' : s'.Acyclic) : s'.asRead t = s.asRead t :=
  congrArg Ty.asRead (h.expand hs')

theorem bareArrows (h : SameBelow s s' t) (ht : s.BareArrows t) : s'.BareArrows t := by
  intro u hu
  rw [h.reaches_iff] at hu
  have hlayer := ht u hu
  cases hx : u.shape with
  | nullable w =>
    rw [hx] at hlayer
    have hw : SameBelow s s' w :=
      h.of_reaches (hu.tail (.child (by simp [hx, Shape.children])))
    rw [BareLayer, hw.view]
    exact hlayer
  | _ => trivial

/-- The cells of a term as read can be reached from the term. -/
theorem cellsAmong_asRead (h : SameBelow s s' t) (hs' : s'.Acyclic) :
    s.CellsAmong (s.asRead t) t := by
  have hcells : (s.asRead t).Everywhere fun x =>
      ∀ c ∈ x.cells, s.ReachesCell t c ∧ s.link? c = none := by
    rw [← h.asRead hs']
    refine (cells_asRead hs' t).imp fun x hx c hc => ?_
    obtain ⟨hreach, hlink⟩ := hx c hc
    rw [h.reachesCell_iff] at hreach
    exact ⟨hreach, h.link? hreach ▸ hlink⟩
  rintro c ⟨u, hu, hc⟩
  refine ((everywhere_of_reaches hcells (fun d variance w hd hl => ?_) hu).here c
    (Shape.mem_cells.2 hc)).1
  rw [(hd d (by simp)).2] at hl
  cases hl

end SameBelow

/-! ## What a text tells -/

/-- **Texts tell types apart up to the place of marks.** Two acyclic terms of the
plain type language have the same text just when they are isomorphic once every
nullable over an arrow is moved to what the arrow returns. So if no nullable stands
over an arrow, terms have the same text just when they are isomorphic. -/
theorem render_eq_iff_asRead (ha : s.AcyclicBelow a) (hb : s.AcyclicBelow b)
    (hra : s.Readable a) (hrb : s.Readable b) :
    (s.render a = s.render b ↔ s.isomorphic (s.asRead a) (s.asRead b) = true) ∧
      (s.BareArrows a → s.BareArrows b →
        (s.render a = s.render b ↔ s.isomorphic a b = true)) := by
  -- Both terms are read in a store that has only their cells, and is acyclic.
  generalize hkeep : {c | ∃ t ∈ [a, b], s.ReachesCell t c} = keep
  have hs' : (s.only keep).Acyclic :=
    hkeep ▸ acyclic_only (List.forall_mem_cons.2 ⟨ha, List.forall_mem_singleton.2 hb⟩)
  have hsame : ∀ t ∈ [a, b], ∀ u, s.CellsAmong u t → SameBelow s (s.only keep) u :=
      fun t ht u hu =>
    sameBelow_only fun c hc => hkeep ▸ ⟨t, ht, hu c hc⟩
  have hsa := hsame a (by simp) a fun _ hc => hc
  have hsb := hsame b (by simp) b fun _ hc => hc
  have hra' := hsa.readable rfl hra
  have hrb' := hsb.readable rfl hrb
  have htext : s.render a = s.render b ↔
      (s.only keep).isomorphic ((s.only keep).asRead a) ((s.only keep).asRead b) =
        true := by
    rw [← hsa.render hs' rfl, ← hsb.render hs' rfl]
    exact ⟨isomorphic_of_render hs' hra' hrb', render_of_isomorphic hs' hra' hrb'⟩
  constructor
  · have hread := (hsame a (by simp) _ (hsa.cellsAmong_asRead hs')).isomorphic
      (hsame b (by simp) _ (hsb.cellsAmong_asRead hs')) rfl hs'
    rw [htext, hsa.asRead hs', hsb.asRead hs', hread]
  · intro hbare hbare'
    rw [htext, asRead_of_bareArrows hs' (hsa.bareArrows hbare),
      asRead_of_bareArrows hs' (hsb.bareArrows hbare'), isomorphic_expand hs',
        hsa.isomorphic hsb rfl hs']

/-- Two variables, and two linked cells: one stands for an arrow, and the other is on
a cycle. -/
def arrowExample : Store :=
  ⟨#[⟨.depth 1, .empty⟩, ⟨.unbounded, .empty⟩],
    #[.free 0, .free 1,
      .link .covariant (.of (.arrow [⟨false, "", .of (.cell 0)⟩] (.of (.cell 1)))),
        .link .covariant (.of (.list .array (.of (.cell 3))))]⟩

/-- A nullable over the linked arrow, and the same with a nullable result and
exchanged variables. Their texts are the same, and so are those of the arrows without
nullables, which are isomorphic. -/
theorem render_eq_iff_asRead_arrow :
    let a := .of (.tuple [.of (.nullable (.of (.cell 2))), .of (.cell 0)])
    let b :=
      .of (.tuple [.of (.arrow [⟨false, "", .of (.cell 1)⟩]
        (.of (.nullable (.of (.cell 0))))), .of (.cell 1)])
    let c := .of (.arrow [⟨false, "", .of (.cell 1)⟩] (.of (.cell 0)))
    arrowExample.render a = "(('a) -> 'b? * 'a)" ∧
      arrowExample.render b = "(('a) -> 'b? * 'a)" ∧ arrowExample.isomorphic a b = false ∧
      arrowExample.isomorphic (arrowExample.asRead a) (arrowExample.asRead b) = true ∧
      arrowExample.render (.of (.cell 2)) = "('a) -> 'b" ∧
        arrowExample.render c = "('a) -> 'b" ∧
      arrowExample.isomorphic (.of (.cell 2)) c = true := by
  intro a b c
  have hacyclic : ∀ t : Ty, (t.Everywhere fun x => ∀ d ∈ x.cells, d < 3) →
      arrowExample.AcyclicBelow t :=
    fun t ht => acyclicBelow_of_rank id ht (by decide)
  have hreadable : ∀ t : Ty, t.Everywhere arrowExample.ReadableLayer →
      arrowExample.Readable t :=
    fun t ht u hu => layer_of_reaches ht (by decide) hu
  have hbare : ∀ t : Ty, t.Everywhere arrowExample.BareLayer →
      arrowExample.BareArrows t :=
    fun t ht u hu => layer_of_reaches ht (by decide) hu
  have htext : arrowExample.render a = "(('a) -> 'b? * 'a)" := by decide +kernel
  have htext' : arrowExample.render b = "(('a) -> 'b? * 'a)" := by decide +kernel
  obtain ⟨hread, -⟩ :=
    render_eq_iff_asRead (hacyclic a (by decide)) (hacyclic b (by decide))
      (hreadable a (by decide)) (hreadable b (by decide))
  have harrow : arrowExample.render (.of (.cell 2)) = "('a) -> 'b" := by decide +kernel
  have harrow' : arrowExample.render c = "('a) -> 'b" := by decide +kernel
  obtain ⟨-, hsame⟩ :=
    render_eq_iff_asRead (hacyclic (.of (.cell 2)) (by decide)) (hacyclic c (by decide))
      (hreadable _ (by decide)) (hreadable c (by decide))
  refine ⟨htext, htext', by decide, hread.1 (htext.trans htext'.symm),
    harrow, harrow', ?_⟩
  exact (hsame (hbare _ (by decide)) (hbare c (by decide))).1 (harrow.trans harrow'.symm)

/-- **A mark behind an arrow is ambiguous**: a nullable function and a function with
a nullable result have the same text, and are not isomorphic. -/
theorem render_nullable_arrow :
    let a := .of (.nullable (.of (.arrow [] (.ground "int"))))
    let b := .of (.arrow [] (.of (.nullable (.ground "int"))))
    Store.empty.Readable a ∧ Store.empty.Readable b ∧
      Store.empty.render a = "() -> int?" ∧
      Store.empty.render b = "() -> int?" ∧ Store.empty.isomorphic a b = false := by
  intro a b
  have hreadable : ∀ t : Ty, t.Everywhere Store.empty.ReadableLayer →
      Store.empty.Readable t :=
    fun t ht u hu => layer_of_reaches ht (by decide) hu
  exact ⟨hreadable a (by decide), hreadable b (by decide), by decide +kernel,
    by decide +kernel, by decide⟩

end Store

end TypeGraph
