import TypeGraph.Proofs.Descent

/-!
# What a term looks like without links

`Store.expand` replaces every linked cell of a term by what it stands for, at every
depth, also within the schemes of methods and the terms that custom types hold. In an
acyclic store the result is a term over free cells only.

`Outline` is what is left of an expansion when everything is forgotten that two types
need not share: positions, the texts that document methods, and which of several cells
holds a variable. A node of an outline has a label, the variables that it quantifies,
and its parts. Renaming variables is a function on outlines, so that two types are
equal up to a renaming when the one outline, renamed, is the other.
-/

namespace TypeGraph

namespace Store

variable {s : Store} {t : Ty}

/-! ## Expansion -/

/-- A term with its outer links replaced, given what to do with subterms. -/
def expandLayer (s : Store) (below : Ty → Ty) (t : Ty) : Ty :=
  .node (s.deref t).pos ((s.view t).map below)

def expandWithin (s : Store) : Nat → Ty → Ty
  | 0 => id
  | n + 1 => s.expandLayer (s.expandWithin n)

/-- The term with every linked cell replaced by what it stands for. -/
def expand (s : Store) (t : Ty) : Ty := s.expandWithin (s.span t) t

theorem expand_eq (hs : s.Acyclic) (t : Ty) : s.expand t = s.expandLayer s.expand t :=
  bounded_eq s.expandWithin s.expandLayer (fun _ _ => rfl)
    (fun t _ _ h => congrArg (Ty.node (s.deref t).pos)
      (Shape.map_congr fun u hu => h u (weight_lt_of_mem_view hs hu))) t

theorem shape_expand (hs : s.Acyclic) (t : Ty) :
    (s.expand t).shape = (s.view t).map s.expand := by
  rw [expand_eq hs]
  rfl

/-- **No link is left in an expansion.** -/
theorem expand_unlinked (hs : s.Acyclic) (t : Ty) :
    (s.expand t).Everywhere fun x => ∀ c ∈ x.cells, s.link? c = none := by
  induction t using viewInduction hs with
  | layer t ih =>
    refine .layer (fun c hc => ?_) fun u hu => ?_
    · rw [shape_expand hs, Shape.cells_map, Shape.mem_cells] at hc
      exact deref_not_linked hs hc
    · rw [shape_expand hs, Shape.children_map] at hu
      obtain ⟨w, hw, rfl⟩ := List.mem_map.1 hu
      exact ih w hw

end Store

/-! ## Outlines -/

/-- What a layer is, apart from its subterms and the variables it quantifies. -/
inductive Label where
  | constr (name : String) (variances : List Variance)
  | getter
  | list (repr : ListRepr)
  | tuple
  | nullable
  /-- Each argument is optional or not, and has a label or none. -/
  | arrow (args : List (Bool × String))
  | method (name : String) (optional : Bool)
  | custom (name : String)
deriving DecidableEq

/-- The label of a layer. Holes and cells have none. -/
def Shape.label? {α : Type} : Shape α → Option Label
  | hole | cell _ => none
  | constr name params => some (.constr name (params.map (·.variance)))
  | getter _ => some .getter
  | list repr _ => some (.list repr)
  | tuple _ => some .tuple
  | nullable _ => some .nullable
  | arrow args _ => some (.arrow (args.map fun a => (a.optional, a.label)))
  | meth m _ => some (.method m.name m.optional)
  | custom kind _ => some (.custom kind.name)

@[simp] theorem Shape.label?_map {α β : Type} (f : α → β) (x : Shape α) :
    (x.map f).label? = x.label? := by
  cases x <;> simp [map, label?]

@[simp] theorem Shape.label?_relabel {α : Type} (onVar : VarId → VarId)
    (onCell : CellId → CellId) (x : Shape α) :
    (x.relabel onVar onCell).label? = x.label? := by
  cases x <;> rfl

/-- **Layers are alike when they have one label and equally many binders and
subterms.** -/
theorem Shape.alike_iff {α β : Type} (x : Shape α) (y : Shape β) :
    x.alike y = true ↔ x.label? ≠ none ∧ x.label? = y.label? ∧
      x.binders.length = y.binders.length ∧ x.children.length = y.children.length := by
  have hlen : ∀ {γ δ ε : Type} {f : γ → ε} {g : δ → ε} {as : List γ} {bs : List δ},
      as.map f = bs.map g → as.length = bs.length := fun h => by
    simpa only [List.length_map] using congrArg List.length h
  cases x <;> cases y <;> simp [alike, label?, binders, children, and_assoc]
  case constr.constr => exact fun _ => hlen
  case arrow.arrow => exact hlen

inductive Outline where
  /-- A node without a description, or over a cell that the store does not have. -/
  | gap
  | var (v : VarId)
  | node (label : Label) (binders : List VarId) (parts : List Outline)

namespace Outline

/-- Replace the variables of an outline. -/
def rename (ρ : VarId → VarId) : Outline → Outline
  | gap => gap
  | var v => var (ρ v)
  | node label binders parts => node label (binders.map ρ) (parts.map (rename ρ))

/-- The variables of an outline, from left to right. -/
def vars : Outline → List VarId
  | gap => []
  | var v => [v]
  | node _ binders parts => binders ++ parts.flatMap vars

/-- No node of the outline is without a description. -/
def Gapless : Outline → Prop
  | gap => False
  | var _ => True
  | node _ _ parts => ∀ p ∈ parts, p.Gapless

theorem gapless_rename (ρ : VarId → VarId) :
    ∀ o : Outline, (o.rename ρ).Gapless ↔ o.Gapless
  | gap => by simp only [rename]
  | var v => by simp only [rename, Gapless]
  | node label binders parts => by
    simp only [rename, Gapless, List.forall_mem_map]
    exact forall₂_congr fun p _ => gapless_rename ρ p

/-- **Induction on outlines.** -/
@[elab_as_elim]
theorem partsInduction {motive : Outline → Prop} (gap : motive gap)
    (var : ∀ v, motive (var v)) (node : ∀ label binders parts, (∀ p ∈ parts, motive p) →
      motive (node label binders parts)) :
    ∀ o, motive o
  | .gap => gap
  | .var v => var v
  | .node label binders parts =>
    node label binders parts fun p _ => partsInduction gap var node p

/-- The second outline is the first one with variables replaced as `R` says. -/
inductive Renames (R : VarId → VarId → Prop) : Outline → Outline → Prop
  | var {v w : VarId} (h : R v w) : Renames R (var v) (var w)
  | node {label : Label} {vs ws : List VarId} {ps qs : List Outline}
      (binders : List.Forall₂ R vs ws)
      (length : ps.length = qs.length) (parts : ∀ pq ∈ ps.zip qs, Renames R pq.1 pq.2) :
      Renames R (node label vs ps) (node label ws qs)

variable {R R' : VarId → VarId → Prop} {o o' : Outline}

theorem Renames.mono (hR : ∀ v w, R v w → R' v w) (h : Renames R o o') :
    Renames R' o o' := by
  induction h with
  | var h => exact .var (hR _ _ h)
  | node binders length _ ih => exact .node (binders.imp fun _ _ => hR _ _) length ih

theorem renames_node_iff {label label' : Label} {vs ws : List VarId}
    {ps qs : List Outline} :
    Renames R (node label vs ps) (node label' ws qs) ↔
      label = label' ∧ List.Forall₂ R vs ws ∧ List.Forall₂ (Renames R) ps qs := by
  rw [List.forall₂_iff_zip (R := Renames R)]
  constructor
  · intro h
    cases h with
    | node binders length parts => exact ⟨rfl, binders, length, fun hpq => parts _ hpq⟩
  · rintro ⟨rfl, binders, length, parts⟩
    exact .node binders length fun _ hpq => parts hpq

/-- Every outline without gaps is itself with nothing replaced. -/
theorem renames_refl (h : o.Gapless) : Renames Eq o o := by
  induction o using partsInduction with
  | gap => simp only [Gapless] at h
  | var v => exact .var rfl
  | node label vs ps ih =>
    simp only [Gapless] at h
    refine renames_node_iff.2 ⟨rfl, List.forall₂_same.2 fun v _ => rfl,
      List.forall₂_same.2 fun p hp => ?_⟩
    exact ih p hp (h p hp)

/-- Lists that are related element by element through a function. -/
theorem forall₂_iff_map {α β : Type} {S : α → β → Prop} {P : α → Prop}
    {f : α → β} {as : List α} (h : ∀ a ∈ as, ∀ b, S a b ↔ P a ∧ f a = b) (bs : List β) :
    List.Forall₂ S as bs ↔ (∀ a ∈ as, P a) ∧ as.map f = bs := by
  induction as generalizing bs with
  | nil => simp [eq_comm]
  | cons a as ih =>
    rw [List.forall₂_cons_left_iff, List.forall_mem_cons, List.map_cons]
    have ih := ih fun a ha => h a (List.mem_cons_of_mem _ ha)
    constructor
    · rintro ⟨b, bs', hab, hrest, rfl⟩
      obtain ⟨ha, rfl⟩ := (h a List.mem_cons_self b).1 hab
      obtain ⟨has, rfl⟩ := (ih bs').1 hrest
      exact ⟨⟨ha, has⟩, rfl⟩
    · rintro ⟨⟨ha, has⟩, rfl⟩
      exact ⟨f a, as.map f, (h a List.mem_cons_self _).2 ⟨ha, rfl⟩,
        (ih _).2 ⟨has, rfl⟩, rfl⟩

/-- **A renaming that is given by pairs is one by a function**, defined on the
variables of the outline; and there are no gaps on either side. -/
theorem renames_iff {ρ : VarId → Option VarId} :
    Renames (fun v w => ρ v = some w) o o' ↔
      o.Gapless ∧ (∀ v ∈ o.vars, (ρ v).isSome) ∧
        o.rename (fun v => (ρ v).getD v) = o' := by
  have hvar : ∀ v w, ρ v = some w ↔ (ρ v).isSome ∧ (ρ v).getD v = w := by
    intro v w
    cases ρ v <;> simp
  induction o using partsInduction generalizing o' with
  | gap =>
    simp only [Gapless, false_and, iff_false]
    intro h
    cases h
  | var v =>
    simp only [Gapless, vars, List.mem_singleton, forall_eq, rename, true_and]
    constructor
    · intro h
      cases h with
      | @var _ w h => exact ⟨((hvar v w).1 h).1, congrArg var ((hvar v w).1 h).2⟩
    · rintro ⟨hv, rfl⟩
      exact .var ((hvar v _).2 ⟨hv, rfl⟩)
  | node label vs ps ih =>
    have hbinders := forall₂_iff_map fun v (_ : v ∈ vs) => hvar v
    have hparts := forall₂_iff_map fun p (hp : p ∈ ps) _ => (ih p hp).trans and_assoc.symm
    simp only [Gapless, vars, List.mem_append, List.mem_flatMap, rename]
    constructor
    · intro h
      cases o' with
      | node label' ws qs =>
        obtain ⟨rfl, hb, hp⟩ := renames_node_iff.1 h
        obtain ⟨hvs, rfl⟩ := (hbinders ws).1 hb
        obtain ⟨hps, rfl⟩ := (hparts qs).1 hp
        refine ⟨fun p hp => (hps p hp).1, fun v hv => ?_, rfl⟩
        rcases hv with hv | ⟨p, hp, hv⟩
        · exact hvs v hv
        · exact (hps p hp).2 v hv
      | _ => cases h
    · rintro ⟨hgap, hdef, rfl⟩
      refine renames_node_iff.2 ⟨rfl,
        (hbinders _).2 ⟨fun v hv => hdef v (Or.inl hv), rfl⟩, ?_⟩
      exact (hparts _).2 ⟨fun p hp =>
        ⟨hgap p hp, fun v hv => hdef v (Or.inr ⟨p, hp, hv⟩)⟩, rfl⟩

end Outline

/-- The outline of a layer. -/
def Shape.outline (s : Store) (x : Shape Outline) : Outline :=
  match x, x.label? with
  | .cell c, _ =>
    match s.freeVar? c with
    | some v => .var v
    | none => .gap
  | _, some label => .node label x.binders x.children
  | _, none => .gap

/-- The outline of a term over free cells. -/
def Ty.outline (s : Store) : Ty → Outline := fold fun _ x => x.outline s

namespace Store

variable {s : Store} {t : Ty}

/-- The outline of a term, behind all links. -/
def outline (s : Store) (t : Ty) : Outline := (s.expand t).outline s

theorem outline_eq (hs : s.Acyclic) (t : Ty) :
    s.outline t = ((s.view t).map s.outline).outline s := by
  rw [outline, Ty.outline, Ty.fold_eq, shape_expand hs, Shape.map_map]
  rfl

/-- A term stands for a variable, for a layer with a label, or for a gap. -/
theorem outline_cases (hs : s.Acyclic) (t : Ty) :
    (∃ c v, s.view t = .cell c ∧ s.freeVar? c = some v ∧ s.outline t = .var v) ∨
      (∃ label, (s.view t).label? = some label ∧
        s.outline t = .node label (s.view t).binders
          ((s.view t).children.map s.outline)) ∨
      (s.view t = .hole ∨ ∃ c, s.view t = .cell c ∧ s.freeVar? c = none) ∧
        s.outline t = .gap := by
  rw [outline_eq hs]
  cases hx : s.view t with
  | hole => exact Or.inr (Or.inr ⟨Or.inl rfl, rfl⟩)
  | cell c =>
    cases hv : s.freeVar? c with
    | none =>
      exact Or.inr (Or.inr ⟨Or.inr ⟨c, rfl, hv⟩,
        by simp only [Shape.map, Shape.outline, hv]⟩)
    | some v => exact Or.inl ⟨c, v, rfl, hv, by simp only [Shape.map, Shape.outline, hv]⟩
  | _ =>
    refine Or.inr (Or.inl ⟨_, rfl, ?_⟩)
    rw [← Shape.children_map, ← Shape.binders_map s.outline]
    simp [Shape.map, Shape.outline, Shape.label?]

theorem outline_of_free (hs : s.Acyclic) {c : CellId} {v : VarId}
    (hx : s.view t = .cell c) (hf : s.freeVar? c = some v) : s.outline t = .var v := by
  rw [outline_eq hs, hx]
  simp only [Shape.map, Shape.outline, hf]

theorem outline_of_label (hs : s.Acyclic) {label : Label}
    (h : (s.view t).label? = some label) :
    s.outline t = .node label (s.view t).binders ((s.view t).children.map s.outline) := by
  rcases outline_cases hs t with ⟨c, v, hx, -, -⟩ | ⟨label', hl,
    ho⟩ | ⟨hx | ⟨c, hx, -⟩, -⟩
  · rw [hx] at h; cases h
  · cases h.symm.trans hl; exact ho
  · rw [hx] at h; cases h
  · rw [hx] at h; cases h

/-- The outline of a complete term of a store has no gaps. -/
theorem gapless_iff (hs : s.Acyclic) (hw : s.WellFormed) (ht : s.Scoped t) :
    (s.outline t).Gapless ↔ s.Complete t := by
  induction t using viewInduction hs with
  | layer t ih =>
    have hscope : s.Scoped (s.deref t) := ht.of_reaches hw (reaches_deref hs t)
    rw [complete_iff_view hs]
    rcases outline_cases hs t with ⟨c, v, hx, -, ho⟩ | ⟨label, hl, ho⟩ | ⟨hx, ho⟩
    · rw [ho, hx]
      simp [Outline.Gapless, Shape.children]
    · rw [ho]
      simp only [Outline.Gapless, List.forall_mem_map]
      constructor
      · intro h
        refine ⟨fun hhole => ?_, fun u hu => (ih u hu (hscope.sub hu)).1 (h u hu)⟩
        rw [hhole] at hl
        cases hl
      · intro h u hu
        exact (ih u hu (hscope.sub hu)).2 (h.2 u hu)
    · simp only [ho, Outline.Gapless, false_iff]
      intro h
      rcases hx with hx | ⟨c, hx, hf⟩
      · exact h.1 hx
      · -- A cell of the store is free or linked, and none is linked behind all links.
        rcases free_or_linked (hscope.here.2 c (Shape.mem_cells.2 hx)) with ⟨v,
          hv⟩ | ⟨variance, u, hl⟩
        · rw [hv] at hf
          cases hf
        · rw [deref_not_linked hs hx] at hl
          cases hl

end Store

end TypeGraph
