import TypeGraph.Proofs.Mirror

/-!
# The text of a mirrored term

Rendering names the variables of a term in the order in which it meets them, and the
names depend on that order only. So a term and its image are written alike: wherever
the one rendering meets a variable, the other meets its image, and different variables
have different images. What is said about constraints is the same too if variables and
their images have the same constraints.
-/

namespace TypeGraph

/-- The text of a layer depends neither on its subterms nor on the variables and cells
that it names. -/
theorem Shape.text_mirrored {α β : Type} (onTerm : α → β) (onVar : VarId → VarId)
    (onCell : CellId → CellId) (x : Shape α) (parts : List String) :
    ((x.map onTerm).relabel onVar onCell).text parts = x.text parts := by
  cases x with
  | arrow args ret =>
    have hargs : ∀ (as : List (Arg α)) (texts : List String),
        (as.map fun a => Arg.mk a.optional a.label (onTerm a.type)).zipWith Arg.text
            texts =
          as.zipWith Arg.text texts := by
      intro as texts
      rw [List.zipWith_map_left]
      rfl
    simp only [map, relabel, text, hargs]
  | list repr t => cases repr <;> rfl
  | _ => rfl

namespace Store

/-- The second of two steps names variables as the first one does, only that the
variables have other numbers. -/
def SameNaming (known : Set VarId) (onVar : VarId → VarId) {α : Type}
    (step step' : StateM Names α) : Prop :=
  ∀ names : Names, (∀ v ∈ names, v ∈ known) →
    (∀ v ∈ (step.run names).2, v ∈ known) ∧
      step'.run (names.map onVar) = ((step.run names).1, (step.run names).2.map onVar)

namespace SameNaming

variable {known : Set VarId} {onVar : VarId → VarId} {α β γ : Type}

theorem pure (a : α) : SameNaming known onVar (pure a) (pure a) :=
  fun _ hnames => ⟨hnames, rfl⟩

theorem bind {step step' : StateM Names α} {next next' : α → StateM Names β}
    (h : SameNaming known onVar step step')
    (hnext : ∀ a, SameNaming known onVar (next a) (next' a)) :
    SameNaming known onVar (step >>= next) (step' >>= next') := by
  intro names hnames
  obtain ⟨hknown, hrun⟩ := h names hnames
  obtain ⟨hknown', hrun'⟩ := hnext (step.run names).1 (step.run names).2 hknown
  refine ⟨hknown', ?_⟩
  rw [StateT.run_bind, hrun]
  exact hrun'

theorem mapM {f : α → StateM Names β} {f' : γ → StateM Names β} {φ : α → γ} {l : List α}
    (h : ∀ a ∈ l, SameNaming known onVar (f a) (f' (φ a))) :
    SameNaming known onVar (l.mapM f) ((l.map φ).mapM f') := by
  induction l with
  | nil => exact pure []
  | cons a l ih =>
    obtain ⟨ha, hl⟩ := List.forall_mem_cons.1 h
    rw [List.map_cons, List.mapM_cons, List.mapM_cons]
    exact ha.bind fun _ => (ih hl).bind fun _ => pure _

/-- The place of a variable among the names is the place of its image. -/
theorem idxOf?_map (hf : Set.InjOn onVar known) {v : VarId}
    (hv : v ∈ known) {names : Names} (hnames : ∀ w ∈ names, w ∈ known) :
    (names.map onVar).idxOf? (onVar v) = names.idxOf? v := by
  induction names with
  | nil => rfl
  | cons w names ih =>
    obtain ⟨hw, hrest⟩ := List.forall_mem_cons.1 hnames
    rw [List.map_cons, List.idxOf?_cons, List.idxOf?_cons,
      Mirror.beq_known hf hw hv, ih hrest]

theorem name (hf : Set.InjOn onVar known) {v : VarId} (hv : v ∈ known) :
    SameNaming known onVar (Names.name v) (Names.name (onVar v)) := by
  intro names hnames
  simp only [Names.name, modifyGet, MonadStateOf.modifyGet, StateT.modifyGet, StateT.run,
    idxOf?_map hf hv hnames]
  cases names.idxOf? v with
  | some i => exact ⟨hnames, rfl⟩
  | none =>
    refine ⟨?_, ?_⟩
    · exact List.forall_mem_append.2 ⟨hnames, List.forall_mem_singleton.2 hv⟩
    · rw [List.length_map, ← List.map_singleton, ← List.map_append]
      rfl

end SameNaming

/-- What is said about the constraints of variables is said about those of their
images, if they are the same. -/
theorem whereClause_map {s s' : Store} {known : Set VarId} {onVar : VarId → VarId}
    (hcs : ∀ v ∈ known, (s'.var (onVar v)).constraints = (s.var v).constraints)
    {names : Names} (hnames : ∀ v ∈ names, v ∈ known) :
    s'.whereClause (names.map onVar) = s.whereClause names := by
  unfold whereClause
  rw [List.zipIdx_map, List.filterMap_map]
  refine congrArg (fun clauses : List String =>
    if clauses.isEmpty then ""
    else " where " ++ ", ".intercalate clauses) (List.filterMap_congr ?_)
  rintro ⟨v, i⟩ hvi
  have hv := hcs v (hnames v (List.fst_mem_of_mem_zipIdx hvi))
  simp only [Function.comp_apply, Prod.map_apply, hv, id_eq]

namespace Mirror

variable {s s' : Store} {domain : Ty → Prop} {known : Set VarId} {onTerm : Ty → Ty}
  {onVar : VarId → VarId}
  {onCell : CellId → CellId} {t : Ty} (h : Mirror s s' domain known onTerm onVar onCell)

include h

/-- The fields and the base of a term with methods are written alike, if the texts of
their types are. -/
theorem renderLayer_meth (hs : s.Acyclic) (hs' : s'.Acyclic) (ht : domain t)
    {m : Method Ty} {inner : Ty} (hx : s.view t = .meth m inner)
    (ih : ∀ u, s.weight u < s.weight t → domain u →
      SameNaming known onVar (s.rendered u) (s'.rendered (onTerm u))) :
    SameNaming known onVar (s.renderLayer s.rendered t)
      (s'.renderLayer s'.rendered (onTerm t)) := by
  obtain ⟨hmethods, hbase⟩ := h.splitMeths_domain hs ht
  have hfields : SameNaming known onVar
      ((s.splitMeths t).1.mapM fun m => do
        discard <| m.scheme.vars.mapM Names.name
        return fieldText m (← s.rendered m.scheme.type))
      (((s.splitMeths t).1.map (Method.image onVar onTerm)).mapM fun m => do
        discard <| m.scheme.vars.mapM Names.name
        return fieldText m (← s'.rendered m.scheme.type)) := by
    refine SameNaming.mapM fun m hm => ?_
    obtain ⟨htype, hvars⟩ := hmethods m hm
    have hnames : SameNaming known onVar (m.scheme.vars.mapM Names.name)
        ((m.scheme.vars.map onVar).mapM Names.name) :=
          .mapM fun v hv => .name h.injective (hvars v hv)
    refine (hnames.bind fun _ => .pure _).bind fun _ => ?_
    exact (ih _ (weight_method_lt hs hm) htype).bind fun _ => .pure _
  have htext := ih _ (weight_base_lt hs hx) hbase
  have hunit := h.isUnit hbase
  rw [renderLayer, renderLayer, h.view ht, hx, h.splitMeths hs hs' ht]
  -- From here on the methods and the base are any that are written alike.
  generalize s.splitMeths t = split at *
  obtain ⟨methods, base⟩ := split
  refine hfields.bind fun fields => ?_
  dsimp only at hunit ⊢
  rw [hunit]
  cases s.isUnit base with
  | true => exact .pure _
  | false => exact htext.bind fun _ => .pure _

/-- **A term and its image are written alike.** -/
theorem rendered (hs : s.Acyclic) (hs' : s'.Acyclic) (ht : domain t) :
    SameNaming known onVar (s.rendered t) (s'.rendered (onTerm t)) := by
  induction t using weightInduction s with
  | lighter t ih =>
    rw [rendered_eq hs, rendered_eq hs']
    have hparts : SameNaming known onVar ((s.view t).children.mapM s.rendered)
        (((s.view t).children.map onTerm).mapM s'.rendered) :=
      .mapM fun u hu => ih u (weight_lt_of_mem_view hs hu) (h.subterm t ht u hu)
    cases hx : s.view t <;> rw [hx] at hparts
    case meth m inner => exact h.renderLayer_meth hs hs' ht hx ih
    case cell c =>
      rw [renderLayer, renderLayer, h.view ht, hx]
      dsimp only [Shape.map, Shape.relabel]
      rw [h.freeVar t c ht hx]
      cases hv : s.freeVar? c with
      | none => exact .pure _
      | some v => exact .name h.injective (h.free_known t c v ht hx hv)
    all_goals
      rw [renderLayer, renderLayer, h.view ht, hx]
      change SameNaming known onVar _
          (((Shape.map onTerm _).relabel onVar onCell).children.mapM s'.rendered >>=
        fun parts => Pure.pure (((Shape.map onTerm _).relabel onVar onCell).text parts))
      rw [Shape.children_relabel, Shape.children_map]
      refine hparts.bind fun parts => ?_
      rw [Shape.text_mirrored]
      exact .pure _

/-- **The text of the image is the text of the term**, if variables keep their
constraints. -/
theorem render (hs : s.Acyclic) (hs' : s'.Acyclic) (ht : domain t)
    (hcs : ∀ v ∈ known, (s'.var (onVar v)).constraints = (s.var v).constraints) :
    s'.render (onTerm t) = s.render t := by
  obtain ⟨hknown, hrun⟩ := h.rendered hs hs' ht [] nofun
  rw [List.map_nil] at hrun
  rw [render_eq, render_eq, hrun, whereClause_map hcs hknown]

end Mirror

end Store

end TypeGraph
