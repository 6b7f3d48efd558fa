import TypeGraph.Proofs.TypeNormalForm
import TypeGraph.Proofs.TypePhrases

/-!
# How types are spelled

The plain type language has variables without constraints, ground types, arrays,
tuples, nullables and arrows with positional arguments (`Readable`). A term of it has
a phrase, and its text is that phrase with the variables named in the order in which
they are met (`render_eq_spelling`).
-/

namespace TypeGraph.Store

/-! ## The plain type language -/

/-- The cell is linked, or it holds a variable without constraints. -/
def ReadableCell (s : Store) : Option Cell → Prop
  | some (.free v) => (s.var v).constraints.items = []
  | some (.link _ _) => True
  | none => False

instance (s : Store) : DecidablePred s.ReadableCell
  | some (.free v) => inferInstanceAs (Decidable ((s.var v).constraints.items = []))
  | some (.link _ _) => inferInstanceAs (Decidable True)
  | none => inferInstanceAs (Decidable False)

/-- A layer of the plain type language: a variable without constraints, a ground type,
an array, a tuple, a nullable, or an arrow whose arguments are positional and
mandatory. A link stands for another layer. -/
def ReadableLayer (s : Store) : Shape Ty → Prop
  | .cell c => s.ReadableCell s.cells[c]?
  | .custom kind held => kind ∈ Ty.groundNames.map Custom.ground ∧ held = []
  | .list repr _ => repr = .array
  | .tuple _ | .nullable _ => True
  | .arrow args _ => ∀ a ∈ args, a.optional = false ∧ a.label = ""
  | .hole | .constr _ _ | .getter _ | .meth _ _ => False

instance (s : Store) : DecidablePred s.ReadableLayer
  | .cell c => inferInstanceAs (Decidable (s.ReadableCell s.cells[c]?))
  | .custom (.ground name) held =>
    decidable_of_iff (name ∈ Ty.groundNames ∧ held = []) (by simp [ReadableLayer])
  | .custom (.supplied _ _) _ => isFalse (by simp [ReadableLayer])
  | .list repr _ => inferInstanceAs (Decidable (repr = .array))
  | .tuple _ | .nullable _ => inferInstanceAs (Decidable True)
  | .arrow args _ =>
    inferInstanceAs (Decidable (∀ a ∈ args, a.optional = false ∧ a.label = ""))
  | .hole | .constr _ _ | .getter _ | .meth _ _ => inferInstanceAs (Decidable False)

/-- **The term is one of the plain type language**, behind all links. -/
def Readable (s : Store) (t : Ty) : Prop := ∀ u, s.Reaches t u → s.ReadableLayer u.shape

variable {s s' : Store} {t u : Ty}

namespace Readable

theorem of_reaches (h : s.Readable t) (hr : s.Reaches t u) : s.Readable u :=
  fun w hw => h w (hr.trans hw)

theorem view (hs : s.Acyclic) (h : s.Readable t) : s.ReadableLayer (s.view t) :=
  h _ (reaches_deref hs t)

theorem sub (hs : s.Acyclic) (h : s.Readable t)
    (hu : u ∈ (s.view t).children) : s.Readable u :=
  h.of_reaches (reaches_of_mem_view hs hu)

theorem plain (h : s.Readable t) : s.Plain t := by
  intro u hu
  have hlayer := h u hu
  cases hx : u.shape with
  | meth m inner => rw [hx] at hlayer; exact hlayer.elim
  | _ => trivial

/-- A variable that can be reached has no constraints. -/
theorem unconstrained (h : s.Readable t) {v : VarId} (hv : s.ReachesVar t v) :
    (s.var v).constraints = .empty := by
  apply Keyed.eq_of_items
  rcases hv with ⟨c, ⟨u, hu, hc⟩, hf⟩ | ⟨u, hu, hbinder⟩
  · have hcell := h u hu
    rw [hc, ReadableLayer, freeVar?_eq_some.1 hf] at hcell
    exact hcell
  · have hlayer := h u hu
    cases hx : u.shape with
    | meth m inner => rw [hx] at hlayer; exact hlayer.elim
    | _ => rw [hx] at hbinder; exact absurd hbinder List.not_mem_nil

end Readable

/-! ## Terms as phrases -/

/-- The phrase of a term, behind all links. -/
def phrase (s : Store) (t : Ty) : Phrase Atom := (s.outline t).phrase

/-- A layer of the plain type language that is no variable, with its phrase. -/
inductive Spells (s : Store) : Shape Ty → Phrase Atom → Prop
  | ground (name : { name // name ∈ Ty.groundNames }) :
      Spells s (.custom (.ground name) []) (.word (.ground name) 0)
  | unit : Spells s (.tuple []) (.word .unit 0)
  | tuple (first : Ty) (rest : List Ty) :
      Spells s (.tuple (first :: rest)) (.tuple (s.phrase first) (rest.map s.phrase) 0)
  | list (elem : Ty) : Spells s (.list .array elem) (.list (s.phrase elem) 0)
  | nullable (inner : Ty) : Spells s (.nullable inner) (s.phrase inner).mark
  | arrow (args : List (Arg Ty)) (ret : Ty) (plain : ∀ a ∈ args,
      a.optional = false ∧ a.label = "") :
      Spells s (.arrow args ret)
        (.arrow (args.map fun a => s.phrase a.type) (s.phrase ret))

theorem phrase_of_label (hs : s.Acyclic) {label : Label}
    (h : (s.view t).label? = some label) :
    s.phrase t = label.phrase ((s.view t).children.map s.phrase) := by
  rw [phrase, outline_of_label hs h, Outline.phrase, List.map_map]
  rfl

/-- **What a term of the plain type language stands for, and how it is spelled.** -/
theorem Readable.cases (hs : s.Acyclic) (h : s.Readable t) :
    (∃ c v, s.view t = .cell c ∧ s.freeVar? c = some v ∧ s.phrase t = .word (.var v) 0) ∨
      s.Spells (s.view t) (s.phrase t) := by
  have hlayer := h.view hs
  cases hx : s.view t with
  | cell c =>
    -- Behind all links a cell is not linked.
    rw [hx, ReadableLayer] at hlayer
    have hlink := deref_not_linked hs hx
    cases hcell : s.cells[c]? with
    | none => rw [hcell] at hlayer; exact hlayer.elim
    | some content =>
      cases content with
      | free v =>
        have hfree : s.freeVar? c = some v := freeVar?_eq_some.2 hcell
        refine .inl ⟨c, v, rfl, hfree, ?_⟩
        rw [phrase, outline_of_free hs hx hfree, Outline.phrase]
      | link variance target => rw [link?_eq_some.2 hcell] at hlink; cases hlink
  | custom kind held =>
    rw [hx] at hlayer
    obtain ⟨hkind, rfl⟩ := hlayer
    obtain ⟨name, hname, rfl⟩ := List.mem_map.1 hkind
    have hground : s.phrase t = .word (.ground ⟨name, hname⟩) 0 := by
      rw [phrase_of_label hs (by rw [hx]; rfl)]
      exact dif_pos hname
    rw [hground]
    exact .inr (.ground ⟨name, hname⟩)
  | tuple elems =>
    rw [phrase_of_label hs (by rw [hx]; rfl), hx]
    cases elems with
    | nil => exact .inr .unit
    | cons first rest => exact .inr (.tuple first rest)
  | list repr elem =>
    rw [hx] at hlayer
    cases hlayer
    rw [phrase_of_label hs (by rw [hx]; rfl), hx]
    exact .inr (.list elem)
  | nullable inner =>
    rw [phrase_of_label hs (by rw [hx]; rfl), hx]
    exact .inr (.nullable inner)
  | arrow args ret =>
    rw [hx] at hlayer
    have harrow : s.phrase t =
        .arrow (args.map fun a => s.phrase a.type) (s.phrase ret) := by
      rw [phrase_of_label hs (by rw [hx]; rfl), hx]
      simp [Shape.children, Label.phrase, Function.comp_def]
    rw [harrow]
    exact .inr (.arrow args ret hlayer)
  | _ => rw [hx] at hlayer; exact hlayer.elim

namespace Spells

variable {x : Shape Ty} {p : Phrase Atom} (h : s.Spells x p)
include h

theorem ne_cell (c : CellId) : x ≠ .cell c := by
  cases h <;> simp

theorem ne_meth (m : Method Ty) (inner : Ty) : x ≠ .meth m inner := by
  cases h <;> simp

/-- The words of a layer are those of its subterms. -/
theorem vars : p.words.flatMap Atom.vars =
    x.children.flatMap fun u => (s.phrase u).words.flatMap Atom.vars := by
  cases h with
  | ground name => simp [Phrase.words, Atom.vars, Shape.children]
  | unit => simp [Phrase.words, Atom.vars, Shape.children]
  | tuple first rest =>
    simp [Phrase.words, Shape.children, List.flatMap_map, List.flatMap_assoc]
  | list elem => simp [Phrase.words, Shape.children]
  | nullable inner => simp [Phrase.words_mark, Shape.children]
  | arrow args ret plain =>
    simp [Phrase.words, Shape.children, List.flatMap_map, List.flatMap_assoc]

end Spells

theorem freeOccurrences_of_spells (hs : s.Acyclic) {p : Phrase Atom}
    (h : s.Spells (s.view t) p) (bound : List VarId) :
    s.freeOccurrences bound t =
      (s.view t).children.flatMap (s.freeOccurrences bound) := by
  rw [freeOccurrences_eq hs, occurrencesLayer]
  split
  · exact absurd ‹_› (h.ne_cell _)
  · exact absurd ‹_› (h.ne_meth _ _)
  · rfl

/-- The variables of a term are met in its phrase as they occur. -/
theorem vars_phrase (hs : s.Acyclic) (h : s.Readable t) :
    (s.phrase t).words.flatMap Atom.vars = s.freeOccurrences [] t := by
  induction t using viewInduction hs with
  | layer t ih =>
    rcases h.cases hs with ⟨c, v, hx, hf, hp⟩ | hspells
    · rw [freeOccurrences_eq hs, occurrencesLayer, hx, hp]
      simp [Phrase.words, Atom.vars, hf]
    · rw [hspells.vars, freeOccurrences_of_spells hs hspells]
      exact List.flatMap_congr fun u hu => ih u hu (h.sub hs hu)

/-! ## Texts -/

/-- The text of a phrase whose variables are named in an order. -/
def spelling (names : Names) (p : Phrase Atom) : String :=
  .ofList (p.map (Atom.word names)).chars

theorem toList_spelling (names : Names) (p : Phrase Atom) :
    (spelling names p).toList = (p.map (Atom.word names)).chars := String.toList_ofList

/-- Arguments without labels that are mandatory are written as their types. -/
theorem zipWith_text {args : List (Arg Ty)}
    (plain : ∀ a ∈ args, a.optional = false ∧ a.label = "") (text : Ty → String)
    (more : List String) :
    args.zipWith Arg.text (args.map (fun a => text a.type) ++ more) =
      args.map fun a => text a.type := by
  induction args with
  | nil => rfl
  | cons a args ih =>
    obtain ⟨⟨hoptional, hlabel⟩, hargs⟩ := List.forall_mem_cons.1 plain
    rw [List.map_cons, List.cons_append, List.zipWith_cons_cons, ih hargs]
    simp [Arg.text, hoptional, hlabel]

/-- The text of a layer is the spelling of its phrase, if those of its subterms are. -/
theorem Spells.text {x : Shape Ty} {p : Phrase Atom} (h : s.Spells x p) (names : Names) :
    x.text (x.children.map fun u => spelling names (s.phrase u)) = spelling names p := by
  rw [← String.toList_inj, toList_spelling]
  cases h with
  | ground name => simp [Shape.text, Custom.text, Phrase.map, Phrase.chars, Atom.word]
  | unit => simp [Shape.text, Shape.children, Phrase.map, Phrase.chars, Atom.word]
  | tuple first rest =>
    simp [Shape.text, Shape.children, Phrase.map, Phrase.chars,
      String.toList_intercalate, toList_spelling, Function.comp_def]
  | list elem =>
    simp [Shape.text, Shape.children, Phrase.map, Phrase.chars, toList_spelling]
  | nullable inner =>
    simp [Shape.text, Shape.children, Phrase.map_mark, Phrase.chars_mark, toList_spelling]
  | arrow args ret plain =>
    have hargs :=
      zipWith_text plain (fun u => spelling names (s.phrase u))
        [spelling names (s.phrase ret)]
    simp [Shape.text, Shape.children, Phrase.map, Phrase.chars,
      String.toList_intercalate, toList_spelling, Function.comp_def, hargs]

/-- **A term is written as its phrase is spelled**, once its variables have got their
names. -/
theorem run_rendered (hs : s.Acyclic) (h : s.Readable t) {names : Names}
    (hnames : ∀ v ∈ s.freeOccurrences [] t, v ∈ names) :
    (s.rendered t).run names = (spelling names (s.phrase t), names) := by
  induction t using viewInduction hs with
  | layer t ih =>
    rw [rendered_eq hs, renderLayer]
    rcases h.cases hs with ⟨c, v, hx, hf, hp⟩ | hspells
    · rw [freeOccurrences_eq hs, occurrencesLayer, hx] at hnames
      have hv : v ∈ names := hnames v (by simp [hf])
      simp only [hx, hf, hp]
      rw [Names.run_name_of_known hv]
      simp [spelling, Phrase.map, Phrase.chars, Atom.word, Names.wordOf]
    · have hparts : ∀ u ∈ (s.view t).children,
          (s.rendered u).run names = (spelling names (s.phrase u), names) := by
        intro u hu
        refine ih u hu (h.sub hs hu) fun v hv => hnames v ?_
        rw [freeOccurrences_of_spells hs hspells]
        exact List.mem_flatMap.2 ⟨u, hu, hv⟩
      split
      · exact absurd ‹_› (hspells.ne_cell _)
      · exact absurd ‹_› (hspells.ne_meth _ _)
      · rw [StateT.run_bind, Names.run_mapM_of_known hparts, ← hspells.text names]
        rfl

/-- **The text of a term is the spelling of its phrase.** -/
theorem render_eq_spelling (hs : s.Acyclic) (h : s.Readable t) :
    s.render t = spelling (s.freeVars t) (s.phrase t) := by
  have hnames : ((s.rendered t).run []).2 = s.freeVars t := meets_rendered hs h.plain []
  have hagain : (s.rendered t).run (s.freeVars t) =
      (((s.rendered t).run []).1, s.freeVars t) :=
    (s.renderWithin_repeatable _ t []).2 (s.freeVars t) (hnames ▸ List.prefix_rfl)
  have hknown : (s.rendered t).run (s.freeVars t) =
      (spelling (s.freeVars t) (s.phrase t), s.freeVars t) :=
    run_rendered hs h fun v hv => List.mem_eraseDups.2 hv
  rw [hknown] at hagain
  have hwhere : s.whereClause (s.freeVars t) = "" :=
    Manifest.whereClause_unconstrained fun v hv =>
      h.unconstrained (reachesVar_of_mem_freeVars hs hv)
  rw [render_eq, hnames, hwhere, String.append_empty]
  exact (congrArg Prod.fst hagain).symm

/-! ## Stores with cycles -/

theorem var_of_vars (hv : s'.vars = s.vars) : s'.var = s.var :=
  funext fun v => by rw [var, var, hv]

namespace SameBelow

theorem render (h : SameBelow s s' t) (hs' : s'.Acyclic) (hv : s'.vars = s.vars) :
    s'.render t = s.render t := by
  rw [render_eq, render_eq, h.rendered hs', whereClause, whereClause, var_of_vars hv]

theorem readable (h : SameBelow s s' t) (hv : s'.vars = s.vars)
    (ht : s.Readable t) : s'.Readable t := by
  have hcell : s'.ReadableCell = s.ReadableCell := by
    funext content
    unfold ReadableCell
    rw [var_of_vars hv]
  intro u hu
  rw [h.reaches_iff] at hu
  have hlayer := ht u hu
  cases hx : u.shape with
  | cell c =>
    rw [hx] at hlayer
    rw [ReadableLayer, h.cells c ⟨u, hu, hx⟩, hcell]
    exact hlayer
  | _ => rw [hx] at hlayer; exact hlayer

end SameBelow

end TypeGraph.Store
