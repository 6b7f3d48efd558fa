import TypeGraph.Proofs.Recursion
import TypeGraph.Proofs.TypeGrammar

/-!
# Normal forms of the type language

What is read from a text is an expression, and an expression is written back without
blanks other than those within a name (`TypeExpr.written`), which gives a text from
which the same expression is read. Its normal form (`TypeExpr.normal`) has the first
name that is given to variables in the place of its own, if it has one.

The two meet in the terms that depict an expression: such a term is shown as the text
of the normal form (`Depicts.render_eq`), and two of them are isomorphic just when the
normal forms are the same (`Depicts.isomorphic_iff`). Neither looks at how the term
was built, or at what else is in the store.
-/

namespace TypeGraph.Manifest

open Text

variable {e e' : TypeExpr} {s s' : Store} {t t' : Ty} {c : CellId}
  {n : Nat} {x y : String}

/-! ## Expressions as texts -/

namespace TypeExpr

/-- The text of an expression. -/
def written : TypeExpr → List Char
  | nullable e => e.written ++ ['?']
  | list e => '[' :: (e.written ++ [']'])
  | name n => n.toList

/-- The derivation of an expression that has no blanks to skip. -/
def tight : TypeExpr → Derivation
  | nullable e => .nullable [] e.tight []
  | list e => .list [] e.tight []
  | name n => .name [] n []

theorem expr_tight (e : TypeExpr) : e.tight.expr = e := by
  induction e with
  | nullable e ih => exact congrArg nullable ih
  | list e ih => exact congrArg list ih
  | name n => rfl

/-- The text of an expression does not start with a blank and does not end with one,
as the name at its bottom does not. -/
theorem padded_written (h : Spelled e.leaf) : Padded e.written [] e.written [] := by
  suffices hends : (∀ c ∈ e.written.head?, isBlank c = false) ∧ ∀ c ∈ e.written.getLast?,
      isBlank c = false by
    exact ⟨by simp, by simp, by simp, hends.1, hends.2⟩
  induction e with
  | nullable e ih =>
    refine ⟨fun c hc => ?_, fun c hc => ?_⟩
    · rw [written, List.head?_append, Option.mem_def, Option.or_eq_some_iff] at hc
      rcases hc with hc | ⟨-, hc⟩
      · exact (ih h).1 c hc
      · cases hc
        decide
    · rw [written, List.getLast?_concat] at hc
      cases hc
      decide
  | list e ih =>
    refine ⟨fun c hc => ?_, fun c hc => ?_⟩
    · cases hc
      decide
    · rw [written, ← List.cons_append, List.getLast?_concat] at hc
      cases hc
      decide
  | name n => exact ⟨h.2.1, h.2.2.1⟩

/-- **The text of an expression has the expression's own derivation.** -/
theorem derives_written (h : Spelled e.leaf) (hlone : e.leaf ≠ "'") :
    Derives e.written e.tight := by
  induction e with
  | nullable e ih => exact .nullable (ih h hlone) (padded_written h)
  | list e ih => exact .list (ih h hlone) (padded_written h)
  | name n => exact .name h hlone (padded_written h)

theorem read_written (h : Spelled e.leaf) (hlone : e.leaf ≠ "'") : read e.written = e :=
  (derives_written h hlone).read_eq.trans e.expr_tight

/-- The normal form of an expression: a variable gets the name that is given to the
first one. -/
def normal : TypeExpr → TypeExpr
  | nullable e => .nullable e.normal
  | list e => .list e.normal
  | name n => .name (if n.toList.head? = some '\'' then Names.nameOf 0 else n)

theorem normal_normal (e : TypeExpr) : e.normal.normal = e.normal := by
  induction e with
  | nullable e ih => exact congrArg nullable ih
  | list e ih => exact congrArg list ih
  | name n =>
    by_cases hvar : n.toList.head? = some '\''
    · rw [normal, if_pos hvar]
      rfl
    · rw [normal, if_neg hvar, normal, if_neg hvar]

/-- The name at the bottom of a normal form is one that can be written, if that of the
expression is. -/
theorem leaf_normal (h : Spelled e.leaf) (hlone : e.leaf ≠ "'") :
    Spelled e.normal.leaf ∧ e.normal.leaf ≠ "'" := by
  induction e with
  | nullable e ih => exact ih h hlone
  | list e ih => exact ih h hlone
  | name n =>
    rw [normal, leaf]
    split
    · decide
    · exact ⟨h, hlone⟩

end TypeExpr

open TypeExpr

/-! ## Terms that depict an expression -/

/-- The cell holds a variable of the store, without constraints. -/
def Unconstrained (s : Store) (c : CellId) : Prop :=
  ∃ v, s.freeVar? c = some v ∧ v < s.vars.size ∧ (s.var v).constraints = .empty

/-- The variable is still there when more was added to the store. -/
theorem Unconstrained.within (h : Unconstrained s c) (hw : s.Within s') :
    Unconstrained s' c := by
  obtain ⟨v, hfree, hv, hnone⟩ := h
  refine ⟨v, ?_, Nat.lt_of_lt_of_le hv hw.vars_le, ?_⟩
  · exact (hw.freeVar? (Store.lt_of_freeVar? hfree)).trans hfree
  · rw [hw.var hv]
    exact hnone

/-- The term that a name stands for, if it is not that of a variable. -/
def plain (x : String) : Ty :=
  if x = "unit" then .unit else if x ∈ Ty.groundNames then .ground x else .constant x

/-- Such a term has no parts, and is shown as the name. -/
theorem plain_layer (x : String) :
    (plain x).shape.children = [] ∧ (plain x).shape.text [] = x := by
  unfold plain
  split
  · rename_i hunit
    exact ⟨rfl, hunit.symm⟩
  · split <;> exact ⟨rfl, rfl⟩

theorem plain_ne (x : String) :
    (∀ c, (plain x).shape ≠ .cell c) ∧ ∀ m inner, (plain x).shape ≠ .meth m inner := by
  unfold plain Ty.unit Ty.ground Ty.constant
  split_ifs <;> simp

/-- The terms of two names are alike only if the names are the same. -/
theorem alike_plain (x y : String) :
    (plain x).shape.alike (plain y).shape = true ↔ x = y := by
  unfold plain
  split_ifs <;> simp only [Ty.unit, Ty.ground, Ty.constant, Ty.shape_of,
    Shape.alike, Custom.name]
  all_goals grind

theorem not_variable_of_ground :
    ∀ x ∈ Ty.groundNames, x.toList.head? ≠ some '\'' := by decide

namespace Depicts

variable {P Q : CellId → Prop}

theorem mono (h : Depicts P e t)
    (hPQ : e.isVariable = true → ∀ c, P c → Q c) : Depicts Q e t := by
  induction h with
  | nullable _ ih => exact .nullable (ih hPQ)
  | list _ ih => exact .list (ih hPQ)
  | var hn hc => exact .var hn (hPQ (decide_eq_true hn) _ hc)
  | unit => exact .unit
  | ground hn => exact .ground hn
  | constr hvar hunit hground => exact .constr hvar hunit hground

theorem within (h : Depicts (Unconstrained s) e t) (hw : s.Within s') :
    Depicts (Unconstrained s') e t :=
  h.mono fun _ _ hc => hc.within hw

theorem exists_nullable (h : Depicts P (.nullable e) t) :
    ∃ u, Depicts P e u ∧ t = .of (.nullable u) := by
  cases h with
  | nullable hu => exact ⟨_, hu, rfl⟩

theorem exists_list (h : Depicts P (.list e) t) :
    ∃ u, Depicts P e u ∧ t = .of (.list .array u) := by
  cases h with
  | list hu => exact ⟨_, hu, rfl⟩

theorem exists_cell (h : Depicts P (.name x) t) (hvar : x.toList.head? = some '\'') :
    ∃ c, P c ∧ t = .of (.cell c) := by
  cases h with
  | var _ hc => exact ⟨_, hc, rfl⟩
  | unit => cases hvar
  | ground hn => exact absurd hvar (not_variable_of_ground x hn)
  | constr hplain _ _ => exact absurd hvar hplain

theorem eq_plain (h : Depicts P (.name x) t)
    (hvar : x.toList.head? ≠ some '\'') : t = plain x := by
  cases h with
  | var hn _ => exact absurd hn hvar
  | unit => rfl
  | ground hn =>
    have hunit : x ≠ "unit" := by
      rintro rfl
      revert hn
      decide
    have hground : x ∈ Ty.groundNames := hn
    rw [plain, if_neg hunit, if_pos hground]
    rfl
  | constr _ hunit hground =>
    have hground : x ∉ Ty.groundNames := hground
    rw [plain, if_neg hunit, if_neg hground]
    rfl

/-- There are no links to follow. -/
theorem view_eq (h : Depicts (Unconstrained s) e t) : s.view t = t.shape := by
  refine congrArg Ty.shape (Store.deref_settled fun c hc => ?_)
  cases h with
  | var _ hopen =>
    cases hc
    obtain ⟨v, hfree, -⟩ := hopen
    exact Store.link?_eq_none_of_freeVar? hfree
  | _ => cases hc

end Depicts

/-! ## Showing them -/

/-- A layer without a cell or a method is shown after its parts, which name what it
names. -/
theorem renderWithin_layer {parts : List String} {names : Names}
    (hview : s.view t = t.shape) (hcell : ∀ c, t.shape ≠ .cell c)
    (hmeth : ∀ m inner, t.shape ≠ .meth m inner)
    (hparts : (t.shape.children.mapM (s.renderWithin n)).run [] = (parts, names)) :
    (s.renderWithin (n + 1) t).run [] = (t.shape.text parts, names) := by
  rw [Store.renderWithin, Store.renderLayer, hview]
  split
  · exact absurd ‹_› (hcell _)
  · exact absurd ‹_› (hmeth _ _)
  · rw [StateT.run_bind, hparts]
    rfl

theorem run_mapM_single {f : Ty → StateM Names String} {part : String} {names : Names}
    (h : (f t).run [] = (part, names)) : ([t].mapM f).run [] = ([part], names) := by
  rw [List.mapM_cons, StateT.run_bind, h]
  rfl

/-- Variables without constraints give no clause. -/
theorem whereClause_unconstrained {names : Names}
    (h : ∀ v ∈ names, (s.var v).constraints = .empty) :
    s.whereClause names = "" := by
  unfold Store.whereClause
  rw [List.filterMap_eq_nil_iff.2]
  · rfl
  · rintro ⟨v, i⟩ hv
    have hitems : (s.var v).constraints.items = [] := by
      rw [h v (List.fst_mem_of_mem_zipIdx hv)]
      rfl
    simp only [hitems]

namespace Depicts

/-- A term that depicts an expression is written as its normal form, if the bound
covers the term. Of variables it names at most the one at its bottom. -/
theorem renderWithin (h : Depicts (Unconstrained s) e t) (k : Nat) :
    ∃ names, (∀ v ∈ names, (s.var v).constraints = .empty) ∧
      (s.renderWithin (k + t.size) t).run [] = (.ofList e.normal.written, names) := by
  have hview := h.view_eq
  induction e generalizing t with
  | nullable e ih =>
    obtain ⟨u, hu, rfl⟩ := h.exists_nullable
    obtain ⟨names, hnames, hrun⟩ := ih hu hu.view_eq
    refine ⟨names, hnames, ?_⟩
    refine (renderWithin_layer hview (by simp) (by simp)
      (run_mapM_single hrun)).trans ?_
    simp [Shape.text, normal, written]
  | list e ih =>
    obtain ⟨u, hu, rfl⟩ := h.exists_list
    obtain ⟨names, hnames, hrun⟩ := ih hu hu.view_eq
    refine ⟨names, hnames, ?_⟩
    refine (renderWithin_layer hview (by simp) (by simp)
      (run_mapM_single hrun)).trans ?_
    simp [Shape.text, normal, written, String.append_assoc]
  | name x =>
    by_cases hx : x.toList.head? = some '\''
    · obtain ⟨c, ⟨v, hfree, -, hnone⟩, rfl⟩ := h.exists_cell hx
      refine ⟨[v], by simpa using hnone, ?_⟩
      show (s.renderLayer (s.renderWithin k) (.of (.cell c))).run [] = _
      rw [normal, if_pos hx, Store.renderLayer, hview]
      simp only [Ty.shape_of, hfree]
      rfl
    · obtain rfl := h.eq_plain hx
      obtain ⟨hchildren, htext⟩ := plain_layer x
      obtain ⟨m, hm⟩ := Nat.exists_eq_succ_of_ne_zero (plain x).size_pos.ne'
      have hparts :
          ((plain x).shape.children.mapM (s.renderWithin (k + m))).run [] = ([], []) := by
        rw [hchildren]
        rfl
      refine ⟨[], by simp, ?_⟩
      rw [normal, if_neg hx, written, String.ofList_toList, hm, Nat.add_succ,
        renderWithin_layer hview (plain_ne x).1 (plain_ne x).2 hparts, htext]

/-- **A term that depicts an expression is shown as its normal form.** -/
theorem render_eq (h : Depicts (Unconstrained s) e t) :
    s.render t = .ofList e.normal.written := by
  obtain ⟨names, hnames, hrun⟩ := h.renderWithin (Store.linkedSize s.cells.toList)
  rw [Nat.add_comm] at hrun
  rw [Store.render_eq, Store.rendered, Store.span, hrun, whereClause_unconstrained hnames,
    String.append_empty]

end Depicts

/-! ## Comparing them -/

namespace Depicts

/-- Two terms of which at most one is a variable are compared layer by layer. -/
theorem matchTerms_layer (h : Depicts (Unconstrained s) e t)
    (h' : Depicts (Unconstrained s) e' t')
    (hcell : ∀ c d, t.shape = .cell c → t'.shape ≠ .cell d) :
    s.matchTerms (n + 1) t t' [] =
      if t.shape.alike t'.shape then
        Store.matchAll (s.matchTerms n) t.shape.children t'.shape.children []
      else none := by
  have hbinders : ∀ {e t}, Depicts (Unconstrained s) e t → t.shape.binders = [] := by
    intro e t h
    cases h <;> rfl
  rw [← h.view_eq, ← h'.view_eq] at hcell
  rw [Store.matchTerms, Store.matchLayer_eq hcell, h.view_eq, h'.view_eq,
    hbinders h, hbinders h']
  rfl

/-- Terms that depict names match when the names are the same or both are those of
variables. -/
theorem matchTerms_name (h : Depicts (Unconstrained s) (.name x) t)
    (h' : Depicts (Unconstrained s) (.name y) t') :
    (s.matchTerms (n + 1) t t' []).isSome = true ↔
      (TypeExpr.name x).normal = (TypeExpr.name y).normal := by
  have hfirst : ∀ z : String, z.toList.head? ≠ some '\'' → Names.nameOf 0 ≠ z := by
    rintro _ hz rfl
    exact hz rfl
  rw [normal, normal, TypeExpr.name.injEq]
  by_cases hx : x.toList.head? = some '\''
  · obtain ⟨c, ⟨v, hfree, -, hnone⟩, rfl⟩ := h.exists_cell hx
    by_cases hy : y.toList.head? = some '\''
    · obtain ⟨d, ⟨w, hfree', -, hnone'⟩, rfl⟩ := h'.exists_cell hy
      rw [if_pos hx, if_pos hy]
      refine iff_of_true ?_ rfl
      rw [Store.matchTerms, Store.matchLayer, h.view_eq, h'.view_eq]
      simp only [Ty.shape_of, hfree, hfree', Store.renameVar, hnone, hnone']
      rfl
    · obtain rfl := h'.eq_plain hy
      rw [if_pos hx, if_neg hy, matchTerms_layer h h' fun _ d _ => (plain_ne y).1 d]
      exact iff_of_false (by simp [Shape.alike]) (hfirst y hy)
  · obtain rfl := h.eq_plain hx
    rw [if_neg hx, matchTerms_layer h h' fun c _ hc => absurd hc ((plain_ne x).1 c)]
    by_cases hy : y.toList.head? = some '\''
    · obtain ⟨d, -, rfl⟩ := h'.exists_cell hy
      rw [if_pos hy]
      exact iff_of_false (by simp [Shape.alike]) (hfirst x hx).symm
    · obtain rfl := h'.eq_plain hy
      rw [if_neg hy, (plain_layer x).1, (plain_layer y).1, ← alike_plain x y]
      by_cases halike : (plain x).shape.alike (plain y).shape = true
      · rw [if_pos halike]
        exact iff_of_true rfl halike
      · rw [if_neg halike]
        exact iff_of_false (by simp) halike

/-- **Terms that depict expressions match just when the normal forms are the same.** -/
theorem matchTerms_iff (h : Depicts (Unconstrained s) e t)
    (h' : Depicts (Unconstrained s) e' t') (k : Nat) :
    (s.matchTerms (k + t.size) t t' []).isSome = true ↔ e.normal = e'.normal := by
  induction e generalizing e' t t' with
  | nullable e ih =>
    obtain ⟨u, hu, rfl⟩ := h.exists_nullable
    show (s.matchTerms (k + u.size + 1) (.of (.nullable u)) t' []).isSome = true ↔ _
    rw [matchTerms_layer h h' (by simp)]
    cases h' with
    | nullable hu' =>
      rw [normal, normal, TypeExpr.nullable.injEq, ← ih hu hu']
      simp [Shape.alike, Shape.children, Store.matchAll]
    | _ => simp [Shape.alike, normal]
  | list e ih =>
    obtain ⟨u, hu, rfl⟩ := h.exists_list
    show (s.matchTerms (k + u.size + 1) (.of (.list .array u)) t' []).isSome = true ↔ _
    rw [matchTerms_layer h h' (by simp)]
    cases h' with
    | list hu' =>
      rw [normal, normal, TypeExpr.list.injEq, ← ih hu hu']
      simp [Shape.alike, Shape.children, Store.matchAll]
    | _ => simp [Shape.alike, normal]
  | name x =>
    obtain ⟨m, hm⟩ := Nat.exists_eq_succ_of_ne_zero t.size_pos.ne'
    rw [hm, Nat.add_succ]
    cases e' with
    | name y => exact matchTerms_name h h'
    | nullable e' | list e' =>
      have hother : ∀ d, t'.shape ≠ .cell d ∧ t.shape.alike t'.shape = false := by
        intro d
        cases h'
        cases h <;> simp [Shape.alike]
      rw [matchTerms_layer h h' fun _ d _ => (hother d).1, (hother 0).2]
      simp [normal]

/-- **Terms that depict expressions are isomorphic just when the normal forms are the
same.** -/
theorem isomorphic_iff (h : Depicts (Unconstrained s) e t)
    (h' : Depicts (Unconstrained s) e' t') :
    s.isomorphic t t' = true ↔ e.normal = e'.normal := by
  rw [Store.isomorphic, Store.span, Nat.add_comm]
  exact h.matchTerms_iff h' _

end Depicts

/-! ## Reading, showing and reading again -/

theorem within_withVariable (s : Store) : s.Within (withVariable s) where
  vars v hv := by simp [withVariable, Array.getElem?_push, Nat.ne_of_lt hv]
  cells c hc := by simp [withVariable, Array.getElem?_push, Nat.ne_of_lt hc]

/-- Building a term changes nothing that is there. -/
theorem within_build (e : TypeExpr) (s : Store) : s.Within (e.build s).2 := by
  rw [(build_depicts e s).2]
  split
  · exact within_withVariable s
  · exact .refl s

theorem build_unconstrained (e : TypeExpr) (s : Store) :
    Depicts (Unconstrained (e.build s).2) e (e.build s).1 := by
  obtain ⟨hdepicts, hstore⟩ := build_depicts e s
  refine hdepicts.mono fun hvar c hc => ?_
  rw [hstore, if_pos hvar, hc]
  exact ⟨s.vars.size, by simp [withVariable, Store.freeVar?], by simp [withVariable],
    by simp [withVariable, Store.var]⟩

/-- The type of a text, and the store with its variable. -/
def parsed (text : String) (s : Store) : Ty × Store := (read text.toList).build s

variable {text other : String}

/-- A text is shown as its normal form, whatever the store. -/
theorem render_parsed (text : String) (s : Store) :
    (parsed text s).2.render (parsed text s).1 =
      .ofList (read text.toList).normal.written :=
  (build_unconstrained _ s).render_eq

/-- The types of two texts are isomorphic just when the texts have the same normal
form. -/
theorem isomorphic_parsed_iff (hw : (parsed text s).2.Within s') :
    (parsed other s').2.isomorphic (parsed other s').1 (parsed text s).1 = true ↔
      (read other.toList).normal = (read text.toList).normal := by
  have hother := build_unconstrained (read other.toList) s'
  have htext := build_unconstrained (read text.toList) s
  exact hother.isomorphic_iff (htext.within (hw.trans (within_build _ s')))

/-- The normal form of an accepted text is one, and can be read back. -/
theorem normal_accepted (h : problem? text.toList = none) :
    problem? (read text.toList).normal.written = none ∧
      read (read text.toList).normal.written = (read text.toList).normal := by
  obtain ⟨hspelled, hlone⟩ := (problem?_eq_none_iff _).1 h
  obtain ⟨hspelled, hlone⟩ := leaf_normal hspelled hlone
  exact ⟨problem?_eq_none_iff_derives.2 ⟨_, derives_written hspelled hlone⟩,
    read_written hspelled hlone⟩

/-- **Showing the type of a text gives its normal form.** What is shown is accepted,
its type is isomorphic to the one that was shown, and is shown the same way. Any other
accepted text has an isomorphic type just when that is shown the same way, too. -/
theorem parsed_normalForm (text : String) (h : problem? text.toList = none) (s : Store) :
    let t := (parsed text s).1
    let shown := (parsed text s).2.render t
    problem? shown.toList = none ∧
      (∀ s', (parsed text s).2.Within s' →
        (parsed shown s').2.isomorphic (parsed shown s').1 t = true ∧
          (parsed shown s').2.render (parsed shown s').1 = shown) ∧
      ∀ other s', problem? other.toList = none → (parsed text s).2.Within s' →
        ((parsed other s').2.isomorphic (parsed other s').1 t = true ↔
          (parsed other s').2.render (parsed other s').1 = shown) := by
  intro t shown
  obtain ⟨haccepted, hread⟩ := normal_accepted h
  have hshown : shown.toList = (read text.toList).normal.written := by
    rw [show shown = .ofList _ from render_parsed text s, String.toList_ofList]
  have hnormal : (read shown.toList).normal = (read text.toList).normal := by
    rw [hshown, hread, normal_normal]
  refine ⟨hshown ▸ haccepted, fun s' hw => ⟨(isomorphic_parsed_iff hw).2 hnormal, ?_⟩,
    fun other s' hother hw => ?_⟩
  · rw [render_parsed, hnormal, ← hshown, String.ofList_toList]
  · rw [isomorphic_parsed_iff hw, render_parsed, ← String.toList_inj,
      String.toList_ofList, hshown]
    -- A text that was shown is read back, so it tells which normal form it is.
    refine ⟨fun heq => congrArg written heq, fun heq => ?_⟩
    rw [← (normal_accepted hother).2, heq, hread]

/-- Of a text with blanks and a variable only the structure is left, and the variable
under its new name. -/
theorem parsed_normalForm_padded :
    let text := "\u3000[ 'any one ?\t] ? "
    (parsed text .empty).2.render (parsed text .empty).1 = "['a?]?" ∧
      problem? "['a?]?".toList = none ∧
      let s := (parsed text .empty).2
      (parsed "['a?]?" s).2.isomorphic (parsed "['a?]?" s).1 (parsed text .empty).1 =
          true ∧
        (parsed "['a?]?" s).2.render (parsed "['a?]?" s).1 = "['a?]?" := by
  intro text
  have hshown : (parsed text .empty).2.render (parsed text .empty).1 = "['a?]?" := by
    decide +kernel
  obtain ⟨haccepted, hagain, -⟩ := parsed_normalForm text (by decide +kernel) .empty
  rw [hshown] at haccepted hagain
  exact ⟨hshown, haccepted, hagain _ (.refl _)⟩

end TypeGraph.Manifest
