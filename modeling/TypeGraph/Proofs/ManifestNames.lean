import TypeGraph.Manifest.Load
import TypeGraph.Proofs.Terms

/-!
# The names that a manifest gives to constructors

Validation looks at the type of an entry, and an entry with a type that passes builds
a term in which every constructor is *spelled* as the type language has it: with
a name that is not empty, has no blanks at its ends and no bracket or question mark
within.

An entry without a type builds what its name spells, and nobody looks at the name
beyond its not being empty. So there are configurations that pass and build
constructors called `[`, or not called anything (`validate_passes_bracket`). Apart
from names with a dot, which stand for unit, and those that come down to a variable,
what an entry without a type builds is well named just when its name would have passed
as a type (`entry_wellNamed_iff`).
-/

namespace TypeGraph

/-! ## Blanks -/

namespace Text

/-- What is left of a text starts as the text does. -/
theorem head?_trimEnd (cs : List Char) : ∀ c ∈ (trimEnd cs).head?, c ∈ cs.head? := by
  cases cs with
  | nil => exact nofun
  | cons c rest =>
    unfold trimEnd
    split
    · split
      · exact nofun
      · exact fun _ h => h
    · exact fun _ h => h

/-- A text does not end in a blank once blanks have been cut off its end. -/
theorem getLast?_trimEnd (cs : List Char) :
    ∀ c ∈ (trimEnd cs).getLast?, isBlank c = false := by
  induction cs with
  | nil => exact nofun
  | cons c rest ih =>
    unfold trimEnd
    split
    · split
      · exact nofun
      · rename_i hblank
        simpa using hblank
    · rename_i hrest
      intro d hd
      rw [List.getLast?_cons_of_ne_nil hrest] at hd
      exact ih d hd

/-- Nor does it start with one when blanks have been cut off both ends. -/
theorem head?_trim (cs : List Char) : ∀ c ∈ (trim cs).head?, isBlank c = false := by
  intro c hc
  have hhead := List.head?_dropWhile_not isBlank cs
  rw [head?_trimEnd _ c hc] at hhead
  exact hhead

end Text

namespace Manifest

open Text

/-! ## Spelling -/

/-- **The name is spelled as names are in the type language.** -/
def Spelled (name : String) : Prop :=
  name ≠ "" ∧ (∀ c ∈ name.toList.head?, isBlank c = false) ∧
    (∀ c ∈ name.toList.getLast?, isBlank c = false) ∧
    ∀ c ∈ name.toList, c ≠ '[' ∧ c ≠ ']' ∧ c ≠ '?'

instance : DecidablePred Spelled := fun name =>
  decidable_of_iff (name ≠ "" ∧ name.toList.head?.all (!isBlank ·) ∧
      name.toList.getLast?.all (!isBlank ·) ∧
      name.toList.all fun c => c ≠ '[' && c ≠ ']' && c ≠ '?') <| by
    simp [Spelled, Option.all_eq_true, and_assoc]

/-- The name of the constructor that a layer applies, if it does. -/
def constrNames : Shape Ty → List String
  | .constr name _ => [name]
  | _ => []

/-- **Every constructor in the term is spelled right.** -/
def WellNamed (t : Ty) : Prop :=
  t.Everywhere fun x => ∀ name ∈ constrNames x, Spelled name

instance : DecidablePred WellNamed :=
  fun t => inferInstanceAs (Decidable (t.Everywhere _))

theorem wellNamed_iff (t : Ty) :
    WellNamed t ↔ (∀ name ∈ constrNames t.shape, Spelled name) ∧
      ∀ u ∈ t.shape.children, WellNamed u := by
  constructor
  · intro h
    exact ⟨h.here, fun u hu => h.sub hu⟩
  · rintro ⟨here, subterms⟩
    exact .layer here subterms

namespace TypeExpr

/-- The name at the bottom of an expression. -/
def leaf : TypeExpr → String
  | name text => text
  | list e => e.leaf
  | nullable e => e.leaf

/-- Is the name at the bottom that of a variable? -/
def isVariable (e : TypeExpr) : Bool := e.leaf.toList.head? = some '\''

theorem spelled_of_ground : ∀ name ∈ Ty.groundNames, Spelled name := by decide

/-- **An expression builds a well-named term just when the name at its bottom is
spelled right or is that of a variable.** -/
theorem wellNamed_build (e : TypeExpr) (s : Store) :
    WellNamed (e.build s).1 ↔ e.isVariable = true ∨ Spelled e.leaf := by
  induction e generalizing s with
  | name text =>
    rw [isVariable, leaf, decide_eq_true_iff, build]
    split
    · exact iff_of_true ((wellNamed_iff _).2 ⟨nofun, nofun⟩) (Or.inl ‹_›)
    · rename_i hvar
      split
      · rename_i hunit
        refine iff_of_true ((wellNamed_iff _).2 ⟨nofun, nofun⟩) (Or.inr ?_)
        rw [hunit]
        decide
      · split
        · exact iff_of_true ((wellNamed_iff _).2 ⟨nofun, nofun⟩)
            (Or.inr (spelled_of_ground text ‹_›))
        · rw [wellNamed_iff]
          simp [Ty.constant, constrNames, Shape.children, hvar]
  | list e ih | nullable e ih =>
    refine Iff.trans ?_ (ih s)
    rw [build, wellNamed_iff]
    simp [constrNames, Shape.children]

/-- Reading goes by the outermost layer of the trimmed text. -/
theorem read_eq (text : List Char) :
    read text = match outer (trim text) with
      | .nullable inner => .nullable (read inner)
      | .list inner => .list (read inner)
      | .name => .name (.ofList (trim text)) := by
  rw [read]
  split <;> simp only [*]

/-- The name at the bottom of what is read from a text: that of the text within the
brackets or before the question mark, or the text itself without the blanks at its
ends. -/
theorem leaf_read (text : List Char) :
    (read text).leaf = match outer (trim text) with
      | .nullable inner | .list inner => (read inner).leaf
      | .name => .ofList (trim text) := by
  rw [read_eq]
  split <;> rfl

/-- A trimmed text is spelled right just when it is not empty and has no brackets or
question marks. -/
theorem spelled_trim (text : List Char) :
    Spelled (.ofList (trim text)) ↔
      trim text ≠ [] ∧ ∀ c ∈ trim text, c ≠ '[' ∧ c ≠ ']' ∧ c ≠ '?' := by
  have hempty : String.ofList (trim text) ≠ "" ↔ trim text ≠ [] := by simp
  rw [Spelled, hempty, String.toList_ofList]
  exact ⟨fun h => ⟨h.1, h.2.2.2⟩,
    fun h => ⟨h.1, head?_trim text, getLast?_trimEnd _, h.2⟩⟩

/-- An expression has no problem just when the name at its bottom is spelled right and
is not a lone apostrophe. -/
theorem problem?_eq_none_iff (text : List Char) :
    problem? text = none ↔ Spelled (read text).leaf ∧ (read text).leaf ≠ "'" := by
  fun_induction problem? text with
  | case1 text cs hempty =>
    have hcs : trim text = [] := List.isEmpty_iff.1 hempty
    have hleaf : (read text).leaf = "" := by
      rw [leaf_read, hcs]
      rfl
    refine iff_of_false nofun fun h => ?_
    rw [hleaf] at h
    exact h.1.1 rfl
  | case2 text cs hempty inner houter ih | case3 text cs hempty inner houter ih =>
    rw [ih, leaf_read text, houter]
  | case4 text cs hempty houter hstray =>
    refine iff_of_false nofun fun h => ?_
    rw [leaf_read, houter, spelled_trim] at h
    obtain ⟨c, hc, hbad⟩ := List.any_eq_true.1 hstray
    have hgood := h.1.2 c hc
    simp_all
  | case5 text cs hempty houter hstray hlone =>
    refine iff_of_false nofun fun h => h.2 ?_
    rw [leaf_read, houter]
    exact congrArg String.ofList hlone
  | case6 text cs hempty houter hstray hlone =>
    refine iff_of_true rfl ?_
    rw [leaf_read, houter, spelled_trim]
    refine ⟨⟨fun h => hempty (List.isEmpty_iff.2 h), fun c hc => ?_⟩, fun h => hlone ?_⟩
    · have hgood : ¬(c == '[' || c == ']' || c == '?') = true :=
        fun h => hstray (List.any_eq_true.2 ⟨c, hc, h⟩)
      simpa [not_or, and_assoc] using hgood
    · simpa using congrArg String.toList h

end TypeExpr

/-! ## Validation -/

/-- A configuration passes just when nothing is wrong with it. -/
theorem Config.validate_eq_ok_iff (c : Config) :
    c.validate = .ok c ↔ c.problems = [] := by
  unfold Config.validate
  split <;> simp [*]

/-- **The problems of a configuration are what is found when it is checked.** -/
theorem Config.problems_eq_findings (c : Config) : c.problems = c.findings :=
  Problems.errors_foldl_add (Problems.known_none {}) c.findings

/-- Nothing is wrong with the entries of a configuration that passes. -/
theorem Config.problems_of_validate {c : Config} (h : c.validate = .ok c) {e : Entry}
    (he : e ∈ c.types) :
    e.name ≠ "" ∧ (e.type ≠ "" → TypeExpr.problem? e.type.toList = none) := by
  have hnone : c.findings = [] := c.problems_eq_findings ▸ c.validate_eq_ok_iff.1 h
  obtain ⟨i, hi⟩ := List.mem_iff_getElem?.1 he
  have hmem : (e, i) ∈ c.types.zipIdx := List.mem_zipIdx_iff_getElem?.2 hi
  have hentry : e.problems i = [] :=
    List.flatMap_eq_nil_iff.1 (List.append_eq_nil_iff.1 hnone).2 (e, i) hmem
  obtain ⟨hnamed, htyped⟩ := List.append_eq_nil_iff.1 hentry
  refine ⟨fun hname => ?_, fun htype => ?_⟩
  · simp [hname] at hnamed
  · simpa [htype] using htyped

/-- A name that is spelled wrong passes when it is that of an entry without a type:
the bracket becomes a constructor. -/
theorem validate_passes_bracket :
    let e : Entry := { name := "[" }
    let c : Config := { types := [e] }
    c.validate = .ok c ∧ (e.expr.build .empty).1 = .constant "[" ∧
      ¬WellNamed (e.expr.build .empty).1 := by
  intro e c
  have hexpr : e.expr = .name "[" := by decide +kernel
  rw [hexpr]
  exact ⟨(c.validate_eq_ok_iff).2 (by decide +kernel), rfl, by decide⟩

/-- **What validation leaves open.** In a configuration that passes, an entry builds
a well-named term if it has a type or a dotted name. With neither, it does just when
its name comes down to a variable or would have passed as a type. -/
theorem entry_wellNamed_iff {c : Config} (h : c.validate = .ok c) {e : Entry}
    (he : e ∈ c.types) (s : Store) :
    WellNamed (e.expr.build s).1 ↔
      (e.type = "" → '.' ∉ e.name.toList →
        (TypeExpr.read e.name.toList).isVariable = true ∨
          TypeExpr.problem? e.name.toList = none) := by
  obtain ⟨-, htyped⟩ := Config.problems_of_validate h he
  rw [TypeExpr.wellNamed_build]
  by_cases htype : e.type = ""
  · by_cases hdot : '.' ∈ e.name.toList
    · have hexpr : e.expr = .name "unit" := by simp [Entry.expr, htype, hdot]
      rw [hexpr]
      exact iff_of_true (Or.inr (by decide)) fun _ h => absurd hdot h
    · have hexpr : e.expr = .read e.name.toList := by simp [Entry.expr, htype, hdot]
      rw [hexpr, TypeExpr.problem?_eq_none_iff]
      refine ⟨fun hgood _ _ => ?_, fun hgood => (hgood htype hdot).imp_right And.left⟩
      by_cases hlone : (TypeExpr.read e.name.toList).leaf = "'"
      · exact Or.inl (by rw [TypeExpr.isVariable, hlone]; rfl)
      · exact hgood.imp_right fun hspelled => ⟨hspelled, hlone⟩
  · have hexpr : e.expr = .read e.type.toList := by simp [Entry.expr, htype]
    rw [hexpr]
    exact iff_of_true (Or.inr ((TypeExpr.problem?_eq_none_iff _).1 (htyped htype)).1)
      fun h => absurd h htype

/-- Of the entries here, all of which pass, the first is the one that names
a constructor wrong. -/
theorem entry_wellNamed_iff_mixed :
    let bad : Entry := { name := "[ ]" }
    let typed : Entry := { name := "[", type := " [ 'a? ] " }
    let plain : Entry := { name := " clock ?" }
    let c : Config := { log := { level := "debug" }, types := [bad, typed, plain] }
    c.validate = .ok c ∧ ¬WellNamed (bad.expr.build .empty).1 ∧
      WellNamed (typed.expr.build .empty).1 ∧ WellNamed (plain.expr.build .empty).1 := by
  intro bad typed plain c
  have hpass : c.validate = .ok c := (Config.validate_eq_ok_iff c).2 (by decide +kernel)
  refine ⟨hpass, fun h => ?_, ?_, ?_⟩
  · have hnamed :=
      (entry_wellNamed_iff hpass (e := bad) (by decide) .empty).1 h
        (by decide) (by decide)
    revert hnamed
    decide +kernel
  · exact (entry_wellNamed_iff hpass (e := typed) (by decide) .empty).2
      (by decide +kernel)
  · exact (entry_wellNamed_iff hpass (e := plain) (by decide) .empty).2
      (by decide +kernel)

end Manifest

end TypeGraph
