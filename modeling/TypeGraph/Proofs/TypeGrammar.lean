import TypeGraph.Proofs.ManifestNames

/-!
# The grammar of the type language

A type is a core with blanks on both sides, and a core is a type with a question mark
behind it, a type in brackets, or a name:

    T ::= blanks C blanks
    C ::= T '?' | '[' T ']' | name

A core neither starts nor ends with a blank, so what is a core and what is padding is
settled by the text alone (`Padded.unique`). Its last character then tells which rule
made it.

`problem?` accepts exactly the texts with a derivation, each of them has one
derivation only, and `read` and `build` follow it (`typeLanguage_exact`).
-/

namespace TypeGraph.Manifest

open Text

variable {text cs inner core before after core' before' after' : List Char}

/-! ## Padding -/

/-- **The text is a core with blanks on both sides.** -/
structure Padded (text before core after : List Char) : Prop where
  text_eq : text = before ++ core ++ after
  before_blank : ∀ c ∈ before, isBlank c = true
  after_blank : ∀ c ∈ after, isBlank c = true
  /-- The core does not start with a blank, -/
  start : ∀ c ∈ core.head?, isBlank c = false
  /-- nor does it end with one. -/
  stop : ∀ c ∈ core.getLast?, isBlank c = false

/-- What is cut off the end of a text is blank. -/
theorem exists_trimEnd (cs : List Char) :
    ∃ after, (∀ c ∈ after, isBlank c = true) ∧ cs = trimEnd cs ++ after := by
  induction cs with
  | nil => exact ⟨[], by simp, rfl⟩
  | cons c cs ih =>
    obtain ⟨after, hafter, hcs⟩ := ih
    unfold trimEnd
    split
    · rename_i hnil
      rw [hnil, List.nil_append] at hcs
      by_cases hc : isBlank c = true
      · rw [if_pos hc]
        exact ⟨c :: after, List.forall_mem_cons.2 ⟨hc, hafter⟩, congrArg (c :: ·) hcs⟩
      · rw [if_neg hc]
        exact ⟨after, hafter, congrArg (c :: ·) hcs⟩
    · exact ⟨after, hafter, congrArg (c :: ·) hcs⟩

theorem trimEnd_blank (h : ∀ c ∈ cs, isBlank c = true) : trimEnd cs = [] := by
  induction cs with
  | nil => rfl
  | cons c cs ih =>
    obtain ⟨hc, hcs⟩ := List.forall_mem_cons.1 h
    rw [trimEnd, ih hcs]
    exact if_pos hc

/-- Of a text that does not end with a blank nothing is cut off, and blanks behind it
are. -/
theorem trimEnd_append (hstop : ∀ c ∈ cs.getLast?, isBlank c = false)
    (hafter : ∀ c ∈ after, isBlank c = true) :
    trimEnd (cs ++ after) = cs := by
  induction cs with
  | nil => exact trimEnd_blank hafter
  | cons c cs ih =>
    cases cs with
    | nil =>
      have hc : isBlank c = false := hstop c rfl
      rw [List.cons_append, List.nil_append, trimEnd, trimEnd_blank hafter]
      simp [hc]
    | cons d cs =>
      have htail := ih fun x hx => hstop x (by simpa using hx)
      rw [List.cons_append, trimEnd, htail]

/-- Every text is padded, with the trimmed text as its core. -/
theorem exists_padded (text : List Char) :
    ∃ before after, Padded text before (trim text) after := by
  obtain ⟨after, hafter, hrest⟩ := exists_trimEnd (text.dropWhile isBlank)
  refine ⟨text.takeWhile isBlank, after,
    ⟨?_, ?_, hafter, head?_trim text, getLast?_trimEnd _⟩⟩
  · rw [List.append_assoc, trim, ← hrest, List.takeWhile_append_dropWhile]
  · intro c hc
    exact List.all_eq_true.1 List.all_takeWhile c hc

/-- **The core is the trimmed text.** -/
theorem Padded.trim_eq (h : Padded text before core after) : trim text = core := by
  have hdrop : (core ++ after).dropWhile isBlank = core ++ after ∨ core = [] := by
    cases core with
    | nil => exact Or.inr rfl
    | cons c core => exact Or.inl (List.dropWhile_cons_of_neg (by simp [h.start c rfl]))
  rw [h.text_eq, List.append_assoc, trim, List.dropWhile_append_of_pos h.before_blank]
  rcases hdrop with hdrop | rfl
  · rw [hdrop, trimEnd_append h.stop h.after_blank]
  · refine trimEnd_blank fun c hc => ?_
    exact h.after_blank c (List.dropWhile_subset _ hc)

/-- A text is padded in one way only, if its core is not empty. -/
theorem Padded.unique (h : Padded text before core after)
    (h' : Padded text before' core' after') (hne : core ≠ []) :
    before = before' ∧ core = core' ∧ after = after' := by
  have hcore : core = core' := h.trim_eq.symm.trans h'.trim_eq
  subst hcore
  have htake : ∀ {b a : List Char}, Padded text b core a →
      text.takeWhile isBlank = b := by
    intro b a hp
    obtain ⟨c, rest, rfl⟩ := List.exists_cons_of_ne_nil hne
    have hc : isBlank c = false := hp.start c rfl
    rw [hp.text_eq, List.append_assoc, List.takeWhile_append_of_pos hp.before_blank]
    simp [hc]
  have hbefore : before = before' := (htake h).symm.trans (htake h')
  subst hbefore
  have htext := h.text_eq.symm.trans h'.text_eq
  exact ⟨rfl, rfl, List.append_cancel_left htext⟩

namespace TypeExpr

/-! ## The outermost layer -/

theorem outer_question (inner : List Char) :
    outer (inner ++ ['?']) = .nullable inner := by
  unfold outer
  simp

theorem outer_brackets (inner : List Char) :
    outer ('[' :: (inner ++ [']'])) = .list inner := by
  unfold outer
  simp [List.getLast?_cons]

theorem outer_plain (h : ∀ c ∈ cs, c ≠ '[' ∧ c ≠ ']' ∧ c ≠ '?') : outer cs = .name := by
  unfold outer
  split
  · rename_i hlast
    exact absurd rfl (h '?' (List.mem_of_getLast? hlast)).2.2
  · split
    · exact absurd rfl (h '[' List.mem_cons_self).1
    · rfl

/-- Before a question mark at the end stands the rest of the text. -/
theorem eq_of_outer_nullable (h : outer cs = .nullable inner) : cs = inner ++ ['?'] := by
  unfold outer at h
  split at h
  · rename_i hlast
    cases h
    obtain ⟨front, rfl⟩ := List.getLast?_eq_some_iff.1 hlast
    rw [List.dropLast_concat]
  · split at h
    · split at h <;> cases h
    · cases h

/-- The brackets around an expression are two characters, so there is a text between
them, which may be empty. -/
theorem eq_of_outer_list (h : outer cs = .list inner) : cs = '[' :: (inner ++ [']']) := by
  unfold outer at h
  split at h
  · cases h
  · split at h
    · split at h
      · rename_i hlast
        cases h
        obtain ⟨front, rfl⟩ := List.getLast?_eq_some_iff.1 hlast
        rw [List.dropLast_concat]
      · cases h
    · cases h

end TypeExpr

/-! ## Derivations -/

open TypeExpr

/-- A derivation of a type: the blanks before its core, the rule by which the core is
made, and the blanks behind. -/
inductive Derivation where
  | nullable (before : List Char) (type : Derivation) (after : List Char)
  | list (before : List Char) (elem : Derivation) (after : List Char)
  | name (before : List Char) (text : String) (after : List Char)

namespace Derivation

/-- The expression that was derived. -/
def expr : Derivation → TypeExpr
  | nullable _ d _ => .nullable d.expr
  | list _ d _ => .list d.expr
  | name _ text _ => .name text

end Derivation

/-- **The text is derived by the rules of the grammar.** -/
inductive Derives : List Char → Derivation → Prop
  | nullable {text before inner after : List Char} {d : Derivation} (hd : Derives inner d)
      (hpadded : Padded text before (inner ++ ['?']) after) :
      Derives text (.nullable before d after)
  | list {text before inner after : List Char} {d : Derivation} (hd : Derives inner d)
      (hpadded : Padded text before ('[' :: (inner ++ [']'])) after) :
      Derives text (.list before d after)
  | name {text before after : List Char} {n : String}
      (hspelled : Spelled n) (hlone : n ≠ "'")
      (hpadded : Padded text before n.toList after) : Derives text (.name before n after)

namespace Derives

variable {d d' : Derivation}

/-- **Reading a text that is derived gives the expression that was derived.** -/
theorem read_eq (h : Derives text d) : read text = d.expr := by
  induction h with
  | nullable _ hpadded ih =>
    rw [TypeExpr.read_eq, hpadded.trim_eq, outer_question]
    exact congrArg TypeExpr.nullable ih
  | list _ hpadded ih =>
    rw [TypeExpr.read_eq, hpadded.trim_eq, outer_brackets]
    exact congrArg TypeExpr.list ih
  | @name _ _ _ n hspelled _ hpadded =>
    rw [TypeExpr.read_eq, hpadded.trim_eq, outer_plain hspelled.2.2.2]
    exact congrArg TypeExpr.name String.ofList_toList

/-- At the bottom of a derivation stands a name. -/
theorem leaf_spelled (h : Derives text d) : Spelled d.expr.leaf ∧ d.expr.leaf ≠ "'" := by
  induction h with
  | nullable _ _ ih => exact ih
  | list _ _ ih => exact ih
  | name hspelled hlone _ => exact ⟨hspelled, hlone⟩

/-- **A text has one derivation only.** -/
theorem unique (h : Derives text d) (h' : Derives text d') : d = d' := by
  -- Two derivations read alike, so they end with the same rule.
  have hexpr : d.expr = d'.expr := h.read_eq.symm.trans h'.read_eq
  induction h generalizing d' with
  | @nullable _ _ inner _ d hd hpadded ih =>
    cases h' with
    | nullable hd' hpadded' =>
      obtain ⟨rfl, hcore, rfl⟩ := hpadded.unique hpadded' (by simp)
      obtain rfl := List.append_cancel_right hcore
      rw [ih hd' (hd.read_eq.symm.trans hd'.read_eq)]
    | list _ _ => cases hexpr
    | name _ _ _ => cases hexpr
  | @list _ _ inner _ d hd hpadded ih =>
    cases h' with
    | nullable _ _ => cases hexpr
    | list hd' hpadded' =>
      obtain ⟨rfl, hcore, rfl⟩ := hpadded.unique hpadded' (by simp)
      obtain rfl := List.append_cancel_right (List.cons.inj hcore).2
      rw [ih hd' (hd.read_eq.symm.trans hd'.read_eq)]
    | name _ _ _ => cases hexpr
  | name hspelled _ hpadded =>
    cases h' with
    | nullable _ _ => cases hexpr
    | list _ _ => cases hexpr
    | name _ _ hpadded' =>
      cases hexpr
      obtain ⟨rfl, -, rfl⟩ := hpadded.unique hpadded' (by simpa using hspelled.1)
      rfl

end Derives

/-- What is read from a text is derived from it, if the name at its bottom is one. -/
theorem exists_derives (hspelled : Spelled (read text).leaf)
    (hlone : (read text).leaf ≠ "'") :
    ∃ d, Derives text d := by
  fun_induction read text with
  | case1 text cs inner houter ih =>
    obtain ⟨before, after, hpadded⟩ := exists_padded text
    obtain ⟨d, hd⟩ := ih hspelled hlone
    have hcore : trim text = inner ++ ['?'] := eq_of_outer_nullable houter
    rw [hcore] at hpadded
    exact ⟨_, .nullable hd hpadded⟩
  | case2 text cs inner houter ih =>
    obtain ⟨before, after, hpadded⟩ := exists_padded text
    obtain ⟨d, hd⟩ := ih hspelled hlone
    have hcore : trim text = '[' :: (inner ++ [']']) := eq_of_outer_list houter
    rw [hcore] at hpadded
    exact ⟨_, .list hd hpadded⟩
  | case3 text cs houter =>
    obtain ⟨before, after, hpadded⟩ := exists_padded text
    rw [← String.toList_ofList (l := trim text)] at hpadded
    exact ⟨_, .name hspelled hlone hpadded⟩

/-- **The texts without a problem are those with a derivation.** -/
theorem problem?_eq_none_iff_derives : problem? text = none ↔ ∃ d, Derives text d := by
  rw [problem?_eq_none_iff]
  constructor
  · rintro ⟨hspelled, hlone⟩
    exact exists_derives hspelled hlone
  · rintro ⟨d, hd⟩
    rw [hd.read_eq]
    exact hd.leaf_spelled

/-! ## Types of derivations -/

/-- **The term depicts the expression**: a nullable where it has one, a list where it
has one, and at the bottom what the name there stands for. The cells that stand for
variables are given. -/
inductive Depicts (isVar : CellId → Prop) : TypeExpr → Ty → Prop
  | nullable {e : TypeExpr} {t : Ty} (h : Depicts isVar e t) :
    Depicts isVar (.nullable e) (.of (.nullable t))
  | list {e : TypeExpr} {t : Ty} (h : Depicts isVar e t) :
    Depicts isVar (.list e) (.of (.list .array t))
  | var {n : String} {c : CellId} (hn : n.toList.head? = some '\'') (hc : isVar c) :
      Depicts isVar (.name n) (.of (.cell c))
  | unit : Depicts isVar (.name "unit") (.of (.tuple []))
  | ground {n : String} (hn : n ∈ ["int", "float", "string", "bool"]) :
      Depicts isVar (.name n) (.of (.custom (.ground n) []))
  | constr {n : String} (hvar : n.toList.head? ≠ some '\'') (hunit : n ≠ "unit")
      (hground : n ∉ ["int", "float", "string", "bool"]) :
      Depicts isVar (.name n) (.of (.constr n []))

/-- The store with a new variable, without level and constraints, in a new cell. -/
def withVariable (s : Store) : Store :=
  ⟨s.vars.push ⟨.unbounded, .empty⟩, s.cells.push (.free s.vars.size)⟩

/-- **An expression builds a term that depicts it.** The store stays as it is but for
a variable at the bottom. -/
theorem build_depicts (e : TypeExpr) (s : Store) :
    Depicts (· = s.cells.size) e (e.build s).1 ∧
      (e.build s).2 = if e.isVariable then withVariable s else s := by
  induction e with
  | nullable e ih => exact ⟨.nullable ih.1, ih.2⟩
  | list e ih => exact ⟨.list ih.1, ih.2⟩
  | name n =>
    rw [build, isVariable, leaf]
    by_cases hvar : n.toList.head? = some '\''
    · rw [if_pos hvar, if_pos (decide_eq_true hvar)]
      exact ⟨.var hvar rfl, rfl⟩
    · have hplain : ¬ decide (n.toList.head? = some '\'') = true := by simpa using hvar
      rw [if_neg hvar, if_neg hplain]
      by_cases hunit : n = "unit"
      · rw [if_pos hunit, hunit]
        exact ⟨.unit, rfl⟩
      · rw [if_neg hunit]
        by_cases hground : n ∈ Ty.groundNames
        · rw [if_pos hground]
          exact ⟨.ground hground, rfl⟩
        · rw [if_neg hground]
          exact ⟨.constr hvar hunit hground, rfl⟩

/-- The part of a text between two places. There is none if the places are out of
order or outside of the text. -/
def slice? (cs : List Char) (first last : Nat) : Option (List Char) :=
  if first ≤ last ∧ last ≤ cs.length then some ((cs.take last).drop first) else none

theorem slice?_of_outer_list (h : outer cs = .list inner) :
    slice? cs 1 (cs.length - 1) = some inner := by
  rw [eq_of_outer_list h]
  unfold slice?
  simp

theorem slice?_of_outer_nullable (h : outer cs = .nullable inner) :
    slice? cs 0 (cs.length - 1) = some inner := by
  rw [eq_of_outer_nullable h]
  unfold slice?
  simp

/-- **The type language is its grammar.** A text is accepted just when it has
a derivation; then it has one only, and the type that is read and built from it
depicts what was derived. And of no text whatever, accepted or not, does reading take
a part that is out of range. -/
theorem typeLanguage_exact (text : String) :
    (problem? text.toList = none ↔ ∃ d, Derives text.toList d) ∧
      (∀ d, Derives text.toList d →
        (∀ d', Derives text.toList d' → d' = d) ∧
          ∀ s, Depicts (· = s.cells.size) d.expr ((read text.toList).build s).1 ∧
            ((read text.toList).build s).2 = if d.expr.isVariable then
              withVariable s else s) ∧
      ∀ cs inner, (outer cs = .list inner → slice? cs 1 (cs.length - 1) = some inner) ∧
        (outer cs = .nullable inner → slice? cs 0 (cs.length - 1) = some inner) := by
  refine ⟨problem?_eq_none_iff_derives,
    fun d hd => ⟨fun d' hd' => hd'.unique hd, fun s => ?_⟩, fun cs inner => ?_⟩
  · rw [hd.read_eq]
    exact build_depicts d.expr s
  · exact ⟨slice?_of_outer_list, slice?_of_outer_nullable⟩

/-- Blanks around every part, and within a name; and two lists side by side, which are
no type. -/
theorem typeLanguage_exact_padded :
    let text := "\u3000[ 'any one ?\t] ? "
    (∃ d, Derives text.toList d ∧
        d.expr = .nullable (.list (.nullable (.name "'any one"))) ∧
        (∀ d', Derives text.toList d' → d' = d) ∧
        Depicts (· = 0) d.expr ((read text.toList).build .empty).1 ∧
        ((read text.toList).build .empty).2 = withVariable .empty) ∧
      ¬ ∃ d, Derives "[a][b]".toList d := by
  intro text
  obtain ⟨haccepted, hderived, -⟩ := typeLanguage_exact text
  obtain ⟨d, hd⟩ := haccepted.1 (by decide +kernel)
  obtain ⟨hunique, hbuilt⟩ := hderived d hd
  have hexpr : d.expr = .nullable (.list (.nullable (.name "'any one"))) :=
    hd.read_eq.symm.trans (by decide +kernel)
  refine ⟨⟨d, hd, hexpr, hunique, (hbuilt .empty).1, ?_⟩, fun h => ?_⟩
  · rw [(hbuilt .empty).2, hexpr]
    rfl
  · have hrefused := (typeLanguage_exact "[a][b]").1.2 h
    revert hrefused
    decide +kernel

end TypeGraph.Manifest
