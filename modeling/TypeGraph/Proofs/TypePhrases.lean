import TypeGraph.Proofs.Expansion
import TypeGraph.Proofs.Phrases
import TypeGraph.Proofs.VariableNames

/-!
# Types as phrases

The words of a type are its variables, its ground types and the unit type.
`Outline.phrase` writes the outline of a type as a phrase, and `Phrase.outline` reads
it back. What is read back is not always what was written: a mark that stood on an
arrow comes back on what the arrow returns. Apart from that the two are inverse
(`phrase_outline`), and both go along with renamings of variables.
-/

namespace TypeGraph

/-! ## Words of types -/

/-- What a word of a type stands for. -/
inductive Atom where
  | var (v : VarId)
  | ground (name : { name // name ∈ Ty.groundNames })
  | unit

namespace Names

theorem isWordChar_of_isDigit {c : Char} (h : c.isDigit = true) :
    isWordChar c = true := by
  simp [isWordChar, Char.isAlphanum, h]

theorem isWordChar_letter (i : Nat) : isWordChar (letter i) = true := by
  have hlt : i % 26 < 26 := Nat.mod_lt _ (by decide)
  have hcode : 97 ≤ (letter i).toNat ∧ (letter i).toNat ≤ 122 := by
    rw [toNat_letter]; omega
  have hlower : (letter i).isLower = true :=
    Bool.and_eq_true_iff.2 ⟨decide_eq_true hcode.1, decide_eq_true hcode.2⟩
  have halpha : (letter i).isAlpha = true := Bool.or_eq_true_iff.2 (.inr hlower)
  simp [isWordChar, Char.isAlphanum, halpha]

theorem isWordChar_suffix (i : Nat) : (suffix i).all isWordChar = true := by
  rw [suffix]
  split
  · rfl
  · exact List.all_eq_true.2 fun c hc =>
      isWordChar_of_isDigit (Nat.isDigit_of_mem_toDigits (by decide) (by decide) hc)

/-- The name of a place, as a word. -/
def wordOf (i : Nat) : Word where
  chars := (nameOf i).toList
  ne_nil := by simp [toList_nameOf]
  all := by
    rw [toList_nameOf, List.all_cons, List.all_cons, isWordChar_letter, isWordChar_suffix]
    rfl

end Names

namespace Atom

/-- Replace the variables. -/
def rename (ρ : VarId → VarId) : Atom → Atom
  | var v => var (ρ v)
  | ground name => ground name
  | unit => unit

def vars : Atom → List VarId
  | var v => [v]
  | ground _ | unit => []

def outline : Atom → Outline
  | var v => .var v
  | ground name => .node (.custom name) [] []
  | unit => .node .tuple [] []

theorem groundNames_word :
    ∀ name ∈ Ty.groundNames, name.toList ≠ [] ∧ name.toList.all isWordChar = true := by
  decide

/-- The word of an atom, given the variables in the order in which they are named. -/
def word (names : Names) : Atom → Word
  | var v => Names.wordOf (names.idxOf v)
  | ground name =>
    ⟨name.1.toList, (groundNames_word name.1 name.2).1,
      (groundNames_word name.1 name.2).2⟩
  | unit => ⟨['u', 'n', 'i', 't'], by decide, by decide⟩

theorem toList_ne_name :
    ∀ word ∈ "unit" :: Ty.groundNames, ∀ i, word.toList ≠ (Names.nameOf i).toList := by
  intro word hword i
  have hquote : ∀ word ∈ "unit" :: Ty.groundNames, word.toList.head? ≠ some '\'' := by
    decide
  intro heq
  refine hquote word hword ?_
  rw [heq, Names.toList_nameOf]
  rfl

theorem toList_ne_unit :
    ∀ name ∈ Ty.groundNames, name.toList ≠ ['u', 'n', 'i', 't'] := by decide

/-- **Words tell atoms apart**, up to the variables that two orders have at the same
place. -/
theorem word_inj {names names' : Names} {x y : Atom} (h : x.word names = y.word names') :
    (∃ v w, x = var v ∧ y = var w ∧ names.idxOf v = names'.idxOf w) ∨
      x = y ∧ x.vars = [] := by
  have hchars := congrArg Word.chars h
  cases x with
  | var v =>
    cases y with
    | var w =>
      exact .inl ⟨v, w, rfl, rfl, Names.nameOf_injective (String.toList_inj.1 hchars)⟩
    | ground name =>
      exact absurd hchars.symm (toList_ne_name name (List.mem_cons_of_mem _ name.2) _)
    | unit => exact absurd hchars.symm (toList_ne_name "unit" List.mem_cons_self _)
  | ground name =>
    cases y with
    | var w => exact absurd hchars (toList_ne_name name (List.mem_cons_of_mem _ name.2) _)
    | ground name' =>
      exact .inr ⟨congrArg ground (Subtype.ext (String.toList_inj.1 hchars)), rfl⟩
    | unit => exact absurd hchars (toList_ne_unit name name.2)
  | unit =>
    cases y with
    | var w => exact absurd hchars (toList_ne_name "unit" List.mem_cons_self _)
    | ground name => exact absurd hchars.symm (toList_ne_unit name name.2)
    | unit => exact .inr ⟨rfl, rfl⟩

/-- An atom without variables is renamed to itself. -/
theorem renames_self {R : VarId → VarId → Prop} {x : Atom} (h : x.vars = []) :
    Outline.Renames R x.outline x.outline := by
  cases x with
  | var v => cases h
  | ground name => exact Outline.renames_node_iff.2 ⟨rfl, .nil, .nil⟩
  | unit => exact Outline.renames_node_iff.2 ⟨rfl, .nil, .nil⟩

end Atom

/-! ## Outlines and phrases -/

/-- The phrase of a node, given those of its parts. -/
def Label.phrase : Label → List (Phrase Atom) → Phrase Atom
  | custom name, _ =>
    if h : name ∈ Ty.groundNames then .word (.ground ⟨name, h⟩) 0 else .word .unit 0
  | tuple, first :: rest => .tuple first rest 0
  | list .array, [elem] => .list elem 0
  | nullable, [p] => p.mark
  | arrow _, ps => .arrow ps.dropLast (ps.getLastD (.word .unit 0))
  | _, _ => .word .unit 0

theorem Label.phrase_map (label : Label) (ps : List (Phrase Atom)) (ρ : VarId → VarId) :
    label.phrase (ps.map (Phrase.map (Atom.rename ρ))) =
      (label.phrase ps).map (Atom.rename ρ) := by
  cases label with
  | custom name =>
    rw [phrase, phrase]
    split <;> simp only [Phrase.map, Atom.rename]
  | tuple => cases ps <;> simp [phrase, Phrase.map, Atom.rename]
  | list repr =>
    rcases ps with _ | ⟨p, _ | ⟨q, ps⟩⟩ <;> cases repr <;>
      simp [phrase, Phrase.map, Atom.rename]
  | nullable =>
    rcases ps with _ | ⟨p, _ | ⟨q, ps⟩⟩ <;>
      simp [phrase, Phrase.map, Phrase.map_mark, Atom.rename]
  | arrow args =>
    rcases List.eq_nil_or_concat ps with rfl | ⟨ps, p, rfl⟩ <;>
      simp [phrase, Phrase.map, Atom.rename]
  | _ => simp [phrase, Phrase.map, Atom.rename]

namespace Outline

/-- The phrase of an outline. An outline of any other kind is not told from the unit
type. -/
def phrase : Outline → Phrase Atom
  | gap => .word .unit 0
  | var v => .word (.var v) 0
  | node label _ parts => label.phrase (parts.map phrase)

/-- **Phrases go along with renamings.** -/
theorem phrase_rename (ρ : VarId → VarId) (o : Outline) :
    (o.rename ρ).phrase = o.phrase.map (Atom.rename ρ) := by
  induction o using partsInduction with
  | gap => simp only [rename, phrase, Phrase.map, Atom.rename]
  | var v => simp only [rename, phrase, Phrase.map, Atom.rename]
  | node label binders parts ih =>
    simp only [rename, phrase, List.map_map]
    rw [← Label.phrase_map, List.map_map]
    exact congrArg label.phrase (List.map_congr_left ih)

end Outline

namespace Phrase

/-- The outline with nullables around it. -/
def marked : Nat → Outline → Outline
  | 0, o => o
  | n + 1, o => .node .nullable [] [marked n o]

/-- The outline that a phrase is read as. -/
def outline : Phrase Atom → Outline
  | word a marks => marked marks a.outline
  | list elem marks => marked marks (.node (.list .array) [] [elem.outline])
  | tuple first rest marks =>
    marked marks (.node .tuple [] (first.outline :: rest.map outline))
  | arrow args ret =>
    .node (.arrow (args.map fun _ => (false, ""))) [] (args.map outline ++ [ret.outline])

/-- Nullables are written as marks. -/
theorem phrase_marked {o : Outline} {p : Nat → Phrase Atom} (h : o.phrase = p 0)
    (hmark : ∀ n, (p n).mark = p (n + 1)) (n : Nat) : (marked n o).phrase = p n := by
  induction n with
  | zero => exact h
  | succ n ih =>
    simp only [marked, Outline.phrase, List.map_singleton, ih]
    exact hmark n

/-- **What a phrase is read as is written as the phrase.** -/
theorem phrase_outline (p : Phrase Atom) : p.outline.phrase = p := by
  induction p using partsInduction with
  | word a marks =>
    have hatom : a.outline.phrase = .word a 0 := by
      cases a with
      | var v => simp only [Atom.outline, Outline.phrase]
      | ground name => simp [Atom.outline, Outline.phrase, Label.phrase, name.2]
      | unit => simp [Atom.outline, Outline.phrase, Label.phrase]
    rw [outline]
    exact phrase_marked hatom (fun _ => by simp only [mark]) marks
  | list elem marks ih =>
    rw [outline]
    refine phrase_marked (p := fun n => .list elem n) ?_
      (fun _ => by simp only [mark]) marks
    simp [Outline.phrase, Label.phrase, ih]
  | tuple first rest marks ih =>
    obtain ⟨ihfirst, ihrest⟩ := List.forall_mem_cons.1 ih
    rw [outline]
    refine phrase_marked (p := fun n => .tuple first rest n) ?_
      (fun _ => by simp only [mark]) marks
    have hrest : rest.map (Outline.phrase ∘ outline) = rest :=
      (List.map_congr_left ihrest).trans (List.map_id _)
    simp [Outline.phrase, Label.phrase, ihfirst, hrest]
  | arrow args ret ihargs ihret =>
    have hargs : args.map (Outline.phrase ∘ outline) = args :=
      (List.map_congr_left ihargs).trans (List.map_id _)
    simp [outline, Outline.phrase, Label.phrase, ihret, hargs]

theorem vars_marked (n : Nat) (o : Outline) : (marked n o).vars = o.vars := by
  induction n with
  | zero => rfl
  | succ n ih => simp [marked, Outline.vars, ih]

/-- What a phrase is read as has the variables of its words. -/
theorem vars_outline (p : Phrase Atom) : p.outline.vars = p.words.flatMap Atom.vars := by
  induction p using partsInduction with
  | word a marks =>
    cases a <;> simp [outline, vars_marked, Atom.outline, Outline.vars, words, Atom.vars]
  | list elem marks ih => simp [outline, vars_marked, Outline.vars, words, ih]
  | tuple first rest marks ih =>
    obtain ⟨ihfirst, ihrest⟩ := List.forall_mem_cons.1 ih
    simp [outline, vars_marked, Outline.vars, words, ihfirst,
      List.flatMap_map, List.flatMap_assoc, List.flatMap_congr ihrest]
  | arrow args ret ihargs ihret =>
    simp [outline, Outline.vars, words, ihret, List.flatMap_map, List.flatMap_assoc,
      List.flatMap_congr ihargs]

/-- A mark on anything but an arrow is a nullable. -/
theorem outline_mark {p : Phrase Atom} (h : ∀ args ret, p ≠ .arrow args ret) :
    p.mark.outline = .node .nullable [] [p.outline] := by
  cases p with
  | arrow args ret => exact absurd rfl (h args ret)
  | _ => simp only [mark, outline, marked]

/-- Only an arrow is read as one. -/
theorem eq_arrow_of_outline {p : Phrase Atom} {labels : List (Bool × String)}
    {vs : List VarId} {parts : List Outline}
    (h : p.outline = .node (.arrow labels) vs parts) :
    ∃ args ret, p = .arrow args ret := by
  have hmarked : ∀ (n : Nat) (o : Outline), marked n o = .node (.arrow labels) vs parts →
      o = .node (.arrow labels) vs parts := by
    intro n o ho
    cases n with
    | zero => exact ho
    | succ n => simp [marked] at ho
  cases p with
  | arrow args ret => exact ⟨args, ret, rfl⟩
  | word a marks =>
    rw [outline] at h
    cases a <;> cases hmarked _ _ h
  | list | tuple =>
    rw [outline] at h
    cases hmarked _ _ h

variable {R : VarId → VarId → Prop} {f g : Atom → Word}

theorem renames_marked {o o' : Outline} (h : Outline.Renames R o o') (n : Nat) :
    Outline.Renames R (marked n o) (marked n o') := by
  induction n with
  | zero => exact h
  | succ n ih => exact Outline.renames_node_iff.2 ⟨rfl, .nil, .cons ih .nil⟩

/-- The renamings of single phrases make one of lists of phrases. -/
theorem renames_outlines {ps qs : List (Phrase Atom)}
    (h : ps.map (map f) = qs.map (map g))
    (hparts : ∀ p ∈ ps, ∀ q ∈ qs, p.map f = q.map g →
      Outline.Renames R p.outline q.outline) :
    List.Forall₂ (Outline.Renames R) (ps.map outline) (qs.map outline) := by
  induction ps generalizing qs with
  | nil =>
    cases List.map_eq_nil_iff.1 h.symm
    exact .nil
  | cons p ps ih =>
    cases qs with
    | nil => cases h
    | cons q qs =>
      rw [List.map_cons, List.map_cons, List.cons.injEq] at h
      refine .cons (hparts p List.mem_cons_self q List.mem_cons_self h.1)
        (ih h.2 fun p hp q hq => ?_)
      exact hparts p (List.mem_cons_of_mem _ hp) q (List.mem_cons_of_mem _ hq)

/-- **Phrases with the same words are renamed to each other**, if atoms with the same
word are. -/
theorem renames_outline {p q : Phrase Atom} (h : p.map f = q.map g)
    (hwords : ∀ x ∈ p.words, ∀ y ∈ q.words, f x = g y →
      Outline.Renames R x.outline y.outline) :
    Outline.Renames R p.outline q.outline := by
  induction p using partsInduction generalizing q with
  | word x marks =>
    cases q with
    | word y marks' =>
      simp only [map, word.injEq] at h
      obtain ⟨hxy, rfl⟩ := h
      rw [outline, outline]
      exact renames_marked (hwords x (by simp [words]) y (by simp [words]) hxy) marks
    | _ => simp [map] at h
  | list p marks ih =>
    cases q with
    | list q marks' =>
      simp only [map, list.injEq] at h
      obtain ⟨hpq, rfl⟩ := h
      rw [words, words] at hwords
      rw [outline, outline]
      exact renames_marked (Outline.renames_node_iff.2
        ⟨rfl, .nil, .cons (ih hpq hwords) .nil⟩) marks
    | _ => simp [map] at h
  | tuple p ps marks ih =>
    cases q with
    | tuple q qs marks' =>
      simp only [map, tuple.injEq] at h
      obtain ⟨hpq, hrest, rfl⟩ := h
      have hall : (p :: ps).map (map f) = (q :: qs).map (map g) := by
        rw [List.map_cons, List.map_cons, hpq, hrest]
      rw [words_tuple, words_tuple] at hwords
      rw [outline, outline]
      refine renames_marked (Outline.renames_node_iff.2 ⟨rfl, .nil, ?_⟩) marks
      refine renames_outlines hall fun x hx y hy hxy => ih x hx hxy fun a ha b hb => ?_
      exact hwords a (List.mem_flatMap.2 ⟨x, hx, ha⟩) b (List.mem_flatMap.2 ⟨y, hy, hb⟩)
    | _ => simp [map] at h
  | arrow ps p ihargs ihret =>
    cases q with
    | arrow qs q =>
      simp only [map, arrow.injEq] at h
      obtain ⟨hargs, hret⟩ := h
      have hall : (ps ++ [p]).map (map f) = (qs ++ [q]).map (map g) := by
        rw [List.map_append, List.map_append, hargs, List.map_singleton,
          List.map_singleton, hret]
      have hlabel : (ps.map fun _ => (false, "")) = qs.map fun _ => (false, "") := by
        have hlength := congrArg List.length hargs
        rw [List.length_map, List.length_map] at hlength
        rw [List.map_const', List.map_const', hlength]
      rw [words_arrow, words_arrow] at hwords
      rw [outline, outline, ← List.map_singleton, ← List.map_singleton, ← List.map_append,
        ← List.map_append, hlabel]
      refine Outline.renames_node_iff.2 ⟨rfl, .nil,
        renames_outlines hall fun x hx y hy hxy => ?_⟩
      have ih := List.forall_mem_append.2 ⟨ihargs, List.forall_mem_singleton.2 ihret⟩
      refine ih x hx hxy fun a ha b hb => ?_
      exact hwords a (List.mem_flatMap.2 ⟨x, hx, ha⟩) b (List.mem_flatMap.2 ⟨y, hy, hb⟩)
    | _ => simp [map] at h

end Phrase

end TypeGraph
