import Mathlib.Data.List.Basic
import Mathlib.Logic.Function.Basic

/-!
# Phrases, and how they are read

A phrase is a word, a list, a tuple or an arrow. A question mark behind a phrase
belongs to the whole of it, except behind an arrow: there it belongs to what the arrow
returns, which extends to the right as far as it can. So words, lists and tuples come
with the number of their marks, and arrows have none.

Main statement: a text is that of at most one phrase (`chars_injective`). For this the
phrase is read from the left, with anything behind it that cannot continue a phrase
(`Stops`), and it turns out where the phrase ends as well (`Unique`).
-/

namespace TypeGraph

/-! ## Words -/

/-- Can the character stand in a word? -/
def isWordChar (c : Char) : Bool := c.isAlphanum || c == '\''

/-- A word is not empty, and made of letters, digits and quotes. -/
structure Word where
  chars : List Char
  ne_nil : chars ≠ []
  all : chars.all isWordChar = true

namespace Word

variable {w w' : Word} {c : Char} {k k' : List Char}

theorem ext (h : w.chars = w'.chars) : w = w' := by
  cases w
  cases w'
  cases h
  rfl

/-- A word does not start with any other character. -/
theorem append_ne (hc : isWordChar c = false) : w.chars ++ k ≠ c :: k' := by
  obtain ⟨first, rest, hchars⟩ := List.exists_cons_of_ne_nil w.ne_nil
  have hfirst : isWordChar first = true :=
    List.all_eq_true.1 w.all first (by simp [hchars])
  intro h
  rw [hchars, List.cons_append] at h
  cases h
  rw [hfirst] at hc
  cases hc

/-- A word ends where the text goes on with another character. -/
theorem takeWhile_append (hk : ∀ c ∈ k.head?, isWordChar c = false) :
    (w.chars ++ k).takeWhile isWordChar = w.chars := by
  have hrest : k.takeWhile isWordChar = [] := by
    cases k with
    | nil => rfl
    | cons c k => simp [hk c rfl]
  rw [List.takeWhile_append_of_pos (List.all_eq_true.1 w.all), hrest, List.append_nil]

theorem append_inj (hk : ∀ c ∈ k.head?, isWordChar c = false)
    (hk' : ∀ c ∈ k'.head?, isWordChar c = false) (h : w.chars ++ k = w'.chars ++ k') :
    w = w' ∧ k = k' := by
  have hchars : w.chars = w'.chars := by
    rw [← takeWhile_append hk, h, takeWhile_append hk']
  rw [hchars] at h
  exact ⟨ext hchars, List.append_cancel_left h⟩

end Word

/-! ## Phrases -/

inductive Phrase (α : Type) where
  | word (a : α) (marks : Nat)
  | list (elem : Phrase α) (marks : Nat)
  /-- A tuple with at least one element. -/
  | tuple (first : Phrase α) (rest : List (Phrase α)) (marks : Nat)
  | arrow (args : List (Phrase α)) (ret : Phrase α)

namespace Phrase

variable {α β : Type}

/-- Replace the words. -/
def map (f : α → β) : Phrase α → Phrase β
  | word a marks => word (f a) marks
  | list elem marks => list (elem.map f) marks
  | tuple first rest marks => tuple (first.map f) (rest.map (map f)) marks
  | arrow args ret => arrow (args.map (map f)) (ret.map f)

/-- The words from left to right. -/
def words : Phrase α → List α
  | word a _ => [a]
  | list elem _ => elem.words
  | tuple first rest _ => first.words ++ rest.flatMap words
  | arrow args ret => args.flatMap words ++ ret.words

/-- Put a question mark behind the phrase. -/
def mark : Phrase α → Phrase α
  | word a marks => word a (marks + 1)
  | list elem marks => list elem (marks + 1)
  | tuple first rest marks => tuple first rest (marks + 1)
  | arrow args ret => arrow args ret.mark

/-- The text of a phrase. -/
def chars : Phrase Word → List Char
  | word w marks => w.chars ++ .replicate marks '?'
  | list elem marks => '[' :: (elem.chars ++ ']' :: .replicate marks '?')
  | tuple first rest marks =>
    '(' :: (List.intercalate [' ', '*', ' '] (first.chars :: rest.map chars) ++
      ')' :: .replicate marks '?')
  | arrow args ret =>
    '(' :: (List.intercalate [',', ' '] (args.map chars) ++ ')' :: ' ' :: '-' ::
      '>' :: ' ' :: ret.chars)

/-- **Induction on phrases.** -/
@[elab_as_elim]
theorem partsInduction {motive : Phrase α → Prop}
    (word : ∀ a marks, motive (word a marks))
    (list : ∀ elem marks, motive elem → motive (list elem marks))
    (tuple : ∀ first rest marks, (∀ p ∈ first :: rest, motive p) →
      motive (tuple first rest marks)) (arrow : ∀ args ret, (∀ p ∈ args, motive p) →
        motive ret → motive (arrow args ret)) : ∀ p, motive p
  | .word a marks => word a marks
  | .list elem marks => list elem marks (partsInduction word list tuple arrow elem)
  | .tuple first rest marks => tuple first rest marks (List.forall_mem_cons.2
      ⟨partsInduction word list tuple arrow first,
        fun p _ => partsInduction word list tuple arrow p⟩)
  | .arrow args ret => arrow args ret (fun p _ => partsInduction word list tuple arrow p)
      (partsInduction word list tuple arrow ret)

theorem words_tuple (first : Phrase α) (rest : List (Phrase α)) (marks : Nat) :
    (tuple first rest marks).words = (first :: rest).flatMap words := by
  rw [words, List.flatMap_cons]

theorem words_arrow (args : List (Phrase α)) (ret : Phrase α) :
    (arrow args ret).words = (args ++ [ret]).flatMap words := by
  rw [words, List.flatMap_append, List.flatMap_singleton]

theorem map_congr {f g : α → β} {p : Phrase α} (h : ∀ a ∈ p.words, f a = g a) :
    p.map f = p.map g := by
  induction p using partsInduction with
  | word a marks => simpa [words, map] using h
  | list elem marks ih =>
    rw [words] at h
    rw [map, map, ih h]
  | tuple first rest marks ih =>
    rw [words, List.forall_mem_append] at h
    obtain ⟨ihfirst, ihrest⟩ := List.forall_mem_cons.1 ih
    rw [map, map, ihfirst h.1, List.map_congr_left fun p hp => ihrest p hp fun a ha => ?_]
    exact h.2 a (List.mem_flatMap.2 ⟨p, hp, ha⟩)
  | arrow args ret ihargs ihret =>
    rw [words, List.forall_mem_append] at h
    rw [map, map, ihret h.2, List.map_congr_left fun p hp => ihargs p hp fun a ha => ?_]
    exact h.1 a (List.mem_flatMap.2 ⟨p, hp, ha⟩)

theorem map_map {γ : Type} (g : β → γ) (f : α → β) (p : Phrase α) :
    (p.map f).map g = p.map fun a => g (f a) := by
  induction p using partsInduction with
  | word a marks => simp only [map]
  | list elem marks ih => simp only [map, ih]
  | tuple first rest marks ih =>
    obtain ⟨ihfirst, ihrest⟩ := List.forall_mem_cons.1 ih
    simpa [map, ihfirst] using ihrest
  | arrow args ret ihargs ihret => simpa [map, ihret] using ihargs

theorem words_map (f : α → β) (p : Phrase α) : (p.map f).words = p.words.map f := by
  induction p using partsInduction with
  | word a marks => simp only [map, words, List.map_singleton]
  | list elem marks ih => simp only [map, words, ih]
  | tuple first rest marks ih =>
    obtain ⟨ihfirst, ihrest⟩ := List.forall_mem_cons.1 ih
    simp only [map, words, List.map_append, ihfirst, List.flatMap_map, List.map_flatMap,
      List.flatMap_congr ihrest]
  | arrow args ret ihargs ihret =>
    simp only [map, words, List.map_append, ihret, List.flatMap_map, List.map_flatMap,
      List.flatMap_congr ihargs]

theorem map_mark (f : α → β) (p : Phrase α) : p.mark.map f = (p.map f).mark := by
  induction p using partsInduction with
  | arrow args ret ihargs ihret => simp only [map, mark, ihret]
  | _ => simp only [map, mark]

theorem words_mark (p : Phrase α) : p.mark.words = p.words := by
  induction p using partsInduction with
  | arrow args ret ihargs ihret => simp only [words, mark, ihret]
  | _ => simp only [words, mark]

/-- A mark is written behind all of a phrase. -/
theorem chars_mark (p : Phrase Word) : p.mark.chars = p.chars ++ ['?'] := by
  induction p using partsInduction with
  | arrow args ret ihargs ihret => simp [mark, chars, ihret]
  | _ => simp [mark, chars, List.replicate_succ']

/-! ## Reading -/

variable {p q : Phrase Word} {ps qs : List (Phrase Word)}
  {k k' sep sep' : List Char} {m n : Nat}

/-- The text cannot continue a phrase: it starts with no character of a word, no mark,
and not as an arrow does. -/
structure Stops (k : List Char) : Prop where
  word : ∀ c ∈ k.head?, isWordChar c = false
  mark : ∀ c ∈ k.head?, c ≠ '?'
  arrow : ¬[' ', '-'] <+: k

/-- The phrase can be told from all others, and its end found, whatever stands behind
it and cannot continue it. -/
def Unique (p : Phrase Word) : Prop :=
  ∀ q k k', Stops k → Stops k' → p.chars ++ k = q.chars ++ k' → p = q ∧ k = k'

/-- What stands between elements. -/
def IsSeparator (sep : List Char) : Prop := sep = [' ', '*', ' '] ∨ sep = [',', ' ']

theorem Stops.ne_mark (hk : Stops k) : k ≠ '?' :: k' := by
  rintro rfl
  exact hk.mark '?' rfl rfl

theorem Stops.ne_arrow (hk : Stops k) : k ≠ ' ' :: '-' :: k' := by
  rintro rfl
  exact hk.arrow ⟨k', rfl⟩

theorem stops_nil : Stops [] := ⟨by simp, by simp, by simp⟩

theorem stops_bracket (k : List Char) : Stops (']' :: k) :=
  ⟨by simp; decide, by simp, by simp⟩

theorem stops_paren (k : List Char) : Stops (')' :: k) :=
  ⟨by simp; decide, by simp, by simp⟩

theorem stops_separator (hsep : IsSeparator sep) (k : List Char) : Stops (sep ++ k) := by
  rcases hsep with rfl | rfl <;> exact ⟨by simp; decide, by simp, by simp⟩

/-- Marks are all counted. -/
theorem marks_inj (hk : Stops k) (hk' : Stops k')
    (h : List.replicate m '?' ++ k = List.replicate n '?' ++ k') :
    m = n ∧ k = k' := by
  induction m generalizing n with
  | zero =>
    cases n with
    | zero => exact ⟨rfl, h⟩
    | succ n => exact absurd h hk.ne_mark
  | succ m ih =>
    cases n with
    | zero => exact absurd h.symm hk'.ne_mark
    | succ n =>
      obtain ⟨rfl, hrest⟩ := ih (List.cons.inj h).2
      exact ⟨rfl, hrest⟩

theorem marks_word (hk : Stops k) (n : Nat) :
    ∀ c ∈ (List.replicate n '?' ++ k).head?, isWordChar c = false := by
  cases n with
  | zero => exact hk.word
  | succ n => simp [List.replicate_succ]; decide

theorem marks_ne_arrow (hk : Stops k) (n : Nat) :
    List.replicate n '?' ++ k ≠ ' ' :: '-' :: k' := by
  cases n with
  | zero => exact hk.ne_arrow
  | succ n => simp [List.replicate_succ]

/-- What follows the first of several elements. -/
def others (sep : List Char) (ps : List (Phrase Word)) : List Char :=
  ps.flatMap fun p => sep ++ p.chars

theorem intercalate_cons (sep : List Char) (p : Phrase Word) (ps : List (Phrase Word)) :
    List.intercalate sep ((p :: ps).map chars) = p.chars ++ others sep ps := by
  induction ps generalizing p with
  | nil => simp [others]
  | cons q ps ih =>
    rw [List.map_cons, List.map_cons, List.intercalate_cons_cons, ← List.map_cons, ih]
    simp [others]

theorem stops_others (hsep : IsSeparator sep) (ps : List (Phrase Word)) (k : List Char) :
    Stops (others sep ps ++ ')' :: k) := by
  cases ps with
  | nil => exact stops_paren k
  | cons p ps =>
    rw [others, List.flatMap_cons, List.append_assoc, List.append_assoc]
    exact stops_separator hsep _

/-- Elements behind separators can be told from all others, if each of them can. -/
theorem others_inj (hsep : IsSeparator sep) (hsep' : IsSeparator sep')
    (hps : ∀ p ∈ ps, Unique p)
    (h : others sep ps ++ ')' :: k = others sep' qs ++ ')' :: k') : ps = qs ∧ k = k' := by
  have hne : ∀ {sep x y : List Char}, IsSeparator sep → ')' :: x ≠ sep ++ y := by
    rintro sep x y (rfl | rfl) <;> simp
  induction ps generalizing qs with
  | nil =>
    cases qs with
    | nil => exact ⟨rfl, (List.cons.inj h).2⟩
    | cons q qs =>
      rw [others, others, List.flatMap_cons, List.append_assoc, List.append_assoc] at h
      exact absurd h (hne hsep')
  | cons p ps ih =>
    obtain ⟨hp, hrest⟩ := List.forall_mem_cons.1 hps
    cases qs with
    | nil =>
      rw [others, others, List.flatMap_cons, List.append_assoc, List.append_assoc] at h
      exact absurd h.symm (hne hsep)
    | cons q qs =>
      rw [others, others, List.flatMap_cons, List.flatMap_cons] at h
      simp only [List.append_assoc] at h
      have hcancel : p.chars ++ (others sep ps ++ ')' :: k) =
          q.chars ++ (others sep' qs ++ ')' :: k') := by
        rcases hsep with rfl | rfl <;> rcases hsep' with rfl | rfl
        · exact List.append_cancel_left h
        · simp at h
        · simp at h
        · exact List.append_cancel_left h
      obtain ⟨rfl, htail⟩ :=
        hp q _ _ (stops_others hsep ps k) (stops_others hsep' qs k') hcancel
      obtain ⟨rfl, hk⟩ := ih hrest htail
      exact ⟨rfl, hk⟩

/-- A phrase does not start with a closing parenthesis. -/
theorem chars_append_ne (p : Phrase Word) : p.chars ++ k ≠ ')' :: k' := by
  cases p with
  | word w marks =>
    rw [chars, List.append_assoc]
    exact w.append_ne (by decide)
  | list | tuple | arrow => simp [chars]

/-- **Elements in parentheses can be told from all others**, if each of them can.
There is only one separator unless there is at most one element. -/
theorem elements_inj (hsep : IsSeparator sep) (hsep' : IsSeparator sep')
    (hps : ∀ p ∈ ps, Unique p)
    (h : List.intercalate sep (ps.map chars) ++ ')' :: k =
      List.intercalate sep' (qs.map chars) ++ ')' :: k') :
    ps = qs ∧ k = k' := by
  cases ps with
  | nil =>
    cases qs with
    | nil => exact ⟨rfl, (List.cons.inj h).2⟩
    | cons q qs =>
      rw [intercalate_cons, List.append_assoc] at h
      exact absurd h.symm q.chars_append_ne
  | cons p ps =>
    cases qs with
    | nil =>
      rw [intercalate_cons, List.append_assoc] at h
      exact absurd h p.chars_append_ne
    | cons q qs =>
      obtain ⟨hp, hrest⟩ := List.forall_mem_cons.1 hps
      rw [intercalate_cons, intercalate_cons, List.append_assoc, List.append_assoc] at h
      obtain ⟨rfl, htail⟩ :=
        hp q _ _ (stops_others hsep ps k) (stops_others hsep' qs k') h
      obtain ⟨rfl, hk⟩ := others_inj hsep hsep' hrest htail
      exact ⟨rfl, hk⟩

theorem unique_word (w : Word) (marks : Nat) : Unique (word w marks) := by
  intro q k k' hk hk' h
  rw [chars, List.append_assoc] at h
  cases q with
  | word w' marks' =>
    rw [chars, List.append_assoc] at h
    obtain ⟨rfl, hmarks⟩ :=
      Word.append_inj (marks_word hk marks) (marks_word hk' marks') h
    obtain ⟨rfl, hk⟩ := marks_inj hk hk' hmarks
    exact ⟨rfl, hk⟩
  | list | tuple | arrow =>
    rw [chars] at h
    exact absurd h (w.append_ne (by decide))

theorem unique_list (hp : Unique p) (marks : Nat) : Unique (list p marks) := by
  intro q k k' hk hk' h
  rw [chars] at h
  cases q with
  | word w marks' =>
    rw [chars, List.append_assoc] at h
    exact absurd h.symm (w.append_ne (by decide))
  | list q marks' =>
    rw [chars, List.cons_append, List.cons_append, List.append_assoc,
      List.append_assoc] at h
    obtain ⟨rfl, hclosed⟩ :=
      hp q _ _ (stops_bracket _) (stops_bracket _) (List.cons.inj h).2
    obtain ⟨rfl, hk⟩ := marks_inj hk hk' (List.cons.inj hclosed).2
    exact ⟨rfl, hk⟩
  | tuple | arrow => simp [chars] at h

/-- A tuple ends with its parenthesis and its marks, and an arrow goes on. -/
theorem unique_tuple (hps : ∀ x ∈ p :: ps, Unique x) (marks : Nat) :
    Unique (tuple p ps marks) := by
  intro q k k' hk hk' h
  rw [chars, ← List.map_cons] at h
  cases q with
  | word w marks' =>
    rw [chars, List.append_assoc] at h
    exact absurd h.symm (w.append_ne (by decide))
  | list => simp [chars] at h
  | tuple q qs marks' =>
    rw [chars, ← List.map_cons, List.cons_append, List.cons_append, List.append_assoc,
      List.append_assoc] at h
    obtain ⟨helems, hclosed⟩ := elements_inj (.inl rfl) (.inl rfl) hps (List.cons.inj h).2
    obtain ⟨rfl, hk⟩ := marks_inj hk hk' hclosed
    cases helems
    exact ⟨rfl, hk⟩
  | arrow qs q =>
    rw [chars, List.cons_append, List.cons_append, List.append_assoc,
      List.append_assoc] at h
    obtain ⟨-, hclosed⟩ := elements_inj (.inl rfl) (.inr rfl) hps (List.cons.inj h).2
    exact absurd hclosed (marks_ne_arrow hk marks)

theorem unique_arrow (hps : ∀ p ∈ ps, Unique p) (hp : Unique p) :
    Unique (arrow ps p) := by
  intro q k k' hk hk' h
  rw [chars] at h
  cases q with
  | word w marks' =>
    rw [chars, List.append_assoc] at h
    exact absurd h.symm (w.append_ne (by decide))
  | list => simp [chars] at h
  | tuple q qs marks' =>
    rw [chars, ← List.map_cons, List.cons_append, List.cons_append, List.append_assoc,
      List.append_assoc] at h
    obtain ⟨-, hclosed⟩ := elements_inj (.inr rfl) (.inl rfl) hps (List.cons.inj h).2
    exact absurd hclosed.symm (marks_ne_arrow hk' marks')
  | arrow qs q =>
    rw [chars, List.cons_append, List.cons_append, List.append_assoc,
      List.append_assoc] at h
    obtain ⟨rfl, hclosed⟩ := elements_inj (.inr rfl) (.inr rfl) hps (List.cons.inj h).2
    have hret : p.chars ++ k = q.chars ++ k' := by simpa using hclosed
    obtain ⟨rfl, hk⟩ := hp q k k' hk hk' hret
    exact ⟨rfl, hk⟩

theorem unique (p : Phrase Word) : Unique p := by
  induction p using partsInduction with
  | word w marks => exact unique_word w marks
  | list elem marks ih => exact unique_list ih marks
  | tuple first rest marks ih => exact unique_tuple ih marks
  | arrow args ret ihargs ihret => exact unique_arrow ihargs ihret

/-- **A text is that of at most one phrase.** -/
theorem chars_injective : Function.Injective chars := by
  intro p q h
  exact (unique p q [] [] stops_nil stops_nil (by rw [h])).1

end Phrase

end TypeGraph
