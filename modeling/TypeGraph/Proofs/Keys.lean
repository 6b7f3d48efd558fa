import TypeGraph.Constraint
import Mathlib.Data.List.Nodup
import Mathlib.Data.List.Perm.Subperm
import Mathlib.Data.String.Basic

/-!
# The keys of a set of records

A `Keyed` set is a list in strictly increasing order of its keys, so no key comes
twice, and two sets with equally many keys have the same ones as soon as the one has
all keys of the other. That is what the comparison of constraint sets rests on.

Such a set is a finite map: it is determined by what is found under each key
(`Keyed.eq_of_find?`), and for the two ways to add a record this says which record is
found afterwards (`Keyed.find?_insert`, `Keyed.find?_insertNew`).
-/

namespace TypeGraph

namespace Keyed

variable {α : Type} {key : α → String}

/-- Sets are told apart by their lists. -/
theorem eq_of_items {m m' : Keyed key} (h : m.items = m'.items) : m = m' := by
  cases m
  cases m'
  cases h
  rfl

theorem keys_nodup (m : Keyed key) : m.keys.Nodup := by
  refine List.pairwise_map.2 (m.sorted.imp fun hlt heq => ?_)
  rw [heq] at hlt
  exact absurd hlt (String.lt_irrefl _)

theorem contains_iff (m : Keyed key) (k : String) : m.contains k = true ↔ k ∈ m.keys := by
  rw [contains, find?, List.find?_isSome, keys, List.mem_map]
  simp

/-- Where no key comes twice, the record that is found under a key is the one that has
it. -/
theorem find?_iff_of_nodup {l : List α} (hl : (l.map key).Nodup) (k : String) (a : α) :
    l.find? (key · == k) = some a ↔ a ∈ l ∧ key a = k := by
  constructor
  · intro h
    exact ⟨List.mem_of_find?_eq_some h, by simpa using List.find?_some h⟩
  · rintro ⟨ha, rfl⟩
    obtain ⟨b, hb⟩ : ∃ b, l.find? (key · == key a) = some b :=
      Option.isSome_iff_exists.1 (List.find?_isSome.2 ⟨a, ha, beq_self_eq_true (key a)⟩)
    have hkey : key b = key a := by simpa using List.find?_some hb
    rw [hb, List.inj_on_of_nodup_map hl (List.mem_of_find?_eq_some hb) ha hkey]

theorem find?_eq_some_iff (m : Keyed key) (k : String) (a : α) :
    m.find? k = some a ↔ a ∈ m.items ∧ key a = k :=
  find?_iff_of_nodup m.keys_nodup k a

/-- **A set is the map from its keys to its records**: they can be ordered in one way
only. -/
theorem eq_of_find? {m m' : Keyed key} (h : ∀ k, m.find? k = m'.find? k) : m = m' := by
  have hmem : ∀ a, a ∈ m.items ↔ a ∈ m'.items := by
    intro a
    have ha := find?_eq_some_iff m (key a) a
    rw [h, find?_eq_some_iff] at ha
    simpa using ha.symm
  have hperm : m.items.Perm m'.items :=
    (List.perm_ext_iff_of_nodup (.of_map key m.keys_nodup) (.of_map key m'.keys_nodup)).2
      hmem
  exact eq_of_items <| hperm.eq_of_pairwise
    (fun _ _ _ _ hab hba => absurd (String.lt_trans hab hba) (String.lt_irrefl _))
      m.sorted m'.sorted

theorem find?_place (a : α) (k : String) (l : List α) :
    (place key (fun _ => a) a l).find? (key · == k) = if key a = k then some a
      else l.find? (key · == k) := by
  induction l with
  | nil => by_cases hk : key a = k <;> simp [place, hk]
  | cons b rest ih =>
    rw [place]
    split
    · by_cases hk : key a = k <;> simp [hk]
    · split
      · rename_i heq
        by_cases hk : key a = k <;> simp [hk, ← heq]
      · rename_i hne
        rw [List.find?_cons, List.find?_cons, ih]
        by_cases hb : key b = k
        · have hk : key a ≠ k := fun hk => hne (hk.trans hb.symm)
          simp [hb, hk]
        · rw [beq_eq_false_iff_ne.2 hb]

/-- A record that takes the place of its key is found by it, and the others are found
as before. -/
theorem find?_insert (m : Keyed key) (a : α) (k : String) :
    (m.insert a).find? k = if key a = k then some a else m.find? k :=
  find?_place a k m.items

/-- A record that is added only if its key is new takes the place of no other. -/
theorem mem_items_insertNew {m : Keyed key} {b : α} (h : b ∈ m.items) (a : α) :
    b ∈ (m.insertNew a).items := by
  have hplace : ∀ l : List α, b ∈ l → b ∈ place key id a l := by
    intro l hb
    induction l with
    | nil => cases hb
    | cons c rest ih =>
      rw [place]
      split
      · exact List.mem_cons_of_mem _ hb
      · split
        · exact hb
        · rcases List.mem_cons.1 hb with rfl | hb
          · exact List.mem_cons_self
          · exact List.mem_cons_of_mem _ (ih hb)
  exact hplace m.items h

theorem mem_keys_insertNew (m : Keyed key) (a : α) (k : String) :
    k ∈ (m.insertNew a).keys ↔ k = key a ∨ k ∈ m.keys :=
  key_mem_place fun _ _ => rfl

/-- A record with a new key joins those that are there. -/
theorem insertNew_perm {m : Keyed key} {a : α} (h : key a ∉ m.keys) :
    (m.insertNew a).items.Perm (a :: m.items) := by
  have hplace : ∀ l : List α, key a ∉ l.map key → (place key id a l).Perm (a :: l) := by
    intro l hl
    induction l with
    | nil => exact .refl _
    | cons b rest ih =>
      rw [List.map_cons, List.mem_cons, not_or] at hl
      rw [place]
      split
      · exact .refl _
      · rw [if_neg hl.1]
        exact ((ih hl.2).cons b).trans (.swap a b rest)
  exact hplace m.items h

/-- **The first record of a key stays.** -/
theorem find?_insertNew (m : Keyed key) (a : α) (k : String) :
    (m.insertNew a).find? k = (m.find? k).or ([a].find? (key · == k)) := by
  cases h : m.find? k with
  | some b =>
    obtain ⟨hb, hkey⟩ := (find?_eq_some_iff m k b).1 h
    exact (find?_eq_some_iff _ k b).2 ⟨mem_items_insertNew hb a, hkey⟩
  | none =>
    have hk : k ∉ m.keys := by
      rw [← contains_iff, contains, h]
      exact Bool.false_ne_true
    rw [Option.none_or]
    by_cases hak : key a = k
    · have ha : a ∈ (m.insertNew a).items :=
        (insertNew_perm (hak ▸ hk)).mem_iff.2 List.mem_cons_self
      rw [(find?_eq_some_iff _ k a).2 ⟨ha, hak⟩]
      simp [hak]
    · have hnone : (m.insertNew a).contains k ≠ true := by
        rw [Ne, contains_iff, mem_keys_insertNew, not_or]
        exact ⟨Ne.symm hak, hk⟩
      rw [contains, Ne, Bool.not_eq_true, Option.isSome_eq_false_iff,
        Option.isNone_iff_eq_none] at hnone
      simp [hnone, hak]

/-- A record whose key is not new changes nothing. -/
theorem insertNew_of_contains {m : Keyed key} {a : α} (h : m.contains (key a) = true) :
    m.insertNew a = m := by
  refine eq_of_find? fun k => ?_
  rw [find?_insertNew]
  by_cases hak : key a = k
  · obtain ⟨b, hb⟩ := Option.isSome_iff_exists.1 (hak ▸ h)
    rw [hb, Option.some_or]
  · simp [hak]

/-- Its key is not new a second time. -/
theorem insertNew_insertNew (m : Keyed key) (a : α) :
    (m.insertNew a).insertNew a = m.insertNew a :=
  insertNew_of_contains ((contains_iff _ _).2 ((mem_keys_insertNew m a _).2 (Or.inl rfl)))

theorem mem_keys_insert (m : Keyed key) (a : α) (k : String) :
    k ∈ (m.insert a).keys ↔ k = key a ∨ k ∈ m.keys :=
  key_mem_place fun _ h => h

end Keyed

namespace ConstraintSet

/-- **Equal sizes and one inclusion are equal kinds.** -/
theorem sameKinds_iff (a b : ConstraintSet) :
    a.sameKinds b = true ↔ ∀ kind, a.contains kind = true ↔ b.contains kind = true := by
  simp only [Keyed.contains_iff]
  have hsame : a.sameKinds b = true ↔
      a.keys.length = b.keys.length ∧ a.keys ⊆ b.keys := by
    simp only [sameKinds, Keyed.size, Keyed.keys, List.length_map,
      Bool.and_eq_true, beq_iff_eq, List.all_eq_true, Keyed.contains_iff, List.subset_def,
        List.forall_mem_map]
  rw [hsame]
  constructor
  · rintro ⟨hlen, hsub⟩ kind
    have hperm : a.keys.Perm b.keys :=
      (a.keys_nodup.subperm hsub).perm_of_length_le hlen.ge
    exact hperm.mem_iff
  · intro h
    have hperm : a.keys.Perm b.keys :=
      (List.perm_ext_iff_of_nodup a.keys_nodup b.keys_nodup).2 h
    exact ⟨hperm.length_eq, hperm.subset⟩

end ConstraintSet

end TypeGraph
