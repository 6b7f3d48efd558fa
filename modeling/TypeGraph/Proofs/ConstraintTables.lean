import TypeGraph.Constraint.Table
import TypeGraph.Proofs.Keys
import Mathlib.Data.Finset.Card

/-!
# Constraint sets as maps

Constraint sets are maps from kinds to constraints in which the first constraint of
a kind stays (`ConstraintSet.KeepsFirst`), and it does not matter whether they are
kept in order or in a hash table. A table that holds the constraints of a set
(`HashTables.Holds`) tells about itself what the set tells (`HashTables.Shows`), since
sorting undoes the order of a listing, and it goes on doing so: when a constraint is
added to both, and when the table is copied from one of its listings.

Behind references, adding to a table leaves all others as they are, and what is made
is made in a new table (`Heap.table?_make`).
-/

namespace TypeGraph

namespace ConstraintSet

/-! ## Sets as maps -/

/-- **What a set is after it was given some constraints in turn**: the map from their
kinds to the first constraint of each kind. -/
structure KeepsFirst (cs : ConstraintSet) (given : List Constraint) : Prop where
  /-- A further constraint is added just if its kind is new. -/
  add : ∀ c, (cs.add c).1 = true ↔ ∀ d ∈ given, d.kind ≠ c.kind
  increasing : cs.items.Pairwise (·.kind < ·.kind)
  first : ∀ c, c ∈ cs.items ↔ given.find? (·.kind == c.kind) = some c
  /-- There are as many constraints as there are different kinds. -/
  size : cs.size = (given.map Constraint.kind).toFinset.card
  contains : ∀ kind, cs.contains kind = true ↔ ∃ c ∈ given, c.kind = kind

theorem find?_ofList (given : List Constraint) (kind : String) :
    (ofList given).find? kind = given.find? (·.kind == kind) := by
  have hfold : ∀ cs : ConstraintSet,
      (given.foldl Keyed.insertNew cs).find? kind =
        (cs.find? kind).or (given.find? (·.kind == kind)) := by
    induction given with
    | nil => simp
    | cons c given ih =>
      intro cs
      rw [List.foldl_cons, ih, Keyed.find?_insertNew, Option.or_assoc,
        ← List.find?_append, List.singleton_append]
  exact hfold .empty

theorem contains_ofList (given : List Constraint) (kind : String) :
    (ofList given).contains kind = true ↔ ∃ c ∈ given, c.kind = kind := by
  rw [Keyed.contains, find?_ofList, List.find?_isSome]
  simp

/-- **Constraints that are added from left to right make a map.** -/
theorem keepsFirst_ofList (given : List Constraint) :
    (ofList given).KeepsFirst given where
  add c := by
    have hadd : ((ofList given).add c).1 = true ↔
        ¬(ofList given).contains c.kind = true := by simp [add]
    rw [hadd, contains_ofList]
    simp
  increasing := (ofList given).sorted
  first c := by rw [← find?_ofList, Keyed.find?_eq_some_iff, and_iff_left rfl]
  size := by
    have hkinds : (ofList given).keys.toFinset =
        (given.map Constraint.kind).toFinset := by
      ext kind
      rw [List.mem_toFinset, ← Keyed.contains_iff, contains_ofList]
      simp
    rw [← hkinds, List.toFinset_card_of_nodup (ofList given).keys_nodup, Keyed.keys,
      List.length_map, Keyed.size]
  contains := contains_ofList given

/-- **A set can be built again from its constraints in any order.** -/
theorem ofList_of_perm {cs : ConstraintSet} {listed : List Constraint}
    (h : listed.Perm cs.items) :
    ofList listed = cs := by
  have hnodup : (listed.map Constraint.kind).Nodup := (h.map _).nodup_iff.2 cs.keys_nodup
  refine Keyed.eq_of_find? fun kind => Option.ext fun c => ?_
  rw [find?_ofList, Keyed.find?_iff_of_nodup hnodup, Keyed.find?_eq_some_iff, h.mem_iff]

end ConstraintSet

namespace HashTables

variable {H : HashTables} {t : H.Table} {cs : ConstraintSet}

/-! ## Tables -/

/-- **What is asked of hash tables**: they are sets of constraints, told apart by
their kinds. Nothing is asked about the order of a listing, nor about putting
a constraint in whose kind is there already. -/
structure Lawful (H : HashTables) : Prop where
  list_create : ∀ room draw, H.list draw (H.create room) = []
  contains_iff : ∀ t c draw, H.contains t c = true ↔
    c.kind ∈ (H.list draw t).map Constraint.kind
  size_eq : ∀ t draw, H.size t = (H.list draw t).length
  insert_new : ∀ t c, H.contains t c = false → (H.insert t c).1 = true
  list_insert : ∀ t c, H.contains t c = false →
    ∀ draw, (H.list draw (H.insert t c).2).Perm (c :: H.list draw t)

/-- The table that comes of adding constraints from left to right to an empty one. -/
def ofList (H : HashTables) (cs : List Constraint) : H.Table :=
  cs.foldl (fun t c => (H.add t c).2) (H.create cs.length)

/-- A table holds the constraints of a set. -/
def Holds (t : H.Table) (cs : ConstraintSet) : Prop :=
  ∀ draw, (H.list draw t).Perm cs.items

/-- **A table tells about itself what a set tells**, whatever order its listings
take. -/
structure Shows (t : H.Table) (cs : ConstraintSet) : Prop where
  add : ∀ c, (H.add t c).1 = (cs.add c).1
  slice : ∀ draw, H.slice draw t = cs.items
  size : H.size t = cs.size
  has : ∀ kind, H.has t kind = cs.contains kind

/-- **Sorting undoes the order of a listing.** -/
theorem Holds.slice (h : H.Holds t cs) (draw : Nat) : H.slice draw t = cs.items := by
  have hle : (H.slice draw t).Pairwise fun a b => decide (a.kind ≤ b.kind) = true :=
    List.pairwise_mergeSort (by simpa using fun a b c => String.le_trans)
      (by simpa using fun a b => String.le_total _ _) _
  have hperm : (H.slice draw t).Perm cs.items := (List.mergeSort_perm _ _).trans (h draw)
  refine hperm.eq_of_pairwise (fun a b ha hb hab hba => ?_) hle
    (cs.sorted.imp fun hlt => ?_)
  · -- Kinds are ordered, constraints are not; but there is one constraint of each
    -- kind only.
    have hkind : a.kind = b.kind :=
      String.le_antisymm (of_decide_eq_true hab) (of_decide_eq_true hba)
    exact List.inj_on_of_nodup_map cs.keys_nodup (hperm.mem_iff.1 ha) hb hkind
  · exact decide_eq_true (Std.le_of_lt hlt)

namespace Lawful

variable (hH : H.Lawful)
include hH

theorem contains_eq (h : H.Holds t cs) (c : Constraint) :
    H.contains t c = cs.contains c.kind := by
  rw [Bool.eq_iff_iff, hH.contains_iff t c 0, ((h 0).map _).mem_iff,
    Keyed.contains_iff, Keyed.keys]

theorem shows (h : H.Holds t cs) : H.Shows t cs where
  add c := by
    rw [HashTables.add, ConstraintSet.add, ← hH.contains_eq h]
    split
    · rename_i hin
      rw [hin, Bool.not_true]
    · rename_i hnew
      rw [Bool.not_eq_true] at hnew
      rw [hH.insert_new t c hnew, hnew, Bool.not_false]
  slice := h.slice
  size := by rw [hH.size_eq t 0, (h 0).length_eq, Keyed.size]
  has kind := hH.contains_eq h _

/-- **One more constraint** for both. -/
theorem holds_add (h : H.Holds t cs) (c : Constraint) :
    H.Holds (H.add t c).2 (cs.insertNew c) := by
  intro draw
  rw [HashTables.add]
  split
  · rename_i hin
    rw [Keyed.insertNew_of_contains (hH.contains_eq h c ▸ hin)]
    exact h draw
  · rename_i hnew
    rw [Bool.not_eq_true] at hnew
    have hkind : c.kind ∉ cs.keys := by
      rw [← Keyed.contains_iff, ← hH.contains_eq h, hnew]
      exact Bool.false_ne_true
    calc
      List.Perm (H.list draw (H.insert t c).2) (c :: H.list draw t) :=
        hH.list_insert t c hnew draw
      List.Perm _ (c :: cs.items) := (h draw).cons c
      List.Perm _ (cs.insertNew c).items := (Keyed.insertNew_perm hkind).symm

theorem holds_ofList (given : List Constraint) :
    H.Holds (H.ofList given) (.ofList given) := by
  have hfold : ∀ (rest : List Constraint) (t : H.Table) (cs : ConstraintSet),
      H.Holds t cs →
      H.Holds (rest.foldl (fun t c => (H.add t c).2) t)
        (rest.foldl Keyed.insertNew cs) := by
    intro rest
    induction rest with
    | nil => exact fun _ _ h => h
    | cons c rest ih => exact fun _ _ h => ih _ _ (hH.holds_add h c)
  refine hfold given _ _ fun draw => ?_
  rw [hH.list_create]
  exact .refl _

/-- **A table that is made of a listing holds the same constraints**, whatever the
order. -/
theorem holds_listed (h : H.Holds t cs) (draw : Nat) :
    H.Holds (H.ofList (H.list draw t)) cs := by
  have hcopy := hH.holds_ofList (H.list draw t)
  rwa [ConstraintSet.ofList_of_perm (h draw)] at hcopy

end Lawful

/-! ## Tables behind references -/

namespace Heap

variable {h : H.Heap} {r : TableRef}

theorem lt_of_table? (ht : h.table? r = some t) : r < h.tables.size :=
  (Array.getElem?_eq_some_iff.1 ht).1

theorem table?_add (ht : h.table? r = some t) (c : Constraint) :
    (h.add r c).2.table? r = some (H.add t c).2 := by
  have hlt := lt_of_table? ht
  rw [add, ht]
  simp [table?, hlt]

/-- Adding to a table leaves the others as they are. -/
theorem table?_add_of_ne {other : TableRef} (hne : r ≠ other) (c : Constraint) :
    (h.add r c).2.table? other = h.table? other := by
  rw [add]
  cases h.table? r with
  | none => rfl
  | some t => simp [table?, hne]

/-- **Adding constraints one by one** changes one table, by all of them. -/
theorem table?_foldl_add (ht : h.table? r = some t) (cs : List Constraint)
    (other : TableRef) :
    (cs.foldl (fun h c => (h.add r c).2) h).table? other =
      if other = r then some (cs.foldl (fun t c => (H.add t c).2) t)
      else h.table? other := by
  induction cs generalizing h t with
  | nil =>
    by_cases hother : other = r
    · rw [if_pos hother, hother]
      exact ht
    · rw [if_neg hother]
      rfl
  | cons c cs ih =>
    rw [List.foldl_cons, ih (table?_add ht c), List.foldl_cons]
    by_cases hother : other = r
    · rw [if_pos hother, if_pos hother]
    · rw [if_neg hother, if_neg hother]
      exact table?_add_of_ne (Ne.symm hother) c

theorem make_fst (h : H.Heap) (cs : List Constraint) :
    (h.make cs).1 = h.tables.size := rfl

/-- **What is made is a new table**, and all others stay what they are. -/
theorem table?_make (h : H.Heap) (cs : List Constraint) (other : TableRef) :
    (h.make cs).2.table? other =
      if other = (h.make cs).1 then some (H.ofList cs) else h.table? other := by
  have hnew : (h.create cs.length).2.table? h.tables.size =
      some (H.create cs.length) := by
    simp [create, table?]
  rw [make_fst]
  refine (table?_foldl_add hnew cs other).trans ?_
  by_cases hother : other = h.tables.size
  · rw [if_pos hother, if_pos hother]
    rfl
  · rw [if_neg hother, if_neg hother]
    simp [create, table?, Array.getElem?_push, hother]

end Heap

/-! ## The standard library -/

/-- A listing starts somewhere else, and all constraints are in it. -/
theorem standard_list_perm (draw : Nat) (t : Std.HashSet OfKind) :
    (standard.list draw t).Perm (t.toList.map OfKind.constraint) := by
  change (List.rotateLeft _ draw).Perm _
  rw [List.rotateLeft]
  split
  · exact .refl _
  · refine List.perm_append_comm.trans ?_
    rw [List.take_append_drop]

theorem toList_insert_perm {t : Std.HashSet OfKind} {c : OfKind}
    (h : t.contains c = false) :
    (t.insert c).toList.Perm (c :: t.toList) := by
  have hperm := Std.HashSet.toList_insert_perm (m := t) (k := c)
  have hmem : c ∉ t := by
    rw [Std.HashSet.mem_iff_contains, h]
    exact Bool.false_ne_true
  rwa [if_neg hmem] at hperm

/-- **The hash sets of the standard library are lawful tables.** -/
theorem standard_lawful : standard.Lawful where
  list_create room draw := by
    have hperm := standard_list_perm draw (.emptyWithCapacity room)
    rw [Std.HashSet.toList_emptyWithCapacity, List.map_nil] at hperm
    exact hperm.eq_nil
  contains_iff t c draw := by
    have hcontains : standard.contains t c = t.toList.contains ⟨c⟩ :=
      Std.HashSet.contains_toList.symm
    rw [hcontains, ((standard_list_perm draw t).map _).mem_iff,
      List.contains_iff_exists_mem_beq, List.map_map, List.mem_map]
    exact exists_congr fun d => and_congr_right fun _ =>
      (beq_iff_eq (α := String)).trans eq_comm
  size_eq t draw := by
    rw [(standard_list_perm draw t).length_eq, List.length_map]
    exact Std.HashSet.length_toList.symm
  insert_new _ _ hnew := congrArg not hnew
  list_insert t c hnew draw := by
    have hperm := (toList_insert_perm hnew).map OfKind.constraint
    exact (standard_list_perm draw _).trans
      (hperm.trans ((standard_list_perm draw t).symm.cons c))

end HashTables

end TypeGraph
