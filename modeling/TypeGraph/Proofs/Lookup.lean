import TypeGraph.Proofs.Locality

/-!
# Finding methods, in whatever store

The layers of a term are read up to a bound, and in a store with cycles there may be
more of them. A method is found all the same if there is a way to it: through links,
and past layers that have other names (`FindsIn`). Such a way goes through no link
twice, because from any place there is but one way on and it does not get longer, so
it is within the bound (`findMeth?_eq_some_iff`).

So lookups can be followed step by step without asking for an acyclic store, and
a lookup in a term depends on the cells that can be reached from the term and on
nothing else in the store (`SameCells.findMeth?`).
-/

namespace TypeGraph.Store

open Finset

variable {s s' : Store} {name : String} {m m' : Method Ty} {t u inner : Ty} {n k : Nat}

/-! ## Ways to a method -/

/-- **The outermost method of the name is `n` steps away.** A step goes through a link
or past a layer that has another name. -/
inductive FindsIn (s : Store) (name : String) (m : Method Ty) : Nat → Ty → Prop
  | here {t inner : Ty} (hx : t.shape = .meth m inner) (hname : m.name = name) :
    FindsIn s name m 0 t
  | past {n : Nat} {t inner : Ty} {m' : Method Ty} (hx : t.shape = .meth m' inner)
      (hname : m'.name ≠ name) (h : FindsIn s name m n inner) : FindsIn s name m (n + 1) t
  | link {n : Nat} {t u : Ty} {c : CellId} {variance : Variance} (hc : t.shape = .cell c)
      (hl : s.link? c = some (variance, u)) (h : FindsIn s name m n u) :
      FindsIn s name m (n + 1) t

/-- There is but one way. -/
theorem FindsIn.unique (h : s.FindsIn name m n t) (h' : s.FindsIn name m' k t) :
    n = k ∧ m = m' := by
  induction h generalizing k with
  | here hx hname =>
    cases h' with
    | here hx' =>
      cases hx.symm.trans hx'
      exact ⟨rfl, rfl⟩
    | past hx' hname' =>
      cases hx.symm.trans hx'
      exact absurd hname hname'
    | link hc => cases hx.symm.trans hc
  | past hx hname _ ih =>
    cases h' with
    | here hx' hname' =>
      cases hx.symm.trans hx'
      exact absurd hname' hname
    | past hx' _ h' =>
      cases hx.symm.trans hx'
      obtain ⟨rfl, rfl⟩ := ih h'
      exact ⟨rfl, rfl⟩
    | link hc => cases hx.symm.trans hc
  | link hc hl _ ih =>
    cases h' with
    | here hx => cases hc.symm.trans hx
    | past hx => cases hc.symm.trans hx
    | link hc' hl' h' =>
      cases hc.symm.trans hc'
      cases hl.symm.trans hl'
      obtain ⟨rfl, rfl⟩ := ih h'
      exact ⟨rfl, rfl⟩

/-- What is found stands in a layer that can be reached. -/
theorem FindsIn.reaches (h : s.FindsIn name m n t) :
    m.name = name ∧ ∃ u inner, s.Reaches t u ∧ u.shape = .meth m inner := by
  induction h with
  | here hx hname => exact ⟨hname, _, _, .refl, hx⟩
  | past hx _ _ ih =>
    obtain ⟨hname, u, inner, hu, hm⟩ := ih
    exact ⟨hname, u, inner, hu.head (.child (Shape.inner_mem_children hx)), hm⟩
  | link hc hl _ ih =>
    obtain ⟨hname, u, inner, hu, hm⟩ := ih
    exact ⟨hname, u, inner, hu.head (.link hc hl), hm⟩

/-! ## Ways are within the bound -/

open Classical in
/-- The cells whose targets are less than `n` steps away from the method. -/
noncomputable def cellsTo (s : Store) (name : String) (m : Method Ty)
    (n : Nat) : Finset CellId :=
  {c ∈ range s.cells.size | ∃ variance u k, s.link? c = some (variance, u) ∧ k < n ∧
    s.FindsIn name m k u}

theorem mem_cellsTo {c : CellId} :
    c ∈ s.cellsTo name m n ↔
      ∃ variance u k, s.link? c = some (variance, u) ∧ k < n ∧ s.FindsIn name m k u := by
  simp only [cellsTo, mem_filter, mem_range, and_iff_right_iff_imp]
  rintro ⟨variance, u, k, hl, -⟩
  exact lt_of_link? hl

theorem cellsTo_mono (h : k ≤ n) : s.cellsTo name m k ⊆ s.cellsTo name m n := by
  intro c hc
  obtain ⟨variance, u, j, hl, hj, hu⟩ := mem_cellsTo.1 hc
  exact mem_cellsTo.2 ⟨variance, u, j, hl, by omega, hu⟩

theorem cellsTo_subset : s.cellsTo name m n ⊆ range s.cells.size := by
  intro c hc
  obtain ⟨variance, u, k, hl, -⟩ := mem_cellsTo.1 hc
  exact mem_range.2 (lt_of_link? hl)

/-- The way through a link does not come back to it. -/
theorem cellsTo_link {c : CellId} {variance : Variance}
    (hl : s.link? c = some (variance, u)) (h : s.FindsIn name m n u) :
    c ∉ s.cellsTo name m n ∧ c ∈ s.cellsTo name m (n + 1) := by
  refine ⟨fun hc => ?_, mem_cellsTo.2 ⟨variance, u, n, hl, Nat.lt_succ_self n, h⟩⟩
  obtain ⟨variance', u', k, hl', hk, hu⟩ := mem_cellsTo.1 hc
  cases hl.symm.trans hl'
  have heq := (hu.unique h).1
  omega

/-- A way goes on behind the links of a term, if as many links are followed as lie on
it. -/
theorem FindsIn.follow (h : s.FindsIn name m n t) (hk : (s.cellsTo name m n).card ≤ k) :
    ∃ j, s.FindsIn name m j (s.follow k t) ∧
      (∃ m' inner, (s.follow k t).shape = .meth m' inner) ∧
      (s.follow k t).size + s.linkWeight (s.cellsTo name m j) ≤
        t.size + s.linkWeight (s.cellsTo name m n) := by
  induction h generalizing k with
  | here hx hname =>
    rw [follow_settled fun c hc => by cases hx.symm.trans hc]
    exact ⟨0, .here hx hname, ⟨_, _, hx⟩, le_rfl⟩
  | past hx hname h _ =>
    rw [follow_settled fun c hc => by cases hx.symm.trans hc]
    exact ⟨_, .past hx hname h, ⟨_, _, hx⟩, le_rfl⟩
  | @link n t u c variance hc hl h ih =>
    obtain ⟨hout, hin⟩ := cellsTo_link hl h
    have hsub : s.cellsTo name m n ⊆ s.cellsTo name m (n + 1) :=
      cellsTo_mono (Nat.le_succ n)
    have hcard := card_lt_card ((ssubset_iff_of_subset hsub).2 ⟨c, hin, hout⟩)
    obtain ⟨k, rfl⟩ : ∃ i, k = i + 1 := ⟨k - 1, by omega⟩
    rw [follow_link hc hl]
    obtain ⟨j, hj, hmeth, hsize⟩ := ih (k := k) (by omega)
    have hweight := linkWeight_target hl hout hin hsub
    exact ⟨j, hj, hmeth, by omega⟩

theorem FindsIn.of_follow (h : s.FindsIn name m n (s.follow k t)) :
    ∃ j, s.FindsIn name m j t := by
  induction k generalizing t with
  | zero => exact ⟨n, h⟩
  | succ k ih =>
    rcases s.linked_or_settled t with ⟨c, variance, u, hc, hl⟩ | hset
    · rw [follow_link hc hl] at h
      obtain ⟨j, hj⟩ := ih h
      exact ⟨j + 1, .link hc hl hj⟩
    · rw [follow_settled hset] at h
      exact ⟨n, h⟩

/-- The first method of a name among some layers. -/
def firstNamed (layers : List Layer) (name : String) : Option (Method Ty) :=
  (layers.find? (·.method.name == name)).map (·.method)

theorem firstNamed_cons (l : Layer) (rest : List Layer) :
    firstNamed (l :: rest) name = if l.method.name = name then some l.method
      else firstNamed rest name := by
  rw [firstNamed, List.find?_cons]
  by_cases h : l.method.name = name
  · simp [h]
  · rw [beq_eq_false_iff_ne.2 h, if_neg h]
    rfl

/-- **A method is found within a bound that covers the way to it.** -/
theorem FindsIn.firstNamed (h : s.FindsIn name m n t)
    (hk : t.size + s.linkWeight (s.cellsTo name m n) ≤ k) :
    firstNamed (s.layersWithin k t).1 name = some m := by
  induction k generalizing t n with
  | zero =>
    have hpos := t.size_pos
    omega
  | succ k ih =>
    have hcells : s.cellsTo name m n ⊆ range s.cells.size := cellsTo_subset
    have hcard : (s.cellsTo name m n).card ≤ s.cells.size := by
      simpa using card_le_card hcells
    obtain ⟨j, hj, ⟨m', inner, hx⟩, hsize⟩ := h.follow hcard
    obtain ⟨pos, hderef⟩ : ∃ pos, s.deref t = .node pos (.meth m' inner) := by
      rw [deref]
      cases ht : s.follow s.cells.size t with
      | node pos x =>
        rw [ht] at hx
        exact ⟨pos, congrArg (Ty.node pos) hx⟩
    have hlayers : (s.layersWithin (k + 1) t).1 =
        ⟨pos, m'⟩ :: (s.layersWithin k inner).1 := by
      rw [layersWithin, nextLayer, hderef]
    rw [hlayers, firstNamed_cons]
    cases hj with
    | here hx' hname =>
      cases hx.symm.trans hx'
      exact if_pos hname
    | @past j _ _ _ hx' hname h' =>
      cases hx.symm.trans hx'
      have hinner : inner.size < (s.follow s.cells.size t).size :=
        Ty.size_lt_of_mem (Shape.inner_mem_children hx)
      have hsub : s.cellsTo name m j ⊆ s.cellsTo name m (j + 1) :=
        cellsTo_mono (Nat.le_succ j)
      have hweight : s.linkWeight (s.cellsTo name m j) ≤
          s.linkWeight (s.cellsTo name m (j + 1)) :=
        linkWeight_mono hsub
      rw [if_neg hname]
      exact ih h' (by omega)
    | link hc => cases hx.symm.trans hc

theorem findsIn_of_firstNamed (h : firstNamed (s.layersWithin k t).1 name = some m) :
    ∃ n, s.FindsIn name m n t := by
  induction k generalizing t with
  | zero => cases h
  | succ k ih =>
    rw [layersWithin, nextLayer] at h
    split at h
    · rename_i pos m' inner hderef
      have hx : (s.deref t).shape = .meth m' inner := by rw [hderef]; rfl
      rw [firstNamed_cons] at h
      split at h
      · rename_i hname
        cases h
        exact (FindsIn.here hx hname).of_follow
      · rename_i hname
        obtain ⟨n, hn⟩ := ih h
        exact (FindsIn.past hx hname hn).of_follow
    · cases h

/-- **A method is found just when there is a way to it.** -/
theorem findMeth?_eq_some_iff :
    s.findMeth? t name = some m ↔ ∃ n, s.FindsIn name m n t := by
  constructor
  · exact findsIn_of_firstNamed
  · rintro ⟨n, h⟩
    refine h.firstNamed ?_
    rw [span_eq]
    exact Nat.add_le_add_left (linkWeight_mono cellsTo_subset) _

/-! ## Lookups step by step -/

/-- A method layer is what is found by its name; any other name is looked up behind
it. -/
theorem findMeth?_meth (hx : t.shape = .meth m inner) (name : String) :
    s.findMeth? t name = if m.name = name then some m else s.findMeth? inner name := by
  ext found
  split
  · rename_i hname
    rw [findMeth?_eq_some_iff]
    constructor
    · rintro ⟨n, h⟩
      rw [((FindsIn.here hx hname).unique h).2]
    · rintro ⟨rfl⟩
      exact ⟨0, .here hx hname⟩
  · rename_i hname
    rw [findMeth?_eq_some_iff, findMeth?_eq_some_iff]
    constructor
    · rintro ⟨n, h⟩
      cases h with
      | here hx' hname' =>
        cases hx.symm.trans hx'
        exact absurd hname' hname
      | past hx' _ h =>
        cases hx.symm.trans hx'
        exact ⟨_, h⟩
      | link hc => cases hx.symm.trans hc
    · rintro ⟨n, h⟩
      exact ⟨n + 1, .past hx hname h⟩

theorem findMeth?_addMeth (t : Ty) (m : Method Ty) (name : String) :
    s.findMeth? (t.addMeth m) name = if m.name = name then some m
      else s.findMeth? t name :=
  findMeth?_meth rfl name

/-- The unit type has no methods. -/
theorem findMeth?_unit (name : String) : s.findMeth? .unit name = none := by
  refine Option.eq_none_iff_forall_ne_some.2 fun m h => ?_
  obtain ⟨n, hn⟩ := findMeth?_eq_some_iff.1 h
  cases hn with
  | here hx => cases hx
  | past hx => cases hx
  | link hc => cases hc

/-- What is found has the name, and can be reached. -/
theorem findMeth?_spec (h : s.findMeth? t name = some m) :
    m.name = name ∧ ∃ u inner, s.Reaches t u ∧ u.shape = .meth m inner := by
  obtain ⟨n, hn⟩ := findMeth?_eq_some_iff.1 h
  exact hn.reaches

/-- What a path leads to in a type, if all names on it are found. -/
def lookup (s : Store) (t : Ty) (path : List String) : Option TypeScheme :=
  (s.invokePath t path).toOption

/-- A path goes on in the type of the method that its first name finds. -/
theorem lookup_cons (t : Ty) (first : String) (rest : List String) :
    s.lookup t (first :: rest) =
      (s.findMeth? t first).bind fun m => if rest = [] then some m.scheme
        else s.lookup m.scheme.type rest := by
  have htype : (Scheme.mono t).type = t := rfl
  rw [lookup, invokePath, List.foldlM_cons, htype, invoke]
  cases s.findMeth? t first with
  | none => rfl
  | some m =>
    cases rest with
    | nil => rfl
    | cons second others => rfl

/-! ## Other stores -/

/-- **The cells that can be reached from the term are the same in both stores.** -/
def SameCells (s s' : Store) (t : Ty) : Prop :=
  ∀ c, s.ReachesCell t c → s'.cells[c]? = s.cells[c]?

namespace SameCells

theorem of_reaches (h : s.SameCells s' t) (hr : s.Reaches t u) : s.SameCells s' u :=
  fun c hc => h c (hc.of_reaches hr)

theorem link? (h : s.SameCells s' t) {c : CellId} (hc : t.shape = .cell c) :
    s'.link? c = s.link? c := by
  simp only [Store.link?, h c ⟨t, .refl, hc⟩]

/-- The way to a method is the same. -/
theorem findsIn_iff (h : s.SameCells s' t) :
    s'.FindsIn name m n t ↔ s.FindsIn name m n t := by
  constructor
  · intro hf
    induction hf with
    | here hx hname => exact .here hx hname
    | past hx hname _ ih =>
      exact .past hx hname (ih
        (h.of_reaches (.single (.child (Shape.inner_mem_children hx)))))
    | link hc hl _ ih =>
      rw [h.link? hc] at hl
      exact .link hc hl (ih (h.of_reaches (.single (.link hc hl))))
  · intro hf
    induction hf with
    | here hx hname => exact .here hx hname
    | past hx hname _ ih =>
      exact .past hx hname (ih
        (h.of_reaches (.single (.child (Shape.inner_mem_children hx)))))
    | link hc hl _ ih =>
      exact .link hc ((h.link? hc).trans hl) (ih (h.of_reaches (.single (.link hc hl))))

/-- **Lookups in a term depend on its cells.** -/
theorem findMeth? (h : s.SameCells s' t) (name : String) :
    s'.findMeth? t name = s.findMeth? t name := by
  ext m
  simp only [findMeth?_eq_some_iff, h.findsIn_iff]

end SameCells

end TypeGraph.Store
