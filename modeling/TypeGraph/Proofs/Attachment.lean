import TypeGraph.Proofs.Lookup
import TypeGraph.Registry

/-!
# Fields at the end of paths

To put a method at the end of a path is to change what the path leads to, and what the
longer paths lead to that go on from there; all fields on the way are there
afterwards; and any other path leads where it did. These are the three laws of
`Extends`, and so of `attach`.

Several fields attached one after the other shadow, extend or hide one another. From
the laws follows what a path leads to in the end (`Assembled`): the last field on it
decides, unless a later one was attached below the path.
-/

namespace TypeGraph.Store

variable {s s' : Store} {base leaf t : Ty} {path q : List String}
  {first name doc : String}

/-! ## Methods at the end of paths -/

/-- The method with another type. -/
def retype (m : Method Ty) (type : Ty) : Method Ty :=
  { m with scheme := { m.scheme with type } }

/-- Paths that start otherwise lead where they did. -/
theorem lookup_addMeth_other {m : Method Ty} {x : String}
    (hx : m.name ≠ x) (q : List String) :
    s.lookup (base.addMeth m) (x :: q) = s.lookup base (x :: q) := by
  rw [lookup_cons, lookup_cons, findMeth?_addMeth, if_neg hx]

theorem lookup_addMeth_same {m : Method Ty} {x : String}
    (hx : m.name = x) (q : List String) :
    s.lookup (base.addMeth m) (x :: q) = if q = [] then some m.scheme
      else s.lookup m.scheme.type q := by
  rw [lookup_cons, findMeth?_addMeth, if_pos hx, Option.bind_some]

/-- **A method put at the end of a path of fields.** Each field on the way is put
again on top of its parent, with the method put at the rest of the path in its type.
Behind its name stands what stood there before. -/
inductive Extends (s : Store) (m : Method Ty) : Ty → List String → Ty → Prop
  | here (t : Ty) : Extends s m t [] (t.addMeth m)
  | inside {t u : Ty} {first : String} {path : List String} {field : Method Ty}
      (hname : field.name = first)
      (hfield : ∀ q, q ≠ [] → s.lookup field.scheme.type q = s.lookup t (first :: q))
      (h : Extends s m field.scheme.type path u) :
      Extends s m t (first :: path) (t.addMeth (retype field u))

namespace Extends

variable {m : Method Ty} {u : Ty}

/-- **Behind the path stands the method**, and behind that whatever stands in its
type. -/
theorem lookup_behind (h : s.Extends m t path u) (rest : List String) :
    s.lookup u (path ++ m.name :: rest) = if rest = [] then some m.scheme
      else s.lookup m.scheme.type rest := by
  induction h with
  | here t => exact lookup_addMeth_same rfl rest
  | @inside t u first path field hname hfield h ih =>
    have htop : (retype field u).name = first := hname
    have hne : path ++ m.name :: rest ≠ [] := by simp
    calc s.lookup (t.addMeth (retype field u)) (first :: (path ++ m.name :: rest))
        _ = s.lookup u (path ++ m.name :: rest) :=
          (lookup_addMeth_same htop _).trans (if_neg hne)
        _ = if rest = [] then some m.scheme else s.lookup m.scheme.type rest := ih

/-- **Paths that part from that of the method lead where they did.** -/
theorem lookup_apart (h : s.Extends m t path u) (hq : ¬ path ++ [m.name] <+: q)
    (hq' : ¬ q <+: path ++ [m.name]) :
    s.lookup u q = s.lookup t q := by
  induction h generalizing q with
  | here t =>
    cases q with
    | nil => exact absurd List.nil_prefix hq'
    | cons x q =>
      have hx : m.name ≠ x := by
        rintro rfl
        exact hq ⟨q, rfl⟩
      exact lookup_addMeth_other hx q
  | @inside t u first path field hname hfield h ih =>
    have htop : (retype field u).name = first := hname
    cases q with
    | nil => exact absurd List.nil_prefix hq'
    | cons x q =>
      by_cases hx : first = x
      · subst hx
        rw [List.cons_append, List.cons_prefix_cons] at hq hq'
        have hne : q ≠ [] := by
          rintro rfl
          exact hq' ⟨rfl, List.nil_prefix⟩
        calc s.lookup (t.addMeth (retype field u)) (first :: q)
            _ = s.lookup u q := (lookup_addMeth_same htop q).trans (if_neg hne)
            _ = s.lookup field.scheme.type q :=
              ih (fun hp => hq ⟨rfl, hp⟩) fun hp => hq' ⟨rfl, hp⟩
            _ = s.lookup t (first :: q) := hfield q hne
      · exact lookup_addMeth_other (htop ▸ hx) q

/-- **All fields on the way to the method are there.** -/
theorem lookup_above (h : s.Extends m t path u) (hne : q ≠ [])
    (hq : q <+: path ++ [m.name]) :
    (s.lookup u q).isSome = true := by
  induction h generalizing q with
  | here t =>
    have heq : q = [m.name] := hq.eq_of_length_le (by cases q <;> simp_all)
    rw [heq, lookup_addMeth_same rfl]
    rfl
  | @inside t u first path field hname hfield h ih =>
    have htop : (retype field u).name = first := hname
    cases q with
    | nil => exact absurd rfl hne
    | cons x q =>
      obtain ⟨rfl, hrest⟩ := List.cons_prefix_cons.1 hq
      rw [lookup_addMeth_same htop]
      by_cases hq : q = []
      · rw [if_pos hq]
        rfl
      · rw [if_neg hq]
        exact ih hq hrest

end Extends

/-! ## One field -/

/-- The field of a name, or a new one of the unit type. -/
def fieldOf (s : Store) (base : Ty) (name : String) : Method Ty :=
  (s.findMeth? base name).getD { name, scheme := .mono .unit }

theorem fieldOf_name (s : Store) (base : Ty) (name : String) :
    (s.fieldOf base name).name = name := by
  rw [fieldOf]
  cases h : s.findMeth? base name with
  | none => rfl
  | some m => exact (findMeth?_spec h).1

/-- A field below another one is attached to the type of that one, which is then put
on top. -/
theorem attach_cons (s : Store) (base : Ty) (first : String) (path : List String)
    (name doc : String) (leaf : Ty) :
    s.attach base (first :: path) name doc leaf =
      base.addMeth (retype (s.fieldOf base first)
        (s.attach (s.fieldOf base first).scheme.type path name doc leaf)) := rfl

theorem lookup_unit (hq : q ≠ []) : s.lookup .unit q = none := by
  cases q with
  | nil => exact absurd rfl hq
  | cons x q => rw [lookup_cons, findMeth?_unit, Option.bind_none]

/-- Paths that go on behind the field of a name. -/
theorem lookup_fieldOf (hq : q ≠ []) :
    s.lookup (s.fieldOf base first).scheme.type q = s.lookup base (first :: q) := by
  rw [lookup_cons, fieldOf]
  cases s.findMeth? base first with
  | none => exact lookup_unit hq
  | some m => exact (if_neg hq).symm

/-- A field is attached at the end of its path. -/
theorem extends_attach (s : Store) (base : Ty) (path : List String)
    (name doc : String) (leaf : Ty) :
    s.Extends { name, scheme := .mono leaf, doc } base path
      (s.attach base path name doc leaf) := by
  induction path generalizing base with
  | nil => exact .here base
  | cons first path ih =>
    rw [attach_cons]
    exact .inside (fieldOf_name s base first) (fun q hq => lookup_fieldOf hq) (ih _)

/-- **Behind the path of a field stands the type that was attached.** -/
theorem lookup_attach_behind (h : path ++ [name] <+: q) :
    s.lookup (s.attach base path name doc leaf) q =
      s.lookup leaf (q.drop (path ++ [name]).length) := by
  obtain ⟨rest, rfl⟩ := h
  have hbehind := (s.extends_attach base path name doc leaf).lookup_behind rest
  rw [List.drop_left, List.append_assoc]
  refine hbehind.trans ?_
  by_cases hrest : rest = []
  · rw [if_pos hrest, hrest]
    rfl
  · rw [if_neg hrest]
    rfl

/-- Paths that part from that of a field lead where they did. -/
theorem lookup_attach_apart (h : ¬ path ++ [name] <+: q) (h' : ¬ q <+: path ++ [name]) :
    s.lookup (s.attach base path name doc leaf) q = s.lookup base q :=
  (s.extends_attach base path name doc leaf).lookup_apart h h'

/-- All fields on the way to a field are there. -/
theorem lookup_attach_above (hq : q ≠ []) (h : q <+: path ++ [name]) :
    (s.lookup (s.attach base path name doc leaf) q).isSome = true :=
  (s.extends_attach base path name doc leaf).lookup_above hq h

/-! ## Several fields -/

/-- **Fields with their paths attached to a type one after the other**, which makes it
the last one. -/
inductive Assembles (s : Store) : Ty → List (List String × Ty) → Ty → Prop
  | nil (t : Ty) : Assembles s t [] t
  | cons {base t : Ty} {rest : List (List String × Ty)} (path : List String)
      (name doc : String) (leaf : Ty)
      (h : Assembles s (s.attach base path name doc leaf) rest t) :
      Assembles s base ((path ++ [name], leaf) :: rest) t

namespace Assembles

variable {parts before after : List (List String × Ty)}

theorem split (h : s.Assembles base (before ++ after) t) :
    ∃ mid, s.Assembles base before mid ∧ s.Assembles mid after t := by
  induction before generalizing base with
  | nil => exact ⟨base, .nil base, h⟩
  | cons part before ih =>
    cases h with
    | cons path name doc leaf h =>
      obtain ⟨mid, hbefore, hafter⟩ := ih h
      exact ⟨mid, .cons path name doc leaf hbefore, hafter⟩

/-- Fields that part from a path do not affect it. -/
theorem lookup_apart (h : s.Assembles base parts t)
    (hq : ∀ part ∈ parts, ¬ part.1 <+: q ∧ ¬ q <+: part.1) :
    s.lookup t q = s.lookup base q := by
  induction h with
  | nil => rfl
  | cons path name doc leaf _ ih =>
    obtain ⟨hbehind, habove⟩ := hq _ List.mem_cons_self
    rw [ih fun part hpart => hq part (List.mem_cons_of_mem _ hpart),
      lookup_attach_apart hbehind habove]

/-- A path that leads somewhere goes on to do so unless a field is attached that it
runs through. -/
theorem isSome_lookup (h : s.Assembles base parts t) (hne : q ≠ [])
    (hbase : (s.lookup base q).isSome = true)
    (hq : ∀ part ∈ parts, part.1 <+: q → part.1 = q) : (s.lookup t q).isSome = true := by
  induction h with
  | nil => exact hbase
  | cons path name doc leaf _ ih =>
    refine ih ?_ fun part hpart => hq part (List.mem_cons_of_mem _ hpart)
    by_cases habove : q <+: path ++ [name]
    · exact lookup_attach_above hne habove
    · have hbehind : ¬ path ++ [name] <+: q := by
        intro hbehind
        have heq : path ++ [name] = q := hq _ List.mem_cons_self hbehind
        exact habove (heq ▸ List.prefix_rfl)
      rwa [lookup_attach_apart hbehind habove]

end Assembles

/-- **What paths lead to in a type that was assembled** from another one by attaching
fields with their paths. -/
structure Assembled (s : Store) (base : Ty) (parts : List (List String × Ty))
    (t : Ty) : Prop where
  /-- The last field that a path runs through decides, if the path is not on the way
  to a later one. -/
  decided : ∀ before p leaf after, parts = before ++ (p, leaf) :: after → ∀ q, p <+: q →
    (∀ part ∈ after, ¬ part.1 <+: q ∧ ¬ q <+: part.1) →
      s.lookup t q = s.lookup leaf (q.drop p.length)
  /-- A path that has nothing to do with the fields leads where it did. -/
  kept : ∀ q, (∀ part ∈ parts, ¬ part.1 <+: q ∧ ¬ q <+: part.1) →
    s.lookup t q = s.lookup base q
  /-- What is on the way to a field is there, if no later field took its place from
  further up. -/
  onWay : ∀ before p leaf after, parts = before ++ (p, leaf) :: after →
    ∀ q, q ≠ [] → q <+: p →
    (∀ part ∈ after, part.1 <+: q → part.1 = q) → (s.lookup t q).isSome = true

theorem Assembles.assembled {parts : List (List String × Ty)}
    (h : s.Assembles base parts t) :
    s.Assembled base parts t where
  decided := by
    rintro before p leaf after rfl q hp hq
    obtain ⟨mid, -, hmid⟩ := h.split
    cases hmid with
    | cons path name doc leaf hafter =>
      rw [hafter.lookup_apart hq, lookup_attach_behind hp]
  kept q hq := h.lookup_apart hq
  onWay := by
    rintro before p leaf after rfl q hne hp hq
    obtain ⟨mid, -, hmid⟩ := h.split
    cases hmid with
    | cons path name doc leaf hafter =>
      exact hafter.isSome_lookup hne (lookup_attach_above hne hp) hq

/-! ## Other stores -/

/-- The type of a field can be reached, or it is unit. -/
theorem reaches_fieldOf (s : Store) (base : Ty) (name : String) :
    s.Reaches base (s.fieldOf base name).scheme.type ∨
      (s.fieldOf base name).scheme = .mono .unit := by
  rw [fieldOf]
  cases h : s.findMeth? base name with
  | none => exact Or.inr rfl
  | some m =>
    obtain ⟨-, u, inner, hu, hx⟩ := findMeth?_spec h
    exact Or.inl (hu.tail (.child (by simp [hx, Shape.children])))

/-- From unit one comes nowhere. -/
theorem eq_unit_of_reaches (h : s.Reaches .unit t) : t = .unit := by
  rcases h.cases_head with rfl | ⟨u, hu, -⟩
  · rfl
  · cases hu with
    | child h => cases h
    | link h => cases h

/-- No cells can be reached from unit. -/
theorem not_reachesCell_unit (s : Store) (c : CellId) : ¬ s.ReachesCell .unit c := by
  rintro ⟨u, hu, hx⟩
  rw [eq_unit_of_reaches hu] at hx
  cases hx

/-- Where the cells of a type are the same, a field is attached to it in the same
way. -/
theorem SameCells.attach (h : s.SameCells s' base) (path : List String)
    (name doc : String) (leaf : Ty) :
    s'.attach base path name doc leaf = s.attach base path name doc leaf := by
  induction path generalizing base with
  | nil => rfl
  | cons first path ih =>
    have hfield : s'.fieldOf base first = s.fieldOf base first := by
      rw [fieldOf, fieldOf, h.findMeth?]
    have hsame : s.SameCells s' (s.fieldOf base first).scheme.type := by
      rcases s.reaches_fieldOf base first with hr | hunit
      · exact h.of_reaches hr
      · rw [hunit]
        exact fun c hc => absurd hc (s.not_reachesCell_unit c)
    rw [attach_cons, attach_cons, hfield, ih hsame]

/-- A field is attached on top of the type. -/
theorem reaches_attach (s s' : Store) (base : Ty) (path : List String)
    (name doc : String) (leaf : Ty) :
    s'.Reaches (s.attach base path name doc leaf) base := by
  cases path with
  | nil => exact .single (.child (by simp [attach, Ty.addMeth, Shape.children]))
  | cons first path =>
    exact .single (.child (by simp [attach_cons, Ty.addMeth, Shape.children]))

/-- If the cells of a type have not changed, and do not change any more once a field
has been attached to it, they are the same in the end. -/
theorem SameCells.trans_attach {s₁ : Store} (h : s.SameCells s₁ base)
    (h' : s₁.SameCells s' (s.attach base path name doc leaf)) : s.SameCells s' base := by
  intro c hc
  have hmid : s₁.ReachesCell base c := (reachesCell_iff_of_cells h).2 hc
  exact (h' c (hmid.of_reaches (s.reaches_attach s₁ ..))).trans (h c hc)

/-! ## Terms of a store -/

/-- A layer that names no variables and no cells belongs to the store if its subterms
do. -/
theorem scoped_of {x : Shape Ty} (hbinders : x.binders = []) (hcells : x.cells = [])
    (hx : ∀ u ∈ x.children, s.Scoped u) : s.Scoped (.of x) := by
  refine .layer ⟨fun v hv => ?_, fun c hc => ?_⟩ hx
  · rw [Ty.shape_of, hbinders] at hv
    cases hv
  · rw [Ty.shape_of, hcells] at hc
    cases hc

theorem scoped_unit (s : Store) : s.Scoped .unit :=
  scoped_of rfl rfl (by simp [Shape.children])

theorem scoped_cell {c : CellId} (hc : c < s.cells.size) (pos : Option Range) :
    s.Scoped (.node pos (.cell c)) := by
  refine .layer ⟨fun v hv => absurd hv List.not_mem_nil, fun d hd => ?_⟩ fun u hu =>
    absurd hu List.not_mem_nil
  rw [List.mem_singleton.1 hd]
  exact hc

/-- **The layers of a type with a field attached below it** are those that could be
reached, those of the field, and methods that quantify what a method did that could be
reached, or nothing. So they have a property that all of these have, if it asks
nothing of a method but of the variables that it quantifies. -/
theorem everywhere_attach {P : Shape Ty → Prop} (hunit : P (.tuple []))
    (hnew : ∀ m inner, m.scheme.vars = [] → P (.meth m inner))
    (hmeth : ∀ m m' inner inner', m'.scheme.vars = m.scheme.vars → P (.meth m inner) →
      P (.meth m' inner'))
    (hbase : ∀ u, s.Reaches base u → u.Everywhere P) (hleaf : leaf.Everywhere P)
    (path : List String) (name doc : String) :
    (s.attach base path name doc leaf).Everywhere P := by
  have hadd : ∀ {t : Ty} {m : Method Ty}, P (.meth m t) →
      m.scheme.type.Everywhere P → t.Everywhere P →
      (t.addMeth m).Everywhere P := fun hm htype ht =>
    .layer hm fun u hu => by
      rcases List.mem_pair.1 hu with rfl | rfl
      · exact htype
      · exact ht
  induction path generalizing base with
  | nil => exact hadd (hnew _ _ rfl) hleaf (hbase base .refl)
  | cons first path ih =>
    rw [attach_cons]
    refine hadd ?_ (ih fun u hu => ?_) (hbase base .refl)
    · cases h : s.findMeth? base first with
      | none => exact hnew _ _ (by simp [retype, fieldOf, h, Scheme.mono])
      | some m =>
        obtain ⟨-, u, inner, hu, hx⟩ := findMeth?_spec h
        refine hmeth m _ inner _ (by simp [retype, fieldOf, h]) ?_
        rw [← hx]
        exact (hbase u hu).here
    · rcases s.reaches_fieldOf base first with hr | hfield
      · exact hbase u (hr.trans hu)
      · rw [hfield] at hu
        rw [eq_unit_of_reaches hu]
        exact .layer hunit fun w hw => absurd hw List.not_mem_nil

/-- A field that is attached belongs to the larger store to which its type belongs. -/
theorem scoped_attach (hv : s.vars.size ≤ s'.vars.size)
    (hc : s.cells.size ≤ s'.cells.size) (hw : s.WellFormed) (hbase : s.Scoped base)
    (hleaf : s'.Scoped leaf) (path : List String) (name doc : String) :
    s'.Scoped (s.attach base path name doc leaf) := by
  have hcells : ∀ (m : Method Ty) (inner : Ty), ∀ c ∈ (Shape.meth m inner).cells,
      c < s'.cells.size :=
    fun m inner c hc => absurd hc List.not_mem_nil
  refine everywhere_attach s'.scoped_unit.here (fun m inner hm => ⟨?_, hcells m inner⟩) ?_
    ?_ hleaf path name doc
  · simp [Shape.binders, hm]
  · intro m m' inner inner' hvars hm
    exact ⟨by simpa [Shape.binders, hvars] using hm.1, hcells m' inner'⟩
  · exact fun u hu => (hbase.of_reaches hw hu).mono hv hc

end TypeGraph.Store
