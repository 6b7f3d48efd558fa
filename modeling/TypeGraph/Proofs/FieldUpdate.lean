import TypeGraph.Proofs.Attachment
import TypeGraph.Proofs.LocalCopies

/-!
# Updates of nested fields

`addMethPath` puts a method at the end of a path of fields that exist. It goes down
the path and puts every field on the way again on top of its parent, so at each level
the new field shadows the old one. `invokePath` goes down the same path in a loop of
its own. Both stop at the first name that is not found, and with the same error
(`Missing`).

When all names are found, the update obeys the laws of a field
(`addMethPath_updates`): behind the path stands the method, the fields on the way keep
everything but their types, paths that part from this one lead where they did, and
what is below all methods is what it was. Only the last of these asks for anything, an
acyclic term: in a cycle of methods there is nothing below.
-/

namespace TypeGraph.Store

variable {s : Store} {t u : Ty} {path q : List String} {first : String}
  {leaf m field : Method Ty} {e : Error}

/-! ## Paths that stop -/

/-- **A name on the path is not found**: the error has the name, and the place of the
type in which it was looked up. -/
inductive Missing (s : Store) : Ty → List String → Error → Prop
  | here {t : Ty} {first : String} (rest : List String) (h : s.findMeth? t first = none) :
      Missing s t (first :: rest) (methodNotFound t first)
  | inside {t : Ty} {first : String} {rest : List String} {field : Method Ty} {e : Error}
      (hfield : s.findMeth? t first = some field)
      (h : Missing s field.scheme.type rest e) : Missing s t (first :: rest) e

theorem missing_cons_iff {rest : List String} :
    s.Missing t (first :: rest) e ↔
      (s.findMeth? t first = none ∧ e = methodNotFound t first) ∨
        ∃ field, s.findMeth? t first = some field ∧
          s.Missing field.scheme.type rest e := by
  constructor
  · intro h
    cases h with
    | here _ h => exact Or.inl ⟨h, rfl⟩
    | inside hfield h => exact Or.inr ⟨_, hfield, h⟩
  · rintro (⟨h, rfl⟩ | ⟨field, hfield, h⟩)
    · exact .here rest h
    · exact .inside hfield h

/-- A lookup goes on in the type of the field that was found. -/
theorem invokePath_cons_eq_error_iff {rest : List String} :
    s.invokePath t (first :: rest) = .error e ↔
      (s.findMeth? t first = none ∧ e = methodNotFound t first) ∨
        ∃ field, s.findMeth? t first = some field ∧
          s.invokePath field.scheme.type rest = .error e := by
  have htype : (Scheme.mono t).type = t := rfl
  rw [invokePath, List.foldlM_cons, htype, invoke]
  cases hfield : s.findMeth? t first with
  | none =>
    show Except.error (methodNotFound t first) = .error e ↔ _
    simp [eq_comm]
  | some field =>
    simp only [reduceCtorEq, false_and, Option.some.injEq, exists_eq_left', false_or]
    cases rest with
    | nil => constructor <;> intro h <;> cases h
    | cons second rest => rfl

theorem invokePath_eq_error_iff :
    s.invokePath t path = .error e ↔ s.Missing t path e := by
  induction path generalizing t with
  | nil => exact iff_of_false nofun nofun
  | cons first path ih => simp only [invokePath_cons_eq_error_iff, missing_cons_iff, ih]

theorem addMethPath_eq_error_iff :
    s.addMethPath t path leaf = .error e ↔ s.Missing t path e := by
  induction path generalizing t with
  | nil => exact iff_of_false nofun nofun
  | cons first path ih =>
    rw [missing_cons_iff, addMethPath]
    cases hfield : s.findMeth? t first with
    | none => simp [eq_comm]
    | some field =>
      simp only [reduceCtorEq, false_and, Option.some.injEq, exists_eq_left', false_or]
      rw [← ih]
      cases s.addMethPath field.scheme.type path leaf with
      | error e' => exact Iff.rfl
      | ok v => exact iff_of_false nofun nofun

/-! ## Paths that lead to a method -/

/-- **The path leads to the method**: its last name finds the method in the type of
the field before. -/
inductive LeadsTo (s : Store) (m : Method Ty) : Ty → List String → Prop
  | here {t : Ty} {first : String} (h : s.findMeth? t first = some m) :
    LeadsTo s m t [first]
  | inside {t : Ty} {first : String} {rest : List String} {field : Method Ty}
      (hfield : s.findMeth? t first = some field)
      (h : LeadsTo s m field.scheme.type rest) : LeadsTo s m t (first :: rest)

theorem lookup_eq_some_iff {scheme : TypeScheme} :
    s.lookup t q = some scheme ↔ s.invokePath t q = .ok scheme := by
  rw [lookup]
  cases s.invokePath t q with
  | error e => exact iff_of_false (by simp [Except.toOption]) (by simp)
  | ok found => simp [Except.toOption]

/-- Behind the name of a field stands what stands in its type. -/
theorem lookup_of_field (hfield : s.findMeth? t first = some field) (hq : q ≠ []) :
    s.lookup t (first :: q) = s.lookup field.scheme.type q := by
  rw [lookup_cons, hfield, Option.bind_some, if_neg hq]

/-- What a path resolves to is the scheme of the method that it leads to. -/
theorem LeadsTo.invokePath (h : s.LeadsTo m t path) :
    s.invokePath t path = .ok m.scheme := by
  rw [← lookup_eq_some_iff]
  induction h with
  | here h => rw [lookup_cons, h, Option.bind_some, if_pos rfl]
  | @inside t first rest field hfield h ih =>
    have hrest : rest ≠ [] := by
      rintro rfl
      cases h
    rw [lookup_of_field hfield hrest, ih]

/-! ## Updates -/

/-- An update below a field updates the type of the field, and puts the field on top. -/
theorem addMethPath_cons_eq_ok {rest : List String}
    (h : s.addMethPath t (first :: rest) leaf = .ok u) :
    ∃ field v, s.findMeth? t first = some field ∧
      s.addMethPath field.scheme.type rest leaf = .ok v ∧
      u = t.addMeth (retype field v) := by
  rw [addMethPath] at h
  cases hfield : s.findMeth? t first with
  | none =>
    rw [hfield] at h
    cases h
  | some field =>
    rw [hfield] at h
    cases hv : s.addMethPath field.scheme.type rest leaf with
    | error e =>
      simp only [hv] at h
      cases h
    | ok v =>
      simp only [hv] at h
      cases h
      exact ⟨field, v, rfl, hv, rfl⟩

/-- An update puts its method at the end of the path. -/
theorem extends_of_addMethPath (h : s.addMethPath t path leaf = .ok u) :
    s.Extends leaf t path u := by
  induction path generalizing t u with
  | nil =>
    cases h
    exact .here t
  | cons first path ih =>
    obtain ⟨field, v, hfield, hv, rfl⟩ := addMethPath_cons_eq_ok h
    exact .inside (findMeth?_spec hfield).1
      (fun q hq => (lookup_of_field hfield hq).symm) (ih hv)

/-- **The fields on the way keep everything but their types.** -/
theorem leadsTo_of_addMethPath (h : s.addMethPath t path leaf = .ok u)
    (hne : q ≠ []) (hq : q <+: path) :
    ∃ m type, s.LeadsTo m t q ∧ s.LeadsTo (retype m type) u q := by
  induction path generalizing t u q with
  | nil => exact absurd (List.prefix_nil.1 hq) hne
  | cons first path ih =>
    obtain ⟨field, v, hfield, hv, rfl⟩ := addMethPath_cons_eq_ok h
    obtain ⟨x, q, rfl⟩ := List.exists_cons_of_ne_nil hne
    obtain ⟨rfl, hrest⟩ := List.cons_prefix_cons.1 hq
    have hname : (retype field v).name = x := (findMeth?_spec hfield).1
    have htop : s.findMeth? (t.addMeth (retype field v)) x = some (retype field v) := by
      rw [findMeth?_addMeth, if_pos hname]
    by_cases hq : q = []
    · subst hq
      exact ⟨field, v, .here hfield, .here htop⟩
    · obtain ⟨m, type, hm, hm'⟩ := ih hv hq hrest
      exact ⟨m, type, .inside hfield hm, .inside htop hm'⟩

/-- The layers of an acyclic term do not depend on the bound. -/
theorem AcyclicBelow.layersWithin (ha : s.AcyclicBelow t) {k n : Nat}
    (hk : s.weight t ≤ k) (hn : s.weight t ≤ n) :
    s.layersWithin k t = s.layersWithin n t := by
  obtain ⟨s', hacyclic, -, hbelow⟩ := ha.exists_acyclic
  rw [← hbelow.weight] at hk hn
  rw [← hbelow.layersWithin, ← hbelow.layersWithin, layersWithin_bound hacyclic hk hn]

theorem layers_addMeth (ha : s.AcyclicBelow t) (m : Method Ty) :
    s.layers (t.addMeth m) = (⟨none, m⟩ :: (s.layers t).1, (s.layers t).2) := by
  have hsize : t.size < (t.addMeth m).size :=
    Ty.size_lt_of_mem (by simp [Ty.addMeth, Shape.children])
  obtain ⟨k, hk⟩ : ∃ k, s.span (t.addMeth m) = k + 1 :=
    ⟨s.span (t.addMeth m) - 1, by unfold span; omega⟩
  have hspan : s.span t ≤ k := by
    unfold span at hk ⊢
    omega
  have hsame : s.layersWithin k t = s.layers t :=
    ha.layersWithin ((s.weight_le_span t).trans hspan) (s.weight_le_span t)
  have hderef : s.deref (t.addMeth m) = .node none (.meth m t) :=
    deref_settled (by simp [Ty.addMeth])
  rw [layers, hk, layersWithin, nextLayer, hderef]
  dsimp only
  rw [hsame]

/-- **Below a method stands what stood below the type.** -/
theorem demeth_addMeth (ha : s.AcyclicBelow t) (m : Method Ty) :
    s.demeth (t.addMeth m) = s.demeth t := by
  rw [demeth, demeth, layers_addMeth ha]

/-- **The laws of a nested field**: `u` is `t` with the method put at the end of the
path. -/
structure Updated (s : Store) (t : Ty) (path : List String) (leaf : Method Ty)
    (u : Ty) : Prop where
  /-- Behind the path stands the method, -/
  added : s.invokePath u (path ++ [leaf.name]) = .ok leaf.scheme
  /-- and behind that whatever stands in its type. -/
  behind : ∀ rest, rest ≠ [] → ∀ scheme,
    s.invokePath u (path ++ leaf.name :: rest) = .ok scheme ↔
      s.invokePath leaf.scheme.type rest = .ok scheme
  /-- A path that parts from this one leads where it did, or nowhere if it did not
  lead anywhere. -/
  apart : ∀ q, ¬ q <+: path ++ [leaf.name] → ¬ path ++ [leaf.name] <+: q → ∀ scheme,
    s.invokePath u q = .ok scheme ↔ s.invokePath t q = .ok scheme
  /-- A path on the way still leads to the method that it led to, with another type. -/
  onWay : ∀ q, q ≠ [] → q <+: path → ∃ m m', s.LeadsTo m t q ∧ s.LeadsTo m' u q ∧
    s.invokePath t q = .ok m.scheme ∧ s.invokePath u q = .ok m'.scheme ∧
      m'.scheme.vars = m.scheme.vars ∧
    m'.optional = m.optional ∧ m'.doc = m.doc ∧ m'.jsonName = m.jsonName
  /-- Below all methods nothing changes. -/
  base : s.demeth u = s.demeth t

theorem updated_of_addMethPath (ha : s.AcyclicBelow t)
    (h : s.addMethPath t path leaf = .ok u) :
    s.Updated t path leaf u where
  added := by
    rw [← lookup_eq_some_iff, (extends_of_addMethPath h).lookup_behind, if_pos rfl]
  behind rest hrest scheme := by
    rw [← lookup_eq_some_iff, ← lookup_eq_some_iff,
      (extends_of_addMethPath h).lookup_behind, if_neg hrest]
  apart q hq hq' scheme := by
    rw [← lookup_eq_some_iff, ← lookup_eq_some_iff,
      (extends_of_addMethPath h).lookup_apart hq' hq]
  onWay q hne hq := by
    obtain ⟨m, type, hm, hm'⟩ := leadsTo_of_addMethPath h hne hq
    exact ⟨m, retype m type, hm, hm', hm.invokePath, hm'.invokePath, rfl, rfl, rfl, rfl⟩
  base := by
    cases path with
    | nil =>
      cases h
      exact demeth_addMeth ha leaf
    | cons first path =>
      obtain ⟨field, v, -, -, rfl⟩ := addMethPath_cons_eq_ok h
      exact demeth_addMeth ha _

/-- **To put a method at the end of a path is to update a nested field.** It fails
just when the path leads nowhere, and with the error that looking it up gives. -/
theorem addMethPath_updates (ha : s.AcyclicBelow t) (path : List String)
    (leaf : Method Ty) :
    (∀ e, (s.addMethPath t path leaf = .error e ↔ s.invokePath t path = .error e) ∧
        (s.invokePath t path = .error e ↔ s.Missing t path e)) ∧
      ∀ u, s.addMethPath t path leaf = .ok u → s.Updated t path leaf u := by
  refine ⟨fun e => ⟨?_, invokePath_eq_error_iff⟩, fun u h => updated_of_addMethPath ha h⟩
  rw [addMethPath_eq_error_iff, invokePath_eq_error_iff]

/-- The first cell is linked to a type with two fields of one name, over a variable;
the outer one has a field of that name once more. The third cell is linked into
a cycle. -/
def nestedExample : Store :=
  ⟨#[⟨.depth 1, .empty⟩],
    #[.link .covariant (.of (.meth
        { name := "a", optional := true, doc := "outer", jsonName := "A",
          scheme :=
            ⟨[0], .addMeth .unit { name := "a", scheme := .mono (.of (.cell 1)) }⟩ }
        (.addMeth (.of (.cell 1)) { name := "a", scheme := .mono (.ground "int") }))),
      .free 0, .link .invariant (.of (.list .array (.of (.cell 2))))]⟩

/-- An update below fields of its own name, with a type that leads into the cycle, and
one that stops at the second name. -/
theorem addMethPath_updates_nested :
    let leaf : Method Ty := { name := "a", scheme := .mono (.of (.cell 2)) }
    ¬ nestedExample.Acyclic ∧
      (∃ u, nestedExample.addMethPath (.of (.cell 0)) ["a", "a"] leaf = .ok u ∧
        nestedExample.Updated (.of (.cell 0)) ["a", "a"] leaf u) ∧
      ∃ e, nestedExample.addMethPath (.of (.cell 0)) ["a", "b"] leaf = .error e ∧
        nestedExample.invokePath (.of (.cell 0)) ["a", "b"] = .error e := by
  intro leaf
  have ha : nestedExample.AcyclicBelow (.of (.cell 0)) :=
    acyclicBelow_of_rank (fun c => if c = 0 then 1 else if c = 1 then 0 else 2) (n := 2)
      (by decide) (by decide)
  refine ⟨fun h => ?_, ?_, ?_⟩
  · exact h 2 _ _ rfl ⟨.of (.cell 2), .single (.child List.mem_cons_self), rfl⟩
  · obtain ⟨u, hu⟩ :
        ∃ u, nestedExample.addMethPath (.of (.cell 0)) ["a", "a"] leaf = .ok u := ⟨_, rfl⟩
    exact ⟨u, hu, (addMethPath_updates ha ["a", "a"] leaf).2 u hu⟩
  · obtain ⟨e, he⟩ : ∃ e, nestedExample.addMethPath (.of (.cell 0)) ["a", "b"] leaf =
        .error e := ⟨_, rfl⟩
    exact ⟨e, he, ((addMethPath_updates ha ["a", "b"] leaf).1 e).1.1 he⟩

end TypeGraph.Store
