import TypeGraph.Proofs.FieldUpdate

/-!
# Fields that are created on the way

`attach` and `addMethPath` both put a method at the end of a path of fields, and as
long as all fields on the way are found they do the same. They differ at the first
name that is not found: there the update fails, while `attach` goes on with a new
field of the unit type. So `attach` is an update after all. It puts one method at the
end of the names that are found, and all fields that are created stand in the type of
that method (`attach_refines_addMethPath`).
-/

namespace TypeGraph.Store

variable {s : Store} {t u base leaf : Ty} {path : List String} {first name doc : String}
  {m field : Method Ty} {e : Error}

/-! ## The names that are found -/

/-- The number of names at the start of a path that are found, each in the type of the
field before. -/
def resolved (s : Store) (t : Ty) : List String → Nat
  | [] => 0
  | first :: rest =>
    match s.findMeth? t first with
    | none => 0
    | some field => s.resolved field.scheme.type rest + 1

theorem resolved_of_missing (h : s.findMeth? t first = none) (rest : List String) :
    s.resolved t (first :: rest) = 0 := by
  rw [resolved, h]

theorem resolved_of_found (h : s.findMeth? t first = some field) (rest : List String) :
    s.resolved t (first :: rest) = s.resolved field.scheme.type rest + 1 := by
  rw [resolved, h]

/-- A path with a name that is not found is longer than what is found of it. -/
theorem Missing.resolved_lt (h : s.Missing t path e) :
    s.resolved t path < path.length := by
  induction h with
  | here rest h =>
    rw [resolved_of_missing h, List.length_cons]
    omega
  | inside hfield _ ih =>
    rw [resolved_of_found hfield, List.length_cons]
    omega

/-- A path that resolves stops at no name. -/
theorem exists_invokePath_iff :
    (∃ scheme, s.invokePath t path = .ok scheme) ↔ ∀ e, ¬ s.Missing t path e := by
  simp only [← invokePath_eq_error_iff]
  cases s.invokePath t path with
  | error e => exact iff_of_false (by simp) (by simp)
  | ok scheme => exact iff_of_true ⟨scheme, rfl⟩ (by simp)

/-- **The start of a path resolves as far as its names are found.** -/
theorem exists_invokePath_take_iff {j : Nat} (hj : j ≤ path.length) :
    (∃ scheme, s.invokePath t (path.take j) = .ok scheme) ↔ j ≤ s.resolved t path := by
  rw [exists_invokePath_iff]
  induction path generalizing t j with
  | nil =>
    obtain rfl : j = 0 := Nat.le_zero.1 hj
    exact iff_of_true (by rintro e ⟨⟩) (Nat.zero_le _)
  | cons first rest ih =>
    cases j with
    | zero => exact iff_of_true (by rintro e ⟨⟩) (Nat.zero_le _)
    | succ j =>
      simp only [List.take_succ_cons, missing_cons_iff]
      cases hfield : s.findMeth? t first with
      | none =>
        rw [resolved_of_missing hfield]
        exact iff_of_false (fun h => h _ (Or.inl ⟨rfl, rfl⟩)) (by omega)
      | some field =>
        rw [resolved_of_found hfield, Nat.succ_le_succ_iff,
          ← ih (Nat.le_of_succ_le_succ hj)]
        simp

/-! ## Attaching as an update -/

theorem addMethPath_of_found (hfield : s.findMeth? t first = some field)
    {rest : List String} (h : s.addMethPath field.scheme.type rest m = .ok u) :
    s.addMethPath t (first :: rest) m = .ok (t.addMeth (retype field u)) := by
  rw [addMethPath, hfield]
  simp only [h]
  rfl

theorem fieldOf_of_found (hfield : s.findMeth? t first = some field) :
    s.fieldOf t first = field := by
  rw [fieldOf, hfield]
  rfl

/-- Where all fields are found, to attach a field is to update. -/
theorem attach_of_addMethPath
    (h : s.addMethPath base path { name, scheme := .mono leaf, doc } = .ok u) :
    s.attach base path name doc leaf = u := by
  induction path generalizing base u with
  | nil =>
    cases h
    rfl
  | cons first path ih =>
    obtain ⟨field, v, hfield, hv, rfl⟩ := addMethPath_cons_eq_ok h
    rw [attach_cons, fieldOf_of_found hfield, ih hv]

/-- **Behind the names that are found the rest of the path is created**, in the type
of one new method. -/
theorem Missing.attach (h : s.Missing base path e) (name doc : String) (leaf : Ty) :
    ∃ first rest, path.drop (s.resolved base path) = first :: rest ∧
      s.addMethPath base (path.take (s.resolved base path))
          { name := first, scheme := .mono (s.attach .unit rest name doc leaf) } =
        .ok (s.attach base path name doc leaf) := by
  induction h with
  | @here t first rest h =>
    have hnew : s.fieldOf t first = { name := first, scheme := .mono .unit } := by
      rw [fieldOf, h]
      rfl
    rw [resolved_of_missing h]
    refine ⟨first, rest, rfl, ?_⟩
    rw [attach_cons, hnew]
    rfl
  | @inside t first rest field e hfield _ ih =>
    obtain ⟨next, others, hdrop, hadd⟩ := ih
    rw [resolved_of_found hfield]
    refine ⟨next, others, hdrop, ?_⟩
    rw [attach_cons, fieldOf_of_found hfield]
    exact addMethPath_of_found hfield hadd

/-- **To attach a field is to update one.** If the fields of the path are all found,
the result is that of putting the method at its end. Otherwise it is that of putting
another method at the end of the `k` names that are found: it is called as the name
behind them and documents nothing, and its type is the unit type with the field
attached to it below what remains of the path. -/
theorem attach_refines_addMethPath (s : Store) (base : Ty) (path : List String)
    (name doc : String) (leaf : Ty) :
    let k := s.resolved base path
    (∀ j ≤ path.length, (∃ scheme, s.invokePath base (path.take j) = .ok scheme) ↔
        j ≤ k) ∧
      (∀ u, s.addMethPath base path { name, scheme := .mono leaf, doc } = .ok u →
        s.attach base path name doc leaf = u) ∧
      ∀ e, s.addMethPath base path { name, scheme := .mono leaf, doc } = .error e →
        ∃ hk : k < path.length,
          s.addMethPath base (path.take k)
              { name := path[k],
                scheme := .mono (s.attach .unit (path.drop (k + 1)) name doc leaf) } =
            .ok (s.attach base path name doc leaf) := by
  intro k
  refine ⟨fun j hj => exists_invokePath_take_iff hj,
    fun u hu => attach_of_addMethPath hu, fun e he => ?_⟩
  have hmissing : s.Missing base path e := addMethPath_eq_error_iff.1 he
  have hk : k < path.length := hmissing.resolved_lt
  refine ⟨hk, ?_⟩
  obtain ⟨first, rest, hdrop, hadd⟩ := hmissing.attach name doc leaf
  have hcons : path[k] :: path.drop (k + 1) = first :: rest :=
    (List.drop_eq_getElem_cons hk).symm.trans hdrop
  obtain ⟨hfirst, hrest⟩ := List.cons.inj hcons
  rw [hfirst, hrest]
  exact hadd

/-- Below fields of its own name, one of which is hidden by the other: with all fields
found, and with the third name missing. The leaf leads into a cycle. -/
theorem attach_refines_addMethPath_nested :
    let leaf : Ty := .of (.cell 2)
    let created : Ty := nestedExample.attach .unit ["c"] "a" "new" leaf
    nestedExample.addMethPath (.of (.cell 0)) ["a", "a"]
        { name := "a", scheme := .mono leaf, doc := "new" } =
        .ok (nestedExample.attach (.of (.cell 0)) ["a", "a"] "a" "new" leaf) ∧
      nestedExample.addMethPath (.of (.cell 0)) ["a", "a"]
          { name := "b", scheme := .mono created } =
        .ok (nestedExample.attach (.of (.cell 0)) ["a", "a", "b", "c"]
          "a" "new" leaf) := by
  intro leaf created
  constructor
  · obtain ⟨u, hu⟩ : ∃ u, nestedExample.addMethPath (.of (.cell 0)) ["a", "a"]
        { name := "a", scheme := .mono leaf, doc := "new" } = .ok u := ⟨_, rfl⟩
    rw [hu, (attach_refines_addMethPath nestedExample (.of (.cell 0)) ["a", "a"] "a"
      "new" leaf).2.1 u hu]
  · obtain ⟨e, he⟩ : ∃ e, nestedExample.addMethPath (.of (.cell 0)) ["a", "a", "b", "c"]
        { name := "a", scheme := .mono leaf, doc := "new" } = .error e := ⟨_, rfl⟩
    obtain ⟨_, hattach⟩ :=
      (attach_refines_addMethPath nestedExample (.of (.cell 0)) ["a", "a", "b", "c"] "a"
        "new" leaf).2.2 e he
    exact hattach

end TypeGraph.Store
