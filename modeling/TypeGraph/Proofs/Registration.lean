import TypeGraph.Manifest.TypeExpr
import TypeGraph.Proofs.Attachment
import TypeGraph.Proofs.Keys
import TypeGraph.Proofs.Attempt
import Mathlib.Data.List.DropRight

/-!
# What a registry means after any sequence of registrations

The names are the roots of what was registered, and the type of a root is made from
the registrations of that root alone: it starts with what the last plain one builds,
or with unit, and the later dotted ones are attached to it in their order. `recipeOf`
says so for the recipe of a root, and `registered_meaning` for the type that is built
from it: where each path leads in the type follows from where it leads in the types
that the origins built.

Origins are free to build what they want, and may fail. All that is asked of them is
that none of them links a cell of what the others have built before it
(`Undisturbed`), for that would change a type after its fields have been looked up.
The origins of a manifest never do (`undisturbed_expr`).
-/

namespace TypeGraph.Registry

variable {τ : Type}

/-! ## Registrations -/

/-- A registration. -/
structure Call (τ : Type) where
  name : String
  doc : String
  origin : τ
deriving DecidableEq

namespace Call

/-- The text before the first dot. -/
def root (c : Call τ) : String := .ofList (c.name.toList.takeWhile (· ≠ '.'))

/-- The segments of the text behind the first dot; none if there is no dot. -/
def path (c : Call τ) : List String :=
  match c.name.toList.dropWhile (· ≠ '.') with
  | [] => []
  | _ :: rest => Path.segments (.ofList rest)

/-- Is there no dot in the name? -/
def isPlain (c : Call τ) : Bool := c.path.isEmpty

/-- The field that a dotted registration asks for. -/
def field (c : Call τ) : Attachment τ :=
  ⟨c.path.dropLast, c.path.getLastD "", c.doc, c.origin⟩

/-- The recipe of the root after the registration, given the one before. -/
def revise (c : Call τ) (known : Option (Recipe τ)) : Recipe τ :=
  if c.isPlain then ⟨some c.origin, []⟩
  else { known.getD ⟨none, []⟩ with
         fields := (known.getD ⟨none, []⟩).fields ++ [c.field] }

end Call

theorem cut_eq (cs : List Char) :
    Path.cut cs = (cs.takeWhile (· ≠ '.'), match cs.dropWhile (· ≠ '.') with
      | [] => []
      | _ :: rest => (Path.cut rest).1 :: (Path.cut rest).2) := by
  induction cs with
  | nil => rfl
  | cons c cs ih =>
    rw [Path.cut]
    by_cases hc : c = '.'
    · simp [hc]
    · simp only [ih, hc, if_false]
      simp [hc]

theorem rootAndRest_name (c : Call τ) : Path.rootAndRest c.name = (c.root, c.path) := by
  rw [Path.rootAndRest, cut_eq, Call.root, Call.path]
  cases c.name.toList.dropWhile (· ≠ '.') with
  | nil => rfl
  | cons dot rest => simp [Path.segments, Path.rootAndRest]

/-- The registry after some registrations. -/
def registerAll (calls : List (Call τ)) : Registry τ :=
  calls.foldl (fun r c => r.register c.name c.doc c.origin) .empty

/-- The last plain registration of a root. -/
def starting (calls : List (Call τ)) (root : String) : Option (Call τ) :=
  (calls.filter fun c => c.root = root ∧ c.isPlain).getLast?

/-- The registrations of a root after its last plain one. -/
def extending (calls : List (Call τ)) (root : String) : List (Call τ) :=
  (calls.filter (·.root = root)).rtakeWhile (!·.isPlain)

/-- The recipe that some registrations leave for a root. -/
def recipeOf (calls : List (Call τ)) (root : String) : Recipe τ :=
  ⟨(starting calls root).map (·.origin), (extending calls root).map Call.field⟩

/-- A registration revises the recipe of its root. -/
theorem register_eq (r : Registry τ) (c : Call τ) :
    r.register c.name c.doc c.origin = r.insert ⟨c.root, c.revise (r.find? c.root)⟩ := by
  rw [register, rootAndRest_name, Call.revise, Call.isPlain, Call.field]
  cases c.path with
  | nil => rfl
  | cons first others => simp [List.getLast_eq_getLastD, List.getLast?_cons]

theorem find?_register (r : Registry τ) (c : Call τ) (root : String) :
    (r.register c.name c.doc c.origin).find? root =
      if c.root = root then some (c.revise (r.find? root)) else r.find? root := by
  rw [register_eq, find?, Keyed.find?_insert]
  by_cases hroot : c.root = root
  · rw [if_pos hroot, if_pos hroot, hroot]
    rfl
  · rw [if_neg hroot, if_neg hroot]
    rfl

theorem registerAll_concat (calls : List (Call τ)) (c : Call τ) :
    registerAll (calls ++ [c]) = (registerAll calls).register c.name c.doc c.origin := by
  rw [registerAll, List.foldl_append]
  rfl

theorem mem_names_registerAll (calls : List (Call τ)) (root : String) :
    root ∈ (registerAll calls).names ↔ ∃ c ∈ calls, c.root = root := by
  induction calls using List.reverseRecOn with
  | nil => simp [registerAll, names, Keyed.keys, Keyed.empty]
  | append_singleton calls c ih =>
    rw [registerAll_concat, register_eq, names, Keyed.mem_keys_insert, ← names, ih]
    simp [or_comm, eq_comm]

theorem recipeOf_concat (calls : List (Call τ)) (c : Call τ) (root : String) :
    recipeOf (calls ++ [c]) root =
      if c.root = root then c.revise (some (recipeOf calls root))
      else recipeOf calls root := by
  by_cases hroot : c.root = root
  · by_cases hplain : c.isPlain = true
    · simp [recipeOf, starting, extending, Call.revise, hroot, hplain,
        List.rtakeWhile_concat_neg]
    · simp [recipeOf, starting, extending, Call.revise, hroot, hplain,
        List.rtakeWhile_concat_pos]
  · simp [recipeOf, starting, extending, hroot]

/-- Without registrations there is nothing to start with and nothing to attach. -/
theorem recipeOf_unknown {calls : List (Call τ)} {root : String}
    (h : ∀ c ∈ calls, c.root ≠ root) :
    recipeOf calls root = ⟨none, []⟩ := by
  have hnone : calls.filter (·.root = root) = [] := by simpa using h
  have hplain : calls.filter (fun c => c.root = root ∧ c.isPlain) = [] :=
    List.filter_eq_nil_iff.2 fun c hc hroot => h c hc (of_decide_eq_true hroot).1
  rw [recipeOf, starting, extending, hnone, hplain]
  rfl

/-- **The recipe of a root after any registrations.** -/
theorem find?_registerAll (calls : List (Call τ)) (root : String) :
    (registerAll calls).find? root = if ∃ c ∈ calls, c.root = root then
      some (recipeOf calls root) else none := by
  induction calls using List.reverseRecOn with
  | nil => rfl
  | append_singleton calls c ih =>
    rw [registerAll_concat, find?_register, ih, recipeOf_concat]
    by_cases hroot : c.root = root
    · have hknown : ∃ d ∈ calls ++ [c], d.root = root := ⟨c, by simp, hroot⟩
      rw [if_pos hroot, if_pos hroot, if_pos hknown]
      by_cases hcalls : ∃ d ∈ calls, d.root = root
      · rw [if_pos hcalls]
      · rw [if_neg hcalls, recipeOf_unknown fun d hd hr => hcalls ⟨d, hd, hr⟩]
        rfl
    · simp [hroot]

/-! ## Building -/

section Building

variable {build : τ → StoreM Ty} {s : Store} {base : Ty}
  {calls ds : List (Call τ)} {root : String}

/-- What the type of a root starts with. -/
def start (build : τ → StoreM Ty) (calls : List (Call τ)) (root : String) : StoreM Ty :=
  match starting calls root with
  | some c => build c.origin
  | none => pure .unit

/-- What a dotted registration builds, with the path to put it at. -/
def part (build : τ → StoreM Ty) (c : Call τ) : StoreM (List String × Ty) :=
  return (c.path, ← build c.origin)

/-- What the registrations of a root build, one after the other: the type to start
with, and the parts to attach to it. -/
def parts (build : τ → StoreM Ty) (calls : List (Call τ)) (root : String) :
    StoreM (Ty × List (List String × Ty)) := do
  let base ← start build calls root
  return (base, ← (extending calls root).mapM (part build))

theorem path_of_dotted {c : Call τ} (h : c.path ≠ []) :
    c.field.path ++ [c.field.name] = c.path := by
  rw [Call.field, List.getLastD_eq_getLast?, List.getLast?_eq_some_getLast h]
  exact List.dropLast_append_getLast h

/-- **No registration links a cell of what has been built before it**, when one after
the other is attached to the type. -/
def Undisturbed (build : τ → StoreM Ty) : Store → Ty → List (Call τ) → Prop
  | _, _, [] => True
  | s, base, c :: ds => ∀ leaf s', (build c.origin).outcome s = (.ok leaf, s') →
      s.SameCells s' base ∧ Undisturbed build s'
        (s.attach base c.field.path c.field.name c.field.doc leaf) ds

/-- **Attaching fields is building their parts and assembling them**, in the store
where all of them are built. -/
theorem attachFields_outcome (hdotted : ∀ c ∈ ds, c.path ≠ [])
    (hsame : Undisturbed build s base ds) :
    match (ds.mapM (part build)).outcome s with
    | (.ok parts, s') => s.SameCells s' base ∧
        ∃ t, ((ds.map Call.field).foldlM (Recipe.attachField build) base :
            StoreM Ty).outcome s = (.ok t, s') ∧
          s'.Assembles base parts t
    | (.error e, s') =>
        ((ds.map Call.field).foldlM (Recipe.attachField build) base : StoreM Ty).outcome
          s = (.error e, s') := by
  induction ds generalizing s base with
  | nil => exact ⟨fun _ _ => rfl, base, rfl, .nil base⟩
  | cons c ds ih =>
    obtain ⟨hpath, hdotted⟩ := List.forall_mem_cons.1 hdotted
    rw [List.mapM_cons, List.map_cons, List.foldlM_cons]
    rcases hrun : (build c.origin).outcome s with ⟨e | leaf, s₁⟩
    · have hpart : (part build c).outcome s = (.error e, s₁) :=
        Attempt.outcome_bind_error hrun
      have hfield : (Recipe.attachField build base c.field).outcome s = (.error e, s₁) :=
        (Attempt.outcome_bind_ok (Attempt.outcome_get s)).trans
          (Attempt.outcome_bind_error hrun)
      rw [Attempt.outcome_bind_error hpart, Attempt.outcome_bind_error hfield]
    · have hpart : (part build c).outcome s = (.ok (c.path, leaf), s₁) :=
        Attempt.outcome_bind_ok hrun
      have hfield : (Recipe.attachField build base c.field).outcome s =
          (.ok (s.attach base c.field.path c.field.name c.field.doc leaf), s₁) :=
        (Attempt.outcome_bind_ok (Attempt.outcome_get s)).trans
          (Attempt.outcome_bind_ok hrun)
      rw [Attempt.outcome_bind_ok hpart, Attempt.outcome_bind_ok hfield]
      obtain ⟨hbase, hnext⟩ := hsame leaf s₁ hrun
      have hrest := ih hdotted hnext
      rcases hparts : (ds.mapM (part build)).outcome s₁ with ⟨e | parts, s₂⟩
      · rw [hparts] at hrest
        rw [Attempt.outcome_bind_error hparts]
        exact hrest
      · rw [hparts] at hrest
        obtain ⟨hlater, t, ht, hassembles⟩ := hrest
        have hall := hbase.trans_attach hlater
        rw [Attempt.outcome_bind_ok hparts]
        refine ⟨hall, t, ht, ?_⟩
        -- The fields on the way are found in the last store as they were when the
        -- part was about to be built.
        rw [← hall.attach] at hassembles
        rw [← path_of_dotted hpath]
        exact .cons _ _ _ _ hassembles

theorem path_of_extending {c : Call τ} (h : c ∈ extending calls root) : c.path ≠ [] := by
  intro hpath
  have hdotted := List.mem_rtakeWhile_imp h
  simp [Call.isPlain, hpath] at hdotted

/-- A root that was registered is built by attaching the fields of its registrations
to what it starts with. -/
theorem materialize_eq (hknown : ∃ c ∈ calls, c.root = root) :
    (registerAll calls).materialize build root = (do
      let base ← start build calls root
      return .ok (← ((extending calls root).map Call.field).foldlM
        (Recipe.attachField build) base)) := by
  rw [materialize, find?_registerAll, if_pos hknown, recipeOf, start]
  cases starting calls root <;> exact bind_assoc ..

/-- **The type of a root is assembled from what the registrations of the root build**,
and if one of them fails, there is none. -/
theorem materialize_outcome (hknown : ∃ c ∈ calls, c.root = root)
    (hsame : ∀ base s₁, (start build calls root).outcome s = (.ok base, s₁) →
      Undisturbed build s₁ base (extending calls root)) :
    match (parts build calls root).outcome s with
    | (.ok (base, parts), s') =>
        ∃ t, ((registerAll calls).materialize build root).outcome s = (.ok (.ok t), s') ∧
          s'.Assembles base parts t
    | (.error e, s') =>
      ((registerAll calls).materialize build root).outcome s = (.error e, s') := by
  rw [materialize_eq hknown, parts]
  rcases hstart : (start build calls root).outcome s with ⟨e | base, s₁⟩
  · rw [Attempt.outcome_bind_error hstart, Attempt.outcome_bind_error hstart]
  · rw [Attempt.outcome_bind_ok hstart, Attempt.outcome_bind_ok hstart]
    have hattach :=
      attachFields_outcome (fun _ => path_of_extending) (hsame base s₁ hstart)
    rcases hparts :
      ((extending calls root).mapM (part build)).outcome s₁ with ⟨e | parts, s₂⟩
    · rw [hparts] at hattach
      rw [Attempt.outcome_bind_error hparts]
      exact Attempt.outcome_bind_error hattach
    · rw [hparts] at hattach
      obtain ⟨-, t, ht, hassembles⟩ := hattach
      rw [Attempt.outcome_bind_ok hparts]
      exact ⟨t, Attempt.outcome_bind_ok ht, hassembles⟩

end Building

/-! ## The meaning of a registry -/

theorem names_sorted (r : Registry τ) : r.names.Pairwise (· < ·) :=
  List.pairwise_map.2 r.sorted

/-- What is registered under other roots does not matter. -/
theorem find?_registerAll_filter (calls : List (Call τ)) (root : String) :
    (registerAll calls).find? root =
      (registerAll (calls.filter (·.root = root))).find? root := by
  have hstarting : starting (calls.filter (·.root = root)) root =
      starting calls root := by
    rw [starting, starting, List.filter_filter]
    refine congrArg List.getLast? (List.filter_congr fun c _ => ?_)
    by_cases hroot : c.root = root <;> simp [hroot]
  have hextending : extending (calls.filter (·.root = root)) root =
      extending calls root := by
    rw [extending, extending, List.filter_filter]
    simp
  rw [find?_registerAll, find?_registerAll, recipeOf, recipeOf, hstarting, hextending]
  simp

/-- **What a registry means after any sequence of registrations.** Its names are the
roots, in order, and these are what is found. What is built for a root depends on the
registrations of that root alone: it is assembled from what they build, if they leave
alone what others have built before them. -/
theorem registered_meaning (calls : List (Call τ)) :
    (registerAll calls).names.Pairwise (· < ·) ∧
      (∀ root, root ∈ (registerAll calls).names ↔ ∃ c ∈ calls, c.root = root) ∧
      ∀ root, (((registerAll calls).find? root).isSome = true ↔
          ∃ c ∈ calls, c.root = root) ∧
        ∀ build : τ → StoreM Ty,
          (registerAll calls).materialize build root =
              (registerAll (calls.filter (·.root = root))).materialize build root ∧
            ((∀ c ∈ calls, c.root ≠ root) →
              (registerAll calls).materialize build root =
                pure (.error (typeNotFound root))) ∧
            ∀ s : Store, (∃ c ∈ calls, c.root = root) →
              (∀ base s₁, (start build calls root).outcome s = (.ok base, s₁) →
                Undisturbed build s₁ base (extending calls root)) →
              match (parts build calls root).outcome s with
              | (.ok (base, parts), s') =>
                  ∃ t, ((registerAll calls).materialize build root).outcome
                      s = (.ok (.ok t), s') ∧
                    s'.Assembled base parts t
              | (.error e, s') =>
                ((registerAll calls).materialize build root).outcome s =
                  (.error e, s') := by
  refine ⟨names_sorted _, mem_names_registerAll calls,
    fun root => ⟨?_, fun build => ⟨?_, ?_, ?_⟩⟩⟩
  · rw [find?_registerAll]
    split <;> simp_all
  · rw [materialize, materialize, find?_registerAll_filter]
  · intro hunknown
    rw [materialize, find?_registerAll, if_neg fun ⟨c, hc, hroot⟩ => hunknown c hc hroot]
  · intro s hknown hsame
    have houtcome := materialize_outcome hknown hsame
    split at houtcome
    · obtain ⟨t, ht, hassembles⟩ := houtcome
      exact ⟨t, ht, hassembles.assembled⟩
    · exact houtcome

/-! ## Manifests -/

section Manifests

open Manifest (TypeExpr)

variable {s : Store} {base : Ty}

/-- An expression builds something new. -/
theorem within_build (e : TypeExpr) (hw : s.WellFormed) :
    s.Within (e.build s).2 ∧ (e.build s).2.WellFormed ∧
      (e.build s).2.Scoped (e.build s).1 := by
  induction e with
  | name text =>
    rw [TypeExpr.build]
    split
    · have hvar : (s.newVar .unbounded .empty).2.WellFormed :=
        hw.of_cells (by simp [Store.newVar]) rfl
      refine ⟨(s.within_newVar ..).trans (Store.within_newCell ..), hvar.newCell ?_,
        Store.scoped_cell ?_ none⟩
      · simp [Store.Holds, Store.newVar]
      · simp [Store.makeVar, Store.newVar, Store.newCell]
    · split
      · exact ⟨.refl s, hw, s.scoped_unit⟩
      · split
        · exact ⟨.refl s, hw, Store.scoped_of rfl rfl (by simp [Shape.children])⟩
        · exact ⟨.refl s, hw, Store.scoped_of rfl rfl (by simp [Shape.children])⟩
  | list e ih | nullable e ih =>
    obtain ⟨hk, hw', ht⟩ := ih
    exact ⟨hk, hw', Store.scoped_of rfl rfl (List.forall_mem_singleton.2 ht)⟩

/-- Build the type of an expression. -/
def buildExpr (e : TypeExpr) : StoreM Ty := modifyGetThe Store e.build

/-- **Expressions leave alone what has been built before.** -/
theorem undisturbed_expr (hw : s.WellFormed) (hbase : s.Scoped base)
    (ds : List (Call TypeExpr)) :
    Undisturbed buildExpr s base ds := by
  induction ds generalizing s base with
  | nil => trivial
  | cons c ds ih =>
    intro leaf s' hrun
    cases hrun
    obtain ⟨hwithin, hw', hleaf⟩ := within_build c.origin hw
    refine ⟨fun d hd => hwithin.cells d (hd.lt hw hbase), ih hw' ?_⟩
    exact Store.scoped_attach hwithin.vars_le hwithin.cells_le hw hbase hleaf c.field.path
      c.field.name c.field.doc

/-- Registrations of which later ones hide and extend what earlier ones have put
there. -/
def registeredExample : List (Call TypeExpr) :=
  [⟨"a", "", .name "'x"⟩, ⟨"a.b.c", "", .name "int"⟩, ⟨"b", "", .name "b"⟩,
    ⟨"a.b", "", .name "string"⟩, ⟨"a.b.d", "", .name "bool"⟩]

/-- The field that was put at `b` hides the one below it that was there before, and
the one that came later is put below it. -/
theorem registered_meaning_hidden :
    (registerAll registeredExample).names = ["a", "b"] ∧
      ∃ t s', ((registerAll registeredExample).materialize buildExpr "a").outcome
          .empty = (.ok (.ok t), s') ∧
        s'.lookup t ["b", "d"] = some (.mono (.ground "bool")) ∧
          s'.lookup t ["b", "c"] = none ∧
        (s'.lookup t ["b"]).isSome = true ∧ s'.lookup t ["e"] = none := by
  have hparts : (parts buildExpr registeredExample "a").outcome .empty =
      (.ok (.of (.cell 0), [(["b", "c"], .ground "int"), (["b"], .ground "string"),
          (["b", "d"], .ground "bool")]),
        ⟨#[⟨.unbounded, .empty⟩], #[.free 0]⟩) := rfl
  obtain ⟨-, -, hroot⟩ := registered_meaning registeredExample
  obtain ⟨-, -, houtcome⟩ := (hroot "a").2 buildExpr
  have hmeaning := houtcome .empty (by decide +kernel) fun base s₁ hstart => by
    cases hstart
    exact undisturbed_expr (by decide) (by decide) _
  rw [hparts] at hmeaning
  obtain ⟨t, ht, hassembled⟩ := hmeaning
  refine ⟨by decide +kernel, t, _, ht, ?_, ?_, ?_, ?_⟩
  · exact hassembled.decided [_, _] ["b", "d"] _ [] rfl ["b", "d"]
      List.prefix_rfl (by simp)
  · exact hassembled.decided [_] ["b"] _ [_] rfl ["b", "c"] (by decide) (by decide)
  · exact hassembled.onWay [_, _] ["b", "d"] _ [] rfl ["b"] (by decide)
      (by decide) (by simp)
  · exact hassembled.kept ["e"] (by decide)

end Manifests

end TypeGraph.Registry
