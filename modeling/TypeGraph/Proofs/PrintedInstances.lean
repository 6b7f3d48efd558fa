import TypeGraph.Proofs.CopiedText
import TypeGraph.Proofs.GuardedLinks
import TypeGraph.Proofs.Registration
import TypeGraph.Proofs.Setup

/-!
# Instances as the command line prints them

A type that is built from a manifest has no levels yet, so at level 0 all of its
variables are quantified (`Raw.generalize`). The instances are then made one after the
other in a store that grows with each of them: an instance has the text of the type,
and its variables are just those that were drawn for it (`Shows`). So no two instances
share a variable, and none has a variable of the type. The output is a header and one
line for each instance, which shows the number of the instance, the text of the type
and the variables of the instance (`instantiate_prints`).
-/

namespace TypeGraph

namespace Store

variable {s s' s₁ : Store} {t u base leaf : Ty} {v : VarId} {level : Level}

/-- A valid store to which something was added, so that it is still valid. -/
structure Grows (s s' : Store) : Prop where
  within : s.Within s'
  valid : s'.Valid

theorem Grows.trans (h : s.Grows s₁) (h' : s₁.Grows s') : s.Grows s' :=
  ⟨h.within.trans h'.within, h'.valid⟩

/-! ## Types as they are built -/

/-- A layer as expressions build it: no hole and no method that quantifies anything,
and a cell only if it holds a variable without a level. -/
def RawLayer (s : Store) (x : Shape Ty) : Prop :=
  x ≠ .hole ∧ x.binders = [] ∧ ∀ c ∈ x.cells, ∃ v, s.freeVar? c = some v ∧
    (s.var v).level = .unbounded

/-- A type as expressions build it. -/
def Raw (s : Store) (t : Ty) : Prop := t.Everywhere s.RawLayer

namespace Raw

/-- No link leads out of such a type. -/
theorem of_reaches (ht : s.Raw t) (hr : s.Reaches t u) : s.Raw u := by
  refine everywhere_of_reaches ht (fun c variance w hc hl => ?_) hr
  obtain ⟨v, hf, -⟩ := hc.2.2 c (by simp)
  rw [link?_eq_none_of_freeVar? hf] at hl
  cases hl

theorem scope (ht : s.Raw t) : s.Scoped t := by
  refine ht.imp fun x hx => ⟨fun v hv => ?_, fun c hc => ?_⟩
  · rw [hx.2.1] at hv
    cases hv
  · obtain ⟨v, hf, -⟩ := hx.2.2 c hc
    exact lt_of_freeVar? hf

theorem complete (ht : s.Raw t) : s.Complete t := fun _ hu => (ht.of_reaches hu).here.1

theorem level_eq (ht : s.Raw t) (hv : s.ReachesVar t v) :
    (s.var v).level = .unbounded := by
  rcases hv with ⟨c, ⟨u, hu, hx⟩, hf⟩ | ⟨u, hu, hb⟩
  · obtain ⟨w, hw, hlevel⟩ := (ht.of_reaches hu).here.2.2 c (by simp [hx])
    cases hf.symm.trans hw
    exact hlevel
  · rw [(ht.of_reaches hu).here.2.1] at hb
    cases hb

/-- **All free variables are quantified**, at whatever depth. -/
theorem generalize (ht : s.Raw t) (hs : s.Acyclic) (depth : Int) :
    s.generalize (.depth depth) t = ⟨s.freeVars t, t⟩ := by
  have habove : ∀ v ∈ s.freeVars t, (s.var v).level.above (.depth depth) = true := by
    intro v hv
    rw [ht.level_eq (reachesVar_of_mem_freeVars hs hv)]
    rfl
  rw [Store.generalize, List.filter_eq_self.2 habove]

theorem mono (h : s.Within s') (hw : s.WellFormed) (ht : s.Raw t) : s'.Raw t := by
  refine ht.imp fun x ⟨hhole, hbinders, hcells⟩ => ⟨hhole, hbinders, fun c hc => ?_⟩
  obtain ⟨v, hf, hlevel⟩ := hcells c hc
  refine ⟨v, (h.freeVar? (lt_of_freeVar? hf)).trans hf, ?_⟩
  rw [h.var (hw.var_lt hf), hlevel]

/-- A layer without variables and cells is as expressions build it. -/
theorem of_plain {x : Shape Ty} (hhole : x ≠ .hole) (hbinders : x.binders = [])
    (hcells : x.cells = []) (hx : ∀ u ∈ x.children, s.Raw u) : s.Raw (.of x) := by
  refine .layer ⟨hhole, hbinders, fun c hc => ?_⟩ hx
  rw [Ty.shape_of, hcells] at hc
  cases hc

theorem unit (s : Store) : s.Raw .unit :=
  of_plain (by simp) rfl rfl (by simp [Shape.children])

/-- Fields are attached without quantifying anything. -/
theorem attach (h : s.Within s') (hw : s.WellFormed) (hbase : s.Raw base)
    (hleaf : s'.Raw leaf) (path : List String) (name doc : String) :
    s'.Raw (s.attach base path name doc leaf) := by
  have hmeth : ∀ (m : Method Ty) (inner : Ty), m.scheme.vars = [] →
      s'.RawLayer (.meth m inner) := fun m inner hm =>
    ⟨by simp, hm, fun c hc => absurd hc List.not_mem_nil⟩
  refine everywhere_attach (unit s').here hmeth ?_
    (fun u hu => (hbase.of_reaches hu).mono h hw) hleaf path name doc
  exact fun m m' inner inner' hvars hm => hmeth m' inner' (hvars.trans hm.2.1)

end Raw

end Store

namespace Registry

open Manifest (TypeExpr)
open Store

variable {s : Store} {base : Ty}

/-- An expression builds a type without levels. -/
theorem build_raw (e : TypeExpr) (hs : s.Valid) :
    s.Grows (e.build s).2 ∧ (e.build s).2.Raw (e.build s).1 := by
  obtain ⟨hwithin, -⟩ := within_build e hs.wellFormed
  suffices h : (e.build s).2.Valid ∧
    (e.build s).2.Raw (e.build s).1 from ⟨⟨hwithin, h.1⟩, h.2⟩
  clear hwithin
  induction e with
  | name text =>
    rw [TypeExpr.build]
    split
    · refine ⟨(hs.newVar .unbounded .empty).newCell (by simp [newVar]), ?_⟩
      refine .layer ⟨by simp [makeVar, Ty.shape], rfl,
        fun c hc => ⟨s.vars.size, ?_, ?_⟩⟩ fun u hu => ?_
      · rw [List.mem_singleton.1 hc, freeVar?_eq_some]
        exact Array.getElem?_push_size
      · simp [makeVar, newVar, newCell, var]
      · exact absurd hu List.not_mem_nil
    · split
      · exact ⟨hs, Raw.unit s⟩
      · split
        · exact ⟨hs, .of_plain (by simp) rfl rfl (by simp [Shape.children])⟩
        · exact ⟨hs, .of_plain (by simp) rfl rfl (by simp [Shape.children])⟩
  | list e ih
  | nullable e ih =>
    exact ⟨ih.1, .of_plain (by simp) rfl rfl (List.forall_mem_singleton.2 ih.2)⟩

/-- Build the type of an expression in a store. -/
abbrev buildState (e : TypeExpr) : StateM Store Ty := modifyGet e.build

theorem attachFields_raw (fields : List (Attachment TypeExpr)) (hs : s.Valid)
    (hbase : s.Raw base) :
    ∃ t s', (fields.foldlM (Recipe.attachField buildState) base).run s = (t, s') ∧
      s.Grows s' ∧ s'.Raw t := by
  induction fields generalizing s base with
  | nil => exact ⟨base, s, rfl, ⟨.refl s, hs⟩, hbase⟩
  | cons a fields ih =>
    obtain ⟨hgrows, hleaf⟩ := build_raw a.origin hs
    have hattached := hbase.attach hgrows.within hs.wellFormed hleaf a.path a.name a.doc
    obtain ⟨t, s', hrun, hgrows', ht⟩ := ih hgrows.valid hattached
    exact ⟨t, s', hrun, hgrows.trans hgrows', ht⟩

/-- **A registered type is built without levels.** -/
theorem materialize_raw {r : Registry TypeExpr} {name : String}
    (hname : name ∈ r.names) (hs : s.Valid) :
    ∃ t s', (r.materialize buildState name).run s = (.ok t, s') ∧
      s.Grows s' ∧ s'.Raw t := by
  obtain ⟨entry, hentry⟩ :=
    Option.isSome_iff_exists.1 ((Keyed.contains_iff r name).2 hname)
  have hfind : r.find? name = some entry.recipe := by rw [find?, hentry, Option.map_some]
  suffices hmake : ∃ t s', (entry.recipe.make buildState).run s = (t, s') ∧
      s.Grows s' ∧ s'.Raw t by
    obtain ⟨t, s', hrun, h⟩ := hmake
    refine ⟨t, s', ?_, h⟩
    rw [materialize, hfind]
    exact run_bind_eq hrun
  unfold Recipe.make
  cases entry.recipe.start with
  | none => exact attachFields_raw _ hs (Raw.unit s)
  | some origin =>
    obtain ⟨hgrows, hbase⟩ := build_raw origin hs
    obtain ⟨t, s', hrun, hgrows', ht⟩ :=
      attachFields_raw entry.recipe.fields hgrows.valid hbase
    exact ⟨t, s', hrun, hgrows.trans hgrows', ht⟩

end Registry

namespace Command

open Manifest
open Store

variable {s s' s₀ : Store} {t : Ty} {level : Level}

/-! ## Instances -/

/-- **An instance shows the type** `t` of the store `s`: it has its text and as many
variables, and these are the ones from `low` up to `high`. -/
structure Shows (s : Store) (t : Ty) (low high : Nat) (i : Instance) : Prop where
  rendered : i.rendered = s.render t
  length : i.vars.length = (s.freeVars t).length
  nodup : i.vars.Nodup
  drawn : ∀ v : Nat, v ∈ i.vars ↔ low ≤ v ∧ v < high

/-- As many variables have been drawn as the type has. -/
theorem Shows.high_eq {low high : Nat} {i : Instance} (h : Shows s t low high i)
    (hle : low ≤ high) :
    high = low + (s.freeVars t).length := by
  have hperm : i.vars.Perm (List.range' low (high - low)) := by
    refine (List.perm_ext_iff_of_nodup h.nodup (List.nodup_range' ..)).2 fun v => ?_
    rw [h.drawn, List.mem_range'_1, Nat.add_sub_cancel' hle]
  rw [← h.length, hperm.length_eq, List.length_range', Nat.add_sub_cancel' hle]

/-- The variables of a copy in which all free variables are replaced are those that
were drawn. -/
theorem mem_freeVars_copy {t' : Ty} {onVar : VarId → VarId} {onCell : CellId → CellId}
    (h : s.GraphCopy s' (instanceOptions (s.freeVars t) level) t t' onVar onCell)
    (hs : s.Valid) (ht : s.Scoped t) (x : VarId) :
    x ∈ (s.freeVars t).map onVar ↔ s.vars.size ≤ x ∧ x < s'.vars.size := by
  have hselects : ∀ v y, (instanceOptions (s.freeVars t) level).selects v y = true ↔
      v ∈ s.freeVars t := by
    simp [instanceOptions]
  constructor
  · intro hx
    obtain ⟨v, hv, rfl⟩ := List.mem_map.1 hx
    obtain ⟨hle, hnew⟩ :=
      h.var_new v (reachesVar_of_mem_freeVars hs.acyclic hv) ((hselects v _).2 hv)
    exact ⟨hle, (Array.getElem?_eq_some_iff.1 hnew).1⟩
  · rintro ⟨hle, hlt⟩
    obtain ⟨v, hv, rfl⟩ := h.var_onto x hle hlt
    refine List.mem_map_of_mem
      ((hselects v (s.var v)).1 (Bool.eq_true_of_not_eq_false fun hkept => ?_))
    -- A variable that is kept is none that was drawn.
    rw [(h.var_kept v hv).2 hkept] at hle
    exact Nat.not_le_of_lt (hv.lt hs.wellFormed ht) hle

/-- **Such a copy shows its original.** -/
theorem shows_copy {t' : Ty} {onVar : VarId → VarId} {onCell : CellId → CellId}
    (h : s.GraphCopy s' (instanceOptions (s.freeVars t) level) t t' onVar onCell)
    (hs : s.Valid) (hs' : s'.Valid) (ht : s.Scoped t) :
    Shows s t s.vars.size s'.vars.size ⟨t', s'.render t', s'.freeVars t'⟩ := by
  have hlt : ∀ v ∈ s.freeVars t, v < s.vars.size := fun v hv =>
    (reachesVar_of_mem_freeVars hs.acyclic hv).lt hs.wellFormed ht
  refine ⟨h.render hs.acyclic hs'.acyclic hs.wellFormed ht, ?_, ?_, ?_⟩ <;>
    rw [h.freeVars hs.acyclic hs'.acyclic hs.wellFormed ht]
  · exact List.length_map _
  · exact (freeVars_nodup s t).map_on fun v hv w hw heq =>
      h.var_inj (hlt v hv) (hlt w hw) heq
  · exact mem_freeVars_copy h hs ht

namespace Instance

theorem make_outcome {scheme : TypeScheme} {type : Ty}
    (h : s.instantiate scheme level = (.ok type, s')) :
    Attempt.outcome (make scheme level) s =
      (.ok ⟨type, s'.render type, s'.freeVars type⟩, s') :=
  Attempt.outcome_bind_ok h

/-- **Making an instance succeeds, and the instance shows the type** as it was when it
was generalized. -/
theorem make_shows (hw : s₀.WellFormed) (ht : s₀.Raw t) (h : s₀.Grows s) (level : Level) :
    ∃ i s', Attempt.outcome (make (s₀.generalize (.depth 0) t) level) s =
        (.ok i, s') ∧ s.Grows s' ∧
      Shows s₀ t s.vars.size s'.vars.size i := by
  have ht' : s.Raw t := ht.mono h.within hw
  have hfree : s.freeVars t = s₀.freeVars t :=
    h.within.freeVars h.valid.acyclic hw ht.scope
  have hrender : s.render t = s₀.render t := h.within.render h.valid.acyclic hw ht.scope
  -- The type is the same in the store in which it was generalized and in the one in
  -- which the instance is made.
  suffices hmade : ∃ t' s',
      s.instantiate ⟨s.freeVars t, t⟩ level = (.ok t', s') ∧ s.Grows s' ∧
      Shows s t s.vars.size s'.vars.size ⟨t', s'.render t', s'.freeVars t'⟩ by
    obtain ⟨t', s', hrun, hgrows, hshow⟩ := hmade
    rw [ht.generalize (h.within.acyclic h.valid.acyclic), ← hfree]
    exact ⟨_, s', make_outcome hrun, hgrows, hshow.rendered.trans hrender,
      hfree ▸ hshow.length, hshow.nodup, hshow.drawn⟩
  by_cases hnil : s.freeVars t = []
  · refine ⟨t, s, ?_, ⟨.refl s, h.valid⟩, rfl, rfl, freeVars_nodup s t,
      fun v => by simp [hnil]⟩
    rw [instantiate, hnil]
    rfl
  · obtain ⟨t', s', onVar, onCell, hfresh, hcopy, hw', hs'⟩ :=
      exists_graphCopy h.valid.wellFormed ht'.scope
        ht'.complete (instanceOptions (s.freeVars t) level)
    have hvalid : s'.Valid := ⟨hw', hs' h.valid.acyclic⟩
    refine ⟨t', s', ?_, ⟨hcopy.within, hvalid⟩, shows_copy hcopy h.valid hvalid ht'.scope⟩
    rw [instantiate, List.isEmpty_eq_false_iff.2 hnil]
    exact hfresh

end Instance

/-! ## Several instances -/

/-- **Instances that were made one after the other**, while the variables from `low`
up to `high` were drawn. -/
structure AllShow (s : Store) (t : Ty) (low high : Nat)
    (instances : List Instance) : Prop where
  rendered : ∀ i ∈ instances, i.rendered = s.render t
  length : ∀ i ∈ instances, i.vars.length = (s.freeVars t).length
  nodup : ∀ i ∈ instances, i.vars.Nodup
  disjoint : instances.Pairwise fun i j => ∀ v ∈ i.vars, v ∉ j.vars
  drawn : ∀ v : Nat, (∃ i ∈ instances, v ∈ i.vars) ↔ low ≤ v ∧ v < high

theorem AllShow.cons {low mid high : Nat} {i : Instance} {rest : List Instance}
    (h : Shows s t low mid i) (h' : AllShow s t mid high rest) (hlow : low ≤ mid)
    (hhigh : mid ≤ high) : AllShow s t low high (i :: rest) where
  rendered := List.forall_mem_cons.2 ⟨h.rendered, h'.rendered⟩
  length := List.forall_mem_cons.2 ⟨h.length, h'.length⟩
  nodup := List.forall_mem_cons.2 ⟨h.nodup, h'.nodup⟩
  disjoint := by
    refine List.pairwise_cons.2 ⟨fun j hj v hi hv => ?_, h'.disjoint⟩
    have hbelow : v < mid := ((h.drawn v).1 hi).2
    have habove : mid ≤ v := ((h'.drawn v).1 ⟨j, hj, hv⟩).1
    exact Nat.not_le_of_lt hbelow habove
  drawn v := by
    rw [List.exists_mem_cons_iff, h.drawn, h'.drawn]
    omega

/-- **Any number of instances can be made.** Each of them draws as many variables as
the type has. -/
theorem Instance.makeMany_show (hw : s₀.WellFormed) (ht : s₀.Raw t) (h : s₀.Grows s)
    (level : Level) (n : Nat) :
    ∃ instances s', Attempt.outcome (makeMany (s₀.generalize (.depth 0) t) level n) s =
        (.ok instances, s') ∧
      instances.length = n ∧ s'.vars.size = s.vars.size + n * (s₀.freeVars t).length ∧
      AllShow s₀ t s.vars.size s'.vars.size instances := by
  induction n generalizing s with
  | zero =>
    refine ⟨[], s, rfl, rfl, by simp, by simp, by simp, by simp, .nil, fun v => ?_⟩
    simp
  | succ n ih =>
    obtain ⟨i, s₁, hfirst, hgrows, hi⟩ := make_shows hw ht h level
    obtain ⟨rest, s', hrest, hlength, hsize, hshow⟩ := ih (h.trans hgrows)
    have hdrawn := hi.high_eq hgrows.within.vars_le
    refine ⟨i :: rest, s', ?_, congrArg (· + 1) hlength, ?_,
      hshow.cons hi hgrows.within.vars_le ?_⟩
    · exact (Attempt.outcome_bind_ok hfirst).trans (Attempt.outcome_bind_ok hrest)
    · rw [hsize, hdrawn, Nat.succ_mul]
      omega
    · exact hsize ▸ Nat.le_add_right _ _

/-! ## The command -/

theorem run_printInstances {name : String} {count level : Int} {instances : List Instance}
    (h : Attempt.outcome (Instance.makeMany (s.generalize (.depth 0) t)
      (.depth level) count.toNat) s = (.ok instances, s')) :
    (printInstances name t count level : StateM Store _).run s =
      (.ok ⟨instancesText name (s.renderScheme (s.generalize (.depth 0) t)) instances,
        [.generalized name (s.generalize (.depth 0) t).vars.length]⟩, s') := by
  have hget : (getThe Store : StateM Store Store).run s = (s, s) := rfl
  have hmade :
      (modifyGetThe Store (Instance.makeMany (s.generalize (.depth 0) t)
        (.depth level) count.toNat) :
      StateM Store _).run s = (.ok instances, s') := h
  exact (run_bind_eq hget).trans (run_bind_eq hmade)

/-- **A process that runs the command** makes the type once, and then the instances. -/
theorem Process.run_instantiate {p : Process} {name : String} (hp : p.store.Valid)
    (hname : name ∈ p.registry.names) (count : Nat) (level : Int) :
    ∃ t s instances p', (p.registry.materialize Registry.buildState name).run p.store =
        (.ok t, s) ∧
      p.store.Grows s ∧ s.Raw t ∧
      p.run (.instantiate name count level) =
        (.ok (instancesText name (s.renderScheme (s.generalize (.depth 0) t)) instances),
          p') ∧
      instances.length = count ∧ AllShow s t s.vars.size
        (s.vars.size + count * (s.freeVars t).length) instances := by
  obtain ⟨t, s, hmade, hgrows, ht⟩ := Registry.materialize_raw hname hp
  obtain ⟨instances, s', hmany, hlength, hsize, hshow⟩ :=
    Instance.makeMany_show hgrows.valid.wellFormed ht ⟨.refl s, hgrows.valid⟩
      (.depth level) count
  rw [hsize] at hshow
  let report : Report :=
    ⟨instancesText name (s.renderScheme (s.generalize (.depth 0) t)) instances,
      [.generalized name (s.generalize (.depth 0) t).vars.length]⟩
  have hreport : ((Action.instantiate name count level).run p.registry
      Registry.buildState).run p.store = (.ok report, s') :=
    (run_bind_eq hmade).trans (run_printInstances hmany)
  refine ⟨t, s, instances, report.events.foldl note { p with store := s' }, hmade, hgrows,
    ht, ?_, hlength, hshow⟩
  unfold Process.run
  rw [hreport]

/-- The line of an instance: its number, its text, and its variables in brackets.
A variable is shown as an underscore and its own number, and both kinds of numbers
count from one. -/
def instanceLine (number : Nat) (text : String) (vars : List VarId) : String :=
  toString number ++ ": " ++ text ++ " [" ++
    " ".intercalate (vars.map fun v => "_" ++ toString (v + 1)) ++ "]\n"

theorem Instance.line_eq (number : Nat) (i : Instance) :
    i.line number = instanceLine number i.rendered i.vars := by
  have hvars : i.vars.map Store.varText = i.vars.map fun v => "_" ++ toString (v + 1) :=
    List.map_congr_left fun v _ => by simp [Store.varText, toString]
  rw [Instance.line, instanceLine, hvars]
  simp [toString]

/-- **The text of instances that look the same** is a header and a line for each of
them. -/
theorem instancesText_eq {instances : List Instance} {text : String}
    (h : ∀ i ∈ instances, i.rendered = text) (name scheme : String) :
    instancesText name scheme instances = String.join
      ((name ++ " : " ++ scheme ++ "\n") ::
        (instances.map Instance.vars).mapIdx fun index vars =>
          instanceLine (index + 1) text vars) := by
  have hlines : instances.zipIdx.map (fun entry => entry.1.line (entry.2 + 1)) =
      (instances.map Instance.vars).mapIdx fun index vars =>
        instanceLine (index + 1) text vars := by
    rw [List.mapIdx_eq_zipIdx_map, List.zipIdx_map, List.map_map]
    refine List.map_congr_left fun entry hentry => ?_
    have htext : entry.1.rendered = text := h entry.1 (List.fst_mem_of_mem_zipIdx hentry)
    rw [Instance.line_eq, htext]
    rfl
  calc instancesText name scheme instances
      = s!"{name} : {scheme}\n" ++
        String.join (instances.zipIdx.map fun entry => entry.1.line (entry.2 + 1)) := rfl
    _ = _ := by
        rw [hlines, String.join_cons]
        simp [toString]

/-- **Every instance that is printed has variables of its own.** However
configurations are decoded, for every one that loads, every registered name, every
count and every level, the command makes the type `t` of the name once. What it prints
is the header, which has the name and the scheme of `t`, and one line for each of
`count` instances, in which the text is that of `t` each time. Each line lists as many
variables as were generalized, none of them twice, none that is also listed for
another instance, and none of `t`; and no others are drawn after those of `t`. -/
theorem instantiate_prints {decode : Decoder} {text : String} {c : Config}
    (loads : Config.load decode text = .ok c) {name : String}
    (registered : name ∈ (c.register groundRegistry).names) {path : String}
    (given : path ≠ "") (count : Nat) (level : Int) :
    ∃ t s, ∃ ids : List (List VarId), ∃ log,
      ((c.register groundRegistry).materialize Registry.buildState name).run
        .empty = (.ok t, s) ∧
      Outcome.ofInvocation decode ⟨path, .instantiate name count level⟩ (.ok text) =
        ⟨0, String.join
          ((name ++ " : " ++ s.renderScheme (s.generalize (.depth 0) t) ++ "\n") ::
            ids.mapIdx fun index vars => instanceLine (index + 1) (s.render t) vars),
          log⟩ ∧
      ids.length = count ∧
      (∀ vars ∈ ids, vars.length = (s.generalize (.depth 0) t).vars.length ∧ vars.Nodup ∧
        ∀ v ∈ vars, ¬ s.ReachesVar t v) ∧
      ids.Pairwise (fun vars others => ∀ v ∈ vars, v ∉ others) ∧
      ∀ v, (∃ vars ∈ ids, v ∈ vars) ↔
        s.vars.size ≤ v ∧
          v < s.vars.size + count * (s.generalize (.depth 0) t).vars.length := by
  obtain ⟨_, p, -, hsetup, hconfigured⟩ := Process.setup_of_load loads path {}
  have hregistry : p.registry = c.register groundRegistry := hconfigured.registry
  have hstore : p.store = .empty := hconfigured.store
  obtain ⟨t, s, instances, p', hmade, hgrows, ht, hrun, hlength, hshow⟩ :=
    p.run_instantiate (hstore ▸ Valid.empty) (hregistry ▸ registered) count level
  have hvars : (s.generalize (.depth 0) t).vars = s.freeVars t := by
    rw [ht.generalize hgrows.valid.acyclic]
  rw [hregistry, hstore] at hmade
  refine ⟨t, s, instances.map Instance.vars, p'.log, hmade, ?_, ?_,
    List.forall_mem_map.2 fun i hi => ?_, ?_, fun v => ?_⟩
  · unfold Outcome.ofInvocation
    rw [if_neg given, hsetup]
    dsimp only
    rw [hrun, instancesText_eq hshow.rendered]
  · rw [List.length_map, hlength]
  · refine ⟨hvars ▸ hshow.length i hi, hshow.nodup i hi, fun v hv hreach => ?_⟩
    have hold : v < s.vars.size := hreach.lt hgrows.valid.wellFormed ht.scope
    exact Nat.not_le_of_lt hold ((hshow.drawn v).1 ⟨i, hi, hv⟩).1
  · exact List.pairwise_map.2 hshow.disjoint
  · rw [hvars, ← hshow.drawn]
    simp

/-- A type with a field that hides another, and both of them with a variable. -/
def hiddenFieldText : String :=
  "types:\n" ++
    "  - name: p\n    type: \"['a?]\"\n" ++
    "  - name: p.x\n    type: \"'b\"\n" ++
    "  - name: p.x\n    type: \"['c]\"\n"

def hiddenFieldConfig : Config :=
  { types := [{ name := "p", type := "['a?]" }, { name := "p.x", type := "'b" },
      { name := "p.x", type := "['c]" }] }

/-- What there is to see of a type that was made: how many variables were drawn for it,
how many of them are quantified, its scheme, and its text. -/
def seen (made : Except Error Ty × Store) : Option (Nat × Nat × String × String) :=
  made.1.toOption.map fun t =>
    let scheme := made.2.generalize (.depth 0) t
    (made.2.vars.size, scheme.vars.length, made.2.renderScheme scheme, made.2.render t)

/-- Three variables are drawn for the type, and all three are quantified. -/
theorem hiddenField_seen
    (h : ((hiddenFieldConfig.register groundRegistry).materialize
      Registry.buildState "p").run .empty = (.ok t, s)) :
    s.vars.size = 3 ∧ (s.generalize (.depth 0) t).vars.length = 3 ∧
      s.renderScheme (s.generalize (.depth 0) t) = "['c?].\x7bx : ['a]\x7d" ∧
      s.render t = "['b?].\x7bx : ['a]\x7d" := by
  have hseen : seen (((hiddenFieldConfig.register groundRegistry).materialize
      Registry.buildState "p").run .empty) =
      some (3, 3, "['c?].\x7bx : ['a]\x7d", "['b?].\x7bx : ['a]\x7d") := by
    decide +kernel
  rw [h] at hseen
  simpa only [seen, Except.toOption, Option.map_some, Option.some.injEq,
    Prod.mk.injEq] using hseen

/-- Two instances of a type with three variables, one of which is hidden: it is listed,
although the text does not show it. Nothing but six variables is drawn after those of
the type, and none of the six is listed for both instances. -/
theorem instantiate_prints_hidden :
    let printed :=
      "p : ['c?].\x7bx : ['a]\x7d\n" ++
        "1: ['b?].\x7bx : ['a]\x7d [_4 _5 _6]\n" ++
        "2: ['b?].\x7bx : ['a]\x7d [_7 _8 _9]\n"
    ∃ ids others : List VarId, ∃ log,
      Outcome.ofInvocation Config.decode ⟨"p.yaml", .instantiate "p" 2 1⟩
        (.ok hiddenFieldText) = ⟨0, printed, log⟩ ∧
      printed = String.join ["p : ['c?].\x7bx : ['a]\x7d\n",
        instanceLine 1 "['b?].\x7bx : ['a]\x7d" ids,
        instanceLine 2 "['b?].\x7bx : ['a]\x7d" others] ∧
      ids.length = 3 ∧ others.length = 3 ∧ (∀ v ∈ ids, v ∉ others) ∧
      ∀ v, v ∈ ids ∨ v ∈ others ↔ 3 ≤ v ∧ v < 9 := by
  intro printed
  have hload : Config.load Config.decode hiddenFieldText = .ok hiddenFieldConfig :=
    Config.load_eq_ok_of_toOption (by decide +kernel)
  have hname : "p" ∈ (hiddenFieldConfig.register groundRegistry).names := by
    decide +kernel
  have hstdout : (Outcome.ofInvocation Config.decode ⟨"p.yaml", .instantiate "p" 2 1⟩
      (.ok hiddenFieldText)).stdout = printed := by
    decide +kernel
  obtain ⟨t, s, instances, log, hmade, hrun, hlength, heach, hdisjoint, hdrawn⟩ :=
    instantiate_prints hload hname (by decide : "p.yaml" ≠ "") 2 1
  obtain ⟨ids, others, rfl⟩ := List.length_eq_two.1 hlength
  obtain ⟨hsize, hvars, hscheme, hrender⟩ := hiddenField_seen hmade
  rw [hscheme, hrender] at hrun
  have hlines := hstdout.symm.trans (congrArg Outcome.stdout hrun)
  refine ⟨ids, others, log, hrun.trans (by rw [hlines]), hlines, ?_, ?_,
    by simpa using hdisjoint, fun v => ?_⟩
  · exact (heach ids (by simp)).1.trans hvars
  · exact (heach others (by simp)).1.trans hvars
  · simpa [hsize, hvars] using hdrawn v

end Command

end TypeGraph
