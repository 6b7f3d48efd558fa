import TypeGraph.Generalize
import TypeGraph.Proofs.LocalCopies
import TypeGraph.Proofs.Occurrence

/-!
# The order in which variables are named

A text names its variables as they are met, and a term with methods is written in two
parts: first the visible fields from the outermost to the innermost, then the base.
The free variables are collected layer by layer instead, from all methods, and without
those that a method quantifies. Where nothing is hidden and nothing quantified
(`Plain`), the two come to the same variables in the same order (`meets_rendered`).

A text does not change when its variables have got their names before, in the order in
which it would name them (`Repeatable`). So quantifying all variables of a term does
not change its text (`rendered_names`).
-/

namespace TypeGraph

namespace Names

variable {α β : Type} {v : VarId} {met met' : List VarId}

/-! ## Steps that name variables -/

/-- The step meets the variables of a list, one after the other. Those that were not
seen before are named, in the order in which they are met. -/
def Meets (step : StateM Names α) (met : List VarId) : Prop :=
  ∀ seen : List VarId, (step.run seen.eraseDups).2 = (seen ++ met).eraseDups

/-- The step keeps the names that there are. Done again with the names that it has
left, or more, it gives the same and leaves no others. -/
def Repeatable (step : StateM Names α) : Prop :=
  ∀ names, names <+: (step.run names).2 ∧
    ∀ more, (step.run names).2 <+: more → step.run more = ((step.run names).1, more)

theorem run_name_of_mem {names : Names} {i : Nat} (h : names.idxOf? v = some i) :
    (name v).run names = (nameOf i, names) := by
  simp only [name, modifyGet, MonadStateOf.modifyGet, StateT.modifyGet, StateT.run, h]
  rfl

theorem run_name_of_not_mem {names : Names} (h : names.idxOf? v = none) :
    (name v).run names = (nameOf names.length, names ++ [v]) := by
  simp only [name, modifyGet, MonadStateOf.modifyGet, StateT.modifyGet, StateT.run, h]
  rfl

namespace Meets

theorem pure (a : α) : Meets (pure a) [] := by
  intro seen
  rw [List.append_nil]
  rfl

theorem bind {step : StateM Names α} {next : α → StateM Names β} (h : Meets step met)
    (hnext : ∀ a, Meets (next a) met') : Meets (step >>= next) (met ++ met') := by
  intro seen
  rw [StateT.run_bind, ← List.append_assoc, ← hnext (step.run seen.eraseDups).1, ← h seen]
  rfl

theorem map {step : StateM Names α} (h : Meets step met) (f : α → β) :
    Meets (step >>= fun a => Pure.pure (f a)) met := by
  have hbind := h.bind fun a => pure (f a)
  rwa [List.append_nil] at hbind

theorem mapM {f : α → StateM Names β} {met : α → List VarId} {l : List α}
    (h : ∀ a ∈ l, Meets (f a) (met a)) :
    Meets (l.mapM f) (l.flatMap met) := by
  induction l with
  | nil => exact pure []
  | cons a l ih =>
    obtain ⟨ha, hl⟩ := List.forall_mem_cons.1 h
    rw [List.mapM_cons, List.flatMap_cons]
    exact ha.bind fun _ => (ih hl).map _

theorem name (v : VarId) : Meets (Names.name v) [v] := by
  intro seen
  rw [List.eraseDups_append]
  cases hv : seen.eraseDups.idxOf? v with
  | some i =>
    have hmem : v ∈ seen := by
      by_contra hnot
      rw [List.idxOf?_eq_none_iff.2 (mt List.mem_eraseDups.1 hnot)] at hv
      cases hv
    rw [run_name_of_mem hv]
    simp [List.removeAll, hmem]
  | none =>
    have hnot : v ∉ seen := mt List.mem_eraseDups.2 (List.idxOf?_eq_none_iff.1 hv)
    rw [run_name_of_not_mem hv]
    simp [List.removeAll, List.eraseDups_cons, hnot]

end Meets

namespace Repeatable

theorem pure (a : α) : Repeatable (pure a) := fun _ => ⟨List.prefix_rfl, fun _ _ => rfl⟩

theorem bind {step : StateM Names α} {next : α → StateM Names β} (h : Repeatable step)
    (hnext : ∀ a, Repeatable (next a)) : Repeatable (step >>= next) := by
  intro names
  obtain ⟨hkept, hagain⟩ := h names
  obtain ⟨hkept', hagain'⟩ := hnext (step.run names).1 (step.run names).2
  refine ⟨hkept.trans hkept', fun more hmore => ?_⟩
  rw [StateT.run_bind, hagain more (hkept'.trans hmore)]
  exact hagain' more hmore

theorem mapM {f : α → StateM Names β} {l : List α} (h : ∀ a ∈ l, Repeatable (f a)) :
    Repeatable (l.mapM f) := by
  induction l with
  | nil => exact pure []
  | cons a l ih =>
    obtain ⟨ha, hl⟩ := List.forall_mem_cons.1 h
    rw [List.mapM_cons]
    exact ha.bind fun _ => (ih hl).bind fun _ => pure _

/-- The place of a variable does not change when names are added behind it. -/
theorem idxOf?_extended {names more : Names} {i : Nat} (h : names.idxOf? v = some i)
    (hmore : names <+: more) :
    more.idxOf? v = some i := by
  obtain ⟨rest, rfl⟩ := hmore
  rw [List.idxOf?] at h ⊢
  rw [List.findIdx?_append, h]
  rfl

theorem name (v : VarId) : Repeatable (Names.name v) := by
  intro names
  cases hv : names.idxOf? v with
  | some i =>
    rw [run_name_of_mem hv]
    exact ⟨List.prefix_rfl, fun more hmore => run_name_of_mem (idxOf?_extended hv hmore)⟩
  | none =>
    have hplace : (names ++ [v]).idxOf? v = some names.length := by
      rw [List.idxOf?] at hv ⊢
      rw [List.findIdx?_append, hv]
      simp
    rw [run_name_of_not_mem hv]
    exact ⟨List.prefix_append _ _,
      fun more hmore => run_name_of_mem (idxOf?_extended hplace hmore)⟩

end Repeatable

theorem eraseDups_of_nodup {vars : List VarId} (h : vars.Nodup) :
    vars.eraseDups = vars := by
  induction vars with
  | nil => rfl
  | cons v vars ih =>
    obtain ⟨hv, hvars⟩ := List.nodup_cons.1 h
    have hothers : vars.filter (!· == v) = vars := by
      refine List.filter_eq_self.2 fun w hw => ?_
      simpa using fun hwv : w = v => hv (hwv ▸ hw)
    rw [List.eraseDups_cons, hothers, ih hvars]

/-- Naming different variables leaves just these. -/
theorem run_mapM_name {vars : List VarId} (h : vars.Nodup) :
    ((vars.mapM name).run []).2 = vars := by
  have hmeets : Meets (vars.mapM name) (vars.flatMap fun v => [v]) :=
    .mapM fun v _ => .name v
  rw [List.flatMap_singleton'] at hmeets
  exact (hmeets []).trans (eraseDups_of_nodup h)

end Names

namespace Store

open Names

variable {s s' : Store} {t u : Ty} {v : VarId}

/-! ## Texts are repeatable -/

theorem renderLayer_repeatable {render : Ty → StateM Names String}
    (h : ∀ u, Repeatable (render u)) (t : Ty) :
    Repeatable (s.renderLayer render t) := by
  unfold renderLayer
  split
  · split
    · exact .name _
    · exact .pure _
  · generalize s.splitMeths t = split
    obtain ⟨methods, base⟩ := split
    have hfields : Repeatable (methods.mapM fun m => do
        discard <| m.scheme.vars.mapM Names.name
        return fieldText m (← render m.scheme.type)) := by
      refine .mapM fun m _ => ?_
      have hvars : Repeatable (m.scheme.vars.mapM Names.name) := .mapM fun v _ => .name v
      exact (hvars.bind fun _ => .pure _).bind fun _ => (h _).bind fun _ => .pure _
    refine hfields.bind fun fields => ?_
    split
    · exact .pure _
    · exact (h _).bind fun _ => .pure _
  · exact (Repeatable.mapM fun u _ => h u).bind fun _ => .pure _

theorem renderWithin_repeatable (s : Store) (n : Nat) (t : Ty) :
    Repeatable (s.renderWithin n t) := by
  induction n generalizing t with
  | zero => exact .pure _
  | succ n ih => exact renderLayer_repeatable ih t

/-! ## Methods without surprises -/

/-- A layer that, if it is a method, quantifies nothing and hides no method of its
name. -/
def PlainLayer (s : Store) : Shape Ty → Prop
  | .meth m inner => m.scheme.vars = [] ∧ s.hasMeth inner m.name = false
  | _ => True

instance (s : Store) : DecidablePred s.PlainLayer
  | .meth _ _ => inferInstanceAs (Decidable (_ ∧ _))
  | .hole | .cell _ | .constr _ _ | .getter _ | .list _ _ | .tuple _ | .nullable _
  | .arrow _ _ | .custom _ _ =>
    inferInstanceAs (Decidable True)

/-- **No method that can be reached is hidden by another one or quantifies
variables.** -/
def Plain (s : Store) (t : Ty) : Prop := ∀ u, s.Reaches t u → s.PlainLayer u.shape

namespace Plain

theorem of_reaches (hp : s.Plain t) (h : s.Reaches t u) : s.Plain u :=
  fun w hw => hp w (h.trans hw)

theorem sameBelow (hp : s.Plain t) (h : SameBelow s s' t)
    (hs' : s'.Acyclic) : s'.Plain t := by
  intro u hu
  rw [h.reaches_iff] at hu
  have hlayer := hp u hu
  cases hx : u.shape with
  | meth m inner =>
    rw [hx] at hlayer
    have hinner : s.Reaches t inner := hu.tail (.child (Shape.inner_mem_children hx))
    exact ⟨hlayer.1, ((h.of_reaches hinner).hasMeth hs' m.name).trans hlayer.2⟩
  | _ => trivial

theorem vars_eq_nil (hp : s.Plain t) {m : Method Ty} (hm : m ∈ (s.splitMeths t).1) :
    m.scheme.vars = [] := by
  obtain ⟨pos, inner, h⟩ := reaches_layer hm
  exact (hp _ h).1

/-- All methods of the term can be seen. -/
theorem visible_layers (hs : s.Acyclic) (hp : s.Plain t) :
    Layer.visible (s.layers t).1 = (s.layers t).1.map (·.method) := by
  induction t using viewInduction hs with
  | layer t ih =>
    rcases layers_cases hs t with ⟨pos, m, inner, hd, hl⟩ | ⟨-, hl⟩
    · have hx := view_of_deref hd
      have hinner := ih inner (Shape.inner_mem_children hx)
        (hp.of_reaches (reaches_of_mem_view hs (Shape.inner_mem_children hx)))
      have hlayer := hp _ (reaches_deref hs t)
      rw [hd] at hlayer
      -- The inner type has no method of this name, so none is dropped.
      have hnames : ∀ l ∈ (s.layers inner).1, l.method.name ≠ m.name := by
        have hnone := hlayer.2
        rw [hasMeth, findMeth?, Option.isSome_map, Option.isSome_eq_false_iff,
          Option.isNone_iff_eq_none, List.find?_eq_none] at hnone
        simpa using hnone
      rw [hl, Layer.visible, List.foldr_cons, ← Layer.visible, hinner, List.map_cons]
      refine congrArg (m :: ·) (List.filter_eq_self.2 fun m' hm' => ?_)
      obtain ⟨l, hl, rfl⟩ := List.mem_map.1 hm'
      simpa using hnames l hl
    · rw [hl]
      rfl

end Plain

/-! ## What a text meets -/

/-- The free occurrences in a term are those in its methods, from the outermost to the
innermost, and those in its base. -/
theorem freeOccurrences_layers (hs : s.Acyclic) (bound : List VarId) (t : Ty) :
    s.freeOccurrences bound t =
      (s.layers t).1.flatMap (fun l => s.freeOccurrences (l.method.scheme.vars ++ bound)
          l.method.scheme.type) ++
        s.freeOccurrences bound (s.demeth t) := by
  induction t using viewInduction hs with
  | layer t ih =>
    rcases layers_cases hs t with ⟨pos, m, inner, hd, hl⟩ | ⟨-, hl⟩
    · have hx := view_of_deref hd
      have hbase : s.demeth t = s.demeth inner := by rw [demeth, demeth, hl]
      rw [freeOccurrences_eq hs, occurrencesLayer, hx, hl, List.flatMap_cons,
        List.append_assoc, hbase]
      exact congrArg _ (ih inner (Shape.inner_mem_children hx))
    · rw [demeth, hl, List.flatMap_nil, List.nil_append]
      exact freeOccurrences_of_deref hs (deref_deref hs t).symm bound

/-- The free occurrences in a term whose methods can all be seen and quantify
nothing. -/
theorem Plain.freeOccurrences (hs : s.Acyclic) (hp : s.Plain t) :
    s.freeOccurrences [] t =
      (s.splitMeths t).1.flatMap (fun m => s.freeOccurrences [] m.scheme.type) ++
        s.freeOccurrences [] (s.splitMeths t).2 := by
  have hmethods : (s.splitMeths t).1 = (s.layers t).1.map (·.method) :=
    hp.visible_layers hs
  rw [freeOccurrences_layers hs, hmethods, List.flatMap_map]
  refine congrArg (· ++ _) (List.flatMap_congr fun l hl => ?_)
  rw [hp.vars_eq_nil (hmethods ▸ List.mem_map_of_mem hl), List.append_nil]

theorem freeOccurrences_unit (hs : s.Acyclic) (h : s.isUnit t = true)
    (bound : List VarId) :
    s.freeOccurrences bound t = [] := by
  rw [isUnit] at h
  rw [freeOccurrences_eq hs, occurrencesLayer]
  cases hx : s.view t with
  | tuple elems =>
    cases elems with
    | nil => rfl
    | cons => rw [hx] at h; cases h
  | _ => rw [hx] at h; cases h

/-- The fields of a term are written first and its base behind them, as their
variables occur. -/
theorem meets_renderLayer_meth (hs : s.Acyclic) (hp : s.Plain t)
    {m : Method Ty} {inner : Ty} (hx : s.view t = .meth m inner)
    (ih : ∀ u, s.weight u < s.weight t → s.Plain u →
      Meets (s.rendered u) (s.freeOccurrences [] u)) :
    Meets (s.renderLayer s.rendered t) (s.freeOccurrences [] t) := by
  have hfields : Meets ((s.splitMeths t).1.mapM fun m => do
        discard <| m.scheme.vars.mapM Names.name
        return fieldText m (← s.rendered m.scheme.type))
      ((s.splitMeths t).1.flatMap fun m => s.freeOccurrences [] m.scheme.type) := by
    refine .mapM fun m hm => ?_
    rw [hp.vars_eq_nil hm]
    exact (ih _ (weight_method_lt hs hm) (hp.of_reaches (reaches_method hm))).map _
  have hbase := ih _ (weight_base_lt hs hx) (hp.of_reaches (s.reaches_demeth t))
  have hunit : s.isUnit (s.splitMeths t).2 = true →
      s.freeOccurrences [] (s.splitMeths t).2 = [] :=
    fun h => freeOccurrences_unit hs h []
  rw [hp.freeOccurrences hs, renderLayer, hx]
  generalize s.splitMeths t = split at *
  obtain ⟨methods, base⟩ := split
  refine hfields.bind fun fields => ?_
  dsimp only at hunit ⊢
  split
  · rw [hunit ‹_›]
    exact .pure _
  · exact hbase.map _

/-- **The text of a term meets its free variables as they occur.** -/
theorem meets_rendered (hs : s.Acyclic) (hp : s.Plain t) :
    Meets (s.rendered t) (s.freeOccurrences [] t) := by
  induction t using weightInduction s with
  | lighter t ih =>
    rw [rendered_eq hs]
    have hparts : Meets ((s.view t).children.mapM s.rendered)
        ((s.view t).children.flatMap (s.freeOccurrences [])) :=
      .mapM fun u hu =>
        ih u (weight_lt_of_mem_view hs hu) (hp.of_reaches (reaches_of_mem_view hs hu))
    cases hx : s.view t <;> rw [hx] at hparts
    case meth m inner => exact meets_renderLayer_meth hs hp hx ih
    case cell c =>
      rw [renderLayer, freeOccurrences_eq hs, occurrencesLayer, hx]
      dsimp only
      cases s.freeVar? c with
      | none => exact .pure _
      | some v => exact .name v
    all_goals
      rw [renderLayer, freeOccurrences_eq hs, occurrencesLayer, hx]
      exact hparts.map _

/-! ## Schemes -/

/-- The text of a scheme goes on from the names of its variables. -/
theorem renderScheme_eq (s : Store) (scheme : TypeScheme) :
    s.renderScheme scheme =
      let written := (s.rendered scheme.type).run ((scheme.vars.mapM Names.name).run []).2
      written.1 ++ s.whereClause written.2 := rfl

/-- **The variables of a term are named in the order in which they are listed**, if no
method is hidden or quantifies variables. So a scheme that quantifies all of them is
shown as the term is. -/
theorem rendered_names (ha : s.AcyclicBelow t) (hp : s.Plain t) :
    ((s.rendered t).run []).2 = s.freeVars t ∧
      ∀ level, (∀ v ∈ s.freeVars t, (s.var v).level.above level = true) →
        s.renderScheme (s.generalize level t) = s.render t := by
  have hnames : ((s.rendered t).run []).2 = s.freeVars t := by
    obtain ⟨s', hs', -, hbelow⟩ := ha.exists_acyclic
    rw [← hbelow.rendered hs', ← hbelow.freeVars hs']
    exact meets_rendered hs' (hp.sameBelow hbelow hs') []
  refine ⟨hnames, fun level hlevel => ?_⟩
  have hvars : (s.generalize level t).vars = s.freeVars t := List.filter_eq_self.2 hlevel
  have hagain : (s.rendered t).run (s.freeVars t) =
      (((s.rendered t).run []).1, s.freeVars t) :=
    (s.renderWithin_repeatable _ t []).2 (s.freeVars t) (hnames ▸ List.prefix_rfl)
  rw [renderScheme_eq, render_eq, hvars, run_mapM_name (s.freeVars_nodup t), hnames]
  change ((s.rendered t).run (s.freeVars t)).1 ++
    s.whereClause ((s.rendered t).run (s.freeVars t)).2 = _
  rw [hagain]

/-- Three variables, of which one has a constraint. A field over a custom type stands
behind two links, and one more cell is linked into a cycle. -/
def plainExample : Store :=
  ⟨#[⟨.depth 2, .ofList [.ord]⟩, ⟨.unbounded, .empty⟩, ⟨.depth 3, .empty⟩],
    #[.free 0, .free 1, .free 2,
      .link .covariant (.of (.custom (.applied "pair") [.of (.cell 2), .of (.cell 0)])),
      .link .covariant (.of (.meth
        { name := "b", scheme := .mono (.of (.nullable (.of (.cell 1)))) }
        (.of (.cell 3)))),
      .link .covariant (.of (.list .array (.of (.cell 5))))]⟩

/-- Another field on top. -/
def plainExampleTerm : Ty :=
  .of (.meth
    { name := "a",
      scheme := .mono (.of (.arrow [⟨false, "x", .of (.cell 0)⟩] (.of (.cell 1)))) }
    (.of (.cell 4)))

/-- The variables of the fields are named before those of the base, which is written
in front. -/
theorem rendered_names_fields :
    plainExample.freeVars plainExampleTerm = [0, 1, 2] ∧
      ((plainExample.rendered plainExampleTerm).run []).2 = [0, 1, 2] ∧
      plainExample.renderScheme (plainExample.generalize (.depth 1) plainExampleTerm) =
        "pair('c, 'a).\x7ba : (x : 'a) -> 'b, b : 'b?\x7d where 'a is an orderable type" := by
  have hacyclic : plainExample.AcyclicBelow plainExampleTerm :=
    acyclicBelow_of_rank id (n := 5) (by decide) (by decide)
  have hplain : plainExample.Plain plainExampleTerm :=
    fun u hu => layer_of_reaches (by decide) (by decide) hu
  have hvars : plainExample.freeVars plainExampleTerm = [0, 1, 2] := by decide
  have htext : plainExample.render plainExampleTerm =
      "pair('c, 'a).\x7ba : (x : 'a) -> 'b, b : 'b?\x7d where 'a is an orderable type" := by decide +kernel
  obtain ⟨hnames, hscheme⟩ := rendered_names hacyclic hplain
  refine ⟨hvars, hnames.trans hvars, (hscheme (.depth 1) ?_).trans htext⟩
  rw [hvars]
  decide

end Store

end TypeGraph
