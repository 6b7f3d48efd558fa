import TypeGraph.Proofs.Expansion
import TypeGraph.Proofs.Keys
import TypeGraph.Proofs.Recursion
import Mathlib.Data.PEquiv
import Mathlib.Logic.Relator

/-!
# Isomorphism as a renaming

Isomorphism is equality up to a renaming. The comparison builds its renaming on the
way, pair by pair, and gives up at the first pair that does not fit; the specification
asks for some renaming of the whole outline. The two agree because each part of the
comparison **solves** its own part of the specification (`Solves`): it ends with the
pairs it was given and those it needs, and it ends with any fair relation that has
them all and meets the specification. Solutions of parts that are tried one after the
other make a solution of both, whatever the order.
-/

namespace TypeGraph

namespace Renaming

/-- The pairs of a renaming, as a relation. -/
def Graph (r : Renaming) (a b : VarId) : Prop := (a, b) ∈ r

variable {r : Renaming} {a b : VarId}

theorem graph_of_image? (h : r.image? a = some b) : r.Graph a b := by
  obtain ⟨p, hp, rfl⟩ := Option.map_eq_some_iff.1 h
  have ha : p.1 = a := by simpa using List.find?_some hp
  rw [Graph, ← ha]
  exact List.mem_of_find?_eq_some hp

theorem graph_of_preimage? (h : r.preimage? b = some a) : r.Graph a b := by
  obtain ⟨p, hp, rfl⟩ := Option.map_eq_some_iff.1 h
  have hb : p.2 = b := by simpa using List.find?_some hp
  rw [Graph, ← hb]
  exact List.mem_of_find?_eq_some hp

theorem not_graph_of_image? (h : r.image? a = none) (b : VarId) : ¬ r.Graph a b := by
  intro hab
  have := List.find?_eq_none.1 (Option.map_eq_none_iff.1 h) (a, b) hab
  simp at this

theorem not_graph_of_preimage? (h : r.preimage? b = none)
    (a : VarId) : ¬ r.Graph a b := by
  intro hab
  have := List.find?_eq_none.1 (Option.map_eq_none_iff.1 h) (a, b) hab
  simp at this

end Renaming

namespace Store

/-- Two variables carry constraints of the same kinds. -/
def SameKinds (s : Store) (v w : VarId) : Prop :=
  ∀ kind, (s.var v).constraints.contains kind = true ↔
    (s.var w).constraints.contains kind = true

/-- A fair relation: it relates variables one to one, and only such that carry the
same kinds of constraints. -/
structure Fair (s : Store) (R : VarId → VarId → Prop) : Prop where
  oneToOne : Relator.BiUnique R
  kinds : ∀ v w, R v w → s.SameKinds v w

/-- **A step of the comparison solves a condition** on relations between variables.
What it ends with is fair and meets the condition, and it ends within every fair
relation that meets the condition and has the pairs that it started from. -/
structure Solves (s : Store) (step : Renaming → Option Renaming)
    (P : (VarId → VarId → Prop) → Prop) : Prop where
  sound : ∀ r r', s.Fair r.Graph → step r = some r' →
    s.Fair r'.Graph ∧ (∀ a b, r.Graph a b → r'.Graph a b) ∧ P r'.Graph
  complete : ∀ r R, s.Fair R → (∀ a b, r.Graph a b → R a b) → P R →
    ∃ r', step r = some r' ∧ ∀ a b, r'.Graph a b → R a b

/-- The condition stays true when more variables are related. -/
def Monotone (P : (VarId → VarId → Prop) → Prop) : Prop :=
  ∀ R R', (∀ a b, R a b → R' a b) → P R → P R'

variable {s : Store}

namespace Solves

variable {step step' : Renaming → Option Renaming} {P Q : (VarId → VarId → Prop) → Prop}

theorem congr (h : s.Solves step P) (hstep : ∀ r, step' r = step r)
    (hPQ : ∀ R, P R ↔ Q R) :
    s.Solves step' Q where
  sound r r' hr hs := by
    obtain ⟨hfair, hsub, hP⟩ := h.sound r r' hr (hstep r ▸ hs)
    exact ⟨hfair, hsub, (hPQ _).1 hP⟩
  complete r R hR hsub hQ := by
    rw [hstep]
    exact h.complete r R hR hsub ((hPQ R).2 hQ)

/-- A step that always fails solves what cannot be met. -/
theorem never (hstep : ∀ r, step r = none) (hP : ∀ R, ¬ P R) : s.Solves step P where
  sound r r' _ hs := by rw [hstep] at hs; cases hs
  complete r R _ _ h := absurd h (hP R)

/-- A step that does nothing solves what is met anyway. -/
theorem always (hP : ∀ R, P R) : s.Solves some P where
  sound r r' hr hs := by
    cases hs
    exact ⟨hr, fun _ _ h => h, hP _⟩
  complete r R _ hsub _ := ⟨r, rfl, hsub⟩

/-- **One step after the other solves both conditions.** -/
theorem bind (h : s.Solves step P) (h' : s.Solves step' Q) (hP : Monotone P) :
    s.Solves (fun r => step r >>= step') fun R => P R ∧ Q R where
  sound r r'' hr hs := by
    obtain ⟨r', hr', hs'⟩ := Option.bind_eq_some_iff.1 hs
    obtain ⟨hfair, hsub, hPr⟩ := h.sound r r' hr hr'
    obtain ⟨hfair', hsub', hQr⟩ := h'.sound r' r'' hfair hs'
    exact ⟨hfair', fun a b hab => hsub' a b (hsub a b hab), hP _ _ hsub' hPr, hQr⟩
  complete r R hR hsub hPQ := by
    obtain ⟨r', hr', hsub'⟩ := h.complete r R hR hsub hPQ.1
    obtain ⟨r'', hr'', hsub''⟩ := h'.complete r' R hR hsub' hPQ.2
    exact ⟨r'', Option.bind_eq_some_iff.2 ⟨r', hr', hr''⟩, hsub''⟩

end Solves

/-! ## The steps of the comparison -/

/-- A renaming with one more pair that is new on both sides is fair. -/
theorem Fair.cons {r : Renaming} {a b : VarId} (hr : s.Fair r.Graph)
    (ha : ∀ b, ¬ r.Graph a b) (hb : ∀ a, ¬ r.Graph a b) (hk : s.SameKinds a b) :
    s.Fair (Renaming.Graph ((a, b) :: r)) where
  oneToOne := by
    constructor
    · intro v w x hv hw
      rcases List.mem_cons.1 hv with hv | hv <;> rcases List.mem_cons.1 hw with hw | hw
      · rw [(Prod.mk.inj hv).1, (Prod.mk.inj hw).1]
      · cases hv; exact absurd hw (hb w)
      · cases hw; exact absurd hv (hb v)
      · exact hr.oneToOne.1 hv hw
    · intro v w x hv hw
      rcases List.mem_cons.1 hv with hv | hv <;> rcases List.mem_cons.1 hw with hw | hw
      · rw [(Prod.mk.inj hv).2, (Prod.mk.inj hw).2]
      · cases hv; exact absurd hw (ha x)
      · cases hw; exact absurd hv (ha w)
      · exact hr.oneToOne.2 hv hw
  kinds v w h := by
    rcases List.mem_cons.1 h with h | h
    · cases h; exact hk
    · exact hr.kinds v w h

theorem solves_renameVar (a b : VarId) : s.Solves (s.renameVar a b) fun R => R a b where
  sound r r' hr hs := by
    unfold renameVar at hs
    split at hs
    · rename_i b' a' hb' ha'
      split at hs
      · rename_i heq
        obtain ⟨rfl, rfl⟩ := heq
        cases hs
        exact ⟨hr, fun _ _ h => h, Renaming.graph_of_image? hb'⟩
      · cases hs
    · rename_i hb' ha'
      split at hs
      · rename_i hk
        cases hs
        have hfair :=
          hr.cons (Renaming.not_graph_of_image? hb') (Renaming.not_graph_of_preimage? ha')
            ((ConstraintSet.sameKinds_iff _ _).1 hk)
        exact ⟨hfair, fun _ _ h => List.mem_cons_of_mem _ h, List.mem_cons_self⟩
      · cases hs
    · cases hs
  complete r R hR hsub hab := by
    -- Whatever the renaming has for `a` or for `b`, a one-to-one relation with the
    -- pair `a, b` agrees.
    have himage : ∀ b', r.image? a = some b' → b' = b := fun b' h =>
      hR.oneToOne.2 (hsub _ _ (Renaming.graph_of_image? h)) hab
    have hpreimage : ∀ a', r.preimage? b = some a' → a' = a := fun a' h =>
      hR.oneToOne.1 (hsub _ _ (Renaming.graph_of_preimage? h)) hab
    unfold renameVar
    cases hi : r.image? a with
    | some b' =>
      cases himage b' hi
      cases hp : r.preimage? b with
      | some a' =>
        cases hpreimage a' hp
        exact ⟨r, by simp, hsub⟩
      | none =>
        exact absurd (Renaming.graph_of_image? hi) (Renaming.not_graph_of_preimage? hp a)
    | none =>
      cases hp : r.preimage? b with
      | some a' =>
        cases hpreimage a' hp
        exact absurd (Renaming.graph_of_preimage? hp) (Renaming.not_graph_of_image? hi b)
      | none =>
        have hk := (ConstraintSet.sameKinds_iff _ _).2 (hR.kinds a b hab)
        refine ⟨(a, b) :: r, by simp [hk], fun v w h => ?_⟩
        rcases List.mem_cons.1 h with h | h
        · cases h; exact hab
        · exact hsub v w h

theorem solves_renameVars (as bs : List VarId) :
    s.Solves (s.renameVars as bs) fun R => List.Forall₂ R as bs := by
  induction as generalizing bs with
  | nil =>
    cases bs with
    | nil => exact Solves.always fun _ => .nil
    | cons b bs => exact Solves.never (fun _ => rfl) fun R h => nomatch h
  | cons a as ih =>
    cases bs with
    | nil => exact Solves.never (fun _ => rfl) fun R h => nomatch h
    | cons b bs =>
      refine ((solves_renameVar a b).bind (ih bs) fun R R' h => h a b).congr
        (fun _ => rfl) fun R => ?_
      exact List.forall₂_cons.symm

theorem solves_matchAll {matchOne : Ty → Ty → Renaming → Option Renaming}
    {P : Ty → Ty → (VarId → VarId → Prop) → Prop}
    (hP : ∀ a b, Monotone (P a b)) {as : List Ty}
    (h : ∀ a ∈ as, ∀ b, s.Solves (matchOne a b) (P a b)) (bs : List Ty) :
    s.Solves (matchAll matchOne as bs) fun R =>
      List.Forall₂ (fun a b => P a b R) as bs := by
  induction as generalizing bs with
  | nil =>
    cases bs with
    | nil => exact Solves.always fun _ => .nil
    | cons b bs => exact Solves.never (fun _ => rfl) fun R h => nomatch h
  | cons a as ih =>
    cases bs with
    | nil => exact Solves.never (fun _ => rfl) fun R h => nomatch h
    | cons b bs =>
      have hrest := ih (fun a ha => h a (List.mem_cons_of_mem _ ha)) bs
      refine ((h a List.mem_cons_self b).bind hrest (hP a b)).congr
        (fun _ => rfl) fun R => ?_
      exact (List.forall₂_cons (R := fun a b => P a b R)).symm

/-- Where neither two variables nor two layers meet, there is no match and no
renaming. -/
theorem solves_mismatch (hs : s.Acyclic) {a b : Ty}
    (hvars : ∀ v w, s.outline a = .var v → s.outline b ≠ .var w)
    (hnodes : ∀ l vs ps l' ws qs, s.outline a = .node l vs ps →
      s.outline b ≠ .node l' ws qs) :
    s.Solves (s.matching a b) fun R => Outline.Renames R (s.outline a) (s.outline b) := by
  refine Solves.never (fun r => ?_) fun R h => ?_
  · rw [matching_eq hs, matchLayer]
    split
    · rename_i c d hx hy
      split
      · rename_i v w hv hw
        exact absurd (outline_of_free hs hy hw) (hvars v w (outline_of_free hs hx hv))
      · rfl
    · refine if_neg fun halike => ?_
      obtain ⟨hne, heq, -⟩ := (Shape.alike_iff _ _).1 halike
      obtain ⟨label, hl⟩ := Option.ne_none_iff_exists'.1 hne
      exact hnodes _ _ _ _ _ _ (outline_of_label hs hl)
        (outline_of_label hs (heq.symm.trans hl))
  · generalize s.outline a = o at *
    generalize s.outline b = o' at *
    cases h with
    | var _ => exact hvars _ _ rfl rfl
    | node _ _ _ => exact hnodes _ _ _ _ _ _ rfl rfl

/-- Where two layers meet, first their binders are compared and then their subterms. -/
theorem solves_layers (hs : s.Acyclic) {a b : Ty} {l l' : Label}
    (hl : (s.view a).label? = some l) (hl' : (s.view b).label? = some l')
    (ih : ∀ u ∈ (s.view a).children, ∀ w,
      s.Solves (s.matching u w) fun R => Outline.Renames R (s.outline u) (s.outline w)) :
    s.Solves (s.matching a b) fun R => Outline.Renames R (s.outline a) (s.outline b) := by
  have hcells : ∀ c d, s.view a = .cell c → s.view b ≠ .cell d := fun c d hc _ => by
    rw [hc] at hl
    cases hl
  have ho := outline_of_label hs hl
  have ho' := outline_of_label hs hl'
  by_cases halike : (s.view a).alike (s.view b) = true
  · have hlabel : l = l' := by
      have heq := ((Shape.alike_iff _ _).1 halike).2.1
      rw [hl, hl'] at heq
      exact Option.some.inj heq
    have hparts :=
      solves_matchAll (P := fun u w R => Outline.Renames R (s.outline u) (s.outline w))
        (fun _ _ _ _ h => Outline.Renames.mono h) ih (s.view b).children
    have hbinders := solves_renameVars (s := s) (s.view a).binders (s.view b).binders
    refine (hbinders.bind hparts fun _ _ h hF => hF.imp fun _ _ => h _ _).congr
      (fun r => ?_) fun R => ?_
    · rw [matching_eq hs, matchLayer_eq hcells, if_pos halike]
    · rw [ho, ho', Outline.renames_node_iff, List.forall₂_map_left_iff,
        List.forall₂_map_right_iff]
      exact ⟨fun h => ⟨hlabel, h⟩, fun h => h.2⟩
  · refine Solves.never (fun r => ?_) fun R h => ?_
    · rw [matching_eq hs, matchLayer_eq hcells, if_neg halike]
    · rw [ho, ho', Outline.renames_node_iff] at h
      obtain ⟨rfl, hb, hp⟩ := h
      have hlen := hp.length_eq
      rw [List.length_map, List.length_map] at hlen
      exact halike ((Shape.alike_iff _ _).2 ⟨by simp [hl], hl.trans hl'.symm,
        hb.length_eq, hlen⟩)

/-- **The comparison of two terms solves the renaming of their outlines.** -/
theorem solves_matching (hs : s.Acyclic) (a b : Ty) :
    s.Solves (s.matching a b) fun R => Outline.Renames R (s.outline a) (s.outline b) := by
  induction a using viewInduction hs generalizing b with
  | layer a ih =>
    rcases outline_cases hs a with ⟨c, v, hx, hv, ho⟩ | ⟨label, hl, ho⟩ | ⟨-, ho⟩
    · rcases outline_cases hs b with ⟨d, w, hy, hw, ho'⟩ | ⟨_, -, ho'⟩ | ⟨-, ho'⟩
      · refine (solves_renameVar v w).congr (fun r => ?_) fun R => ?_
        · rw [matching_eq hs, matchLayer, hx, hy]
          simp only [hv, hw]
        · rw [ho, ho']
          exact ⟨.var, fun h => by cases h with | var h => exact h⟩
      all_goals exact solves_mismatch hs (by simp [ho']) (by simp [ho])
    · rcases outline_cases hs b with ⟨_, _, -, -, ho'⟩ | ⟨label', hl', ho'⟩ | ⟨-, ho'⟩
      · exact solves_mismatch hs (by simp [ho]) (by simp [ho'])
      · exact solves_layers hs hl hl' ih
      · exact solves_mismatch hs (by simp [ho]) (by simp [ho'])
    · exact solves_mismatch hs (by simp [ho]) (by simp [ho])

/-! ## Isomorphism -/

/-- Two terms are isomorphic iff a fair relation renames the one outline to the
other. -/
theorem isomorphic_iff_fair (hs : s.Acyclic) (a b : Ty) :
    s.isomorphic a b = true ↔
      ∃ R, s.Fair R ∧ Outline.Renames R (s.outline a) (s.outline b) := by
  have hsolves := solves_matching hs a b
  have hempty : s.Fair (Renaming.Graph []) := ⟨⟨fun _ _ _ h => (List.not_mem_nil h).elim,
    fun _ _ _ h => (List.not_mem_nil h).elim⟩, fun _ _ h => (List.not_mem_nil h).elim⟩
  rw [isomorphic_eq, Option.isSome_iff_exists]
  constructor
  · rintro ⟨r, hr⟩
    obtain ⟨hfair, -, h⟩ := hsolves.sound [] r hempty hr
    exact ⟨r.Graph, hfair, h⟩
  · rintro ⟨R, hR, h⟩
    obtain ⟨r, hr, -⟩ :=
      hsolves.complete [] R hR (fun _ _ h => (List.not_mem_nil h).elim) h
    exact ⟨r, hr⟩

/-- A relation that is one to one is a partial one-to-one function. -/
theorem exists_pequiv {R : VarId → VarId → Prop} (hR : Relator.BiUnique R) :
    ∃ ρ : VarId ≃. VarId, ∀ v w, ρ v = some w ↔ R v w := by
  classical
  have hpick : ∀ {S : VarId → Prop}, (∀ v w, S v → S w → v = w) → ∀ w,
      (if h : ∃ w, S w then some h.choose else none) = some w ↔ S w := by
    intro S hS w
    split
    · rename_i h
      rw [Option.some.injEq]
      exact ⟨fun heq => heq ▸ h.choose_spec, fun hw => hS _ _ h.choose_spec hw⟩
    · rename_i h
      exact ⟨nofun, fun hw => absurd ⟨w, hw⟩ h⟩
  have hto := fun v => hpick fun w w' (h : R v w) h' => hR.2 h h'
  have hinv := fun w => hpick fun v v' (h : R v w) h' => hR.1 h h'
  exact ⟨⟨_, _, fun v w => (hinv w v).trans (hto v w).symm⟩, hto⟩

/-- **Isomorphism is equality up to a renaming.** -/
theorem isomorphic_iff_renaming (hs : s.Acyclic) (a b : Ty) :
    s.isomorphic a b = true ↔
      ((s.expand a).outline s).Gapless ∧ ((s.expand b).outline s).Gapless ∧
        ∃ ρ : VarId ≃. VarId, (∀ v ∈ ((s.expand a).outline s).vars, (ρ v).isSome) ∧
          (∀ v w, ρ v = some w → s.SameKinds v w) ∧
          ((s.expand a).outline s).rename (fun v => (ρ v).getD v) =
            (s.expand b).outline s := by
  rw [isomorphic_iff_fair hs]
  constructor
  · rintro ⟨R, hR, h⟩
    obtain ⟨ρ, hρ⟩ := exists_pequiv hR.oneToOne
    obtain ⟨hgap, hdef, heq⟩ := Outline.renames_iff.1 (h.mono fun v w => (hρ v w).2)
    refine ⟨hgap, ?_, ρ, hdef, fun v w hvw => hR.kinds v w ((hρ v w).1 hvw), heq⟩
    change (s.outline b).Gapless
    rw [← heq]
    exact (Outline.gapless_rename _ _).2 hgap
  · rintro ⟨hgap, -, ρ, hdef, hkinds, heq⟩
    refine ⟨fun v w => ρ v = some w,
      ⟨⟨fun v v' w h h' => ρ.inj h h', fun v w w' h h' => ?_⟩, hkinds⟩,
        Outline.renames_iff.2 ⟨hgap, hdef, heq⟩⟩
    exact Option.some.inj (h.symm.trans h')

/-- A store with two variables, of which the first has two cells, and a cell that is
linked to a list of the first variable. -/
def linkedExample : Store :=
  ⟨#[⟨.depth 1, .empty⟩, ⟨.unbounded, .empty⟩],
    #[.free 0, .link .covariant (.of (.list .array (.of (.cell 0)))), .free 1, .free 0]⟩

theorem linkedExample_acyclic : linkedExample.Acyclic := acyclic_of_rank id (by decide)

/-- A method that quantifies the first variable, over a pair of it and of the list
behind the link. -/
def linkedExampleTerm : Ty :=
  .of (.meth { name := "m", scheme := ⟨[0], .of (.cell 2)⟩ }
    (.of (.tuple [.of (.cell 3), .of (.cell 1)])))

/-- The same over the second variable, with the first one in the scheme and no link. -/
def renamedExampleTerm : Ty :=
  .of (.meth { name := "m", scheme := ⟨[1], .of (.cell 0)⟩, doc := "renamed" }
    (.of (.tuple [.of (.cell 2), .of (.list .array (.of (.cell 2)))])))

theorem isomorphic_iff_renaming_linked :
    linkedExample.isomorphic linkedExampleTerm renamedExampleTerm = true ∧
      ∃ ρ : VarId ≃. VarId, (∀ v ∈ (linkedExample.outline linkedExampleTerm).vars,
          (ρ v).isSome) ∧
        (∀ v w, ρ v = some w → linkedExample.SameKinds v w) ∧
        (linkedExample.outline linkedExampleTerm).rename (fun v => (ρ v).getD v) =
          linkedExample.outline renamedExampleTerm := by
  have hiso : linkedExample.isomorphic linkedExampleTerm renamedExampleTerm = true := by
    decide
  obtain ⟨-, -, hρ⟩ := (isomorphic_iff_renaming linkedExample_acyclic _ _).1 hiso
  exact ⟨hiso, hρ⟩

end Store

end TypeGraph
