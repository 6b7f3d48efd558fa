import TypeGraph.Proofs.NamingOrder
import TypeGraph.Proofs.StoreHistory
import Mathlib.Data.Int.ConditionallyCompleteOrder
import Mathlib.Data.List.Induction
import Mathlib.Order.ConditionallyCompleteLattice.Basic

/-!
# Levels that are lowered, and what is quantified afterwards

Levels are ordered like the integers with one more element on top (`Level.height`),
and the lower of two levels is their minimum. A variable that is asked to be visible
at some levels, one after the other, therefore ends at the least of them and its own
(`Store.Lowered`), whatever the order.

Generalization at a level takes the free variables that are higher. The lower
a variable has been put, the fewer levels quantify it, and the higher the level, the
fewer variables are quantified (`lowered_generalize`).
-/

namespace TypeGraph

namespace Level

variable {a b : Level}

/-- The place of a level among the integers, with the unbounded level above them all. -/
def height : Level → WithTop Int
  | unbounded => ⊤
  | depth n => n

theorem height_injective : Function.Injective height := by
  intro a b h
  cases a <;> cases b <;> simp_all [height]

/-- **The order on levels is that of the heights.** -/
theorem above_iff : a.above b = true ↔ b.height < a.height := by
  cases a <;> cases b <;> simp [above, height]

/-- **The lower of two levels is their minimum.** -/
theorem height_min (a b : Level) : (a.min b).height = Min.min a.height b.height := by
  rw [min]
  split
  · rename_i h
    exact (min_eq_right (above_iff.1 h).le).symm
  · rename_i h
    rw [above_iff, not_lt] at h
    exact (min_eq_left h).symm

end Level

namespace Store

variable {s s' s'' : Store} {t : Ty} {v : VarId} {level : Level}
  {requests requests' : List (VarId × Level)}

/-! ## Requests -/

/-- The store after some requests to lower the levels of variables, one after the
other. -/
def lowerAll (requests : List (VarId × Level)) (s : Store) : Store :=
  requests.foldl (fun s request => s.lowerLevel request.1 request.2) s

/-- The heights that count for a variable: its own, and those that were requested for
it. -/
def heightsFor (s : Store) (requests : List (VarId × Level)) (v : VarId) :
    Set (WithTop Int) :=
  insert (s.var v).level.height {h | ∃ level, (v, level) ∈ requests ∧ level.height = h}

/-- **What becomes of a store when levels are lowered.** Each variable is at the least
of the heights that count for it, and all else is as it was. -/
structure Lowered (s : Store) (requests : List (VarId × Level)) (s' : Store) : Prop where
  cells : s'.cells = s.cells
  size : s'.vars.size = s.vars.size
  constraints : ∀ v < s.vars.size, (s'.var v).constraints = (s.var v).constraints
  level : ∀ v < s.vars.size, IsLeast (s.heightsFor requests v) (s'.var v).level.height

/-- A further request adds to the heights that count for its variable. -/
theorem heightsFor_concat (v w : VarId) :
    s.heightsFor (requests ++ [(w, level)]) v =
      if w = v then insert level.height (s.heightsFor requests v)
      else s.heightsFor requests v := by
  ext h
  split <;> simp only [heightsFor, Set.mem_insert_iff, Set.mem_ofPred_eq,
    List.mem_append, List.mem_singleton, Prod.mk.injEq] <;> grind

theorem var_lowerLevel (hv : v < s.vars.size) (w : VarId) (level : Level) :
    (s.lowerLevel w level).var v =
      if w = v then { s.var v with level := (s.var v).level.min level } else s.var v :=
  var_modify hv w _

namespace Lowered

theorem refl (s : Store) : s.Lowered [] s where
  cells := rfl
  size := rfl
  constraints _ _ := rfl
  level v _ := by simp [heightsFor]

/-- **One more request** is one more height to take the least of. -/
theorem lowerLevel (h : s.Lowered requests s') (w : VarId) (level : Level) :
    s.Lowered (requests ++ [(w, level)]) (s'.lowerLevel w level) where
  cells := h.cells
  size := by simp [Store.lowerLevel, h.size]
  constraints v hv := by
    rw [var_lowerLevel (h.size ▸ hv), ← h.constraints v hv]
    split <;> rfl
  level v hv := by
    rw [var_lowerLevel (h.size ▸ hv), heightsFor_concat]
    split
    · rw [Level.height_min, min_comm]
      exact (h.level v hv).insert level.height
    · exact h.level v hv

/-- The heights that count decide what becomes of the store. -/
theorem unique (h : s.Lowered requests s') (h' : s.Lowered requests' s'')
    (hsame : ∀ request, request ∈ requests ↔ request ∈ requests') : s' = s'' := by
  have hvars : s'.vars = s''.vars := by
    refine Array.ext (h.size.trans h'.size.symm) fun v hv hv' => ?_
    have hlt : v < s.vars.size := h.size ▸ hv
    have hheights : s.heightsFor requests v = s.heightsFor requests' v := by
      simp only [heightsFor, hsame]
    have hlevel : (s'.var v).level = (s''.var v).level :=
      Level.height_injective ((hheights ▸ h.level v hlt).unique (h'.level v hlt))
    have hconstraints : (s'.var v).constraints = (s''.var v).constraints :=
      (h.constraints v hlt).trans (h'.constraints v hlt).symm
    have hvar : s'.var v = s''.var v := by
      cases hx : s'.var v
      cases hy : s''.var v
      simp_all
    simpa [var, hv, hv'] using hvar
  have hcells : s'.cells = s''.cells := h.cells.trans h'.cells.symm
  cases s'
  cases s''
  simp_all

end Lowered

/-- **Requests lower each variable to the least height that counts for it.** -/
theorem lowered_lowerAll (s : Store) (requests : List (VarId × Level)) :
    s.Lowered requests (s.lowerAll requests) := by
  induction requests using List.reverseRecOn with
  | nil => exact .refl s
  | append_singleton requests request ih =>
    rw [lowerAll, List.foldl_concat]
    exact ih.lowerLevel request.1 request.2

/-! ## What is quantified -/

/-- The free variables of a term do not depend on levels. -/
theorem freeVars_of_cells (h : s'.cells = s.cells) (t : Ty) :
    s'.freeVars t = s.freeVars t := by
  have hspan : s'.span t = s.span t := by rw [span, span, h]
  rw [freeVars, freeVars, hspan, (SameBelow.of_cells h t).occurrences]

theorem mem_generalize :
    v ∈ (s.generalize level t).vars ↔
      v ∈ s.freeVars t ∧ level.height < (s.var v).level.height := by
  rw [generalize, List.mem_filter, Level.above_iff]

/-- **What is quantified at a higher level is quantified at a lower one**, in the same
order. -/
theorem generalize_sublist {level' : Level} (h : level'.above level = true) :
    (s.generalize level' t).vars.Sublist (s.generalize level t).vars := by
  refine List.monotone_filter_right _ fun v hv => ?_
  rw [Level.above_iff] at h hv ⊢
  exact h.trans hv

/-- **Levels decide what is quantified, and lowering them is a matter of the least.**
Requests to lower variables of a store, in whatever order, put each variable at the
least of its own level and those that were requested for it. Afterwards generalization
quantifies just those free variables that are above its level, in their order.
A variable for which some level was requested is quantified only below that level, and
whatever is quantified at a level is quantified at each one below it. -/
theorem lowered_generalize (s : Store) (t : Ty) (requests : List (VarId × Level))
    (hrequests : ∀ request ∈ requests, request.1 < s.vars.size) :
    let s' := s.lowerAll requests
    s.Lowered requests s' ∧
      (∀ requests', requests'.Perm requests → s.lowerAll requests' = s') ∧
      (∀ level, (s'.generalize level t).vars.Sublist (s.freeVars t) ∧
        ∀ v, v ∈ (s'.generalize level t).vars ↔
          v ∈ s.freeVars t ∧ level.height < (s'.var v).level.height) ∧
      (∀ v requested, (v, requested) ∈ requests →
          ∀ level, v ∈ (s'.generalize level t).vars →
        requested.above level = true) ∧
      ∀ level level', level'.above level = true →
        (s'.generalize level' t).vars.Sublist (s'.generalize level t).vars := by
  intro s'
  have hlowered : s.Lowered requests s' := s.lowered_lowerAll requests
  have hfree : s'.freeVars t = s.freeVars t := freeVars_of_cells hlowered.cells t
  refine ⟨hlowered, fun requests' hperm => ?_, fun level => ⟨?_, fun v => ?_⟩, ?_,
    fun _ _ => generalize_sublist⟩
  · exact (s.lowered_lowerAll requests').unique hlowered fun _ => hperm.mem_iff
  · rw [← hfree]
    exact List.filter_sublist
  · rw [mem_generalize, hfree]
  · intro v requested hmem level hv
    have hlow : (s'.var v).level.height ≤ requested.height :=
      (hlowered.level v (hrequests _ hmem)).2 (Or.inr ⟨requested, hmem, rfl⟩)
    exact Level.above_iff.2 ((mem_generalize.1 hv).2.trans_le hlow)

/-- Of two requests for the unbounded variable the lower one counts, and requests for
its own level or above leave the last variable where it is. In the other order they
come to the same. -/
theorem lowered_generalize_twice :
    let requests : List (VarId × Level) :=
      [(1, .depth 4), (2, .unbounded), (1, .depth (-1)), (2, .depth 3)]
    let s' := plainExample.lowerAll requests
    plainExample.freeVars plainExampleTerm = [0, 1, 2] ∧
      (s'.var 1).level = .depth (-1) ∧
        IsLeast (plainExample.heightsFor requests 1) (s'.var 1).level.height ∧
      plainExample.lowerAll requests.reverse = s' ∧
      (s'.generalize (.depth 2) plainExampleTerm).vars = [2] ∧
      (s'.generalize (.depth (-2)) plainExampleTerm).vars = [0, 1, 2] ∧
      (s'.generalize (.depth 2) plainExampleTerm).vars.Sublist
        (s'.generalize (.depth (-2)) plainExampleTerm).vars ∧
      1 ∉ (s'.generalize (.depth (-1)) plainExampleTerm).vars := by
  intro requests s'
  obtain ⟨hlowered, hperm, -, hrequested, hsublist⟩ :=
    lowered_generalize plainExample plainExampleTerm requests (by decide)
  refine ⟨by decide, by decide, hlowered.level 1 (by decide),
    hperm _ (List.reverse_perm _), by decide, by
      decide, hsublist _ _ (by decide), fun h => ?_⟩
  exact absurd (hrequested 1 (.depth (-1)) (by decide) _ h) (by decide)

end Store

end TypeGraph
