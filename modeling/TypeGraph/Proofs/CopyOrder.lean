import TypeGraph.Proofs.LocalCopies
import TypeGraph.Proofs.Occurrence

/-!
# The order in which a copy draws its variables

A copy draws a variable when it meets a selected one for which it has none, and it may
meet a variable on two ways, held by a cell or quantified by a method. `Store.tour` is
the order in which variables are met, without tables and without a copy: a walk down
the term and through its links that follows every link once, and so ends in any store.

`CopyTask.Abreast` says that a copy and a walk have come equally far: the variables
that were noted are those that the walk has met, and stand for new ones in the order
of the walk. Every step of a copy that succeeds is one of the walk (`CopyTask.Walks`),
so that the whole copy draws one variable for each selected variable of the tour, in
its order (`Store.Draws`).
-/

namespace TypeGraph

/-! ## Walks -/

/-- What a layer leads to, in the order of `Shape.traverse`: the variables that it
quantifies, then its subterms. -/
def Shape.items (x : Shape Ty) : List (VarId ⊕ Ty) :=
  x.binders.map .inl ++ x.children.map .inr

namespace Store

open Finset

variable {s : Store} {t u : Ty} {c : CellId} {variance : Variance} {seen : List CellId}

/-- What a walk finds at a term: the links that it has followed afterwards, and what
it goes on with. A link that was followed before is not followed again. -/
def visit (s : Store) (seen : List CellId) (t : Ty) : List CellId × List (VarId ⊕ Ty) :=
  match t.shape with
  | .cell c =>
    match s.link? c with
    | some (_, u) => if c ∈ seen then (seen, []) else (c :: seen, [.inr u])
    | none => (seen, (s.freeVar? c).toList.map .inl)
  | x => (seen, x.items)

/-- The nodes of the terms that a walk is to visit, and those behind the links that it
has not followed. -/
def nodesAhead (s : Store) (seen : List CellId) (items : List (VarId ⊕ Ty)) : Nat :=
  Ty.listSize (items.filterMap Sum.getRight?) + s.linkWeight
    {c ∈ range s.cells.size | c ∉ seen}

theorem visit_followed (hc : t.shape = .cell c) (hl : s.link? c = some (variance, u))
    (hseen : c ∈ seen) :
    s.visit seen t = (seen, []) := by
  simp only [visit, hc, hl, if_pos hseen]

theorem visit_link (hc : t.shape = .cell c) (hl : s.link? c = some (variance, u))
    (hseen : c ∉ seen) :
    s.visit seen t = (c :: seen, [.inr u]) := by
  simp only [visit, hc, hl, if_neg hseen]

theorem visit_free (hc : t.shape = .cell c) {v : VarId} (hf : s.freeVar? c = some v) :
    s.visit seen t = (seen, [.inl v]) := by
  simp only [visit, hc, link?_eq_none_of_freeVar? hf, hf]
  rfl

theorem visit_layer (hx : ∀ c, t.shape ≠ .cell c) :
    s.visit seen t = (seen, t.shape.items) := by
  unfold visit
  split
  · rename_i c hc
    exact absurd hc (hx c)
  · rfl

theorem nodesAhead_var (s : Store) (seen : List CellId) (v : VarId)
    (rest : List (VarId ⊕ Ty)) :
    s.nodesAhead seen (.inl v :: rest) = s.nodesAhead seen rest :=
  rfl

theorem nodesAhead_term (s : Store) (seen : List CellId) (t : Ty)
    (rest : List (VarId ⊕ Ty)) :
    s.nodesAhead seen (.inr t :: rest) = t.size + s.nodesAhead seen rest :=
  Nat.add_assoc _ _ _

theorem nodesAhead_items (s : Store) (seen : List CellId) (x : Shape Ty)
    (rest : List (VarId ⊕ Ty)) :
    s.nodesAhead seen (x.items ++ rest) =
      Ty.listSize x.children + s.nodesAhead seen rest := by
  have hterms : x.items.filterMap Sum.getRight? = x.children := by
    simp [Shape.items, List.filterMap_append, List.filterMap_map, Function.comp_def]
  rw [nodesAhead, List.filterMap_append, hterms, Ty.listSize_append,
    Nat.add_assoc, nodesAhead]

/-- **Less is ahead after every visit.** -/
theorem nodesAhead_visit (s : Store) (seen : List CellId) (t : Ty)
    (rest : List (VarId ⊕ Ty)) :
    s.nodesAhead (s.visit seen t).1 ((s.visit seen t).2 ++ rest) <
      s.nodesAhead seen (.inr t :: rest) := by
  have hpos := t.size_pos
  rw [nodesAhead_term]
  unfold visit
  split
  · split
    · rename_i c _ _ variance u hl
      split
      · exact Nat.lt_add_of_pos_left hpos
      · rename_i hseen
        -- The link that is followed weighs more than what it leads to.
        have hlink :
            s.linkWeight {d ∈ range s.cells.size | d ∉ c :: seen} + (u.size + 1) ≤
            s.linkWeight {d ∈ range s.cells.size | d ∉ seen} := by
          refine linkWeight_target hl (by simp) ?_ ?_
          · exact mem_filter.2 ⟨mem_range.2 (lt_of_link? hl), hseen⟩
          · exact monotone_filter_right _ fun d _ hd => mt (List.mem_cons_of_mem c) hd
        change s.nodesAhead (c :: seen) (.inr u :: rest) < _
        rw [nodesAhead_term, nodesAhead, nodesAhead]
        omega
    · rename_i c _ _ _
      cases s.freeVar? c with
      | none => exact Nat.lt_add_of_pos_left hpos
      | some v => exact Nat.lt_add_of_pos_left hpos
  · have hsize := t.size_eq
    change s.nodesAhead seen (t.shape.items ++ rest) < _
    rw [nodesAhead_items]
    omega

/-- The variables that a walk meets, one after the other and as often as it meets
them. -/
def tourFrom (s : Store) (seen : List CellId) : List (VarId ⊕ Ty) → List VarId
  | [] => []
  | .inl v :: rest => v :: s.tourFrom seen rest
  | .inr t :: rest => s.tourFrom (s.visit seen t).1 ((s.visit seen t).2 ++ rest)
termination_by items => (s.nodesAhead seen items, items.length)
decreasing_by
  · rw [nodesAhead_var]
    exact .right _ (Nat.lt_succ_self _)
  · exact .left _ _ (s.nodesAhead_visit seen t rest)

theorem tourFrom_term (s : Store) (seen : List CellId) (t : Ty)
    (rest : List (VarId ⊕ Ty)) :
    s.tourFrom seen (.inr t :: rest) =
      s.tourFrom (s.visit seen t).1 ((s.visit seen t).2 ++ rest) := by
  rw [tourFrom]

theorem tourFrom_var (s : Store) (seen : List CellId) (v : VarId)
    (rest : List (VarId ⊕ Ty)) :
    s.tourFrom seen (.inl v :: rest) = v :: s.tourFrom seen rest := by
  rw [tourFrom]

/-- The variables of a term in the order in which a walk meets them: down the term
from left to right, the variables that a method quantifies before its type, and
through every link once, when it is met first. -/
def tour (s : Store) (t : Ty) : List VarId := s.tourFrom [] [.inr t]

/-- The selected variables of a term, each where a walk meets it first. -/
def selectedVars (s : Store) (opts : CopyOptions) (t : Ty) : List VarId :=
  ((s.tour t).filter fun v => opts.selects v (s.var v)).eraseDups

end Store

namespace CopyTask

open Store

variable {k : CopyTask} {α β : Type} {met : List VarId} {seen : List CellId}
  {p q : Copying} {t u : Ty} {v : VarId}
  {c : CellId} {variance : Variance} {items items' : List (VarId ⊕ Ty)}

/-! ## A copy and a walk side by side -/

/-- The variables that are renewed, each where it was met first. -/
def renewed (k : CopyTask) (met : List VarId) : List VarId :=
  (met.filter k.renews).eraseDups

theorem mem_renewed : v ∈ k.renewed met ↔ v ∈ met ∧ k.renews v = true := by
  rw [renewed, List.mem_eraseDups, List.mem_filter]

theorem renewed_again (h : k.renews v = true → v ∈ met) :
    k.renewed (met ++ [v]) = k.renewed met := by
  rw [renewed, List.filter_append, List.eraseDups_append]
  cases hr : k.renews v with
  | false => simp [renewed, hr, List.removeAll]
  | true => simp [renewed, hr, List.removeAll, h hr]

theorem renewed_new (hr : k.renews v = true) (h : v ∉ met) :
    k.renewed (met ++ [v]) = k.renewed met ++ [v] := by
  rw [renewed, List.filter_append, List.eraseDups_append]
  simp [renewed, hr, List.removeAll, h, List.eraseDups_cons]

/-- **A copy keeps pace with a walk** that has met the variables `met` and followed
the links `seen`. -/
structure Abreast (k : CopyTask) (met : List VarId) (seen : List CellId)
    (p : Copying) : Prop where
  within : k.store.Within p.store
  noted : ∀ v, (p.vars.lookup v).isSome ↔ v ∈ k.renewed met
  /-- The new variables were drawn in the order in which those that they replace were
  met. -/
  drawn : (k.renewed met).map (p.vars.lookup ·) =
    (List.range' k.store.vars.size (k.renewed met).length).map some
  size : p.store.vars.size = k.store.vars.size + (k.renewed met).length
  linked : ∀ c variance u, k.store.link? c = some (variance, u) →
    ((p.cells.lookup c).isSome ↔ c ∈ seen)
  /-- A cell is not noted before its variable is met. -/
  held : ∀ c v, k.store.freeVar? c = some v → (p.cells.lookup c).isSome → v ∈ met

namespace Abreast

theorem start (k : CopyTask) : k.Abreast [] [] { store := k.store } where
  within := .refl _
  noted _ := by simp [renewed]
  drawn := rfl
  size := rfl
  linked _ _ _ _ := by simp
  held _ _ _ h := nomatch h

/-- Meeting a variable changes nothing if it is shared with the copy or was met
before. -/
theorem again (h : k.Abreast met seen p) (hv : k.renews v = true → v ∈ met) :
    k.Abreast (met ++ [v]) seen p := by
  have hsame := renewed_again hv
  refine ⟨h.within, ?_, ?_, ?_, h.linked,
    fun c w hf hc => List.mem_append_left _ (h.held c w hf hc)⟩
  · rw [hsame]
    exact h.noted
  · rw [hsame]
    exact h.drawn
  · rw [hsame]
    exact h.size

/-- A renewed variable that is met for the first time gets the next new one. -/
theorem drawVar (h : k.Abreast met seen p) (hr : k.renews v = true) (hv : v ∉ met) :
    k.Abreast (met ++ [v]) seen (p.drawVar k.opts v).2 := by
  have hnew : v ∉ k.renewed met := fun hmem => hv (mem_renewed.1 hmem).1
  have hlookup : ∀ w, (p.drawVar k.opts v).2.vars.lookup w =
      if w = v then some p.store.vars.size
      else p.vars.lookup w := fun w => lookup_cons _ w _ _
  refine ⟨h.within.trans (p.store.within_newVar _ _), fun w => ?_, ?_, ?_, h.linked,
    fun c w hf hc => List.mem_append_left _ (h.held c w hf hc)⟩
  · rw [renewed_new hr hv, List.mem_append, List.mem_singleton, hlookup, ← h.noted]
    by_cases hw : w = v <;> simp [hw]
  · have hold : (k.renewed met).map ((p.drawVar k.opts v).2.vars.lookup ·) =
        (k.renewed met).map (p.vars.lookup ·) := by
      refine List.map_congr_left fun w hw => ?_
      rw [hlookup, if_neg]
      rintro rfl
      exact hnew hw
    rw [renewed_new hr hv, List.map_append, hold, h.drawn, List.length_append,
      List.length_singleton, List.range'_concat, List.map_append, List.map_singleton,
        List.map_singleton, hlookup, if_pos rfl, h.size,
      Nat.one_mul]
  · rw [renewed_new hr hv, List.length_append, ← Nat.add_assoc, ← h.size]
    exact Array.size_push _

/-- Copies of cells are drawn when the links of the cells are followed, or after their
variables were met. -/
theorem drawCell {seen' : List CellId} (h : k.Abreast met seen p) (content : Cell)
    (hlink : ∀ d variance u, k.store.link? d = some (variance, u) →
      (d ∈ seen' ↔ d = c ∨ d ∈ seen))
    (hfree : ∀ v, k.store.freeVar? c = some v → v ∈ met) :
    k.Abreast met seen' (p.drawCell c content).2 := by
  have hlookup : ∀ d, ((p.drawCell c content).2.cells.lookup d).isSome ↔
      d = c ∨ (p.cells.lookup d).isSome := by
    intro d
    change (((c, p.store.cells.size) :: p.cells).lookup d).isSome ↔ _
    rw [lookup_cons]
    by_cases hdc : d = c <;> simp [hdc]
  refine ⟨h.within.trans (p.store.within_newCell _), h.noted, h.drawn, h.size,
    fun d variance u hl => ?_, fun d w hf hd => ?_⟩
  · rw [hlookup, hlink d variance u hl, h.linked d variance u hl]
  · rcases (hlookup d).1 hd with rfl | hd
    · exact hfree w hf
    · exact h.held d w hf hd

theorem fillCell (h : k.Abreast met seen p)
    (hc : k.store.cells.size ≤ c) (content : Cell) :
    k.Abreast met seen (p.fillCell c content) := by
  refine ⟨⟨h.within.vars, fun d hd => ?_⟩, h.noted, h.drawn, h.size, h.linked, h.held⟩
  rw [← h.within.cells d hd]
  exact Array.getElem?_setIfInBounds_ne (Nat.ne_of_gt (Nat.lt_of_lt_of_le hd hc))

end Abreast

/-- A walk over `items` keeps pace with a step of a copy that succeeds. -/
def WalksFrom (k : CopyTask) (met : List VarId) (seen : List CellId)
    (p : Copying) (step : CopyM α) (items : List (VarId ⊕ Ty)) : Prop :=
  ∀ a q, step.run.run p = (.ok a, q) → ∃ more seen', k.Abreast (met ++ more) seen' q ∧
    ∀ rest, k.store.tourFrom seen (items ++ rest) = more ++ k.store.tourFrom seen' rest

/-- The same from wherever the copy keeps pace. -/
def Walks (k : CopyTask) (step : CopyM α) (items : List (VarId ⊕ Ty)) : Prop :=
  ∀ met seen p, k.Abreast met seen p → k.WalksFrom met seen p step items

theorem WalksFrom.get {next : Copying → CopyM α}
    (h : k.WalksFrom met seen p (next p) items) :
    k.WalksFrom met seen p (get >>= next) items :=
  h

/-- A step that leaves the notes as they are, where a walk meets at most variables
that change nothing. -/
theorem WalksFrom.pure {a : α} {more : List VarId} (hp : k.Abreast (met ++ more) seen p)
    (htour : ∀ rest, k.store.tourFrom seen (items ++ rest) =
      more ++ k.store.tourFrom seen rest) :
    k.WalksFrom met seen p (Pure.pure a) items := by
  intro x q hrun
  cases hrun
  exact ⟨more, seen, hp, htour⟩

namespace Walks

variable {step : CopyM α}

theorem pure (a : α) : k.Walks (pure a) [] := by
  intro met seen p hp
  rw [← List.append_nil met] at hp
  exact .pure hp fun rest => rfl

/-- **Steps one after the other.** -/
theorem bind {next : α → CopyM β} (h : k.Walks step items)
    (hnext : ∀ a, k.Walks (next a) items') :
    k.Walks (step >>= next) (items ++ items') := by
  intro met seen p hp x q hrun
  obtain ⟨a, r, hstep, hrest⟩ := run_bind_eq_ok hrun
  obtain ⟨more, seen', hr, htour⟩ := h met seen p hp a r hstep
  obtain ⟨more', seen'', hq, htour'⟩ := hnext a (met ++ more) seen' r hr x q hrest
  refine ⟨more ++ more', seen'', by rwa [← List.append_assoc], fun rest => ?_⟩
  rw [List.append_assoc, htour, htour', List.append_assoc]

theorem map (h : k.Walks step items) (f : α → β) :
    k.Walks (step >>= fun a => Pure.pure (f a)) items := by
  have := h.bind fun a => pure (k := k) (f a)
  rwa [List.append_nil] at this

theorem mapM {step : α → CopyM β} (item : α → VarId ⊕ Ty) (l : List α)
    (h : ∀ a ∈ l, k.Walks (step a) [item a]) : k.Walks (l.mapM step) (l.map item) := by
  induction l with
  | nil => exact pure []
  | cons a l ih =>
    obtain ⟨ha, hl⟩ := List.forall_mem_cons.1 h
    rw [List.mapM_cons]
    exact ha.bind fun x => (ih hl).map fun xs => x :: xs

end Walks

/-- **The copy of a variable.** -/
theorem Abreast.copyVar (hp : k.Abreast met seen p) (hv : k.store.ReachesVar k.root v) :
    k.Abreast (met ++ [v]) seen (p.copyVar k.opts v).2 := by
  rw [Copying.copyVar, selected_eq hp.within hv]
  cases hr : k.renews v with
  | false => exact hp.again fun h => by rw [hr] at h; cases h
  | true =>
    rw [if_pos rfl]
    have hnoted := hp.noted v
    rw [mem_renewed, hr] at hnoted
    cases hnote : p.vars.lookup v with
    | some v' =>
      rw [hnote] at hnoted
      exact hp.again fun _ => (hnoted.1 rfl).1
    | none =>
      rw [hnote] at hnoted
      exact hp.drawVar hr fun h => absurd (hnoted.2 ⟨h, rfl⟩) Bool.false_ne_true

theorem walks_copyVar (hv : k.store.ReachesVar k.root v) :
    k.Walks (modifyGet (Copying.copyVar k.opts v)) [.inl v] := by
  intro met seen p hp v' q hrun
  obtain rfl : (p.copyVar k.opts v).2 = q := congrArg Prod.snd hrun
  exact ⟨[v], seen, hp.copyVar hv, k.store.tourFrom_var seen v⟩

theorem tourFrom_free (ht : t.shape = .cell c) (hf : k.store.freeVar? c = some v)
    (rest : List (VarId ⊕ Ty)) :
    k.store.tourFrom seen ([.inr t] ++ rest) = [v] ++ k.store.tourFrom seen rest := by
  rw [List.singleton_append, tourFrom_term, visit_free ht hf]
  exact k.store.tourFrom_var seen v rest

/-- A cell without a note whose variable is renewed. -/
theorem walksFrom_freeCell (hp : k.Abreast met seen p) (hc : k.store.ReachesCell k.root c)
    (ht : t.shape = .cell c) (hf : k.store.freeVar? c = some v) :
    k.WalksFrom met seen p
      (modifyGet (Copying.copyVar k.opts v) >>= fun v' =>
        modifyGet (Copying.drawCell c (.free v'))) [.inr t] := by
  intro c' q hrun
  obtain rfl : ((p.copyVar k.opts v).2.drawCell c (.free (p.copyVar k.opts v).1)).2 = q :=
    congrArg Prod.snd hrun
  refine ⟨[v], seen, (hp.copyVar (Or.inl ⟨c, hc, hf⟩)).drawCell _
      (fun d variance u hl => ?_) fun w hw => ?_,
    tourFrom_free ht hf⟩
  · refine ⟨Or.inr, fun h => h.resolve_left ?_⟩
    rintro rfl
    rw [link?_eq_none_of_freeVar? hf] at hl
    cases hl
  · rw [hf] at hw
    cases hw
    exact List.mem_append_right _ List.mem_cons_self

/-- A linked cell without a note: the walk follows its link. -/
theorem walksFrom_linkedCell {copyTarget : Ty → CopyM Ty} (hp : k.Abreast met seen p)
    (ht : t.shape = .cell c) (hl : k.store.link? c = some (variance, u))
    (hnote : p.cells.lookup c = none) (htarget : k.Walks (copyTarget u) [.inr u]) :
    k.WalksFrom met seen p
      (do
        let c' ← modifyGet (Copying.drawCell c (.link variance (.of .hole)))
        let target ← copyTarget u
        modify (Copying.fillCell c' (.link variance target))
        return c') [.inr t] := by
  intro c' q hrun
  have hseen : c ∉ seen := by
    rw [← hp.linked c variance u hl, hnote]
    exact Bool.false_ne_true
  have hd : k.Abreast met (c :: seen) (p.drawCell c (.link variance (.of .hole))).2 := by
    refine hp.drawCell _ (fun d _ _ _ => List.mem_cons) fun v hf => ?_
    rw [link?_eq_none_of_freeVar? hf] at hl
    cases hl
  obtain ⟨d, r, hdraw, hrest⟩ := run_bind_eq_ok hrun
  cases hdraw
  obtain ⟨target, r, hrun', hfill⟩ := run_bind_eq_ok hrest
  cases hfill
  obtain ⟨more, seen', hr, htour⟩ := htarget met (c :: seen) _ hd target r hrun'
  refine ⟨more, seen', hr.fillCell hp.within.cells_le _, fun rest => ?_⟩
  rw [List.singleton_append, tourFrom_term, visit_link ht hl hseen]
  exact htour rest

/-- **The copy of a cell.** -/
theorem walks_copyCell {copyTarget : Ty → CopyM Ty} (hc : k.store.ReachesCell k.root c)
    (ht : t.shape = .cell c)
    (htarget : ∀ variance u, k.store.link? c = some (variance, u) →
      k.Walks (copyTarget u) [.inr u]) :
    k.Walks (Copying.copyCell k.opts copyTarget c) [.inr t] := by
  intro met seen p hp
  have hlt := hc.lt k.wellFormed k.rootScope
  have hcontent := hp.within.cells c hlt
  refine WalksFrom.get ?_
  cases hold : k.store.cells[c]? with
  | none =>
    rw [Array.getElem?_eq_none_iff] at hold
    exact absurd hlt (Nat.not_lt_of_ge hold)
  | some content =>
    rw [hcontent, hold]
    cases content with
    | free v =>
      have hf := freeVar?_eq_some.2 hold
      cases hnote : p.cells.lookup c with
      | some c' =>
        have hmet : v ∈ met := hp.held c v hf (by rw [hnote]; rfl)
        exact .pure (hp.again fun _ => hmet) (tourFrom_free ht hf)
      | none =>
        dsimp only
        rw [selected_eq hp.within (Or.inl ⟨c, hc, hf⟩)]
        cases hr : k.renews v with
        | true => exact walksFrom_freeCell hp hc ht hf
        | false =>
          exact .pure (hp.again fun h => by rw [hr] at h; cases h) (tourFrom_free ht hf)
    | link variance u =>
      have hl := link?_eq_some.2 hold
      cases hnote : p.cells.lookup c with
      | some c' =>
        have hseen : c ∈ seen := (hp.linked c variance u hl).1 (by rw [hnote]; rfl)
        rw [← List.append_nil met] at hp
        refine .pure hp fun rest => ?_
        rw [List.singleton_append, tourFrom_term, visit_followed ht hl hseen]
        rfl
      | none => exact walksFrom_linkedCell hp ht hl hnote (htarget variance u hl)

/-- The copies of terms that are members of records, each put back into a record. -/
theorem walks_members {copy : Ty → CopyM Ty} (type : α → Ty)
    (pack : α → Ty → β) (l : List α)
    (h : ∀ a ∈ l, k.Walks (copy (type a)) [.inr (type a)]) :
    k.Walks (l.mapM fun a => return pack a (← copy (type a)))
      ((l.map type).map .inr) := by
  rw [List.map_map]
  exact .mapM _ l fun a ha => (h a ha).map _

/-- **The copy of a layer** that is not a cell, from the copies of its binders and its
subterms. -/
theorem walks_traverse {copy : Ty → CopyM Ty} {x : Shape Ty} (hx : ∀ c, x ≠ .cell c)
    (hv : ∀ v ∈ x.binders, k.store.ReachesVar k.root v)
    (hu : ∀ u ∈ x.children, k.Walks (copy u) [.inr u]) :
    k.Walks (x.traverse (fun v => modifyGet (Copying.copyVar k.opts v)) copy)
      x.items := by
  cases x with
  | hole => exact .pure _
  | cell c => exact absurd rfl (hx c)
  | getter t | list repr t | nullable t => exact (hu t List.mem_cons_self).map _
  | tuple elems | custom kind elems => exact (Walks.mapM .inr elems hu).map _
  | constr name params =>
    exact (walks_members Param.type (fun p u => Param.mk p.variance u) params
      (List.forall_mem_map.1 hu)).map _
  | arrow args ret =>
    obtain ⟨hargs, hret⟩ := List.forall_mem_append.1 hu
    have hargs :=
      walks_members Arg.type (fun a u => Arg.mk a.optional a.label u) args
        (List.forall_mem_map.1 hargs)
    have hitems : Shape.items (.arrow args ret) =
        (args.map Arg.type).map .inr ++ [.inr ret] := List.map_append
    rw [hitems]
    exact hargs.bind fun as => (hret ret List.mem_cons_self).map _
  | meth m inner =>
    obtain ⟨htype, hinner⟩ := List.forall_mem_cons.1 hu
    have hvars := Walks.mapM .inl m.scheme.vars fun v hm => walks_copyVar (hv v hm)
    exact hvars.bind fun vs => htype.bind fun type =>
      (hinner inner List.mem_cons_self).map _

/-- **The copy of a term.** -/
theorem walks_copyTerm {n : Nat} (ht : k.store.Reaches k.root t) :
    k.Walks (Copying.copyTerm k.opts n t) [.inr t] := by
  induction n generalizing t with
  | zero =>
    intro met seen p hp a q hrun
    cases hrun
  | succ n ih =>
    unfold Copying.copyTerm
    split
    · intro met seen p hp a q hrun
      cases hrun
    · rename_i c hc
      exact (walks_copyCell ⟨t, ht, hc⟩ hc fun variance u hl =>
        ih (ht.tail (.link hc hl))).map _
    · rename_i hcell
      have hbinders : ∀ v ∈ t.shape.binders, k.store.ReachesVar k.root v :=
        fun v hv => Or.inr ⟨t, ht, hv⟩
      refine Walks.map (fun met seen p hp a q hrun => ?_) _
      obtain ⟨more, seen', hq, htour⟩ :=
        walks_traverse hcell hbinders (fun u hu => ih (ht.tail (.child hu)))
          met seen p hp a q hrun
      refine ⟨more, seen', hq, fun rest => ?_⟩
      rw [List.singleton_append, tourFrom_term, visit_layer hcell]
      exact htour rest

/-- **The variables of a term are renewed in the order in which a walk meets them.** -/
theorem abreast_run {t' : Ty}
    (h : (Copying.copyTerm k.opts (k.store.span k.root) k.root).run.run
      { store := k.store } = (.ok t', q)) :
    ∃ seen, k.Abreast (k.store.tour k.root) seen q := by
  obtain ⟨met, seen, hq, htour⟩ := walks_copyTerm .refl [] [] _ (.start k) t' q h
  have hmet : k.store.tour k.root = met := by
    have := htour []
    rwa [tourFrom, List.append_nil, List.append_nil] at this
  rw [hmet]
  exact ⟨seen, hq⟩

theorem Abreast.map_varOf (h : k.Abreast met seen q) :
    (k.renewed met).map (k.varOf q) =
      List.range' k.store.vars.size (k.renewed met).length := by
  refine List.map_injective_iff.2 (Option.some_injective _) ?_
  rw [List.map_map, ← h.drawn]
  refine List.map_congr_left fun v hv => ?_
  exact (lookup_varOf (mem_renewed.1 hv).2 fun _ => (h.noted v).2 hv).symm

theorem Ended.mem_renewed_iff (hs : k.Sound q) (he : k.Ended q)
    (h : k.Abreast met seen q) :
    v ∈ k.renewed met ↔ k.store.ReachesVar k.root v ∧ k.renews v = true := by
  rw [← h.noted]
  constructor
  · intro hv
    obtain ⟨v', hv'⟩ := Option.isSome_iff_exists.1 hv
    exact ⟨(hs.var v v' hv').1, (hs.var v v' hv').2.1⟩
  · rintro ⟨hv, hr⟩
    exact he.hasVar hv hr

end CopyTask

namespace Store

variable {s s' : Store} {t : Ty}

theorem Within.vars_eq (h : s.Within s') (hsize : s'.vars.size = s.vars.size) :
    s'.vars = s.vars := by
  refine Array.ext_getElem? fun v => ?_
  by_cases hv : v < s.vars.size
  · exact h.vars v hv
  · rw [Array.getElem?_eq_none (by omega), Array.getElem?_eq_none (by omega)]

/-- **The variables that a copy draws**: one for each of `vs`, the selected variables
of the term, in their order. -/
structure Draws (s s' : Store) (opts : CopyOptions) (t t' : Ty) (onVar : VarId → VarId)
    (vs : List VarId) : Prop where
  nodup : vs.Nodup
  mem_iff : ∀ v, v ∈ vs ↔ s.ReachesVar t v ∧ opts.selects v (s.var v) = true
  /-- They are replaced by the next variables that the store has to give. -/
  numbers : vs.map onVar = List.range' s.vars.size vs.length
  counter : s'.vars.size = s.vars.size + vs.length
  /-- If nothing is selected, nothing is drawn. -/
  nothing : (∀ v, s.ReachesVar t v → opts.selects v (s.var v) = false) → s'.vars = s.vars
  /-- No selected variable of the original is left in the copy, held by a cell or
  quantified by a method. -/
  replaced : ∀ w, s'.ReachesVar t' w → w < s.vars.size → opts.selects w (s'.var w) = false

/-- **Copying draws just the variables that it needs, in the order in which it meets
those that they replace.** -/
theorem fresh_draws_in_order (hs : s.WellFormed) (ht : s.Scoped t) (hc : s.Complete t)
    (opts : CopyOptions) :
    ∃ t' s' onVar onCell, s.fresh opts t = (.ok t', s') ∧
      s.GraphCopy s' opts t t' onVar onCell ∧
      s.Draws s' opts t t' onVar (s.selectedVars opts t) := by
  obtain ⟨result, q, hrun, hq, hresult⟩ := CopyTask.run_ends ⟨s, opts, t, hs, ht⟩
  cases result with
  | error e => exact absurd hc hresult.2
  | ok t' =>
    obtain ⟨he, rfl⟩ := hresult
    obtain ⟨seen, habreast⟩ := CopyTask.abreast_run hrun
    have hcopy := he.graphCopy hq
    have hmem := fun v => he.mem_renewed_iff (v := v) hq habreast
    refine ⟨_, q.store, _, _, CopyTask.fresh_of_run hrun, hcopy, nodup_eraseDups _,
      hmem, habreast.map_varOf, habreast.size, fun hnone => ?_, fun w hw hlt => ?_⟩
    · have hnil : s.selectedVars opts t = [] := by
        refine List.eq_nil_iff_forall_not_mem.2 fun v hv => ?_
        obtain ⟨hreach, hsel⟩ := (hmem v).1 hv
        exact Bool.false_ne_true ((hnone v hreach).symm.trans hsel)
      exact hcopy.within.vars_eq
        (habreast.size.trans (congrArg (s.vars.size + List.length ·) hnil))
    · rcases hcopy.var_new_or_shared hw with ⟨hnew, -⟩ | ⟨-, hsel⟩
      · exact absurd hlt (Nat.not_lt_of_ge hnew)
      · rw [hcopy.within.var hlt]
        exact hsel

/-- One variable is quantified before a cell holds it, and the other is met on the way
around a cycle. -/
theorem fresh_draws_in_order_cyclic :
    ∃ t' s' onVar onCell, cyclicExample.fresh {} cyclicExampleTerm = (.ok t', s') ∧
      cyclicExample.GraphCopy s' {} cyclicExampleTerm t' onVar onCell ∧
      cyclicExample.Draws s' {} cyclicExampleTerm t' onVar [1, 0] := by
  have hcomplete : cyclicExample.Complete cyclicExampleTerm :=
    complete_of_everywhere (by decide) (by decide)
  have htour : cyclicExample.tour cyclicExampleTerm = [1, 1, 0, 0] := by
    simp [tour, tourFrom, visit, Shape.items, Shape.binders, Shape.children, link?,
      freeVar?, cyclicExample, cyclicExampleTerm]
  have hselected : cyclicExample.selectedVars {} cyclicExampleTerm = [1, 0] := by
    rw [selectedVars, htour]
    decide
  have hdraws := fresh_draws_in_order (by decide) (by decide) hcomplete {}
  rwa [hselected] at hdraws

end Store

end TypeGraph
