import TypeGraph.Copy
import TypeGraph.Proofs.Descent

/-!
# The tables of a copy in progress

A copy notes for every renewed variable and every copied cell what became of it, and
consults its notes before it draws anything new. At each moment the notes define
a relabelling of what has been met so far (`CopyTask.varOf`, `CopyTask.cellOf`), and
later notes never change it.

`CopyTask.Sound` is what holds between any two steps. All that the original store had
is still there. Different variables and cells are noted with different new ones, and
nothing else was drawn. The copy of a cell holds the relabelled content of the cell,
except for a linked cell whose target is still being copied; its copy waits with
a hole for a target, and the notes say already where it is, so that a way back to the
cell from its own target finds the copy.
-/

namespace TypeGraph

/-- The content of a cell with its variables and cells renamed. -/
def Cell.relabel (onVar : VarId → VarId) (onCell : CellId → CellId) : Cell → Cell
  | free v => free (onVar v)
  | link variance u => link variance (u.relabel onVar onCell)

/-- A copy to be made: of a term, in a store that has it. -/
structure CopyTask where
  store : Store
  opts : CopyOptions
  root : Ty
  wellFormed : store.WellFormed
  rootScope : store.Scoped root

namespace CopyTask

variable (k : CopyTask) {p q r : Copying} {t u : Ty} {v v' w : VarId} {c c' d d' : CellId}

/-- Does the copy give the variable a new identity? -/
def renews (v : VarId) : Bool := k.opts.selects v (k.store.var v)

/-- What replaces a renewed variable. -/
def renewal (v : VarId) : Var :=
  ⟨k.opts.level.getD (k.store.var v).level, (k.store.var v).constraints⟩

/-- Is the cell shared with the copy? Free cells are, unless their variables are
renewed. -/
def keeps (c : CellId) : Bool :=
  match k.store.freeVar? c with
  | some v => !k.renews v
  | none => false

theorem keeps_free (h : k.store.freeVar? c = some v) : k.keeps c = !k.renews v := by
  rw [keeps, h]

theorem keeps_link {variance : Variance} (h : k.store.link? c = some (variance, u)) :
    k.keeps c = false := by
  rw [keeps, Store.freeVar?, Store.link?_eq_some.1 h]

theorem keeps_iff : k.keeps c = true ↔
    ∃ v, k.store.freeVar? c = some v ∧ k.renews v = false := by
  unfold keeps
  split
  · rename_i v hf
    rw [hf]
    simp
  · rename_i hf
    simp [hf]

/-- The copy of a variable, by the notes. -/
def varOf (p : Copying) (v : VarId) : VarId :=
  if k.renews v then (p.vars.lookup v).getD v else v

/-- The copy of a cell, by the notes. -/
def cellOf (p : Copying) (c : CellId) : CellId :=
  if k.keeps c then c else (p.cells.lookup c).getD c

/-- The copy of a term, by the notes. -/
def copyOf (p : Copying) (t : Ty) : Ty := t.relabel (k.varOf p) (k.cellOf p)

/-- The copy of the content of a cell, by the notes. -/
def contentOf (p : Copying) (content : Cell) : Cell :=
  content.relabel (k.varOf p) (k.cellOf p)

/-! ## What the notes cover -/

/-- The notes say what becomes of the variable. -/
def HasVar (p : Copying) (v : VarId) : Prop :=
  k.renews v = true → (p.vars.lookup v).isSome

/-- The notes say what becomes of the cell. -/
def HasCell (p : Copying) (c : CellId) : Prop :=
  k.keeps c = false → (p.cells.lookup c).isSome

/-- The notes say what becomes of the layer. Nothing becomes of a hole. -/
def HasLayer (p : Copying) (x : Shape Ty) : Prop :=
  (∀ v ∈ x.binders, k.HasVar p v) ∧ (∀ c ∈ x.cells, k.HasCell p c) ∧ x ≠ .hole

/-- The notes say what becomes of everything that stands in the term. -/
def Covers (p : Copying) (t : Ty) : Prop := t.Everywhere (k.HasLayer p)

/-- The notes say what becomes of everything in the content of a cell. -/
def CoversContent (p : Copying) : Cell → Prop
  | .free v => k.HasVar p v
  | .link _ u => k.Covers p u

/-- Later notes: nothing that was noted and nothing that was drawn has changed. -/
structure Extends (p q : Copying) : Prop where
  vars : ∀ v v', p.vars.lookup v = some v' → q.vars.lookup v = some v'
  cells : ∀ c c', p.cells.lookup c = some c' → q.cells.lookup c = some c'
  store : p.store.Within q.store

namespace Extends

theorem refl (p : Copying) : Extends p p := ⟨fun _ _ h => h, fun _ _ h => h, .refl _⟩

theorem trans (h : Extends p q) (h' : Extends q r) : Extends p r :=
  ⟨fun v v' hv => h'.vars v v' (h.vars v v' hv),
    fun c c' hc => h'.cells c c' (h.cells c c' hc), h.store.trans h'.store⟩

/-- Completing the copy of a cell changes nothing that was there before the copy was
drawn. -/
theorem fillCell (h : Extends p q) (hc : p.store.cells.size ≤ c) (content : Cell) :
    Extends p (q.fillCell c content) := by
  refine ⟨h.vars, h.cells, h.store.vars, fun d hd => ?_⟩
  rw [← h.store.cells d hd]
  exact Array.getElem?_setIfInBounds_ne (Nat.ne_of_gt (Nat.lt_of_lt_of_le hd hc))

variable {k}

theorem hasVar (h : Extends p q) (hv : k.HasVar p v) : k.HasVar q v := by
  intro hr
  obtain ⟨v', hv'⟩ := Option.isSome_iff_exists.1 (hv hr)
  exact Option.isSome_iff_exists.2 ⟨v', h.vars v v' hv'⟩

theorem hasCell (h : Extends p q) (hc : k.HasCell p c) : k.HasCell q c := by
  intro hk
  obtain ⟨c', hc'⟩ := Option.isSome_iff_exists.1 (hc hk)
  exact Option.isSome_iff_exists.2 ⟨c', h.cells c c' hc'⟩

theorem covers (h : Extends p q) (ht : k.Covers p t) : k.Covers q t :=
  ht.imp fun _ hx =>
    ⟨fun v hv => h.hasVar (hx.1 v hv), fun c hc => h.hasCell (hx.2.1 c hc), hx.2.2⟩

theorem varOf_eq (h : Extends p q) (hv : k.HasVar p v) : k.varOf q v = k.varOf p v := by
  unfold varOf
  split
  · rename_i hr
    obtain ⟨v', hv'⟩ := Option.isSome_iff_exists.1 (hv hr)
    rw [hv', h.vars v v' hv']
  · rfl

theorem cellOf_eq (h : Extends p q) (hc : k.HasCell p c) :
    k.cellOf q c = k.cellOf p c := by
  unfold cellOf
  split
  · rfl
  · rename_i hk
    obtain ⟨c', hc'⟩ := Option.isSome_iff_exists.1 (hc (Bool.eq_false_of_not_eq_true hk))
    rw [hc', h.cells c c' hc']

/-- **What the notes say of a term that they cover is final.** -/
theorem copyOf_eq (h : Extends p q) (ht : k.Covers p t) : k.copyOf q t = k.copyOf p t :=
  Ty.relabel_congr <| ht.imp fun _ hx =>
    ⟨fun v hv => h.varOf_eq (hx.1 v hv), fun c hc => h.cellOf_eq (hx.2.1 c hc)⟩

theorem coversContent (h : Extends p q) {content : Cell}
    (hc : k.CoversContent p content) :
    k.CoversContent q content := by
  cases content with
  | free v => exact h.hasVar hc
  | link variance u => exact h.covers hc

theorem contentOf_eq (h : Extends p q) {content : Cell} (hc : k.CoversContent p content) :
    k.contentOf q content = k.contentOf p content := by
  cases content with
  | free v => exact congrArg Cell.free (h.varOf_eq hc)
  | link variance u => exact congrArg (Cell.link variance) (h.copyOf_eq hc)

end Extends

/-! ## Copies of cells -/

/-- The copy of the cell holds the relabelled content of the cell. -/
def Copied (p : Copying) (c c' : CellId) : Prop :=
  ∃ content, k.store.cells[c]? = some content ∧ k.CoversContent p content ∧
    p.store.cells[c']? = some (k.contentOf p content)

/-- The copy of the linked cell waits for the copy of its target. -/
def Pending (p : Copying) (c c' : CellId) : Prop :=
  ∃ variance u, k.store.cells[c]? = some (.link variance u) ∧
    p.store.cells[c']? = some (.link variance (.of .hole))

variable {k}

theorem Copied.mono (h : Extends p q) (hc : k.Copied p c c') : k.Copied q c c' := by
  obtain ⟨content, hcontent, hcov, hcopy⟩ := hc
  refine ⟨content, hcontent, h.coversContent hcov, ?_⟩
  rw [h.store.cells c' (Array.getElem?_eq_some_iff.1 hcopy).1, h.contentOf_eq hcov]
  exact hcopy

theorem Pending.mono (h : Extends p q) (hc : k.Pending p c c') : k.Pending q c c' := by
  obtain ⟨variance, u, hlink, hcopy⟩ := hc
  refine ⟨variance, u, hlink, ?_⟩
  rw [h.store.cells c' (Array.getElem?_eq_some_iff.1 hcopy).1]
  exact hcopy

variable (k)

/-- **What holds between any two steps of a copy.** -/
structure Sound (p : Copying) : Prop where
  /-- The original store is still there. -/
  within : k.store.Within p.store
  /-- Noted variables are those of the term that are renewed, and stand for new ones
  that replace them. -/
  var : ∀ v v', p.vars.lookup v = some v' →
    k.store.ReachesVar k.root v ∧ k.renews v = true ∧
    k.store.vars.size ≤ v' ∧ p.store.vars[v']? = some (k.renewal v)
  var_inj : ∀ v w x, p.vars.lookup v = some x → p.vars.lookup w = some x → v = w
  /-- All new variables are noted. -/
  var_noted : ∀ x, k.store.vars.size ≤ x → x < p.store.vars.size →
    ∃ v, p.vars.lookup v = some x
  /-- Noted cells are those of the term that are not shared, and stand for new ones. -/
  cell : ∀ c c', p.cells.lookup c = some c' →
    k.store.ReachesCell k.root c ∧ k.keeps c = false ∧
    k.store.cells.size ≤ c' ∧ (k.Copied p c c' ∨ k.Pending p c c')
  cell_inj : ∀ c d x, p.cells.lookup c = some x → p.cells.lookup d = some x → c = d
  /-- All new cells are noted. -/
  cell_noted : ∀ x, k.store.cells.size ≤ x → x < p.store.cells.size →
    ∃ c, p.cells.lookup c = some x

/-- Every cell that was noted in between has been copied to the end. -/
def Finished (p q : Copying) : Prop :=
  ∀ c c', q.cells.lookup c = some c' → p.cells.lookup c = none → k.Copied q c c'

variable {k}

/-- If no cell was noted in between, nothing is unfinished. -/
theorem Finished.of_cells_eq (h : q.cells = p.cells) : k.Finished p q := by
  intro c c' hq hp
  rw [h, hp] at hq
  cases hq

theorem Finished.trans (h : k.Finished p q) (hqr : Extends q r) (h' : k.Finished q r) :
    k.Finished p r := by
  intro c c' hr hp
  cases hq : q.cells.lookup c with
  | none => exact h' c c' hr hq
  | some x =>
    have hx := hqr.cells c x hq
    rw [hr] at hx
    cases hx
    exact (h c c' hq hp).mono hqr

/-! ## Notes are only added -/

theorem lookup_cons {β : Type} (a b : Nat) (x : β) (l : List (Nat × β)) :
    ((a, x) :: l).lookup b = if b = a then some x else l.lookup b := by
  rw [List.lookup_cons]
  by_cases h : b = a
  · simp [h]
  · rw [if_neg h, beq_eq_false_iff_ne.2 h]

/-- A note on a variable or cell that had none leaves the others as they are. -/
theorem lookup_cons_of_new {l : List (Nat × Nat)} {a b x y : Nat}
    (hnew : l.lookup a = none) (h : l.lookup b = some y) :
    ((a, x) :: l).lookup b = some y := by
  rw [lookup_cons, if_neg fun hba => ?_]
  · exact h
  · rw [hba, hnew] at h
    cases h

/-- If a cell was noted and has been copied to the end, and all cells noted later have
been too, nothing is unfinished. -/
theorem Finished.of_drawCell {content : Cell} (h : k.Finished (p.drawCell c content).2 r)
    (hc : r.cells.lookup c = some c') (hcopied : k.Copied r c c') : k.Finished p r := by
  intro d d' hd hp
  by_cases hdc : d = c
  · subst hdc
    cases hc.symm.trans hd
    exact hcopied
  · refine h d d' hd ?_
    change ((c, p.store.cells.size) :: p.cells).lookup d = none
    rw [lookup_cons, if_neg hdc]
    exact hp

/-- Images stay different when a new one is added. -/
theorem lookup_cons_inj {l : List (Nat × Nat)} {a n : Nat}
    (hlt : ∀ b x, l.lookup b = some x → x < n)
    (hinj : ∀ b c x, l.lookup b = some x → l.lookup c = some x → b = c) (b c x : Nat)
    (hb : ((a, n) :: l).lookup b = some x)
    (hc : ((a, n) :: l).lookup c = some x) : b = c := by
  rw [lookup_cons] at hb hc
  split at hb <;> split at hc
  · rename_i hba hca
    rw [hba, hca]
  · cases hb
    exact absurd (hlt c n hc) (Nat.lt_irrefl n)
  · cases hc
    exact absurd (hlt b n hb) (Nat.lt_irrefl n)
  · exact hinj b c x hb hc

namespace Sound

theorem var_lt (hp : k.Sound p) (h : p.vars.lookup v = some v') :
    v' < p.store.vars.size :=
  (Array.getElem?_eq_some_iff.1 (hp.var v v' h).2.2.2).1

theorem cell_lt (hp : k.Sound p) (h : p.cells.lookup c = some c') :
    c' < p.store.cells.size := by
  obtain ⟨-, -, -, ⟨content, -, -, hc⟩ | ⟨variance, u, -, hc⟩⟩ := hp.cell c c' h
  · exact (Array.getElem?_eq_some_iff.1 hc).1
  · exact (Array.getElem?_eq_some_iff.1 hc).1

/-- A variable and a cell keep what the notes say of them along a sound extension. -/
theorem cell_mono (hp : k.Sound p) (hpq : Extends p q) (h : p.cells.lookup c = some c') :
    k.store.ReachesCell k.root c ∧ k.keeps c = false ∧ k.store.cells.size ≤ c' ∧
      (k.Copied q c c' ∨ k.Pending q c c') := by
  obtain ⟨hreach, hkeep, hsize, hcopy⟩ := hp.cell c c' h
  exact ⟨hreach, hkeep, hsize, hcopy.imp (Copied.mono hpq) (Pending.mono hpq)⟩

/-- The empty notes are sound. -/
theorem start (k : CopyTask) : k.Sound { store := k.store } where
  within := .refl _
  var _ _ h := nomatch h
  var_inj _ _ _ h := nomatch h
  var_noted _ h h' := absurd h' (Nat.not_lt_of_ge h)
  cell _ _ h := nomatch h
  cell_inj _ _ _ h := nomatch h
  cell_noted _ h h' := absurd h' (Nat.not_lt_of_ge h)

/-- **Drawing a variable** that has no note yet. -/
theorem drawVar (hp : k.Sound p) (hv : k.store.ReachesVar k.root v)
    (hr : k.renews v = true) (hnew : p.vars.lookup v = none) :
    k.Sound (p.drawVar k.opts v).2 ∧ Extends p (p.drawVar k.opts v).2 := by
  have hold : p.store.var v = k.store.var v :=
    hp.within.var (hv.lt k.wellFormed k.rootScope)
  have hstore : p.store.Within (p.drawVar k.opts v).2.store := p.store.within_newVar _ _
  have hext : Extends p (p.drawVar k.opts v).2 :=
    ⟨fun w w' h => lookup_cons_of_new hnew h, fun _ _ h => h, hstore⟩
  refine ⟨⟨hp.within.trans hstore, fun w w' h => ?_, ?_, fun x hx hlt => ?_,
    fun c c' h => hp.cell_mono hext h, hp.cell_inj, hp.cell_noted⟩, hext⟩
  · change ((v, p.store.vars.size) :: p.vars).lookup w = some w' at h
    rw [lookup_cons] at h
    split at h
    · rename_i hwv
      cases h
      rw [hwv]
      refine ⟨hv, hr, hp.within.vars_le, ?_⟩
      rw [renewal, ← hold]
      exact Array.getElem?_push_size
    · obtain ⟨hreach, hrenew, hsize, hcopy⟩ := hp.var w w' h
      exact ⟨hreach, hrenew, hsize, (hstore.vars w' (hp.var_lt h)).trans hcopy⟩
  · exact lookup_cons_inj (fun _ _ h => hp.var_lt h) hp.var_inj
  · change x < (p.store.vars.push _).size at hlt
    rw [Array.size_push] at hlt
    rcases Nat.lt_succ_iff_lt_or_eq.1 hlt with hlt | rfl
    · obtain ⟨w, hw⟩ := hp.var_noted x hx hlt
      exact ⟨w, lookup_cons_of_new hnew hw⟩
    · exact ⟨v, by simp [Copying.drawVar, Store.newVar]⟩

/-- **Drawing the copy of a cell** that has no note yet. It is sound if the copy has
what it should. -/
theorem drawCell (hp : k.Sound p) (hc : k.store.ReachesCell k.root c)
    (hk : k.keeps c = false) (hnew : p.cells.lookup c = none) {content : Cell}
    (hcopy : k.Copied (p.drawCell c content).2 c p.store.cells.size ∨
      k.Pending (p.drawCell c content).2 c p.store.cells.size) :
    k.Sound (p.drawCell c content).2 ∧ Extends p (p.drawCell c content).2 := by
  have hstore : p.store.Within (p.drawCell c content).2.store :=
    p.store.within_newCell content
  have hext : Extends p (p.drawCell c content).2 :=
    ⟨fun _ _ h => h, fun d d' h => lookup_cons_of_new hnew h, hstore⟩
  refine ⟨⟨hp.within.trans hstore, hp.var, hp.var_inj, hp.var_noted, fun d d' h => ?_, ?_,
      fun x hx hlt => ?_⟩,
    hext⟩
  · change ((c, p.store.cells.size) :: p.cells).lookup d = some d' at h
    rw [lookup_cons] at h
    split at h
    · rename_i hdc
      cases h
      rw [hdc]
      exact ⟨hc, hk, hp.within.cells_le, hcopy⟩
    · exact hp.cell_mono hext h
  · exact lookup_cons_inj (fun _ _ h => hp.cell_lt h) hp.cell_inj
  · change x < (p.store.cells.push _).size at hlt
    rw [Array.size_push] at hlt
    rcases Nat.lt_succ_iff_lt_or_eq.1 hlt with hlt | rfl
    · obtain ⟨d, hd⟩ := hp.cell_noted x hx hlt
      exact ⟨d, lookup_cons_of_new hnew hd⟩
    · exact ⟨c, by simp [Copying.drawCell, Store.newCell]⟩

/-- **Completing the copy of a linked cell** when its target has been copied. The
copies of other cells are other cells, so they are not touched. -/
theorem fillCell (hp : k.Sound p) (hc : p.cells.lookup c = some c') {variance : Variance}
    (hl : k.store.link? c = some (variance, u)) (hu : k.Covers p u) :
    k.Sound (p.fillCell c' (.link variance (k.copyOf p u))) ∧
      k.Copied (p.fillCell c' (.link variance (k.copyOf p u))) c c' ∧
      ∀ d d', p.cells.lookup d = some d' → d ≠ c → k.Copied p d d' →
        k.Copied (p.fillCell c' (.link variance (k.copyOf p u))) d d' := by
  have hget : ∀ d', (p.fillCell c' (.link variance (k.copyOf p u))).store.cells[d']? =
      if c' = d' then some (.link variance (k.copyOf p u)) else p.store.cells[d']? := by
    intro d'
    change (p.store.cells.setIfInBounds c' _)[d']? = _
    rw [Array.getElem?_setIfInBounds, if_pos (hp.cell_lt hc)]
  have hother : ∀ d d', p.cells.lookup d = some d' → d ≠ c →
      (p.fillCell c' (.link variance (k.copyOf p u))).store.cells[d']? =
        p.store.cells[d']? := by
    intro d d' hd hdc
    rw [hget, if_neg]
    rintro rfl
    exact hdc (hp.cell_inj d c c' hd hc)
  have hcopied : k.Copied (p.fillCell c' (.link variance (k.copyOf p u))) c c' :=
    ⟨.link variance u, Store.link?_eq_some.1 hl, hu, by rw [hget, if_pos rfl]; rfl⟩
  have hkept : ∀ d d', p.cells.lookup d = some d' → d ≠ c → k.Copied p d d' →
      k.Copied (p.fillCell c' (.link variance (k.copyOf p u))) d d' := by
    rintro d d' hd hdc ⟨content, hcontent, hcov, hcopy⟩
    exact ⟨content, hcontent, hcov, (hother d d' hd hdc).trans hcopy⟩
  refine ⟨⟨⟨hp.within.vars, fun d hd => ?_⟩, hp.var, hp.var_inj, hp.var_noted,
    fun d d' hd => ?_, hp.cell_inj, fun x hx hlt => ?_⟩, hcopied, hkept⟩
  · -- The copy is not a cell of the original store.
    have hnew := (hp.cell c c' hc).2.2.1
    rw [hget, if_neg (Nat.ne_of_gt (Nat.lt_of_lt_of_le hd hnew))]
    exact hp.within.cells d hd
  · obtain ⟨hreach, hkeep, hsize, hcopy⟩ := hp.cell d d' hd
    refine ⟨hreach, hkeep, hsize, ?_⟩
    by_cases hdc : d = c
    · subst hdc
      cases hc.symm.trans hd
      exact Or.inl hcopied
    · rcases hcopy with hcopy | ⟨variance', w, hlink, hcopy⟩
      · exact Or.inl (hkept d d' hd hdc hcopy)
      · exact Or.inr ⟨variance', w, hlink, (hother d d' hd hdc).trans hcopy⟩
  · change x < (p.store.cells.setIfInBounds c' _).size at hlt
    rw [Array.size_setIfInBounds] at hlt
    exact hp.cell_noted x hx hlt

end Sound

end CopyTask

end TypeGraph
