import TypeGraph.Proofs.CopyTables

/-!
# Runs of a copy

`CopyTask.Copies` says of a step of a copy what it does from any sound notes: the
notes are sound and extended afterwards, also if the step fails; if it succeeds, every
cell that it noted has been copied to the end and its result is as stated; if it
fails, there was a reason, and the error says so. Steps compose (`Copies.bind`,
`Copies.mapM`), and from the steps of the program come in turn the copies of
a variable, a cell, a layer and a term.

A copy follows every link once, whether or not the links form cycles, because a linked
cell is noted before its target is copied. So the nodes behind the links of cells
without a note (`CopyTask.unnoted`) bound what is still ahead, and `Store.span` is
enough for any store.
-/

namespace TypeGraph.CopyTask

open Finset Store

variable {k : CopyTask} {α β : Type} {p q : Copying} {t u : Ty} {v : VarId} {c : CellId}
  {b : Nat} {broken : Prop}

/-! ## Running steps -/

theorem run_bind_ok {step : CopyM α} {next : α → CopyM β} {a : α}
    (h : step.run.run p = (.ok a, q)) :
    (step >>= next).run.run p = (next a).run.run q := by
  rw [ExceptT.run_bind, StateT.run_bind, h]
  rfl

theorem run_bind_error {step : CopyM α} {next : α → CopyM β} {e : Misuse}
    (h : step.run.run p = (.error e, q)) :
    (step >>= next).run.run p = (.error e, q) := by
  rw [ExceptT.run_bind, StateT.run_bind, h]
  rfl

theorem run_bind_eq_ok {step : CopyM α} {next : α → CopyM β} {x : β}
    (h : (step >>= next).run.run p = (.ok x, q)) :
    ∃ a r, step.run.run p = (.ok a, r) ∧ (next a).run.run r = (.ok x, q) := by
  rcases hstep : step.run.run p with ⟨_ | a, r⟩
  · rw [run_bind_error hstep] at h
    cases h
  · exact ⟨a, r, rfl, by rw [← run_bind_ok hstep, h]⟩

/-- The cells of the original store that have no note. -/
def unnoted (k : CopyTask) (p : Copying) : Finset CellId :=
  {c ∈ range k.store.cells.size | p.cells.lookup c = none}

theorem mem_unnoted : c ∈ k.unnoted p ↔
    c < k.store.cells.size ∧ p.cells.lookup c = none := by
  rw [unnoted, mem_filter, mem_range]

theorem unnoted_subset (h : Extends p q) : k.unnoted q ⊆ k.unnoted p := by
  intro c hc
  obtain ⟨hlt, hq⟩ := mem_unnoted.1 hc
  refine mem_unnoted.2 ⟨hlt, ?_⟩
  cases hp : p.cells.lookup c with
  | none => rfl
  | some c' =>
    rw [h.cells c c' hp] at hq
    cases hq

/-- **What a step of a copy does** with the notes `p`. -/
def Runs (k : CopyTask) (p : Copying) (step : CopyM α) (post : Copying → α → Prop)
    (broken : Prop) : Prop :=
  ∃ result q, step.run.run p = (result, q) ∧ k.Sound q ∧ Extends p q ∧
    match result with
    | .ok a => k.Finished p q ∧ post q a
    | .error e => e = .incomplete ∧ broken

/-- What a step does whenever at most `b` nodes are left behind links. -/
def Copies (k : CopyTask) (b : Nat) (step : CopyM α) (post : Copying → α → Prop)
    (broken : Prop) : Prop :=
  ∀ p, k.Sound p → k.store.linkWeight (k.unnoted p) ≤ b → k.Runs p step post broken

theorem Runs.get {next : Copying → CopyM α} {post : Copying → α → Prop}
    (h : k.Runs p (next p) post broken) :
    k.Runs p (get >>= next) post broken :=
  h

/-- What later notes do not take back. -/
def Lasting (P : Copying → Prop) : Prop := ∀ p q, Extends p q → P p → P q

theorem lasting_all {done : Copying → α → Prop} {value : Copying → α → β}
    (hlast : ∀ a x, Lasting fun q => done q a ∧ x = value q a)
    (l : List α) (xs : List β) :
    Lasting fun q => (∀ a ∈ l, done q a) ∧ xs = l.map (value q) := by
  rintro p q hpq ⟨hdone, rfl⟩
  have hmem : ∀ a ∈ l, done q a ∧ value p a = value q a := fun a ha =>
    hlast a (value p a) p q hpq ⟨hdone a ha, rfl⟩
  exact ⟨fun a ha => (hmem a ha).1, List.map_congr_left fun a ha => (hmem a ha).2⟩

namespace Copies

variable {step : CopyM α} {post post' : Copying → α → Prop} {broken' : Prop}

theorem imp (h : k.Copies b step post broken) (hpost : ∀ q a, post q a → post' q a)
    (hbroken : broken → broken') : k.Copies b step post' broken' := by
  intro p hp hb
  obtain ⟨result, q, hrun, hq, hpq, hresult⟩ := h p hp hb
  refine ⟨result, q, hrun, hq, hpq, ?_⟩
  cases result with
  | ok a => exact ⟨hresult.1, hpost q a hresult.2⟩
  | error e => exact ⟨hresult.1, hbroken hresult.2⟩

theorem pure {a : α} (h : ∀ q, post q a) : k.Copies b (pure a) post broken :=
  fun p hp _ => ⟨.ok a, p, rfl, hp, .refl p, .of_cells_eq rfl, h p⟩

/-- A step whose result is used at once. -/
theorem map {f : α → β} {last : Copying → β → Prop} (h : k.Copies b step post broken)
    (hlast : ∀ q a, post q a → last q (f a)) :
    k.Copies b (step >>= fun a => Pure.pure (f a)) last broken := by
  intro p hp hb
  obtain ⟨result, q, hrun, hq, hpq, hresult⟩ := h p hp hb
  cases result with
  | ok a =>
    exact ⟨.ok (f a), q, run_bind_ok hrun, hq, hpq, hresult.1, hlast q a hresult.2⟩
  | error e => exact ⟨.error e, q, run_bind_error hrun, hq, hpq, hresult⟩

/-- **Steps one after the other.** What the first has achieved still holds after the
second. -/
theorem bind {next : α → CopyM β} {last : Copying → β → Prop}
    (h : k.Copies b step post broken) (hlast : ∀ a, Lasting (post · a))
    (hnext : ∀ a, k.Copies b (next a) (fun q x => post q a → last q x) broken) :
    k.Copies b (step >>= next) last broken := by
  intro p hp hb
  obtain ⟨result, q, hrun, hq, hpq, hresult⟩ := h p hp hb
  cases result with
  | error e => exact ⟨.error e, q, run_bind_error hrun, hq, hpq, hresult⟩
  | ok a =>
    obtain ⟨hfin, ha⟩ := hresult
    -- More has been noted, so no more is left for the second step than there was for
    -- the first.
    have hleft := (linkWeight_mono (unnoted_subset hpq)).trans hb
    obtain ⟨result, r, hrun', hr, hqr, hresult⟩ := hnext a q hq hleft
    refine ⟨result, r, (run_bind_ok hrun).trans hrun', hr, hpq.trans hqr, ?_⟩
    cases result with
    | ok x => exact ⟨hfin.trans hqr hresult.1, hresult.2 (hlast a q r hqr ha)⟩
    | error e => exact hresult

/-- A step for every member of a list. -/
theorem mapM {step : α → CopyM β} {done : Copying → α → Prop} {value : Copying → α → β}
    (hlast : ∀ a x, Lasting fun q => done q a ∧ x = value q a) (l : List α)
    (h : ∀ a ∈ l, k.Copies b (step a) (fun q x => done q a ∧ x = value q a) broken) :
    k.Copies b (l.mapM step) (fun q xs => (∀ a ∈ l, done q a) ∧
      xs = l.map (value q)) broken := by
  induction l with
  | nil => exact pure fun q => ⟨nofun, rfl⟩
  | cons a l ih =>
    obtain ⟨ha, hl⟩ := List.forall_mem_cons.1 h
    rw [List.mapM_cons]
    refine bind ha (hlast a) fun x =>
      bind (ih hl) (lasting_all hlast l) fun xs => pure fun q => ?_
    rintro ⟨hrest, rfl⟩ ⟨hfirst, rfl⟩
    exact ⟨List.forall_mem_cons.2 ⟨hfirst, hrest⟩, rfl⟩

end Copies

/-! ## Copies of variables, cells and terms -/

/-- The variable has been copied, as the notes say. -/
def VarDone (k : CopyTask) (p : Copying) (v v' : VarId) : Prop :=
  k.HasVar p v ∧ v' = k.varOf p v

/-- The cell has been copied, as the notes say. -/
def CellDone (k : CopyTask) (p : Copying) (c c' : CellId) : Prop :=
  k.HasCell p c ∧ c' = k.cellOf p c

/-- The term has been copied, as the notes say. -/
def TermDone (k : CopyTask) (p : Copying) (t t' : Ty) : Prop :=
  k.Covers p t ∧ t' = k.copyOf p t

theorem lasting_varDone (v v' : VarId) : Lasting (k.VarDone · v v') :=
  fun _ _ h hv => ⟨h.hasVar hv.1, hv.2.trans (h.varOf_eq hv.1).symm⟩

theorem lasting_member (type : α → Ty) (pack : α → Ty → β) (a : α) (x : β) :
    Lasting fun q => k.Covers q (type a) ∧ x = pack a (k.copyOf q (type a)) := by
  rintro p q hpq ⟨ha, rfl⟩
  exact ⟨hpq.covers ha, congrArg (pack a) (hpq.copyOf_eq ha).symm⟩

theorem lasting_termDone (t t' : Ty) : Lasting (k.TermDone · t t') :=
  lasting_member id (fun _ u => u) t t'

theorem selected_eq (hp : k.store.Within p.store) (hv : k.store.ReachesVar k.root v) :
    p.selected k.opts v = k.renews v := by
  rw [Copying.selected, renews, hp.var (hv.lt k.wellFormed k.rootScope)]

/-- **The copy of a variable.** -/
theorem copies_copyVar (hv : k.store.ReachesVar k.root v) :
    k.Copies b (modifyGet (Copying.copyVar k.opts v)) (k.VarDone · v) broken := by
  intro p hp _
  refine ⟨.ok (p.copyVar k.opts v).1, (p.copyVar k.opts v).2, rfl, ?_⟩
  rw [Copying.copyVar, selected_eq hp.within hv]
  cases hr : k.renews v with
  | false =>
    have hvar : k.VarDone p v v :=
      ⟨fun h => (by rw [hr] at h; cases h), by rw [varOf, hr]; rfl⟩
    exact ⟨hp, .refl p, .of_cells_eq rfl, hvar⟩
  | true =>
    rw [if_pos rfl]
    cases hnote : p.vars.lookup v with
    | some v' =>
      have hvar : k.VarDone p v v' :=
        ⟨fun _ => by rw [hnote]; rfl, by rw [varOf, hr, hnote]; rfl⟩
      exact ⟨hp, .refl p, .of_cells_eq rfl, hvar⟩
    | none =>
      obtain ⟨hq, hpq⟩ := hp.drawVar hv hr hnote
      have hdrawn : (p.drawVar k.opts v).2.vars.lookup v = some (p.drawVar k.opts v).1 :=
        List.lookup_cons_self
      refine ⟨hq, hpq, .of_cells_eq rfl, fun _ => by rw [hdrawn]; rfl, ?_⟩
      rw [varOf, hr, hdrawn]
      rfl

theorem cells_copyVar (opts : CopyOptions) (v : VarId) (p : Copying) :
    (p.copyVar opts v).2.cells = p.cells := by
  unfold Copying.copyVar
  split
  · split <;> rfl
  · rfl

theorem CellDone.of_note {c' : CellId} (hk : k.keeps c = false)
    (h : q.cells.lookup c = some c') :
    k.CellDone q c c' := by
  refine ⟨fun _ => by rw [h]; rfl, ?_⟩
  rw [cellOf, hk, h]
  rfl

/-- A cell without a note whose variable is renewed: the variable is copied first. -/
theorem runs_freeCell (hp : k.Sound p) (hc : k.store.ReachesCell k.root c)
    (hf : k.store.freeVar? c = some v) (hr : k.renews v = true)
    (hnote : p.cells.lookup c = none) :
    k.Runs p (modifyGet (Copying.copyVar k.opts v) >>= fun v' =>
      modifyGet (Copying.drawCell c (.free v')))
      (k.CellDone · c) broken := by
  have hvar : k.Runs p (modifyGet (Copying.copyVar k.opts v)) (k.VarDone · v) False :=
    copies_copyVar (Or.inl ⟨c, hc, hf⟩) p hp le_rfl
  obtain ⟨result, q, hrun, hq, hpq, hresult⟩ := hvar
  cases result with
  | error e => exact hresult.2.elim
  | ok v' =>
    obtain ⟨hfin, hv, rfl⟩ := hresult
    have hcells : q.cells = p.cells := by
      rw [← cells_copyVar k.opts v p]
      exact congrArg (·.2.cells) hrun.symm
    have hk : k.keeps c = false := by rw [keeps_free k hf, hr]; rfl
    have hcopied : k.Copied (q.drawCell c (.free (k.varOf q v))).2 c q.store.cells.size :=
      ⟨.free v, freeVar?_eq_some.1 hf, hv, Array.getElem?_push_size⟩
    obtain ⟨hd, hqd⟩ := hq.drawCell hc hk (hcells ▸ hnote) (Or.inl hcopied)
    have hdrawn : (q.drawCell c (.free (k.varOf q v))).2.cells.lookup c =
        some q.store.cells.size :=
      List.lookup_cons_self
    have hfin' := (Finished.of_cells_eq rfl).of_drawCell hdrawn hcopied
    refine ⟨.ok q.store.cells.size, _, run_bind_ok hrun, hd, hpq.trans hqd,
      ?_, .of_note hk hdrawn⟩
    exact hfin.trans hqd hfin'

/-- A linked cell without a note: it is noted, its target is copied, and then its copy
is completed. -/
theorem runs_linkedCell {variance : Variance}
    {copyTarget : Ty → CopyM Ty} (hp : k.Sound p) (hc : k.store.ReachesCell k.root c)
    (hl : k.store.link? c = some (variance, u)) (hnote : p.cells.lookup c = none)
    (hb : k.store.linkWeight (k.unnoted p) ≤ b) (htarget : ∀ a, a + (u.size + 1) ≤ b →
      k.Copies a (copyTarget u) (k.TermDone · u) broken) :
    k.Runs p
      (do
        let c' ← modifyGet (Copying.drawCell c (.link variance (.of .hole)))
        let target ← copyTarget u
        modify (Copying.fillCell c' (.link variance target))
        return c')
      (k.CellDone · c) broken := by
  have hk : k.keeps c = false := k.keeps_link hl
  have hpending :
      k.Pending (p.drawCell c (.link variance (.of .hole))).2 c p.store.cells.size :=
    ⟨variance, u, link?_eq_some.1 hl, Array.getElem?_push_size⟩
  obtain ⟨hd, hpd⟩ := hp.drawCell hc hk hnote (Or.inr hpending)
  have hdrawn : (p.drawCell c (.link variance (.of .hole))).2.cells.lookup c =
      some p.store.cells.size :=
    List.lookup_cons_self
  -- The cell has a note now, so that its link no longer counts as ahead.
  have hleft :
      k.store.linkWeight (k.unnoted (p.drawCell c (.link variance (.of .hole))).2) +
        (u.size + 1) ≤ b := by
    refine (linkWeight_target hl ?_ ?_ (unnoted_subset hpd)).trans hb
    · rw [mem_unnoted, hdrawn]
      exact fun h => nomatch h.2
    · exact mem_unnoted.2 ⟨lt_of_link? hl, hnote⟩
  obtain ⟨result, q, hrun, hq, hdq, hresult⟩ := htarget _ hleft _ hd le_rfl
  cases result with
  | error e =>
    exact ⟨.error e, q, (run_bind_ok rfl).trans (run_bind_error hrun), hq,
      hpd.trans hdq, hresult⟩
  | ok u' =>
    obtain ⟨hfin, hu, rfl⟩ := hresult
    have hqc := hdq.cells c _ hdrawn
    obtain ⟨hr, hcopied, hkept⟩ := hq.fillCell hqc hl hu
    -- Filling the copy in touches no other copy, so what the target's copy finished
    -- stays finished.
    have hfin' : k.Finished (p.drawCell c (.link variance (.of .hole))).2
        (q.fillCell p.store.cells.size (.link variance (k.copyOf q u))) := by
      intro d d' hd' hnew
      refine hkept d d' hd' ?_ (hfin d d' hd' hnew)
      rintro rfl
      rw [hdrawn] at hnew
      cases hnew
    exact ⟨.ok p.store.cells.size, _, (run_bind_ok rfl).trans (run_bind_ok hrun), hr,
      (hpd.trans hdq).fillCell le_rfl _, hfin'.of_drawCell hqc hcopied, .of_note hk hqc⟩

/-- **The copy of a cell**, if the target of its link can be copied with what is
left. -/
theorem copies_copyCell {copyTarget : Ty → CopyM Ty} (hc : k.store.ReachesCell k.root c)
    (htarget : ∀ variance u a, k.store.link? c = some (variance, u) →
      a + (u.size + 1) ≤ b → k.Copies a (copyTarget u) (k.TermDone · u) broken) :
    k.Copies b (Copying.copyCell k.opts copyTarget c) (k.CellDone · c) broken := by
  intro p hp hb
  have hlt := hc.lt k.wellFormed k.rootScope
  have hcontent := hp.within.cells c hlt
  refine Runs.get ?_
  cases hnote : p.cells.lookup c with
  | some c' =>
    exact ⟨.ok c', p, rfl, hp, .refl p, .of_cells_eq rfl,
      .of_note (hp.cell c c' hnote).2.1 hnote⟩
  | none =>
    cases hold : k.store.cells[c]? with
    | none =>
      rw [Array.getElem?_eq_none_iff] at hold
      exact absurd hlt (Nat.not_lt_of_ge hold)
    | some content =>
      rw [hcontent, hold]
      cases content with
      | free v =>
        have hf := freeVar?_eq_some.2 hold
        dsimp only
        rw [selected_eq hp.within (Or.inl ⟨c, hc, hf⟩)]
        cases hr : k.renews v with
        | true => exact runs_freeCell hp hc hf hr hnote
        | false =>
          have hk : k.keeps c = true := by rw [keeps_free k hf, hr]; rfl
          refine ⟨.ok c, p, rfl, hp, .refl p, .of_cells_eq rfl, fun h => ?_,
            by rw [cellOf, hk]; rfl⟩
          rw [hk] at h
          cases h
      | link variance u =>
        have hl := link?_eq_some.2 hold
        exact runs_linkedCell hp hc hl hnote hb fun a ha => htarget variance u a hl ha

/-! ## Copies of layers and terms -/

/-- The layer has been copied, as the notes say. -/
def LayerDone (k : CopyTask) (p : Copying) (x y : Shape Ty) : Prop :=
  k.HasLayer p x ∧ (∀ u ∈ x.children, k.Covers p u) ∧
    y = (x.map (k.copyOf p)).relabel (k.varOf p) (k.cellOf p)

theorem LayerDone.termDone {y : Shape Ty} (h : k.LayerDone p t.shape y) :
    k.TermDone p t (.of y) := by
  obtain ⟨hnoted, hsub, rfl⟩ := h
  exact ⟨.layer hnoted hsub, (Ty.relabel_eq t).symm⟩

section Layer

variable {copy : Ty → CopyM Ty}

/-- The copies of terms that are members of records, each put back into a record. -/
theorem copies_members (type : α → Ty) (pack : α → Ty → β) (l : List α)
    (h : ∀ a ∈ l, k.Copies b (copy (type a)) (k.TermDone · (type a)) broken) :
    k.Copies b (l.mapM fun a => return pack a (← copy (type a)))
      (fun q xs => (∀ a ∈ l, k.Covers q (type a)) ∧
        xs = l.map fun a => pack a (k.copyOf q (type a))) broken :=
  Copies.mapM (lasting_member type pack) l fun a ha =>
    (h a ha).map fun _ _ hu => ⟨hu.1, congrArg (pack a) hu.2⟩

/-- **The copy of a layer** that is neither a hole nor a cell, from the copies of its
binders and its subterms. -/
theorem copies_traverse {x : Shape Ty} (hhole : x ≠ .hole) (hx : ∀ c, x ≠ .cell c)
    (hv : ∀ v ∈ x.binders, k.store.ReachesVar k.root v)
    (hu : ∀ u ∈ x.children, k.Copies b (copy u) (k.TermDone · u) broken) :
    k.Copies b (x.traverse (fun v => modifyGet (Copying.copyVar k.opts v)) copy)
      (k.LayerDone · x) broken := by
  cases x with
  | hole => exact absurd rfl hhole
  | cell c => exact absurd rfl (hx c)
  | getter t | list repr t | nullable t =>
    refine (hu t List.mem_cons_self).map ?_
    rintro q u ⟨ht, rfl⟩
    exact ⟨⟨nofun, nofun, nofun⟩, List.forall_mem_singleton.2 ht, rfl⟩
  | tuple elems | custom kind elems =>
    refine (Copies.mapM lasting_termDone elems hu).map ?_
    rintro q us ⟨hus, rfl⟩
    exact ⟨⟨nofun, nofun, nofun⟩, hus, rfl⟩
  | constr name params =>
    have hparams := copies_members Param.type (fun p u => Param.mk p.variance u) params
      (List.forall_mem_map.1 hu)
    refine hparams.map ?_
    rintro q ps ⟨hps, rfl⟩
    exact ⟨⟨nofun, nofun, nofun⟩, List.forall_mem_map.2 hps, rfl⟩
  | arrow args ret =>
    obtain ⟨hargs, hret⟩ := List.forall_mem_append.1 hu
    have hargs := copies_members Arg.type (fun a u => Arg.mk a.optional a.label u) args
      (List.forall_mem_map.1 hargs)
    refine hargs.bind (lasting_all (lasting_member _ _) args) fun as => ?_
    refine (hret ret List.mem_cons_self).map ?_
    rintro q ret' ⟨hret, rfl⟩ ⟨has, rfl⟩
    exact ⟨⟨nofun, nofun, nofun⟩,
      List.forall_mem_append.2 ⟨List.forall_mem_map.2 has,
        List.forall_mem_singleton.2 hret⟩, rfl⟩
  | meth m inner =>
    -- The binders come first, then the type of the scheme, then the inner type.
    obtain ⟨htype, hinner⟩ := List.forall_mem_cons.1 hu
    have hvars : ∀ v ∈ m.scheme.vars,
        k.Copies b (modifyGet (Copying.copyVar k.opts v)) (k.VarDone · v) broken :=
      fun v hm => copies_copyVar (hv v hm)
    refine (Copies.mapM lasting_varDone _ hvars).bind
      (lasting_all lasting_varDone _) fun vs => ?_
    refine htype.bind (lasting_termDone _) fun type =>
      (hinner inner List.mem_cons_self).map ?_
    rintro q inner' ⟨hinner, rfl⟩ ⟨htype, rfl⟩ ⟨hvs, rfl⟩
    exact ⟨⟨hvs, nofun, nofun⟩,
      List.forall_mem_cons.2 ⟨htype, List.forall_mem_singleton.2 hinner⟩, rfl⟩

end Layer

/-- **The copy of a term.** It succeeds unless a hole can be reached from the term. -/
theorem copies_copyTerm {n : Nat} (ht : k.store.Reaches k.root t) (hn : t.size + b ≤ n) :
    k.Copies b (Copying.copyTerm k.opts n t) (k.TermDone · t) (¬ k.store.Complete t) := by
  induction n generalizing t b with
  | zero =>
    have := t.size_pos
    omega
  | succ n ih =>
    have hsub : ∀ u a, k.store.Step t u → u.size + a ≤ n →
        k.Copies a (Copying.copyTerm k.opts n u) (k.TermDone · u)
          (¬ k.store.Complete t) := fun u a hstep ha =>
      (ih (ht.tail hstep) ha).imp (fun _ _ h => h) fun h hcomp =>
        h (hcomp.of_reaches (.single hstep))
    unfold Copying.copyTerm
    split
    · rename_i hhole
      exact fun p hp _ =>
        ⟨.error .incomplete, p, rfl, hp, .refl p, rfl, fun hcomp => hcomp t .refl hhole⟩
    · -- The node itself pays for the link that leads to the target.
      rename_i c hc
      have hpos := t.size_pos
      have hcell : k.store.ReachesCell k.root c := ⟨t, ht, hc⟩
      refine (copies_copyCell hcell fun variance u a hl ha =>
        hsub u a (.link hc hl) (by omega)).map ?_
      rintro q c' ⟨hnote, rfl⟩
      refine LayerDone.termDone ?_
      rw [hc]
      exact ⟨⟨nofun, List.forall_mem_singleton.2 hnote, nofun⟩, nofun, rfl⟩
    · rename_i hhole hcell
      have hbinders : ∀ v ∈ t.shape.binders, k.store.ReachesVar k.root v :=
        fun v hv => Or.inr ⟨t, ht, hv⟩
      refine (copies_traverse hhole hcell hbinders fun u hu => ?_).map fun q y hy =>
        hy.termDone
      have hsize := Ty.size_lt_of_mem hu
      exact hsub u b (.child hu) (by omega)

end TypeGraph.CopyTask
