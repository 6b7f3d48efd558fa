import TypeGraph.Proofs.MethodChains
import TypeGraph.Proofs.Mirror

/-!
# Visible methods

The methods of a term that can be seen. `splitMeths` lists them, from the outermost to
the innermost, together with the base; `foldMeths` puts methods on a type again; and
lookups search the layers for a name. The three agree: a lookup finds what is listed,
and a term that is put together again from what was listed has the same methods and
the same base, so it answers lookups and is written as the term was. It need not be
the same term, since shadowed layers and positions are gone.

In the other direction, methods that are put on a type are listed before its own. Of
two methods with one name the first one counts (`firstOfEach`).
-/

namespace TypeGraph

/-! ## The first method of each name -/

namespace Method

variable {m : Method Ty} {methods : List (Method Ty)} {name : String}

/-- The first method of each name, in the order of the list. -/
def firstOfEach (methods : List (Method Ty)) : List (Method Ty) :=
  methods.eraseDupsBy (·.name == ·.name)

/-- Methods can be selected by their names before or after. -/
theorem filter_firstOfEach (keep : String → Bool) (methods : List (Method Ty)) :
    (firstOfEach methods).filter (fun m => keep m.name) =
      firstOfEach (methods.filter fun m => keep m.name) := by
  induction hn : methods.length using Nat.strongRecOn generalizing methods with
  | ind n ih =>
    cases methods with
    | nil => rfl
    | cons m rest =>
      -- The methods behind the first one are fewer, also without those of its name.
      have hfewer :=
        List.length_filter_le (fun m' : Method Ty => decide ((m'.name == m.name) = false))
          rest
      have hrest := ih _ (by rw [List.length_cons] at hn; omega)
        (rest.filter fun m' => decide ((m'.name == m.name) = false)) rfl
      by_cases hm : keep m.name = true
      · simp only [firstOfEach, List.filter_cons, hm, if_true, List.eraseDupsBy_cons]
        refine congrArg (m :: ·) (hrest.trans (congrArg firstOfEach ?_))
        simp only [List.filter_filter, Bool.and_comm]
      · simp only [firstOfEach, List.filter_cons, hm, if_false,
          List.eraseDupsBy_cons, Bool.false_eq_true]
        refine hrest.trans (congrArg firstOfEach ?_)
        rw [List.filter_filter]
        refine List.filter_congr fun m' _ => ?_
        by_cases hname : m'.name = m.name
        · simp [hname, hm]
        · simp [hname]

theorem firstOfEach_cons (m : Method Ty) (rest : List (Method Ty)) :
    firstOfEach (m :: rest) = m :: (firstOfEach rest).filter (·.name ≠ m.name) := by
  have hothers := filter_firstOfEach (fun name => decide ((name == m.name) = false)) rest
  rw [firstOfEach, List.eraseDupsBy_cons, ← firstOfEach, ← hothers]
  simp

theorem nodup_firstOfEach (methods : List (Method Ty)) :
    ((firstOfEach methods).map (·.name)).Nodup := by
  induction methods with
  | nil => exact List.nodup_nil
  | cons m rest ih =>
    rw [firstOfEach_cons, List.map_cons, List.nodup_cons]
    refine ⟨fun h => ?_, ih.sublist (List.filter_sublist.map _)⟩
    obtain ⟨m', hm', hname⟩ := List.mem_map.1 h
    simpa [hname] using (List.mem_filter.1 hm').2

theorem firstOfEach_eq_self (h : (methods.map (·.name)).Nodup) :
    firstOfEach methods = methods := by
  induction methods with
  | nil => rfl
  | cons m rest ih =>
    obtain ⟨hm, hrest⟩ := List.nodup_cons.1 h
    rw [firstOfEach_cons, ih hrest]
    refine congrArg (m :: ·) (List.filter_eq_self.2 fun m' hm' => ?_)
    exact decide_eq_true fun hname => hm (List.mem_map.2 ⟨m', hm', hname⟩)

/-- A name finds the first method that has it. -/
theorem find?_firstOfEach (name : String) (methods : List (Method Ty)) :
    (firstOfEach methods).find? (·.name == name) = methods.find? (·.name == name) := by
  induction methods with
  | nil => rfl
  | cons m rest ih =>
    rw [firstOfEach_cons, List.find?_cons, List.find?_cons, ← ih, List.find?_filter]
    by_cases hm : m.name = name
    · simp [hm]
    · simp only [beq_eq_false_iff_ne.2 hm]
      refine congrArg (List.find? · (firstOfEach rest)) (funext fun m' => ?_)
      by_cases hm' : m'.name = name
      · simp [hm', Ne.symm hm]
      · simp [hm']

/-- Among methods with different names, a name finds the method that has it. -/
theorem find?_eq_some_iff (h : (methods.map (·.name)).Nodup) :
    methods.find? (·.name == name) = some m ↔ m ∈ methods ∧ m.name = name := by
  constructor
  · intro hm
    exact ⟨List.mem_of_find?_eq_some hm, by simpa using List.find?_some hm⟩
  · rintro ⟨hm, rfl⟩
    cases hfound : methods.find? (·.name == m.name) with
    | none => exact absurd (List.find?_eq_none.1 hfound m hm) (by simp)
    | some m' =>
      have hname : m'.name = m.name := by simpa using List.find?_some hfound
      exact congrArg some (List.inj_on_of_nodup_map h
        (List.mem_of_find?_eq_some hfound) hm hname)

/-- What is shadowed in the first of two lists can be left out before they are
joined. -/
theorem firstOfEach_append_left (methods others : List (Method Ty)) :
    firstOfEach (firstOfEach methods ++ others) = firstOfEach (methods ++ others) := by
  induction methods with
  | nil => rfl
  | cons m rest ih =>
    have hkeep := filter_firstOfEach (fun name => decide (name ≠ m.name))
    rw [firstOfEach_cons, List.cons_append, List.cons_append, firstOfEach_cons,
      firstOfEach_cons, ← ih]
    refine congrArg (m :: ·) ?_
    calc (firstOfEach ((firstOfEach rest).filter (·.name ≠ m.name) ++ others)).filter
           (·.name ≠ m.name)
        _ = firstOfEach (((firstOfEach rest).filter (·.name ≠ m.name) ++ others).filter
          (·.name ≠ m.name)) := hkeep _
        _ = firstOfEach ((firstOfEach rest ++ others).filter (·.name ≠ m.name)) := by
          simp only [List.filter_append, List.filter_filter, Bool.and_self]
        _ = (firstOfEach (firstOfEach rest ++ others)).filter (·.name ≠ m.name) :=
          (hkeep _).symm

/-- And so can what is shadowed in the second one. -/
theorem firstOfEach_append_right (methods others : List (Method Ty)) :
    firstOfEach (methods ++ firstOfEach others) = firstOfEach (methods ++ others) := by
  induction methods with
  | nil => exact firstOfEach_eq_self (nodup_firstOfEach others)
  | cons m rest ih =>
    rw [List.cons_append, List.cons_append, firstOfEach_cons, firstOfEach_cons, ih]

end Method

/-- The visible methods of some layers are the first ones of their names. -/
theorem Layer.visible_eq (layers : List Layer) :
    visible layers = Method.firstOfEach (layers.map (·.method)) := by
  induction layers with
  | nil => rfl
  | cons l rest ih =>
    rw [List.map_cons, Method.firstOfEach_cons, ← ih]
    rfl

namespace Store

open Method

variable {s : Store} {t u base : Ty} {name : String} {scheme : TypeScheme}
  {path : List String} {layers layers' : List Layer}

/-! ## Methods that are put on a type -/

theorem splitMeths_eq (s : Store) (t : Ty) :
    s.splitMeths t = (firstOfEach ((s.layers t).1.map (·.method)), s.demeth t) := by
  rw [← Layer.visible_eq]
  rfl

theorem foldMeths_eq_wrap (methods : List (Method Ty)) (base : Ty) :
    foldMeths methods base = Layer.wrap (methods.map fun m => ⟨none, m⟩) base := by
  induction methods with
  | nil => rfl
  | cons m rest ih =>
    rw [List.map_cons]
    exact congrArg (Ty.addMeth · m) ih

/-- The visible methods of a term have different names. -/
theorem nodup_splitMeths (s : Store) (t : Ty) :
    ((s.splitMeths t).1.map (·.name)).Nodup := by
  rw [splitMeths_eq]
  exact nodup_firstOfEach _

/-- **Layers around a type come before its own methods**, and shadow them. -/
theorem splitMeths_wrap (h : s.HasBase base) (layers : List Layer) :
    s.splitMeths (Layer.wrap layers base) =
      (firstOfEach (layers.map (·.method) ++ (s.splitMeths base).1),
        (s.splitMeths base).2) := by
  rw [splitMeths_eq, splitMeths_eq, layers_wrap h, h.demeth_wrap, List.map_append,
    firstOfEach_append_right]

theorem splitMeths_foldMeths (h : s.HasBase base) (methods : List (Method Ty)) :
    s.splitMeths (foldMeths methods base) =
      (firstOfEach (methods ++ (s.splitMeths base).1), (s.splitMeths base).2) := by
  have hmethods :
      (methods.map fun m => (⟨none, m⟩ : Layer)).map (·.method) = methods := by
    rw [List.map_map]
    exact List.map_id methods
  rw [foldMeths_eq_wrap, splitMeths_wrap h, hmethods]

/-- A base has no methods. -/
theorem HasBase.splitMeths_demeth (h : s.HasBase t) :
    s.splitMeths (s.demeth t) = ([], s.demeth t) := by
  obtain ⟨-, hlayers, hbase⟩ := h.layers_demeth
  rw [splitMeths_eq, hlayers, hbase]
  rfl

/-- The term put together again from its visible methods and its base. -/
def refold (s : Store) (t : Ty) : Ty := foldMeths (s.splitMeths t).1 (s.splitMeths t).2

/-- **A term that is put together again has the methods and the base that it had.** -/
theorem HasBase.splitMeths_refold (h : s.HasBase t) :
    s.splitMeths (s.refold t) = s.splitMeths t := by
  have hbase : (s.splitMeths t).2 = s.demeth t := rfl
  rw [refold, hbase, splitMeths_foldMeths h.layers_demeth.1,
    h.splitMeths_demeth, List.append_nil, firstOfEach_eq_self (s.nodup_splitMeths t)]
  rfl

/-! ## Lookups -/

/-- A lookup finds what is listed under the name. -/
theorem findMeth?_eq_find? (s : Store) (t : Ty) (name : String) :
    s.findMeth? t name = (s.splitMeths t).1.find? (·.name == name) := by
  rw [splitMeths_eq, find?_firstOfEach, List.find?_map]
  rfl

theorem invoke_eq_ok_iff :
    s.invoke t name = .ok scheme ↔
      ∃ m ∈ (s.splitMeths t).1, m.name = name ∧ m.scheme = scheme := by
  have hfind : ∀ m, s.findMeth? t name = some m ↔
      m ∈ (s.splitMeths t).1 ∧ m.name = name := by
    intro m
    rw [findMeth?_eq_find?]
    exact find?_eq_some_iff (s.nodup_splitMeths t)
  constructor
  · intro h
    rw [invoke] at h
    cases hm : s.findMeth? t name with
    | none =>
      rw [hm] at h
      cases h
    | some m =>
      rw [hm] at h
      exact ⟨m, ((hfind m).1 hm).1, ((hfind m).1 hm).2, Except.ok.inj h⟩
  · rintro ⟨m, hmem, hname, rfl⟩
    rw [invoke, (hfind m).2 ⟨hmem, hname⟩]

/-- **Terms with the same methods answer lookups alike.** An error has the position of
the term that was asked. -/
theorem invokePath_of_splitMeths
    (h : (s.splitMeths u).1 = (s.splitMeths t).1) (hne : path ≠ []) :
    (s.invokePath u path).mapError Error.unplaced =
      (s.invokePath t path).mapError Error.unplaced := by
  obtain ⟨first, rest, rfl⟩ := List.exists_cons_of_ne_nil hne
  have hfind : s.findMeth? u first = s.findMeth? t first := by
    rw [findMeth?_eq_find?, findMeth?_eq_find?, h]
  rw [invokePath, invokePath, List.foldlM_cons, List.foldlM_cons]
  change ((s.invoke u first) >>= _).mapError _ = ((s.invoke t first) >>= _).mapError _
  rw [invoke, invoke, hfind]
  cases s.findMeth? t first with
  | none => rfl
  | some m => rfl

theorem invokePath_singleton (s : Store) (t : Ty) (name : String) :
    s.invokePath t [name] = s.invoke t name := by
  rw [invokePath, List.foldlM_cons]
  change (s.invoke t name >>= fun scheme => pure scheme) = _
  cases s.invoke t name <;> rfl

/-! ## Texts -/

/-- A term whose layers are all gone stands for its base. -/
theorem HasBase.not_meth_iff (h : s.HasBase t) :
    (s.splitMeths t).1 = [] ↔ ∀ m inner, s.view t ≠ .meth m inner := by
  rw [splitMeths_eq]
  rcases h.layers_cases with ⟨pos, m, inner, hd, -, hl⟩ | ⟨hmeth, -, hl⟩
  · rw [hl, List.map_cons, firstOfEach_cons]
    exact iff_of_false (by simp) fun hmeth => hmeth m inner (view_of_deref hd)
  · rw [hl]
    exact iff_of_true rfl hmeth

/-- **A text shows the visible methods of a term and its base**, and nothing else of
it. -/
theorem rendered_of_splitMeths (hs : s.Acyclic) (h : s.splitMeths u = s.splitMeths t) :
    s.rendered u = s.rendered t := by
  rw [rendered_eq hs, rendered_eq hs t]
  by_cases hnone : (s.splitMeths t).1 = []
  · -- Without methods both terms stand for one base.
    have hmeth := (hs.hasBase t).not_meth_iff.1 hnone
    have hmeth' := (hs.hasBase u).not_meth_iff.1 ((congrArg Prod.fst h).trans hnone)
    have hview : s.view u = s.view t := by
      have hbase : s.demeth u = s.demeth t := congrArg Prod.snd h
      rw [demeth, demeth, layers_of_base hs hmeth, layers_of_base hs hmeth'] at hbase
      exact congrArg Ty.shape hbase
    rw [renderLayer, renderLayer, hview]
    cases hx : s.view t with
    | meth m inner => exact absurd hx (hmeth m inner)
    | _ => rfl
  · have hsome : ∀ w, (s.splitMeths w).1 ≠ [] → ∃ m inner, s.view w = .meth m inner :=
        fun w hw => by
      by_contra hno
      exact hw ((hs.hasBase w).not_meth_iff.2 fun m inner hx => hno ⟨m, inner, hx⟩)
    obtain ⟨m, inner, hx⟩ := hsome t hnone
    obtain ⟨m', inner', hx'⟩ := hsome u ((congrArg Prod.fst h).trans_ne hnone)
    rw [renderLayer, renderLayer, hx, hx', h]

theorem AcyclicBelow.render_of_splitMeths (ha : s.AcyclicBelow t) (hu : s.CellsAmong u t)
    (h : s.splitMeths u = s.splitMeths t) : s.render u = s.render t := by
  obtain ⟨s', hs', -, -, hsame⟩ := ha.exists_cleared
  have ht := hsame t fun _ hc => hc
  have hsplit : s'.splitMeths u = s'.splitMeths t := by
    rw [(hsame u hu).splitMeths hs', ht.splitMeths hs', h]
  rw [render_eq, render_eq, ← ht.rendered hs', ← (hsame u hu).rendered hs',
    rendered_of_splitMeths hs' hsplit]

/-! ## Cells -/

/-- The cells of a term in layers are those of the methods and of the term. -/
theorem cellsAmong_wrap (hlayers : ∀ l ∈ layers, s.CellsAmong l.method.scheme.type t)
    (hbase : s.CellsAmong base t) :
    s.CellsAmong (Layer.wrap layers base) t := by
  induction layers with
  | nil => exact hbase
  | cons l rest ih =>
    obtain ⟨hl, hrest⟩ := List.forall_mem_cons.1 hlayers
    rintro c ⟨w, hw, hc⟩
    rcases hw.cases_head with rfl | ⟨x, hx, hxw⟩
    · cases hc
    · cases hx with
      | child hx =>
        rcases List.mem_pair.1 hx with rfl | rfl
        · exact hl c ⟨w, hxw, hc⟩
        · exact ih hrest c ⟨w, hxw, hc⟩
      | link hcell _ => cases hcell

/-- The layers and the base of a term lead to no other cells than the term. -/
theorem cellsAmong_layers (s : Store) (t : Ty) :
    (∀ l ∈ (s.layers t).1, s.CellsAmong l.method.scheme.type t) ∧
      s.CellsAmong (s.demeth t) t := by
  refine ⟨fun l hl => ?_, .of_reaches (s.reaches_demeth t)⟩
  obtain ⟨inner, hr⟩ := (s.reaches_layersWithin _ t).1 l hl
  exact .of_reaches (hr.tail (.child (by simp [Ty.shape, Shape.children])))

theorem cellsAmong_refold (s : Store) (t : Ty) : s.CellsAmong (s.refold t) t := by
  rw [refold, foldMeths_eq_wrap]
  refine cellsAmong_wrap (fun l hl => ?_) (s.cellsAmong_layers t).2
  obtain ⟨m, hm, rfl⟩ := List.mem_map.1 hl
  exact .of_reaches (reaches_method hm)

/-! ## Outlines -/

theorem outline_node (hs : s.Acyclic) (pos : Option Range) (m : Method Ty) (t : Ty) :
    s.outline (.node pos (.meth m t)) =
      .node (.method m.name m.optional) m.scheme.vars
        [s.outline m.scheme.type, s.outline t] := by
  have hview : s.view (.node pos (.meth m t)) = .meth m t :=
    view_of_deref (deref_settled fun c hc => by cases hc)
  have hlabel : (s.view (.node pos (.meth m t))).label? =
      some (.method m.name m.optional) := by
    rw [hview]
    rfl
  rw [outline_of_label hs hlabel, hview]
  rfl

theorem outline_deref (hs : s.Acyclic) (t : Ty) :
    s.outline (s.deref t) = s.outline t := by
  rw [outline_eq hs, outline_eq hs t, view, view, deref_deref hs]

/-- Positions play no part in the outline of a term in layers. -/
theorem outline_wrap_congr (hs : s.Acyclic)
    (h : layers'.map (·.method) = layers.map (·.method)) (base : Ty) :
    s.outline (Layer.wrap layers' base) = s.outline (Layer.wrap layers base) := by
  induction layers generalizing layers' with
  | nil => rw [List.map_eq_nil_iff.1 h]
  | cons l rest ih =>
    obtain ⟨l', rest', rfl, hl, hrest⟩ := List.map_eq_cons_iff.1 h
    change s.outline (.node l'.pos (.meth l'.method _)) =
      s.outline (.node l.pos (.meth l.method _))
    rw [outline_node hs, outline_node hs, hl]
    exact congrArg (fun o => Outline.node _ _ [_, o]) (ih hrest)

/-- **A term has the outline of its base in its layers.** -/
theorem outline_layers (hs : s.Acyclic) (t : Ty) :
    s.outline (Layer.wrap (s.layers t).1 (s.demeth t)) = s.outline t := by
  induction t, hs.hasBase t using HasBase.induction with
  | layer t _ pos m inner _ hd hl ih =>
    have hbase : s.demeth t = s.demeth inner := by rw [demeth, demeth, hl]
    rw [hl, hbase, ← outline_deref hs t, hd, outline_node hs, ← ih]
    exact outline_node hs pos m _
  | base t _ _ _ hl =>
    rw [demeth, hl]
    exact outline_deref hs t

/-- A term in the layers of another one is isomorphic to it, if it is put on the base
of the other one. -/
theorem AcyclicBelow.isomorphic_wrap (ha : s.AcyclicBelow t) (hw : s.WellFormed)
    (ht : s.Scoped t) (hc : s.Complete t)
    (h : layers.map (·.method) = (s.layers t).1.map (·.method)) :
    s.isomorphic (Layer.wrap layers (s.demeth t)) t = true := by
  obtain ⟨hcells, hbase⟩ := s.cellsAmong_layers t
  have hmethods : ∀ l ∈ layers, s.CellsAmong l.method.scheme.type t := by
    intro l hl
    obtain ⟨l', hl', hmethod⟩ := List.mem_map.1 (h ▸ List.mem_map_of_mem hl)
    rw [← hmethod]
    exact hcells l' hl'
  refine ha.isomorphic_of_outline hw ht hc (cellsAmong_wrap hmethods hbase)
    fun s' hs' hbelow _ => ?_
  have hlayers : s'.layers t = s.layers t := hbelow.layers hs'
  rw [← hlayers] at h
  rw [← hbelow.demeth hs', outline_wrap_congr hs' h, outline_layers hs']

/-! ## Splitting, folding and looking up -/

/-- **What can be seen of the term**: methods with different names, and a base that is
neither a linked cell nor a method layer. A lookup in the term succeeds just for the
names of the methods, and gives their schemes. -/
structure SplitsInto (s : Store) (t : Ty) (methods : List (Method Ty))
    (base : Ty) : Prop where
  distinct : (methods.map (·.name)).Nodup
  unlinked : ∀ c, base.shape = .cell c → s.link? c = none
  bare : ∀ m inner, base.shape ≠ .meth m inner
  invoke : ∀ name scheme, s.invoke t name = .ok scheme ↔
    ∃ m ∈ methods, m.name = name ∧ m.scheme = scheme

/-- **The one term reads as the other one.** Lookups give the same schemes, or fail
for the same name; only the position in the error is that of the term that was asked.
The empty path leads to the term itself, and both are written alike. -/
structure ReadsAs (s : Store) (u t : Ty) : Prop where
  invoke : ∀ name, (s.invoke u name).mapError Error.unplaced =
    (s.invoke t name).mapError Error.unplaced
  invokePath : ∀ path, path ≠ [] →
    (s.invokePath u path).mapError Error.unplaced =
      (s.invokePath t path).mapError Error.unplaced
  itself : s.invokePath u [] = .ok (.mono u) ∧ s.invokePath t [] = .ok (.mono t)
  render : s.render u = s.render t

/-- No layer of the term hides another one. -/
def Unshadowed (s : Store) (t : Ty) : Prop := ((s.layers t).1.map (·.method.name)).Nodup

instance (s : Store) : DecidablePred s.Unshadowed :=
  fun _ => inferInstanceAs (Decidable (List.Nodup _))

theorem HasBase.splitsInto (h : s.HasBase t) :
    s.SplitsInto t (s.splitMeths t).1 (s.splitMeths t).2 where
  distinct := s.nodup_splitMeths t
  unlinked := h.base_bare.2.2.2
  bare := h.base_bare.2.2.1
  invoke _ _ := invoke_eq_ok_iff

theorem AcyclicBelow.readsAs_refold (ha : s.AcyclicBelow t) :
    s.ReadsAs (s.refold t) t where
  invoke name := by
    rw [← invokePath_singleton, ← invokePath_singleton]
    exact invokePath_of_splitMeths (congrArg Prod.fst ha.hasBase.splitMeths_refold)
      (List.cons_ne_nil name [])
  invokePath _ hne :=
    invokePath_of_splitMeths (congrArg Prod.fst ha.hasBase.splitMeths_refold) hne
  itself := ⟨rfl, rfl⟩
  render := ha.render_of_splitMeths (s.cellsAmong_refold t) ha.hasBase.splitMeths_refold

theorem AcyclicBelow.isomorphic_refold (ha : s.AcyclicBelow t)
    (hplain : s.Unshadowed t) (hw : s.WellFormed) (ht : s.Scoped t) (hc : s.Complete t) :
    s.isomorphic (s.refold t) t = true := by
  have hmethods : (s.splitMeths t).1 = (s.layers t).1.map (·.method) := by
    rw [splitMeths_eq]
    refine firstOfEach_eq_self ?_
    rw [List.map_map]
    exact hplain
  rw [refold, foldMeths_eq_wrap]
  refine ha.isomorphic_wrap hw ht hc ?_
  rw [List.map_map, hmethods]
  exact List.map_id _

/-- **Splitting a term, folding methods and looking them up agree.** For an acyclic
term this is said of what was split off it: what can be seen of the term, and that the
term reads as the one that is folded from these methods and this base. Nothing is lost
if no layer is hidden, so the two are isomorphic then. Conversely, methods that are
put on any type with a base come back, those of the type behind them, without those
that are shadowed. -/
theorem splitMeths_foldMeths_agree (ha : s.AcyclicBelow t) :
    s.SplitsInto t (s.splitMeths t).1 (s.splitMeths t).2 ∧
      s.ReadsAs (foldMeths (s.splitMeths t).1 (s.splitMeths t).2) t ∧
      (s.Unshadowed t → s.WellFormed → s.Scoped t → s.Complete t →
        s.isomorphic (foldMeths (s.splitMeths t).1 (s.splitMeths t).2) t = true) ∧
      ∀ methods base, s.HasBase base →
        s.splitMeths (foldMeths methods base) =
            (firstOfEach (methods ++ (s.splitMeths base).1), (s.splitMeths base).2) ∧
          ((methods.map (·.name)).Nodup → (s.splitMeths base).1 = [] →
            s.splitMeths (foldMeths methods base) =
              (methods, (s.splitMeths base).2)) := by
  refine ⟨ha.hasBase.splitsInto, ha.readsAs_refold, ha.isomorphic_refold,
    fun methods base hbase => ?_⟩
  have hsplit := splitMeths_foldMeths hbase methods
  refine ⟨hsplit, fun hnames hnone => ?_⟩
  rw [hsplit, hnone, List.append_nil, firstOfEach_eq_self hnames]

/-- The first cell is linked to a type with two methods, over a cell that is linked to
a list of a variable. The last one is linked into a cycle. -/
def layeredExample : Store :=
  ⟨#[⟨.depth 1, .empty⟩],
    #[.link .covariant (.node (some ⟨3, 9⟩)
        (.meth { name := "b", scheme := .mono (.ground "int") }
        (.addMeth (.of (.cell 1)) { name := "a", scheme := .mono (.ground "string") }))),
      .link .invariant (.of (.list .array (.of (.cell 2)))), .free 0,
      .link .covariant (.of (.list .array (.of (.cell 3))))]⟩

/-- A method that hides the inner one of the two. -/
def layeredExampleTerm : Ty :=
  .node (some ⟨1, 9⟩) (.meth
    { name := "a", optional := true, doc := "outer", scheme := ⟨[0], .of (.cell 2)⟩ }
    (.of (.cell 0)))

/-- A method whose type leads into the cycle. -/
def cyclicFieldExample : Ty :=
  .addMeth .unit { name := "a", scheme := .mono (.of (.cell 3)) }

theorem layeredExample_acyclicBelow :
    layeredExample.AcyclicBelow layeredExampleTerm ∧
      layeredExample.AcyclicBelow (.of (.cell 0)) :=
  ⟨acyclicBelow_of_rank (fun c => if c = 3 then 3 else 2 - c) (n := 3)
      (by decide) (by decide),
    acyclicBelow_of_rank (fun c => if c = 3 then 3 else 2 - c) (n := 3)
      (by decide) (by decide)⟩

theorem cyclicFieldExample_hasBase : layeredExample.HasBase cyclicFieldExample := by
  have hunit : layeredExample.HasBase .unit :=
    (layers_of_bare (by simp [Ty.unit]) (by simp [Ty.unit])).1
  exact hunit.node none _

/-- A term with a hidden method reads as the one that is folded again, though it is
not isomorphic to it; without the outer method the two are isomorphic. Methods are put
on a type with a cyclic field, one of them twice. -/
theorem splitMeths_foldMeths_agree_shadowed :
    let split := layeredExample.splitMeths layeredExampleTerm
    let inner := layeredExample.splitMeths (.of (.cell 0))
    let added : Method Ty := { name := "b", scheme := .mono .unit }
    split.1.map (·.name) = ["a", "b"] ∧
      layeredExample.ReadsAs (foldMeths split.1 split.2) layeredExampleTerm ∧
      layeredExample.isomorphic (foldMeths split.1 split.2) layeredExampleTerm = false ∧
      layeredExample.isomorphic (foldMeths inner.1 inner.2) (.of (.cell 0)) = true ∧
      ((layeredExample.splitMeths
          (foldMeths [added, { added with doc := "hidden" }] cyclicFieldExample)).1.map
          fun m => (m.name, m.doc)) = [("b", ""), ("a", "")] := by
  intro split inner added
  obtain ⟨hterm, hinner⟩ := layeredExample_acyclicBelow
  obtain ⟨-, hreads, -, hfold⟩ := splitMeths_foldMeths_agree hterm
  obtain ⟨-, -, hiso, -⟩ := splitMeths_foldMeths_agree hinner
  refine ⟨by decide, hreads, by decide, ?_, ?_⟩
  · exact hiso (by decide) (by decide) (by decide)
      (complete_of_everywhere (by decide) (by decide))
  · rw [(hfold _ _ cyclicFieldExample_hasBase).1]
    decide

end Store

end TypeGraph
