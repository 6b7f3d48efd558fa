import TypeGraph.Proofs.Occurrence
import TypeGraph.Proofs.OrderChecks

/-!
# Orderable terms, and what becomes of them when a cell is linked

The order constraint, checked through a recursive satisfier, succeeds on exactly the
orderable terms (`Demand.ord_decides`): those whose parts, as `Store.ordParts` has
them, are all orderable.

A variable takes the constraint on until it is linked. That is sound
(`ord_check_linked`): if the cell of the variable is linked to an orderable term,
every term that was orderable still is. Where the cell is the base of an open record,
the link changes what kind of term the record is. Its fields are then joined by those
of the target that they do not shadow, or they are no longer asked about at all, but
each part is one of the record or one of the target.
-/

namespace TypeGraph

namespace Store

variable {s s' : Store} {t u w : Ty} {c : CellId} {v : VarId} {variance : Variance}

/-! ## Orderable terms -/

/-- **The term can be ordered**: the order constraint does not refuse it, and asks
about orderable terms only. -/
inductive Orderable (s : Store) : Ty → Prop
  | parts {t : Ty} {v? : Option VarId} {parts : List Ty}
      (h : s.ordParts t = some (v?, parts))
      (all : ∀ u ∈ parts, Orderable s u) : Orderable s t

theorem orderable_iff {v? : Option VarId} {parts : List Ty}
    (h : s.ordParts t = some (v?, parts)) :
    s.Orderable t ↔ ∀ u ∈ parts, s.Orderable u := by
  constructor
  · rintro ⟨h', all⟩
    cases h.symm.trans h'
    exact all
  · exact .parts h

/-- The types of the visible methods of a term. -/
def fields (s : Store) (t : Ty) : List Ty := (s.splitMeths t).1.map (·.scheme.type)

/-- What the order constraint does with a term depends on the methods of the term, its
base, and the variable that the base stands for. -/
theorem ordParts_congr (hsplit : s'.splitMeths t = s.splitMeths t)
    (hfree : ∀ d, (s.demeth t).shape = .cell d → s'.freeVar? d = s.freeVar? d) :
    s'.ordParts t = s.ordParts t := by
  change ∀ d, (s.splitMeths t).2.shape = .cell d → _ at hfree
  rw [ordParts, ordParts, hsplit]
  generalize s.splitMeths t = split at *
  obtain ⟨methods, base⟩ := split
  dsimp only at hfree ⊢
  cases hx : base.shape with
  | cell d =>
    dsimp only
    rw [hfree d hx]
  | tuple elems => cases elems <;> rfl
  | custom kind held => cases kind <;> rfl
  | _ => rfl

/-- Of an open record the fields are asked about. -/
theorem fields_of_open {v? : Option VarId} {parts : List Ty}
    (hbase : (s.demeth t).shape = .cell c) (h : s.ordParts t = some (v?, parts)) :
    parts = s.fields t := by
  change (s.splitMeths t).2.shape = .cell c at hbase
  simp only [ordParts, hbase] at h
  obtain ⟨v, -, hparts⟩ := Option.map_eq_some_iff.1 h
  cases hparts
  rfl

/-- With two terms over the same base the order constraint does the same, except that
it asks about the fields of each, if it asks about fields at all. -/
theorem ordParts_of_base {v? : Option VarId} {parts : List Ty}
    (hbase : s.demeth t = s.demeth u) (h : s.ordParts u = some (v?, parts)) :
    s.ordParts t = some (v?, parts) ∨
      parts = s.fields u ∧ s.ordParts t = some (v?, s.fields t) := by
  change (s.splitMeths t).2 = (s.splitMeths u).2 at hbase
  rw [fields, fields]
  rw [ordParts] at h ⊢
  generalize s.splitMeths t = split at *
  generalize s.splitMeths u = split' at *
  obtain ⟨methods, base⟩ := split
  obtain ⟨methods', base'⟩ := split'
  dsimp only at hbase h ⊢
  subst hbase
  cases hx : base.shape <;> rw [hx] at h
  case cell d =>
    obtain ⟨v, hv, hparts⟩ := Option.map_eq_some_iff.1 h
    cases hparts
    exact Or.inr ⟨rfl, congrArg (Option.map _) hv⟩
  case tuple elems =>
    cases elems with
    | nil =>
      cases h
      exact Or.inr ⟨rfl, rfl⟩
    | cons => exact Or.inl h
  case custom kind held => cases kind <;> exact Or.inl h
  all_goals exact Or.inl h

/-- The methods that are visible in layers on top of others are visible in the ones or
in the others. -/
theorem mem_visible_append {m : Method Ty} {outer inner : List Layer}
    (h : m ∈ Layer.visible (outer ++ inner)) :
    m ∈ Layer.visible outer ∨ m ∈ Layer.visible inner := by
  induction outer with
  | nil => exact Or.inr h
  | cons l outer ih =>
    rw [Layer.visible, List.cons_append, List.foldr_cons, ← Layer.visible] at h
    rw [Layer.visible, List.foldr_cons, ← Layer.visible]
    rcases List.mem_cons.1 h with rfl | h
    · exact Or.inl List.mem_cons_self
    · obtain ⟨h, hname⟩ := List.mem_filter.1 h
      refine (ih h).imp_left fun h => ?_
      exact List.mem_cons_of_mem _ (List.mem_filter.2 ⟨h, hname⟩)

/-- Everything that is asked about can be reached. -/
theorem reaches_ordParts {v? : Option VarId} {parts : List Ty}
    (h : s.ordParts t = some (v?, parts)) (hu : u ∈ parts) : s.Reaches t u := by
  rcases mem_ordParts h hu with ⟨m, hm, rfl⟩ | hchild
  · exact reaches_method hm
  · exact (s.reaches_demeth t).tail (.child hchild)

/-! ## Reading behind one more link -/

/-- Two terms that stand for the same have the same methods and the same base. -/
theorem layers_of_deref (hs : s.Acyclic) (h : s.deref t = s.deref u) :
    (s.layers t).1 = (s.layers u).1 ∧ s.demeth t = s.demeth u := by
  rw [demeth, demeth, layers_eq hs t, layers_eq hs u, nextLayer, nextLayer, h]
  split
  · exact ⟨rfl, rfl⟩
  · exact ⟨rfl, h⟩

section Linked

variable (hs : s.Acyclic) (hf : s.freeVar? c = some v) (hu : ¬ s.ReachesCell u c)
  (hcells : ∀ d, s'.cells[d]? = if d = c then some (.link variance u) else s.cells[d]?)

include hf hcells in
/-- The links that there were are still there. -/
theorem link?_kept {d : CellId} {variance' : Variance}
    (h : s.link? d = some (variance', w)) :
    s'.link? d = some (variance', w) := by
  have hdc : d ≠ c := by
    rintro rfl
    rw [link?_eq_none_of_freeVar? hf] at h
    cases h
  rwa [link?, hcells, if_neg hdc]

include hs hf hu hcells

/-- A term that stands for another cell, or for no cell, still stands for the same. -/
theorem deref_linked_apart (h : s.view t ≠ .cell c) : s'.deref t = s.deref t := by
  have hs' := acyclic_linked hcells hs hu
  induction t using chainInduction hs with
  | linked t d variance' w hd hl ih =>
    rw [view, deref_link hs hd hl] at h
    rw [deref_link hs hd hl, deref_link hs' hd (link?_kept hf hcells hl)]
    exact ih h
  | settled t hset =>
    rw [view, deref_settled hset] at h
    rw [deref_settled hset, deref_settled fun d hd => ?_]
    have hdc : d ≠ c := fun hdc => h (hdc ▸ hd)
    rw [link?, hcells, if_neg hdc]
    exact hset d hd

/-- A term that stood for the cell stands for what the target of the link stands for. -/
theorem deref_linked (h : s.view t = .cell c) : s'.deref t = s'.deref u := by
  have hs' := acyclic_linked hcells hs hu
  have hlink : s'.link? c = some (variance, u) := by rw [link?, hcells, if_pos rfl]
  induction t using chainInduction hs with
  | linked t d variance' w hd hl ih =>
    rw [view, deref_link hs hd hl] at h
    rw [deref_link hs' hd (link?_kept hf hcells hl)]
    exact ih h
  | settled t hset =>
    rw [view, deref_settled hset] at h
    exact deref_link hs' h hlink

/-- A term whose base is not the cell has the methods and the base that it had. -/
theorem layers_linked_apart (h : (s.demeth t).shape ≠ .cell c) :
    s'.layers t = s.layers t := by
  have hs' := acyclic_linked hcells hs hu
  induction t using viewInduction hs with
  | layer t ih =>
    rcases layers_cases hs t with ⟨pos, m, inner, hd, hl⟩ | ⟨hno, hl⟩
    · have hview := view_of_deref hd
      have hd' : s'.deref t = .node pos (.meth m inner) := by
        rw [deref_linked_apart hs hf hu hcells (by rw [hview]; exact nofun), hd]
      have hinner := ih inner (Shape.inner_mem_children hview) (by rwa [demeth, hl] at h)
      rw [layers_eq hs', nextLayer, hd', hl]
      exact congrArg (fun p : List Layer × Ty => (⟨pos, m⟩ :: p.1, p.2)) hinner
    · rw [demeth, hl] at h
      rw [hl, layers_of_base hs' fun m inner => ?_]
      rw [view, deref_linked_apart hs hf hu hcells h]
      exact hno m inner

/-- A term whose base was the cell has its methods on top of those of the target, and
the base of the target. -/
theorem layers_linked (h : (s.demeth t).shape = .cell c) :
    (s'.layers t).1 = (s.layers t).1 ++ (s'.layers u).1 ∧ s'.demeth t = s'.demeth u := by
  have hs' := acyclic_linked hcells hs hu
  induction t using viewInduction hs with
  | layer t ih =>
    rcases layers_cases hs t with ⟨pos, m, inner, hd, hl⟩ | ⟨-, hl⟩
    · have hview := view_of_deref hd
      have hd' : s'.deref t = .node pos (.meth m inner) := by
        rw [deref_linked_apart hs hf hu hcells (by rw [hview]; exact nofun), hd]
      have hl' : s'.layers t = (⟨pos, m⟩ :: (s'.layers inner).1,
          (s'.layers inner).2) := by
        rw [layers_eq hs', nextLayer, hd']
      obtain ⟨hlayers, hbase⟩ :=
        ih inner (Shape.inner_mem_children hview) (by rwa [demeth, hl] at h)
      constructor
      · rw [hl', hl, hlayers, List.cons_append]
      · rw [← hbase, demeth, demeth, hl']
    · rw [demeth, hl] at h
      rw [hl]
      exact layers_of_deref hs' (deref_linked hs hf hu hcells h)

/-- The order constraint does the same as before with a term whose base is not the
cell. -/
theorem ordParts_linked_apart (h : (s.demeth t).shape ≠ .cell c) :
    s'.ordParts t = s.ordParts t := by
  have hsplit : s'.splitMeths t = s.splitMeths t := by
    rw [splitMeths, splitMeths, layers_linked_apart hs hf hu hcells h]
    exact congrArg (_, ·) (deref_linked_apart hs hf hu hcells h)
  refine ordParts_congr hsplit fun d hd => ?_
  have hdc : d ≠ c := fun hdc => h (hdc ▸ hd)
  rw [freeVar?, freeVar?, hcells, if_neg hdc]

/-- A field of a record whose row variable was linked is a field of the record or of
the target. -/
theorem mem_fields_linked (h : (s.demeth t).shape = .cell c) (hw : w ∈ s'.fields t) :
    w ∈ s.fields t ∨ w ∈ s'.fields u := by
  obtain ⟨m, hm, rfl⟩ := List.mem_map.1 hw
  have hvisible : m ∈ Layer.visible (s'.layers t).1 := hm
  rw [(layers_linked hs hf hu hcells h).1] at hvisible
  exact (mem_visible_append hvisible).imp List.mem_map_of_mem List.mem_map_of_mem

/-! ## Orderable terms stay orderable -/

/-- A term from which the cell cannot be reached is as orderable as it was. -/
theorem Orderable.linked_apart (hw : ¬ s.ReachesCell w c) (h : s.Orderable w) :
    s'.Orderable w := by
  induction h with
  | @parts w v? parts hparts _ ih =>
    have hbase : (s.demeth w).shape ≠ .cell c :=
      fun hbase => hw ⟨s.demeth w, s.reaches_demeth w, hbase⟩
    refine .parts ((ordParts_linked_apart hs hf hu hcells hbase).trans hparts) fun x hx =>
      ih x hx fun hreach => ?_
    exact hw (hreach.of_reaches (reaches_ordParts hparts hx))

/-- **A link to an orderable term keeps orderable terms orderable.** -/
theorem Orderable.linked (htarget : s.Orderable u) (h : s.Orderable t) :
    s'.Orderable t := by
  induction h with
  | @parts t v? parts hparts _ ih =>
    by_cases hbase : (s.demeth t).shape = .cell c
    · obtain ⟨htarget, hall⟩ := htarget.linked_apart hs hf hu hcells hu
      -- The cell was the base of `t`, which now has the base of the target.
      have hopen : parts = s.fields t := fields_of_open hbase hparts
      rcases ordParts_of_base (layers_linked hs hf hu hcells hbase).2
        htarget with hsame | ⟨hfields, hown⟩
      · exact .parts hsame hall
      · refine .parts hown fun w hw => ?_
        rcases mem_fields_linked hs hf hu hcells hbase hw with hw | hw
        · exact ih w (hopen ▸ hw)
        · exact hall w (hfields ▸ hw)
    · exact .parts ((ordParts_linked_apart hs hf hu hcells hbase).trans hparts) ih

end Linked

end Store

namespace Demand

open Store

variable {sat : Satisfier (StateM Store)} {s : Store} {t u : Ty} {c : CellId} {v : VarId}

/-! ## The check decides -/

/-- Started on any store with the cells of `s`, the check keeps these cells, and it
succeeds just when `P` holds. -/
def Decides (s : Store) (x : StateM Store (Option Error)) (P : Prop) : Prop :=
  ∀ s₁ : Store, s₁.cells = s.cells →
    (x.run s₁).2.cells = s.cells ∧ ((x.run s₁).1 = none ↔ P)

theorem Decides.all {ask : Ty → StateM Store (Option Error)}
    {P : Ty → Prop} {ts : List Ty} (h : ∀ t ∈ ts, Decides s (ask t) (P t)) :
    Decides s (all ask ts) (∀ t ∈ ts, P t) := by
  induction ts with
  | nil => exact fun s₁ hs₁ => ⟨hs₁, iff_of_true rfl (by simp)⟩
  | cons t ts ih =>
    obtain ⟨ht, hts⟩ := List.forall_mem_cons.1 h
    intro s₁ hs₁
    obtain ⟨hcells, hfirst⟩ := ht s₁ hs₁
    rw [all_cons_run, List.forall_mem_cons, ← hfirst]
    generalize (ask t).run s₁ = answer at *
    obtain ⟨a, s₂⟩ := answer
    cases a with
    | none => simpa using ih hts s₂ hcells
    | some e => exact ⟨hcells, iff_of_false nofun fun h => nomatch h.1⟩

/-- **The order constraint, checked through a recursive satisfier, decides whether
a term is orderable.** -/
theorem ord_decides (hs : s.Acyclic) (hsat : Recursive ord sat) (t : Ty) :
    Decides s (ord.check sat t) (s.Orderable t) := by
  induction t using weightInduction s with
  | lighter t ih =>
    intro s₁ hs₁
    rw [check_run, classify_eq_none, ord_run, ordParts_of_cells hs₁]
    cases hparts : s.ordParts t with
    | none =>
      refine ⟨hs₁, iff_of_false nofun ?_⟩
      rintro ⟨h, -⟩
      cases hparts.symm.trans h
    | some p =>
      obtain ⟨v?, parts⟩ := p
      rw [orderable_iff hparts]
      have hcells : (v?.elim s₁ fun v => s₁.constrain v .ord).cells = s.cells := by
        cases v? <;> exact hs₁
      refine Decides.all (fun u hu s₂ hs₂ => ?_) _ hcells
      rw [hsat s₂ (hs.of_cells hs₂) u]
      exact ih u (weight_ordParts hs hparts hu) s₂ hs₂

/-- **Leaving the order constraint to a variable is sound.** If two terms pass the
check, and a free cell is linked to the one, from which it cannot be reached, then the
other still passes, wherever the cell occurs in it. The link may be made in any store
with the cells of the first, as the checks leave one behind. -/
theorem ord_check_linked (hs : s.Acyclic) (hsat : Recursive ord sat)
    (ht : ((ord.check sat t).run s).1 = none) (hu : ((ord.check sat u).run s).1 = none)
    (hf : s.freeVar? c = some v) (hc : ¬ s.ReachesCell u c) (variance : Variance) :
    (∀ w, ((ord.check sat w).run s).2.cells = s.cells) ∧
      ∀ s₁ : Store, s₁.cells = s.cells →
        ∃ s', s₁.setLink c variance u = .ok s' ∧ ((ord.check sat t).run s').1 = none := by
  refine ⟨fun w => (ord_decides hs hsat w s rfl).1, fun s₁ hs₁ => ?_⟩
  have hf₁ : s₁.freeVar? c = some v := by rwa [freeVar?, hs₁]
  obtain ⟨s', hlink⟩ := setLink_free hf₁ variance u
  obtain ⟨-, -, hcells⟩ := setLink_changes hf₁ hlink
  rw [hs₁] at hcells
  have htarget : s.Orderable u := (ord_decides hs hsat u s rfl).2.1 hu
  have horderable : s.Orderable t := (ord_decides hs hsat t s rfl).2.1 ht
  refine ⟨s', hlink, (ord_decides (acyclic_linked hcells hs hc) hsat t s' rfl).2.2 ?_⟩
  exact Orderable.linked hs hf hc hcells htarget horderable

/-- Two variables, each with a cell. -/
def openExample : Store :=
  ⟨#[⟨.depth 1, .empty⟩, ⟨.unbounded, .empty⟩], #[.free 0, .free 1]⟩

/-- A record over the first variable, with lists of that variable in a field. -/
def openExampleTerm : Ty :=
  .of (.meth { name := "x",
               scheme := .mono (.of (.list .array (.of (.cell 0)))) } (.of (.cell 0)))

/-- A record over unit with a field of the same name, and one for the second
variable. -/
def openExampleTarget : Ty :=
  .of (.meth { name := "x", scheme := .mono (.ground "int") }
    (.of (.meth { name := "y", scheme := .mono (.of (.cell 1)) } .unit)))

/-- The row variable of an open record is linked to a record, which also replaces it
within the field. -/
theorem ord_check_linked_row :
    ((ord.check (throughout ord fun _ _ => pure none) openExampleTerm).run
        openExample).1 = none ∧
      ((ord.check (throughout ord fun _ _ => pure none) openExampleTarget).run
        openExample).1 = none ∧
      ∃ s', openExample.setLink 0 .covariant openExampleTarget = .ok s' ∧
        ((ord.check (throughout ord fun _ _ => pure none) openExampleTerm).run s').1 =
          none := by
  have hterm : ((ord.check (throughout ord fun _ _ => pure none) openExampleTerm).run
      openExample).1 = none := by
    decide
  have htarget : ((ord.check (throughout ord fun _ _ => pure none) openExampleTarget).run
      openExample).1 = none := by
    decide
  have hreach : ¬ openExample.ReachesCell openExampleTarget 0 :=
    not_reachesCell_of_everywhere (by decide) (by decide)
  refine ⟨hterm, htarget, ?_⟩
  have h :=
    ord_check_linked (acyclic_of_rank id (by decide)) (ord_throughout _) hterm htarget
      rfl hreach .covariant
  exact h.2 _ rfl

end Demand

end TypeGraph
