import Mathlib.Data.Set.Basic
import TypeGraph.Proofs.Keys
import TypeGraph.Proofs.Orderability
import TypeGraph.Proofs.Termination

/-!
# The order constraint as a decision procedure

What can be ordered is said here in terms of the base of a term and its visible
methods (`Store.Comparable`): ground types; records, open or closed, of fields that
can be ordered; and tuples, lists and nullables of terms that can. The check through
a recursive satisfier accepts these terms and no others.

On its way the check leaves the constraint to variables. It *visits* a term, the terms
that it is asked about there, and so on, and the base of each may be a variable.
A check that succeeds has visited all of them, and it has changed the store by that
one constraint on just these variables (`Store.TakesOn`). They have it already when
the check is repeated, so nothing changes any more. A check that fails has visited
some of them.

The check is a recursion through the satisfier, and `Demand.Recursive` only says that
its answers are consistent. So it is also run at a bounded depth, where it admits that
the depth was not enough (`Demand.ordIn`).
-/

namespace TypeGraph

/-- Is the layer a tuple that is not empty, a list or a nullable? -/
def Shape.isAggregate {α : Type} : Shape α → Bool
  | .tuple (_ :: _) | .list _ _ | .nullable _ => true
  | _ => false

/-- The variable with one more constraint. -/
def Var.constrain (c : Constraint) (x : Var) : Var :=
  { x with constraints := x.constraints.insertNew c }

theorem Var.constrain_constrain (c : Constraint) (x : Var) :
    (x.constrain c).constrain c = x.constrain c := by
  rw [constrain, constrain, Keyed.insertNew_insertNew]

namespace Store

variable {s s' s'' : Store} {t u : Ty} {v : VarId} {v? : Option VarId}
  {parts : List Ty} {c : Constraint} {vs ws : Set VarId}

/-! ## Terms that can be ordered -/

/-- The term is unit or a free variable, on which the fields of a record stand. -/
def RowEnd (s : Store) (t : Ty) : Prop := s.isUnit t = true ∨ ∃ v, s.varOf? t = some v

/-- **The term can be ordered**, by its base and its visible methods. -/
inductive Comparable (s : Store) : Ty → Prop
  | ground {t : Ty} (base : s.isGround (s.demeth t) [] = true) : Comparable s t
  | record {t : Ty} (base : s.RowEnd (s.demeth t))
      (fields : ∀ m ∈ (s.splitMeths t).1, Comparable s m.scheme.type) : Comparable s t
  | aggregate {t : Ty} (base : (s.view (s.demeth t)).isAggregate = true)
      (components : ∀ u ∈ (s.view (s.demeth t)).children, Comparable s u) : Comparable s t

/-- The terms that orderability of a term is left to: the fields of a record, and the
components of an aggregate. -/
inductive Asks (s : Store) (t : Ty) : Ty → Prop
  | field {m : Method Ty} (base : s.RowEnd (s.demeth t)) (mem : m ∈ (s.splitMeths t).1) :
    Asks s t m.scheme.type
  | component {u : Ty} (base : (s.view (s.demeth t)).isAggregate = true)
      (mem : u ∈ (s.view (s.demeth t)).children) : Asks s t u

/-- The check of the one term comes to the other. -/
def Visits (s : Store) : Ty → Ty → Prop := Relation.ReflTransGen s.Asks

/-- The variables that are the base of a term that is visited. -/
def rowVars (s : Store) (t : Ty) : Set VarId :=
  {v | ∃ u, s.Visits t u ∧ s.varOf? (s.demeth u) = some v}

/-! ## The parts, by the base of the term -/

section Base

variable (hs : s.Acyclic)

include hs

/-- What is done with a term depends on the layer of its base. -/
theorem ordParts_eq (t : Ty) :
    s.ordParts t = match s.view (s.demeth t) with
      | .cell c => (s.freeVar? c).map fun v => (some v, s.fields t)
      | .custom (.ground _) _ => some (none, [])
      | .tuple [] => some (none, s.fields t)
      | .tuple elems => some (none, elems)
      | .list _ elem | .nullable elem => some (none, [elem])
      | _ => none := by
  have hview : s.view (s.demeth t) = (s.splitMeths t).2.shape :=
    congrArg Ty.shape (deref_deref hs (s.layers t).2)
  rw [hview]
  rfl

theorem ordParts_of_ground (h : s.isGround (s.demeth t) [] = true) :
    s.ordParts t = some (s.varOf? (s.demeth t), []) := by
  rw [ordParts_eq hs, varOf?]
  rw [isGround] at h
  generalize s.view (s.demeth t) = x at *
  split at h
  · rfl
  · cases h

theorem ordParts_of_rowEnd (h : s.RowEnd (s.demeth t)) :
    s.ordParts t = some (s.varOf? (s.demeth t), s.fields t) := by
  rw [ordParts_eq hs, varOf?]
  rw [RowEnd, isUnit, varOf?] at h
  generalize s.view (s.demeth t) = x at *
  rcases h with h | ⟨v, h⟩
  · unfold Shape.isUnit at h
    split at h
    · rfl
    · cases h
  · split at h
    · dsimp only
      rw [h, Option.map_some]
    · cases h

theorem ordParts_of_aggregate (h : (s.view (s.demeth t)).isAggregate = true) :
    s.ordParts t = some (s.varOf? (s.demeth t), (s.view (s.demeth t)).children) := by
  rw [ordParts_eq hs, varOf?]
  generalize s.view (s.demeth t) = x at *
  unfold Shape.isAggregate at h
  split at h
  case h_4 => cases h
  all_goals rfl

/-- A term that is not refused is ground, a record or an aggregate. -/
theorem ordParts_cases (h : s.ordParts t = some (v?, parts)) :
    s.isGround (s.demeth t) [] = true ∨ s.RowEnd (s.demeth t) ∨
      (s.view (s.demeth t)).isAggregate = true := by
  rw [ordParts_eq hs] at h
  rw [isGround, RowEnd, isUnit, varOf?]
  generalize s.view (s.demeth t) = x at *
  split at h
  case h_1 c =>
    obtain ⟨v, hv, -⟩ := Option.map_eq_some_iff.1 h
    exact Or.inr (Or.inl (Or.inr ⟨v, hv⟩))
  case h_2 => exact Or.inl rfl
  case h_3 => exact Or.inr (Or.inl (Or.inl rfl))
  case h_4 elems hne =>
    cases elems with
    | nil => exact absurd rfl hne
    | cons => exact Or.inr (Or.inr rfl)
  case h_7 => cases h
  all_goals exact Or.inr (Or.inr rfl)

/-- The variable that takes the constraint on is the base. -/
theorem varOf?_of_ordParts (h : s.ordParts t = some (v?, parts)) :
    s.varOf? (s.demeth t) = v? := by
  rcases ordParts_cases hs h with hbase | hbase | hbase
  · cases h.symm.trans (ordParts_of_ground hs hbase)
    rfl
  · cases h.symm.trans (ordParts_of_rowEnd hs hbase)
    rfl
  · cases h.symm.trans (ordParts_of_aggregate hs hbase)
    rfl

theorem asks_iff (h : s.ordParts t = some (v?, parts)) : s.Asks t u ↔ u ∈ parts := by
  constructor
  · rintro (⟨hbase, hm⟩ | ⟨hbase, hu⟩)
    · cases h.symm.trans (ordParts_of_rowEnd hs hbase)
      exact List.mem_map_of_mem hm
    · cases h.symm.trans (ordParts_of_aggregate hs hbase)
      exact hu
  · intro hu
    rcases ordParts_cases hs h with hbase | hbase | hbase
    · cases h.symm.trans (ordParts_of_ground hs hbase)
      cases hu
    · cases h.symm.trans (ordParts_of_rowEnd hs hbase)
      obtain ⟨m, hm, rfl⟩ := List.mem_map.1 hu
      exact .field hbase hm
    · cases h.symm.trans (ordParts_of_aggregate hs hbase)
      exact .component hbase hu

/-- **The order constraint accepts what can be ordered.** -/
theorem comparable_iff : s.Comparable t ↔ s.Orderable t := by
  constructor
  · intro h
    induction h with
    | ground base => exact .parts (ordParts_of_ground hs base) fun u hu => nomatch hu
    | record base _ ih =>
      exact .parts (ordParts_of_rowEnd hs base) (List.forall_mem_map.2 ih)
    | aggregate base _ ih => exact .parts (ordParts_of_aggregate hs base) ih
  · intro h
    induction h with
    | @parts t v? parts h _ ih =>
      have hasked : ∀ u, s.Asks t u → s.Comparable u :=
        fun u hu => ih u ((asks_iff hs h).1 hu)
      rcases ordParts_cases hs h with hbase | hbase | hbase
      · exact .ground hbase
      · exact .record hbase fun m hm => hasked _ (.field hbase hm)
      · exact .aggregate hbase fun u hu => hasked u (.component hbase hu)

/-- The variables of a term are its base, if that is one, and those of the terms that
are asked about. -/
theorem mem_rowVars_iff (h : s.ordParts t = some (v?, parts)) :
    v ∈ s.rowVars t ↔ v? = some v ∨ ∃ u ∈ parts, v ∈ s.rowVars u := by
  rw [← varOf?_of_ordParts hs h]
  constructor
  · rintro ⟨w, hw, hv⟩
    rcases Relation.ReflTransGen.cases_head_iff.1 hw with rfl | ⟨u, hu, hw⟩
    · exact Or.inl hv
    · exact Or.inr ⟨u, (asks_iff hs h).1 hu, w, hw, hv⟩
  · rintro (hv | ⟨u, hu, w, hw, hv⟩)
    · exact ⟨t, .refl, hv⟩
    · exact ⟨w, hw.head ((asks_iff hs h).2 hu), hv⟩

theorem Asks.weight_lt (h : s.Asks t u) : s.weight u < s.weight t := by
  cases h with
  | field _ hm => exact weight_method_lt hs hm
  | component _ hu => exact (weight_lt_of_mem_view hs hu).trans_le (weight_base_le hs t)

theorem Visits.reaches (h : s.Visits t u) : s.Reaches t u := by
  induction h with
  | refl => exact .refl
  | @tail w u _ hask ih =>
    cases hask with
    | field _ hm => exact ih.trans (reaches_method hm)
    | component _ hu =>
      exact (ih.trans (s.reaches_demeth w)).trans (reaches_of_mem_view hs hu)

/-- A variable that is the base of a term that is visited is held by a cell that can
be reached. -/
theorem reachesCell_of_mem_rowVars (h : v ∈ s.rowVars t) :
    ∃ c, s.ReachesCell t c ∧ s.freeVar? c = some v := by
  obtain ⟨u, hu, hv⟩ := h
  rw [varOf?] at hv
  split at hv
  · rename_i c hx
    have hbase : s.Reaches t (s.deref (s.demeth u)) :=
      ((Visits.reaches hs hu).trans (s.reaches_demeth u)).trans (reaches_deref hs _)
    exact ⟨c, ⟨_, hbase, hx⟩, hv⟩
  · cases hv

end Base

/-! ## One constraint more -/

/-- **The variables of a set have taken the constraint on**, and nothing else has
changed. -/
structure TakesOn (s s' : Store) (c : Constraint) (vs : Set VarId) : Prop where
  cells : s'.cells = s.cells
  taken : ∀ v ∈ vs, s'.vars[v]? = s.vars[v]?.map (Var.constrain c)
  others : ∀ v, v ∉ vs → s'.vars[v]? = s.vars[v]?

namespace TakesOn

theorem refl (s : Store) (c : Constraint) : s.TakesOn s c ∅ where
  cells := rfl
  taken v hv := absurd hv (Set.notMem_empty v)
  others _ _ := rfl

theorem constrain (s : Store) (v : VarId) (c : Constraint) :
    s.TakesOn (s.constrain v c) c {v} where
  cells := rfl
  taken w hw := by
    rw [Set.mem_singleton_iff.1 hw]
    exact (Array.getElem?_modify ..).trans (if_pos rfl)
  others w hw := by
    have hne : v ≠ w := fun heq => hw (Set.mem_singleton_iff.2 heq.symm)
    exact (Array.getElem?_modify ..).trans (if_neg hne)

theorem constrain? (s : Store) (v? : Option VarId) (c : Constraint) :
    s.TakesOn (v?.elim s fun v => s.constrain v c) c {v | v? = some v} := by
  cases v? with
  | none =>
    have hnone : {v : VarId | none = some v} = ∅ := by simp
    exact hnone ▸ .refl s c
  | some w =>
    have hsome : {v | some w = some v} = {w} := by
      ext v
      simp [eq_comm]
    exact hsome ▸ .constrain s w c

/-- A variable that takes the constraint on has it, and takes it on no more. -/
theorem again (h : s.TakesOn s' c vs) (hv : v ∈ vs) :
    s'.vars[v]?.map (Var.constrain c) = s'.vars[v]? := by
  rw [h.taken v hv, Option.map_map]
  exact congrArg (Option.map · s.vars[v]?) (funext (Var.constrain_constrain c))

/-- A variable that took the constraint on has one of that kind. -/
theorem contains (h : s.TakesOn s' c vs) (hv : v ∈ vs) (hlt : v < s.vars.size) :
    (s'.var v).constraints.contains c.kind = true := by
  rw [var, Array.getD_eq_getD_getElem?, h.taken v hv,
    Array.getElem?_eq_getElem hlt, Keyed.contains_iff]
  exact (Keyed.mem_keys_insertNew _ c c.kind).2 (Or.inl rfl)

theorem trans (h : s.TakesOn s' c vs) (h' : s'.TakesOn s'' c ws) :
    s.TakesOn s'' c (vs ∪ ws) where
  cells := h'.cells.trans h.cells
  taken v hv := by
    by_cases hvs : v ∈ vs
    · rw [← h.taken v hvs]
      by_cases hws : v ∈ ws
      · -- A variable of both sets has the constraint when it would take it on again.
        rw [h'.taken v hws, h.again hvs]
      · rw [h'.others v hws]
    · have hws : v ∈ ws := hv.resolve_left hvs
      rw [h'.taken v hws, h.others v hvs]
  others v hv := by
    obtain ⟨hvs, hws⟩ := not_or.1 hv
    rw [h'.others v hws, h.others v hvs]

/-- Variables that have the constraint already change nothing by taking it on. -/
theorem eq (h : s.TakesOn s' c vs) (h' : s'.TakesOn s'' c ws)
    (hsub : ws ⊆ vs) : s'' = s' := by
  have hvars : s''.vars = s'.vars := by
    refine Array.ext_getElem? fun v => ?_
    by_cases hws : v ∈ ws
    · rw [h'.taken v hws, h.again (hsub hws)]
    · rw [h'.others v hws]
  have hcells := h'.cells
  cases s''
  cases s'
  cases hvars
  cases hcells
  rfl

end TakesOn

end Store

namespace Demand

open Store

variable {sat : Satisfier (StateM Store)} {s : Store} {t : Ty} {refusal : Error → Prop}

/-! ## What a check leaves behind -/

/-- Started on any store with the cells of `s`, the check leaves the order constraint
to some of the variables, and to all of them if it succeeds; if it fails, then with
a refusal. -/
def Marks (s : Store) (x : StateM Store (Option Error)) (vs : Set VarId)
    (refusal : Error → Prop) : Prop :=
  ∀ s₁ : Store, s₁.cells = s.cells → ∃ taken ⊆ vs, s₁.TakesOn (x.run s₁).2 .ord taken ∧
    ((x.run s₁).1 = none → taken = vs) ∧ ∀ e, (x.run s₁).1 = some e → refusal e

theorem Marks.all {ask : Ty → StateM Store (Option Error)}
    {vars : Ty → Set VarId} {ts : List Ty}
    (h : ∀ t ∈ ts, Marks s (ask t) (vars t) refusal) :
    Marks s (all ask ts) {v | ∃ t ∈ ts, v ∈ vars t} refusal := by
  induction ts with
  | nil =>
    intro s₁ _
    have hnone : ∅ = {v | ∃ t ∈ ([] : List Ty), v ∈ vars t} := by simp
    exact ⟨∅, Set.empty_subset _, .refl s₁ .ord, fun _ => hnone,
      fun e he => absurd he (Option.some_ne_none e).symm⟩
  | cons t ts ih =>
    obtain ⟨ht, hts⟩ := List.forall_mem_cons.1 h
    have hunion : {v | ∃ u ∈ t :: ts, v ∈ vars u} =
        vars t ∪ {v | ∃ u ∈ ts, v ∈ vars u} := by
      ext v
      simp
    intro s₁ hs₁
    obtain ⟨taken, hsub, htakes, hall, hfails⟩ := ht s₁ hs₁
    rw [all_cons_run, hunion]
    generalize (ask t).run s₁ = answer at *
    obtain ⟨a, s₂⟩ := answer
    cases a with
    | some e =>
      exact ⟨taken, hsub.trans Set.subset_union_left, htakes,
        fun he => absurd he (Option.some_ne_none e), hfails⟩
    | none =>
      obtain ⟨taken', hsub', htakes', hall', hfails'⟩ :=
        ih hts s₂ (htakes.cells.trans hs₁)
      refine ⟨taken ∪ taken', Set.union_subset_union hsub hsub', htakes.trans htakes',
        fun he => ?_, hfails'⟩
      rw [hall rfl, hall' he]

/-- The error of a check that came to a term that cannot be ordered, and reports that
term. -/
def Refusal (s : Store) (t : Ty) (e : Error) : Prop :=
  ∃ u, s.Visits t u ∧ ¬ s.Comparable u ∧
    e = .fault u.range (.unsatisfiedConstraint "ord" "an orderable type")

/-- A refusal is classified already. -/
theorem classify_of_refusal {answer : Option Error}
    (h : ∀ e, answer = some e → Refusal s t e) :
    (ord : Demand (StateM Store)).classify t answer = answer := by
  cases answer with
  | none => rfl
  | some e =>
    obtain ⟨u, -, -, rfl⟩ := h e rfl
    rfl

/-- What one term does to the variables, given what the terms do that are asked
about. -/
theorem Marks.ord_satisfied (hs : s.Acyclic)
    (hask : ∀ u, s.Asks t u → Marks s (sat.satisfies u) (s.rowVars u) (Refusal s u)) :
    Marks s (ord.satisfied sat t) (s.rowVars t) (Refusal s t) := by
  intro s₁ hs₁
  rw [ord_run, ordParts_of_cells hs₁]
  cases hparts : s.ordParts t with
  | none =>
    have hno : ¬ s.Comparable t := by
      rw [comparable_iff hs]
      rintro ⟨h, -⟩
      cases hparts.symm.trans h
    refine ⟨∅, Set.empty_subset _, .refl s₁ .ord,
      fun he => absurd he (Option.some_ne_none _), fun e he => ?_⟩
    cases he
    exact ⟨t, .refl, hno, rfl⟩
  | some p =>
    obtain ⟨v?, parts⟩ := p
    have hall : Marks s (Demand.all sat.satisfies parts)
        {v | ∃ u ∈ parts, v ∈ s.rowVars u} (Refusal s t) := by
      -- What a part visits, the term visits, so its refusals are refusals of the
      -- term.
      refine Marks.all fun u hu s₂ hs₂ => ?_
      have hasked := (asks_iff hs hparts).2 hu
      obtain ⟨taken, hsub, htakes, hall, hfails⟩ := hask u hasked s₂ hs₂
      refine ⟨taken, hsub, htakes, hall, fun e he => ?_⟩
      obtain ⟨w, hw, hno⟩ := hfails e he
      exact ⟨w, hw.head hasked, hno⟩
    have hvars : s.rowVars t = {v | v? = some v} ∪ {v | ∃ u ∈ parts, v ∈ s.rowVars u} :=
      Set.ext fun v => mem_rowVars_iff hs hparts
    have hfirst := TakesOn.constrain? s₁ v? .ord
    obtain ⟨taken, hsub, htakes, htaken, hfails⟩ := hall _ (hfirst.cells.trans hs₁)
    rw [hvars]
    exact ⟨_, Set.union_subset_union_right _ hsub, hfirst.trans htakes,
      fun he => by rw [htaken he], hfails⟩

/-- **What a check leaves to variables, and what it reports.** -/
theorem ord_marks (hs : s.Acyclic) (hsat : Recursive ord sat) (t : Ty) :
    Marks s (ord.check sat t) (s.rowVars t) (Refusal s t) := by
  induction t using weightInduction s with
  | lighter t ih =>
    intro s₁ hs₁
    have hask : ∀ u, s.Asks t u →
        Marks s (sat.satisfies u) (s.rowVars u) (Refusal s u) := by
      intro u hu s₂ hs₂
      rw [hsat s₂ (hs.of_cells hs₂) u]
      exact ih u (hu.weight_lt hs) s₂ hs₂
    obtain ⟨taken, hsub, htakes, hall, hfails⟩ := Marks.ord_satisfied hs hask s₁ hs₁
    rw [check_run, classify_of_refusal hfails]
    exact ⟨taken, hsub, htakes, hall, hfails⟩

/-! ## The recursion ends -/

/-- **The recursive satisfier at depth `n`**: it checks the order constraint on every
term that it is asked about, and gives no answer if more than `n` checks would have to
be open at one time. It knows nothing about subtypes. -/
def ordIn : Nat → Satisfier (StateT Store Option)
  | 0 => { subtype := fun _ _ => failure, satisfies := fun _ => failure }
  | n + 1 =>
    { subtype := fun _ _ => failure, satisfies := fun t => ord.check (ordIn n) t }

/-- Started on any store with the cells of `s`, the one gives an answer, which is that
of the other. -/
def Answers (s : Store) (x : StateM Store (Option Error))
    (y : StateT Store Option (Option Error)) : Prop :=
  ∀ s₁ : Store, s₁.cells = s.cells → y.run s₁ = some (x.run s₁)

theorem Answers.all {ask : Ty → StateM Store (Option Error)}
    {ask' : Ty → StateT Store Option (Option Error)} {ts : List Ty}
    (hcells : ∀ t ∈ ts, ∀ s₁ : Store, s₁.cells = s.cells →
      ((ask t).run s₁).2.cells = s.cells) (h : ∀ t ∈ ts, Answers s (ask t) (ask' t)) :
        Answers s (all ask ts) (all ask' ts) := by
  induction ts with
  | nil => exact fun s₁ _ => rfl
  | cons t ts ih =>
    obtain ⟨ht, hts⟩ := List.forall_mem_cons.1 h
    obtain ⟨htcells, htscells⟩ := List.forall_mem_cons.1 hcells
    intro s₁ hs₁
    have hrest := ih htscells hts _ (htcells s₁ hs₁)
    rw [all_cons_run, Demand.all, StateT.run_bind, ht s₁ hs₁]
    generalize (ask t).run s₁ = answer at *
    obtain ⟨a, s₂⟩ := answer
    cases a with
    | none => exact hrest
    | some e => rfl

theorem Answers.check {sat' : Satisfier (StateT Store Option)}
    (h : Answers s (ord.satisfied sat t) (ord.satisfied sat' t)) :
    Answers s (ord.check sat t) (ord.check sat' t) := by
  intro s₁ hs₁
  rw [check_run, Demand.check, StateT.run_bind, h s₁ hs₁]
  generalize (ord.satisfied sat t).run s₁ = answer
  obtain ⟨a, s₂⟩ := answer
  cases a with
  | none => rfl
  | some e =>
    change StateT.run (if _ then _ else _) s₂ = _
    unfold classify
    dsimp only
    split <;> rfl

/-- Depths that cover the weight of a term are enough. -/
theorem answers_ordIn (hs : s.Acyclic) (hsat : Recursive ord sat) {n : Nat}
    (hn : s.weight t ≤ n) :
    Answers s (ord.check sat t) (ord.check (ordIn n) t) := by
  induction n generalizing t with
  | zero => exact absurd hn (Nat.not_le_of_gt (s.weight_pos t))
  | succ n ih =>
    refine Answers.check fun s₁ hs₁ => ?_
    rw [ord_run, ord_satisfied_eq, run_getThe_bind, ordParts_of_cells hs₁]
    cases hparts : s.ordParts t with
    | none => rfl
    | some p =>
      obtain ⟨v?, parts⟩ := p
      have hasked : ∀ u ∈ parts, ∀ s₂ : Store, s₂.cells = s.cells →
          (sat.satisfies u).run s₂ = (ord.check sat u).run s₂ :=
        fun u _ s₂ hs₂ => hsat s₂ (hs.of_cells hs₂) u
      have hall : Answers s (Demand.all sat.satisfies parts)
          (Demand.all (ordIn (n + 1)).satisfies parts) := by
        refine Answers.all (fun u hu s₂ hs₂ => ?_) fun u hu s₂ hs₂ => ?_
        · rw [hasked u hu s₂ hs₂]
          exact (ord_decides hs hsat u s₂ hs₂).1
        · -- One level less is left for a part, which weighs less.
          rw [hasked u hu s₂ hs₂]
          have hlt := weight_ordParts hs hparts hu
          exact ih (by omega) s₂ hs₂
      have hcells := (TakesOn.constrain? s₁ v? .ord).cells.trans hs₁
      rw [← hall _ hcells]
      cases v? <;> rfl

/-! ## The decision -/

/-- **The order constraint, checked through the recursive satisfier, decides whether
a term can be ordered.** The recursion ends. If it succeeds, the constraint has been
added to the variables that are the base of a term that is visited, to no others, and
a second check succeeds and changes nothing. If it fails, nothing has changed but that
some variables that can be reached have taken the constraint on, and a term that
cannot be ordered is reported. -/
theorem ord_check_decides (hs : s.Acyclic) (hsat : Recursive ord sat) (t : Ty) :
    EndsWith (fun n => (ord.check (ordIn n) t).run s) ((ord.check sat t).run s) ∧
      (((ord.check sat t).run s).1 = none ↔ s.Comparable t) ∧
      (∀ s', (ord.check sat t).run s = (none, s') →
        s.TakesOn s' .ord (s.rowVars t) ∧
          (∀ v ∈ s.rowVars t, v < s.vars.size →
            (s'.var v).constraints.contains "ord" = true) ∧
          (ord.check sat t).run s' = (none, s')) ∧
      ∀ e s', (ord.check sat t).run s = (some e, s') →
        (∃ taken, s.TakesOn s' .ord taken ∧ ∀ v ∈ taken, ∃ c, s.ReachesCell t c ∧
            s.freeVar? c = some v) ∧
          ∃ u, s.Visits t u ∧ ¬ s.Comparable u ∧
            e = .fault u.range (.unsatisfiedConstraint "ord" "an orderable type") := by
  have hdecides := ord_decides hs hsat t
  have hmarks := ord_marks hs hsat t
  refine ⟨⟨s.weight t, fun n hn => answers_ordIn hs hsat hn s rfl⟩, ?_, fun s' hrun => ?_,
    fun e s' hrun => ?_⟩
  · rw [(hdecides s rfl).2, comparable_iff hs]
  · obtain ⟨taken, -, htakes, hall, -⟩ := hmarks s rfl
    rw [hrun] at htakes hall
    rw [hall rfl] at htakes
    refine ⟨htakes, fun v hv hlt => htakes.contains hv hlt, ?_⟩
    -- The second check may add the constraint to these variables only, and they have
    -- it.
    have hcells : s'.cells = s.cells := htakes.cells
    obtain ⟨taken', hsub', htakes', -, -⟩ := hmarks s' hcells
    have hsame : ((ord.check sat t).run s').2 = s' := htakes.eq htakes' hsub'
    have hagain : ((ord.check sat t).run s').1 = none := by
      rw [(hdecides s' hcells).2, ← (hdecides s rfl).2, hrun]
    exact Prod.ext hagain hsame
  · obtain ⟨taken, hsub, htakes, -, hfails⟩ := hmarks s rfl
    rw [hrun] at htakes hfails
    exact ⟨⟨taken, htakes, fun v hv => reachesCell_of_mem_rowVars hs (hsub hv)⟩,
      hfails e rfl⟩

/-- A function without arguments. -/
def shadowedExampleArrow : Ty := .of (.arrow [] .unit)

/-- Two variables, and a cell that is linked to a record over the first one with
a function in its field. -/
def shadowedExample : Store :=
  ⟨#[⟨.depth 1, .empty⟩, ⟨.unbounded, .empty⟩],
    #[.free 0, .free 1,
      .link .covariant (.of (.meth
        { name := "x", scheme := .mono shadowedExampleArrow } (.of (.cell 0))))]⟩

/-- A field with lists of the second variable, which shadows that of the record behind
the link. -/
def shadowedExampleTerm : Ty :=
  .of (.meth { name := "x",
               scheme := .mono (.of (.list .array (.of (.cell 1)))) } (.of (.cell 2)))

/-- A pair of the first variable and the record behind the link. -/
def shadowedExamplePair : Ty := .of (.tuple [.of (.cell 0), .of (.cell 2)])

/-- The function behind the shadow is not asked about, and both variables take the
constraint on. The pair, in which nothing shadows the function, is refused. -/
theorem ord_check_decides_shadowed :
    (∃ s', (ord.check (throughout ord fun _ _ => pure none) shadowedExampleTerm).run
        shadowedExample = (none, s') ∧ shadowedExample.Comparable shadowedExampleTerm ∧
        shadowedExample.TakesOn s' .ord (shadowedExample.rowVars shadowedExampleTerm) ∧
        0 ∈ shadowedExample.rowVars shadowedExampleTerm ∧
          1 ∈ shadowedExample.rowVars shadowedExampleTerm) ∧
      ∃ e s',
        (ord.check (throughout ord fun _ _ => pure none) shadowedExamplePair).run
            shadowedExample = (some e, s') ∧
          ¬ shadowedExample.Comparable shadowedExamplePair ∧
            Refusal shadowedExample shadowedExamplePair e := by
  have hs : shadowedExample.Acyclic := acyclic_of_rank id (by decide)
  have hsat := ord_throughout fun _ _ => pure none
  have haccepted :
      ((ord.check (throughout ord fun _ _ => pure none) shadowedExampleTerm).run
        shadowedExample).1 = none := by
    decide
  have hrefused :
      ((ord.check (throughout ord fun _ _ => pure none) shadowedExamplePair).run
        shadowedExample).1.isSome = true := by
    decide
  have hfirst : shadowedExample.varOf? (shadowedExample.demeth shadowedExampleTerm) =
      some 0 := by decide
  have hfield :
      shadowedExample.Visits shadowedExampleTerm (.of (.list .array (.of (.cell 1)))) :=
    .single (.field (Or.inr ⟨0, hfirst⟩) (List.Mem.head _))
  obtain ⟨-, hdecides, haccepts, -⟩ := ord_check_decides hs hsat shadowedExampleTerm
  obtain ⟨-, hdecides', -, hrefuses⟩ := ord_check_decides hs hsat shadowedExamplePair
  obtain ⟨e, he⟩ := Option.isSome_iff_exists.1 hrefused
  have hpair : ¬ shadowedExample.Comparable shadowedExamplePair := by
    rw [← hdecides', he]
    exact Option.some_ne_none e
  refine ⟨⟨_, Prod.ext haccepted rfl, hdecides.1 haccepted,
      (haccepts _ (Prod.ext haccepted rfl)).1, ?_, ?_⟩,
    e, _, Prod.ext he rfl, hpair, (hrefuses e _ (Prod.ext he rfl)).2⟩
  · exact ⟨_, .refl, hfirst⟩
  · exact ⟨_, hfield.tail (.component (by decide) (List.Mem.head _)), by decide⟩

end Demand

end TypeGraph
