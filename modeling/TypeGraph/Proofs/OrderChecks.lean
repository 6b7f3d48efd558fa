import TypeGraph.Constraint.Check
import TypeGraph.Proofs.Locality
import TypeGraph.Proofs.Mirror

/-!
# Checks as runs on a store

A check answers and leaves a store behind, in which variables may have taken
constraints on. No check that is followed here links a cell, so terms stand for the
same throughout. Two checks *agree* when they leave the same store behind and answer
alike.

The order constraint is the one that looks further. `Store.ordParts` says what it does
with a term: it refuses it, or it constrains a variable, if there is one, and asks
about some parts of the term, all of which weigh less. The *recursive* satisfier
answers such a question by checking the constraint on the part. In an acyclic store
these questions come to an end, and so there is such a satisfier
(`Demand.ord_throughout`).
-/

namespace TypeGraph

/-! ## The parts that are asked about -/

namespace Store

variable {s s' : Store} {t : Ty}

/-- What the order constraint does with a term: the variable that takes the constraint
on, if any, and the terms that are asked about. A term that is refused has neither. -/
def ordParts (s : Store) (t : Ty) : Option (Option VarId × List Ty) :=
  let (methods, base) := s.splitMeths t
  let fields := methods.map (·.scheme.type)
  match base.shape with
  | .cell c => (s.freeVar? c).map fun v => (some v, fields)
  | .custom (.ground _) _ => some (none, [])
  | .tuple [] => some (none, fields)
  | .tuple elems => some (none, elems)
  | .list _ elem | .nullable elem => some (none, [elem])
  | _ => none

theorem ordParts_of_cells (h : s'.cells = s.cells) (t : Ty) :
    s'.ordParts t = s.ordParts t := by
  have hfree : s'.freeVar? = s.freeVar? := funext fun c => by rw [freeVar?, freeVar?, h]
  rw [ordParts, ordParts, splitMeths_of_cells h, hfree]

/-- The terms that are asked about are fields of the term or subterms of its base. -/
theorem mem_ordParts {v? : Option VarId} {parts : List Ty}
    (h : s.ordParts t = some (v?, parts)) {u : Ty} (hu : u ∈ parts) :
    (∃ m ∈ (s.splitMeths t).1, m.scheme.type = u) ∨
      u ∈ (s.splitMeths t).2.shape.children := by
  rw [ordParts] at h
  generalize s.splitMeths t = split at *
  obtain ⟨methods, base⟩ := split
  dsimp only at h ⊢
  split at h
  · obtain ⟨v, -, hp⟩ := Option.map_eq_some_iff.1 h
    cases hp
    exact Or.inl (List.mem_map.1 hu)
  · cases h
    exact nomatch hu
  · cases h
    exact Or.inl (List.mem_map.1 hu)
  · rename_i hx
    cases h
    exact Or.inr (hx ▸ hu)
  · rename_i hx
    cases h
    exact Or.inr (hx ▸ hu)
  · rename_i hx
    cases h
    exact Or.inr (hx ▸ hu)
  · cases h

/-- **The terms that are asked about weigh less than the term.** -/
theorem weight_ordParts (hs : s.Acyclic) {v? : Option VarId} {parts : List Ty}
    (h : s.ordParts t = some (v?, parts)) {u : Ty} (hu : u ∈ parts) :
    s.weight u < s.weight t := by
  rcases mem_ordParts h hu with ⟨m, hm, rfl⟩ | hchild
  · exact weight_method_lt hs hm
  · exact (weight_lt_of_step hs (.child hchild)).trans_le (weight_base_le hs t)

end Store

namespace Demand

open Store

variable {d : Demand (StateM Store)} {sat sat' : Satisfier (StateM Store)}
  {s : Store} {t t' : Ty} {f : Error → Error} {x y : StateM Store (Option Error)}

/-! ## Runs -/

theorem run_getThe_bind {m : Type → Type} [Monad m] [LawfulMonad m] {α : Type}
    (next : Store → StateT Store m α) (s : Store) :
    (getThe Store >>= next).run s = (next s).run s := by
  rw [StateT.run_bind]
  exact pure_bind (s, s) _

/-- The answer of a check, given that of the predicate. -/
def classify {m : Type → Type} (d : Demand m) (t : Ty) : Option Error → Option Error
  | none => none
  | some e =>
    if e.is .unsatisfiedConstraint then some e else some (.raised t.range d.failure e)

theorem classify_eq_none {m : Type → Type} (d : Demand m) (t : Ty)
    (answer : Option Error) :
    d.classify t answer = none ↔ answer = none := by
  cases answer with
  | none => exact Iff.rfl
  | some e =>
    rw [classify]
    split <;> simp

theorem check_run {σ : Type} (d : Demand (StateM σ))
    (sat : Satisfier (StateM σ)) (t : Ty) (s : σ) :
    (d.check sat t).run s =
      (d.classify t ((d.satisfied sat t).run s).1, ((d.satisfied sat t).run s).2) := by
  rw [check, StateT.run_bind]
  generalize (d.satisfied sat t).run s = answer
  obtain ⟨answer, s'⟩ := answer
  cases answer with
  | none => rfl
  | some e =>
    change StateT.run (if _ then _ else _) s' = _
    unfold classify
    dsimp only
    split <;> rfl

theorem all_cons_run (ask : Ty → StateM Store (Option Error)) (t : Ty)
    (ts : List Ty) (s : Store) :
    (all ask (t :: ts)).run s =
      match (ask t).run s with
      | (some e, s') => (some e, s')
      | (none, s') => (all ask ts).run s' := by
  rw [all, StateT.run_bind]
  generalize (ask t).run s = answer
  obtain ⟨answer, s'⟩ := answer
  cases answer <;> rfl

section Lawful

variable {m : Type → Type} [Monad m] [LawfulMonad m]

theorem all_singleton (ask : Ty → m (Option Error)) (t : Ty) : all ask [t] = ask t := by
  rw [all]
  conv_rhs => rw [← bind_pure (ask t)]
  refine congrArg (ask t >>= ·) (funext fun answer => ?_)
  cases answer <;> rfl

/-- **What the order constraint does**, in terms of the parts of the term. -/
theorem ord_satisfied_eq [MonadStateOf Store m] (sat : Satisfier m) (t : Ty) :
    (ord : Demand m).satisfied sat t = (do
      let s ← getThe Store
      match s.ordParts t with
      | none => return some (Constraint.ord.failsAt t)
      | some (v?, parts) =>
        v?.elim (pure ()) fun v => modifyThe Store (·.constrain v .ord)
        all sat.satisfies parts) := by
  rw [ord]
  refine congrArg (getThe Store >>= ·) (funext fun s => ?_)
  dsimp only
  rw [ordParts]
  generalize s.splitMeths t = split
  obtain ⟨methods, base⟩ := split
  dsimp only
  cases base.shape with
  | cell c =>
    dsimp only
    cases s.freeVar? c <;> rfl
  | custom kind held => cases kind <;> simp [all]
  | tuple elems => cases elems <;> simp
  | list repr elem => simp [all_singleton]
  | nullable elem => simp [all_singleton]
  | _ => rfl

end Lawful

theorem ord_run (sat : Satisfier (StateM Store)) (t : Ty) (s : Store) :
    ((ord : Demand (StateM Store)).satisfied sat t).run s =
      match s.ordParts t with
      | none => (some (Constraint.ord.failsAt t), s)
      | some (v?, parts) =>
        (all sat.satisfies parts).run (v?.elim s fun v => s.constrain v .ord) := by
  rw [ord_satisfied_eq, run_getThe_bind]
  cases s.ordParts t with
  | none => rfl
  | some p =>
    obtain ⟨v?, parts⟩ := p
    cases v? <;> rfl

/-! ## Agreement -/

/-- Started on any store with the cells of `s`, the two leave the same store behind,
which has these cells too, and give the same answer as far as `f` tells. -/
def Agree (s : Store) (f : Error → Error) (x y : StateM Store (Option Error)) : Prop :=
  ∀ s₁ : Store, s₁.cells = s.cells →
    (x.run s₁).2.cells = s.cells ∧ (y.run s₁).2 = (x.run s₁).2 ∧
      (y.run s₁).1.map f = (x.run s₁).1.map f

theorem Agree.run_eq (h : Agree s id x y) {s₁ : Store} (hs₁ : s₁.cells = s.cells) :
    y.run s₁ = x.run s₁ := by
  obtain ⟨-, hstore, hanswer⟩ := h s₁ hs₁
  rw [Option.map_id, id, id] at hanswer
  exact Prod.ext hanswer hstore

theorem Agree.all {ask ask' : Ty → StateM Store (Option Error)}
    {φ : Ty → Ty} {ts : List Ty} (h : ∀ t ∈ ts, Agree s f (ask t) (ask' (φ t))) :
    Agree s f (all ask ts) (all ask' (ts.map φ)) := by
  induction ts with
  | nil => exact fun s₁ hs₁ => ⟨hs₁, rfl, rfl⟩
  | cons t ts ih =>
    obtain ⟨ht, hts⟩ := List.forall_mem_cons.1 h
    intro s₁ hs₁
    obtain ⟨hcells, hstore, hanswer⟩ := ht s₁ hs₁
    rw [List.map_cons, all_cons_run, all_cons_run]
    generalize (ask t).run s₁ = x at *
    generalize (ask' (φ t)).run s₁ = y at *
    obtain ⟨a, s₂⟩ := x
    obtain ⟨a', s₂'⟩ := y
    dsimp only at hcells hstore hanswer
    subst hstore
    cases a with
    | none =>
      cases a' with
      | none => exact ih hts s₂' hcells
      | some e' => cases hanswer
    | some e =>
      cases a' with
      | none => cases hanswer
      | some e' => exact ⟨hcells, rfl, hanswer⟩

/-- The order constraint does alike with a term and with its image, if it asks about
the images of the parts and gets answers that agree. -/
theorem Agree.ord_satisfied {φ : Ty → Ty}
    (hparts : s.ordParts (φ t) = (s.ordParts t).map (Prod.map id (List.map φ)))
    (hfails : f (Constraint.ord.failsAt (φ t)) = f (Constraint.ord.failsAt t))
    (hask : ∀ v? parts, s.ordParts t = some (v?, parts) →
      ∀ u ∈ parts, Agree s f (sat.satisfies u) (sat'.satisfies (φ u))) :
    Agree s f (ord.satisfied sat t) (ord.satisfied sat' (φ t)) := by
  intro s₁ hs₁
  rw [ord_run, ord_run, ordParts_of_cells hs₁, ordParts_of_cells hs₁, hparts]
  cases hp : s.ordParts t with
  | none => exact ⟨hs₁, rfl, congrArg some hfails⟩
  | some p =>
    obtain ⟨v?, parts⟩ := p
    have hcells : (v?.elim s₁ fun v => s₁.constrain v .ord).cells = s.cells := by
      cases v? <;> exact hs₁
    exact Agree.all (hask v? parts hp) _ hcells

theorem Agree.check (h : Agree s id (d.satisfied sat t) (d.satisfied sat' t)) :
    Agree s id (d.check sat t) (d.check sat' t) := by
  intro s₁ hs₁
  rw [check_run, check_run, h.run_eq hs₁]
  exact ⟨(h s₁ hs₁).1, rfl, rfl⟩

theorem classify_unplaced (d : Demand (StateM Store)) {a a' : Option Error}
    (h : a'.map Error.unplaced = a.map Error.unplaced) :
    (d.classify t' a').map Error.unplaced = (d.classify t a).map Error.unplaced := by
  cases a with
  | none => cases a' with
    | none => rfl
    | some e' => cases h
  | some e => cases a' with
    | none => cases h
    | some e' =>
      have he : e'.unplaced = e.unplaced := Option.some.inj h
      rw [classify, classify, ← Error.is_unplaced e', he, Error.is_unplaced]
      cases e.is .unsatisfiedConstraint with
      | true => exact h
      | false =>
        exact congrArg (fun cause => some (Error.raised .zero d.failure cause)) he

/-- The answer of a check, positions apart, and the store that it leaves behind. -/
def outcome (d : Demand (StateM Store)) (sat : Satisfier (StateM Store))
    (t : Ty) (s : Store) :
    Option Error × Store :=
  (((d.check sat t).run s).1.map Error.unplaced, ((d.check sat t).run s).2)

theorem outcome_eq
    (hstore : ((d.satisfied sat' t').run s).2 = ((d.satisfied sat t).run s).2)
        (hanswer : ((d.satisfied sat' t').run s).1.map Error.unplaced =
      ((d.satisfied sat t).run s).1.map Error.unplaced) : d.outcome sat' t' s =
        d.outcome sat t s := by
  rw [outcome, outcome, check_run, check_run]
  exact Prod.ext (classify_unplaced d hanswer) hstore

theorem Agree.check_unplaced
    (h : Agree s Error.unplaced (d.satisfied sat t) (d.satisfied sat' t')) :
    Agree s Error.unplaced (d.check sat t) (d.check sat' t') := by
  intro s₁ hs₁
  obtain ⟨hcells, hstore, hanswer⟩ := h s₁ hs₁
  rw [check_run, check_run]
  exact ⟨hcells, hstore, classify_unplaced d hanswer⟩

/-! ## The recursive satisfier -/

/-- The satisfier answers whether a term meets the constraint by checking it. -/
def Recursive (d : Demand (StateM Store)) (sat : Satisfier (StateM Store)) : Prop :=
  ∀ s : Store, s.Acyclic → ∀ t, (sat.satisfies t).run s = (d.check sat t).run s

/-- A satisfier that checks the demand on every component. -/
def throughout (d : Demand (StateM Store))
    (subtype : Ty → Ty → StateM Store (Option Error)) :
    Satisfier (StateM Store) where
  subtype := subtype
  satisfies t := do d.check (d.recursive ⟨subtype, fun _ => pure none⟩ ((← get).span t)) t

/-- Any two depths that cover the weight of a term give the same check. -/
theorem ord_check_bound (hs : s.Acyclic)
    (subtype : Ty → Ty → StateM Store (Option Error)) {m n : Nat} (hm : s.weight t ≤ m)
    (hn : s.weight t ≤ n) :
    Agree s id (ord.check (ord.recursive ⟨subtype, fun _ => pure none⟩ m) t)
      (ord.check (ord.recursive ⟨subtype, fun _ => pure none⟩ n) t) := by
  induction m generalizing t n with
  | zero => exact absurd hm (Nat.not_le_of_gt (s.weight_pos t))
  | succ m ih =>
    have hpos := s.weight_pos t
    obtain ⟨n, rfl⟩ : ∃ k, n = k + 1 := ⟨n - 1, by omega⟩
    refine Agree.check (Agree.ord_satisfied (φ := id) (by simp) rfl fun v?
      parts hp u hu => ?_)
    have hlt := weight_ordParts hs hp hu
    exact ih (by omega) (by omega)

/-- **There is a recursive satisfier** for the order constraint, whatever it says
about subtypes. -/
theorem ord_throughout (subtype : Ty → Ty → StateM Store (Option Error)) :
    Recursive ord (throughout ord subtype) := by
  intro s hs t
  have hspan := s.weight_le_span t
  have hpos := s.weight_pos t
  obtain ⟨n, hn⟩ : ∃ k, s.span t = k + 1 := ⟨s.span t - 1, by omega⟩
  have hagree :
      Agree s id (ord.check (ord.recursive ⟨subtype, fun _ => pure none⟩ (n + 1)) t)
      (ord.check (throughout ord subtype) t) := by
    refine Agree.check (Agree.ord_satisfied (φ := id) (by simp) rfl fun v? parts
      hp u hu s₁ hs₁ => ?_)
    have hlt := weight_ordParts hs hp hu
    -- The depth is taken from the store as the check has left it, which has the same
    -- cells.
    have hspan₁ : s₁.span u = s.span u := by rw [span, span, hs₁]
    have hbound :=
      ord_check_bound hs subtype (t := u) (m := n) (by omega) (s.weight_le_span u) s₁ hs₁
    rw [← hspan₁] at hbound
    exact hbound
  rw [hagree.run_eq rfl, ← hn]
  rfl

end Demand

end TypeGraph
