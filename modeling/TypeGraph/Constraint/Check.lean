import TypeGraph.Methods

/-!
# Checking constraints

A demand is a constraint together with a predicate on types. A predicate that has to
look further asks a satisfier: whether one type is a subtype of another, and whether
a component meets the constraint too. Checks run in a monad that holds a store,
because a variable that is checked takes the constraint on, and a subtype question may
link cells.

Whatever a predicate reports, a failed check is classified as an unsatisfied
constraint: an error that is not classified so already gets a fault of that class in
front.
-/

namespace TypeGraph

/-- What a constraint may ask of its surroundings. An answer is an error, or `none`
for yes. -/
structure Satisfier (m : Type → Type) where
  /-- Is the first type a subtype of the second? -/
  subtype : Ty → Ty → m (Option Error)
  /-- Does the type meet the constraint that is being checked? -/
  satisfies : Ty → m (Option Error)

/-- A constraint with the predicate that it stands for. -/
structure Demand (m : Type → Type) extends Constraint where
  satisfied : Satisfier m → Ty → m (Option Error)

/-- The fault of a type that fails a constraint. -/
def Constraint.failure (c : Constraint) : Fault :=
  .unsatisfiedConstraint c.kind c.description

/-- The error of a term that fails a constraint. -/
def Constraint.failsAt (c : Constraint) (t : Ty) : Error := .fault t.range c.failure

namespace Demand

variable {m : Type → Type} [Monad m]

/-- Check a type. -/
def check (d : Demand m) (sat : Satisfier m) (t : Ty) : m (Option Error) := do
  match ← d.satisfied sat t with
  | none => return none
  | some e =>
    if e.is .unsatisfiedConstraint then return some e
    else return some (.raised t.range d.failure e)

/-- A satisfier that checks the demand itself on every component, at most `n` checks
deep. The satisfier `first` answers subtype questions, and it is asked about each
component before the check. -/
def recursive (d : Demand m) (first : Satisfier m) : Nat → Satisfier m
  | 0 => first
  | n + 1 =>
    { subtype := first.subtype
      satisfies := fun t => do
        match ← first.satisfies t with
        | some e => return some e
        | none => d.check (d.recursive first n) t }

/-- Ask about terms from left to right, up to the first that fails. -/
def all (ask : Ty → m (Option Error)) : List Ty → m (Option Error)
  | [] => return none
  | t :: ts => do
    match ← ask t with
    | some e => return some e
    | none => all ask ts

variable [MonadStateOf Store m]

/-- A number: the base is `int` or `float`, or a variable, which takes the constraint
on. -/
def num : Demand m :=
  { Constraint.num with
    satisfied := fun _ t => do
      let s ← getThe Store
      let base := s.demeth t
      match s.varOf? base with
      | some v =>
        modifyThe Store (·.constrain v .num)
        return none
      | none =>
        if s.isGround base ["int", "float"] then return none
        else return some (Constraint.num.failsAt t) }

/-- An orderable type: a ground type; a tuple, list or nullable of orderable types; or
fields of orderable types over unit or over a variable, which takes the constraint
on. -/
def ord : Demand m :=
  { Constraint.ord with
    satisfied := fun sat t => do
      let s ← getThe Store
      let (methods, base) := s.splitMeths t
      let fields := methods.map (·.scheme.type)
      match base.shape with
      | .cell c =>
        match s.freeVar? c with
        | some v =>
          modifyThe Store (·.constrain v .ord)
          all sat.satisfies fields
        | none => return some (Constraint.ord.failsAt t)
      | .custom (.ground _) _ => return none
      | .tuple [] => all sat.satisfies fields
      | .tuple elems => all sat.satisfies elems
      | .list _ elem | .nullable elem => sat.satisfies elem
      | _ => return some (Constraint.ord.failsAt t) }

/-- A record: fields over unit. A variable as the base is required to be a subtype of
unit. -/
def record : Demand m :=
  { Constraint.record with
    satisfied := fun sat t => do
      let s ← getThe Store
      let base := s.demeth t
      if s.isUnit base then return none
      match s.varOf? base with
      | some _ => sat.subtype base .unit
      | none => return some (Constraint.record.failsAt t) }

end Demand

end TypeGraph
