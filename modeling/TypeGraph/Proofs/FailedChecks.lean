import TypeGraph.Proofs.ErrorClasses
import TypeGraph.Proofs.OrderChecks
import Mathlib.Logic.Relation

/-!
# What a failed check reports

A predicate may fail with any error, and a check puts a fault of its own in front
unless the error is classified as an unsatisfied constraint already. Predicates ask
about components, and the questions are checks again, so that an error comes up
through many checks. The innermost one classifies it, and the others find it
classified: it is wrapped once at most, and what is reported is what the innermost
check has reported (`Call.answer_of_chain`).

`Error.report?` is what is reported of an error: the range and the fault of the first
classified error in pre-order, from which `Error.first?` has its range and code.
-/

namespace TypeGraph

/-! ## Reports -/

namespace Error

variable {e : Error} {code : Code}

mutual

/-- The first classified error in pre-order: its range and its fault. An error of
unknown origin has no fault. -/
def report? : Error → Option (Range × Option Fault)
  | fault range f => some (range, some f)
  | unclassified range _ => some (range, none)
  | plain _ => none
  | context _ cause => cause.report?
  | join errors => reportOf? errors
  | raised range f _ => some (range, some f)

def reportOf? : List Error → Option (Range × Option Fault)
  | [] => none
  | e :: es => e.report? <|> reportOf? es

end

/-- The code that a report is classified by. -/
def reportCode (report : Range × Option Fault) : Code :=
  report.2.elim .unclassified Fault.code

mutual

theorem first?_eq : ∀ e : Error,
    e.first? = e.report?.map fun report => (reportCode report, report.1)
  | fault _ _ => rfl
  | unclassified _ _ => rfl
  | plain _ => rfl
  | context _ cause => cause.first?_eq
  | join errors => firstOf?_eq errors
  | raised _ _ _ => rfl

theorem firstOf?_eq : ∀ es : List Error,
    firstOf? es = (reportOf? es).map fun report => (reportCode report, report.1)
  | [] => rfl
  | e :: es => by
    rw [firstOf?, reportOf?, e.first?_eq, firstOf?_eq es]
    cases e.report? <;> rfl

end

/-- An error is classified by the code of its report. -/
theorem is_iff_report? :
    e.is code = true ↔ ∃ report, e.report? = some report ∧ reportCode report = code := by
  rw [is, first?_eq]
  cases e.report? <;> simp

/-- The report of an error that is classified as an unsatisfied constraint names
a constraint. -/
theorem report?_of_is (h : e.is .unsatisfiedConstraint = true) :
    ∃ range kind description,
      e.report? = some (range, some (.unsatisfiedConstraint kind description)) := by
  obtain ⟨⟨range, f⟩, hreport, hcode⟩ := is_iff_report?.1 h
  cases f with
  | none => cases hcode
  | some f =>
    cases f with
    | unsatisfiedConstraint kind description => exact ⟨range, kind, description, hreport⟩
    | _ => cases hcode

theorem raised_ne (range : Range) (f : Fault) (cause : Error) :
    raised range f cause ≠ cause := by
  intro h
  have hmem : cause ∈ (raised range f cause).wrapped :=
    List.mem_cons_of_mem _ List.mem_cons_self
  rw [h] at hmem
  exact Nat.lt_irrefl _ (sizeOf_lt_of_mem_wrapped hmem)

end Error

/-! ## Calls -/

/-- **What a check makes of the error of its predicate.** -/
structure Demand.Classifies {m : Type → Type} (d : Demand m) (t : Ty)
    (e e' : Error) : Prop where
  /-- The result is an unsatisfied constraint, whatever the error of the predicate
  was. -/
  is_unsatisfied : e'.is .unsatisfiedConstraint = true
  /-- The error of the predicate is the result or is wrapped in it. -/
  keeps : e' = e ∨ e ∈ e'.wrapped
  /-- It is the result just when it was classified before. -/
  eq_iff : e' = e ↔ e.is .unsatisfiedConstraint = true
  /-- A failed constraint is reported: the one that the predicate has reported, or
  else this one on this term. -/
  report : e'.report? = if e.is .unsatisfiedConstraint then e.report?
    else some (t.range, some d.failure)
  named : ∃ range kind description,
    e'.report? = some (range, some (.unsatisfiedConstraint kind description))

theorem Demand.classify_some {m : Type → Type} (d : Demand m) (t : Ty) (e : Error) :
    ∃ e', d.classify t (some e) = some e' ∧ d.Classifies t e e' := by
  rw [classify]
  cases h : e.is .unsatisfiedConstraint with
  | true =>
    exact ⟨e, rfl, h, Or.inl rfl, iff_of_true rfl h, by rw [if_pos h],
      Error.report?_of_is h⟩
  | false =>
    have hnot : ¬ e.is .unsatisfiedConstraint = true := Bool.eq_false_iff.1 h
    refine ⟨.raised t.range d.failure e, rfl, rfl, Or.inr ?_, iff_of_false ?_ hnot, ?_,
      Error.report?_of_is rfl⟩
    · exact List.mem_cons_of_mem _ List.mem_cons_self
    · exact Error.raised_ne _ _ _
    · rw [if_neg hnot]
      rfl

/-- A check that is made in some state. -/
structure Call (σ : Type) where
  demand : Demand (StateM σ)
  sat : Satisfier (StateM σ)
  term : Ty
  state : σ

namespace Call

variable {σ : Type} {call outer inner : Call σ} {e : Error}

/-- The answer of the predicate. -/
def own (call : Call σ) : Option Error :=
  ((call.demand.satisfied call.sat call.term).run call.state).1

/-- The answer of the check. -/
def answer (call : Call σ) : Option Error :=
  ((call.demand.check call.sat call.term).run call.state).1

/-- The predicate of the outer check fails with the error of the inner check. -/
def PassesOn (outer inner : Call σ) : Prop :=
  ∃ e, inner.answer = some e ∧ outer.own = some e

theorem answer_eq (call : Call σ) :
    call.answer = call.demand.classify call.term call.own := by
  rw [answer, Demand.check_run, own]

theorem answer_of_own (h : call.own = some e) :
    ∃ e', call.answer = some e' ∧ call.demand.Classifies call.term e e' := by
  rw [answer_eq, h]
  exact call.demand.classify_some call.term e

/-- A check leaves an error that comes from a check as it is. -/
theorem PassesOn.answer_eq (h : outer.PassesOn inner) : outer.answer = inner.answer := by
  obtain ⟨e, hinner, houter⟩ := h
  have his : e.is .unsatisfiedConstraint = true := by
    cases hown : inner.own with
    | none =>
      rw [inner.answer_eq, (Demand.classify_eq_none _ _ _).2 hown] at hinner
      cases hinner
    | some e₀ =>
      obtain ⟨e', he', hclass⟩ := answer_of_own hown
      cases hinner.symm.trans he'
      exact hclass.is_unsatisfied
  obtain ⟨e', he', hclass⟩ := answer_of_own houter
  rw [he', hinner, hclass.eq_iff.2 his]

/-- **What comes up through nested checks is the answer of the innermost.** -/
theorem answer_of_chain (h : Relation.ReflTransGen PassesOn outer inner) :
    outer.answer = inner.answer := by
  induction h with
  | refl => rfl
  | tail _ hpass ih => exact ih.trans hpass.answer_eq

/-- **A check classifies every failure, and nested checks classify it once.** -/
theorem check_classifies_failures (call : Call σ) :
    (call.answer = none ↔ call.own = none) ∧
      (∀ e, call.own = some e →
        ∃ e', call.answer = some e' ∧ call.demand.Classifies call.term e e') ∧
      ∀ inner e, Relation.ReflTransGen PassesOn call inner → inner.own = some e →
        ∃ e', call.answer = some e' ∧ inner.demand.Classifies inner.term e e' := by
  refine ⟨?_, fun e h => answer_of_own h, fun inner e hchain h => ?_⟩
  · rw [answer_eq, Demand.classify_eq_none]
  · rw [answer_of_chain hchain]
    exact answer_of_own h

/-- An error of unknown origin, which stands second in a join and hides a code of its
own. -/
def offlineExample : Error :=
  .join [.plain "offline",
    .unclassified .zero (some (.fault .zero (.notFound "tap" "registry")))]

/-- A demand that asks about the elements of a list, and fails on any other term. -/
def elementsExample : Demand (StateM Store) where
  kind := "source"
  description := "a source"
  satisfied sat t :=
    match t.shape with
    | .list _ elem => sat.satisfies elem
    | _ => return some offlineExample

/-- A check of it. What it asks is answered by checks, up to `n` below each other. -/
def elementsCall (n : Nat) (t : Ty) : Call Store where
  demand := elementsExample
  sat := elementsExample.recursive ⟨fun _ _ => return none, fun _ => return none⟩ n
  term := t
  state := ⟨#[], #[]⟩

/-- The error comes up through two lists, and is reported for the element of the inner
one. -/
theorem check_classifies_failures_nested :
    let elem : Ty := .node (some ⟨3, 7⟩) (.tuple [])
    let inner : Ty := .node (some ⟨2, 8⟩) (.list .array elem)
    let outer : Ty := .node (some ⟨1, 9⟩) (.list .array inner)
    Relation.ReflTransGen PassesOn (elementsCall 2 outer) (elementsCall 0 elem) ∧
      (elementsCall 0 elem).own = some offlineExample ∧
      ∃ e', (elementsCall 2 outer).answer = some e' ∧
        elementsExample.Classifies elem offlineExample e' := by
  intro elem inner outer
  have houter : (elementsCall 2 outer).PassesOn (elementsCall 1 inner) := ⟨_, rfl, rfl⟩
  have hinner : (elementsCall 1 inner).PassesOn (elementsCall 0 elem) := ⟨_, rfl, rfl⟩
  have hchain :
      Relation.ReflTransGen PassesOn (elementsCall 2 outer) (elementsCall 0 elem) :=
    .head houter (.single hinner)
  exact ⟨hchain, rfl, (check_classifies_failures _).2.2 _ _ hchain rfl⟩

end Call

end TypeGraph
