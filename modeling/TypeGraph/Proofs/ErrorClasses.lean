import TypeGraph.Error

/-!
# What an error is classified by, and what it carries

An error wraps others: a line of context wraps its cause, a join its parts, and so
does a fault that absorbs another error. An error *carries* a code if it is a fault of
that code itself, or wraps one at any depth (`Carries`).

`Error.is` does not ask for that. It looks for the first fault in pre-order and asks
for its code alone, so a fault hides every other one that stands below it or behind it
(`is_hides_cause`). The answer is the one that an error which carries the code should
get just when no fault of another code comes first (`is_iff_carries_iff`).
-/

namespace TypeGraph.Error

variable {e d : Error} {code : Code}

/-! ## Wrapping -/

/-- The errors that an error wraps directly, from left to right. A fault that was
raised because of an error is wrapped next to it. -/
def wrapped : Error → List Error
  | fault .. | plain _ => []
  | unclassified _ cause => cause.toList
  | context _ cause => [cause]
  | join errors => errors
  | raised range f cause => [fault range f, cause]

/-- **The error is a fault of the code, or wraps one at any depth.** -/
inductive Carries (code : Code) : Error → Prop
  | here {e : Error} (h : e.code? = some code) : Carries code e
  | under {e d : Error} (hd : d ∈ e.wrapped) (h : Carries code d) : Carries code e

theorem carries_iff : e.Carries code ↔
    e.code? = some code ∨ ∃ d ∈ e.wrapped, d.Carries code := by
  constructor
  · intro h
    cases h with
    | here h => exact Or.inl h
    | under hd h => exact Or.inr ⟨_, hd, h⟩
  · rintro (h | ⟨d, hd, h⟩)
    · exact .here h
    · exact .under hd h

theorem sizeOf_lt_of_mem_wrapped (h : d ∈ e.wrapped) : sizeOf d < sizeOf e := by
  cases e with
  | fault | plain => cases h
  | unclassified range cause =>
    cases cause with
    | none => cases h
    | some cause =>
      rw [List.mem_singleton.1 h]
      simp only [unclassified.sizeOf_spec, Option.some.sizeOf_spec]
      omega
  | context text cause =>
    rw [List.mem_singleton.1 h]
    simp only [context.sizeOf_spec]
    omega
  | join errors =>
    have hmem : sizeOf d < sizeOf errors := List.sizeOf_lt_of_mem h
    simp only [join.sizeOf_spec]
    omega
  | raised range f cause =>
    have hcause : 0 < sizeOf cause := by cases cause <;> simp +arith
    have hparts : d = fault range f ∨ d = cause := by simpa [wrapped] using h
    rcases hparts with rfl | rfl
    · simp only [fault.sizeOf_spec, raised.sizeOf_spec]
      omega
    · simp only [raised.sizeOf_spec]
      omega

/-- Induction on what an error wraps. -/
theorem wrappedInduction {motive : Error → Prop}
    (step : ∀ e, (∀ d ∈ e.wrapped, motive d) → motive e) (e : Error) :
    motive e :=
  step e fun d hd =>
    have := sizeOf_lt_of_mem_wrapped hd
    wrappedInduction step d
termination_by sizeOf e

/-! ## Pre-order -/

mutual

/-- The codes of all faults that an error carries, in pre-order. -/
def codes : Error → List Code
  | fault _ f => [f.code]
  | unclassified _ cause => .unclassified :: causeCodes cause
  | plain _ => []
  | context _ cause => cause.codes
  | join errors => joinedCodes errors
  | raised _ f cause => f.code :: cause.codes

def causeCodes : Option Error → List Code
  | none => []
  | some cause => cause.codes

def joinedCodes : List Error → List Code
  | [] => []
  | e :: es => e.codes ++ joinedCodes es

end

theorem joinedCodes_eq (es : List Error) : joinedCodes es = es.flatMap codes := by
  induction es with
  | nil => rfl
  | cons e es ih => rw [joinedCodes, ih, List.flatMap_cons]

/-- The code of the error itself comes first, and those of what it wraps follow from
left to right. -/
theorem codes_eq (e : Error) : e.codes = e.code?.toList ++ e.wrapped.flatMap codes := by
  cases e with
  | unclassified range cause => cases cause <;> simp [codes, causeCodes, code?, wrapped]
  | join errors => simp [codes, code?, wrapped, joinedCodes_eq]
  | _ => simp [codes, code?, wrapped]

/-- The codes in pre-order are those that the error carries. -/
theorem mem_codes (e : Error) : code ∈ e.codes ↔ e.Carries code := by
  induction e using wrappedInduction with
  | step e ih =>
    rw [codes_eq, carries_iff, List.mem_append, Option.mem_toList, List.mem_flatMap]
    refine or_congr Iff.rfl (exists_congr fun d => and_congr_right fun hd => ?_)
    exact ih d hd

mutual

/-- An error is classified by the first of its codes. -/
theorem head?_codes : ∀ e : Error, e.codes.head? = e.first?.map Prod.fst
  | fault _ _ => rfl
  | unclassified _ _ => rfl
  | plain _ => rfl
  | context _ cause => cause.head?_codes
  | join errors => head?_joinedCodes errors
  | raised _ _ _ => rfl

theorem head?_joinedCodes :
    ∀ es : List Error, (joinedCodes es).head? = (firstOf? es).map Prod.fst
  | [] => rfl
  | e :: es => by
    rw [joinedCodes, List.head?_append, e.head?_codes, head?_joinedCodes es, firstOf?]
    cases e.first? <;> rfl

end

theorem is_iff_head? (e : Error) (code : Code) :
    e.is code = true ↔ e.codes.head? = some code := by
  rw [is, head?_codes]
  cases e.first? <;> simp

/-! ## Classification -/

/-- **When an error is found to be what it carries.** It is classified by its first
code in pre-order. For a code that it carries this is the right answer just when that
code is the first one, and for any other code always. -/
theorem is_iff_carries_iff (e : Error) (code : Code) :
    (e.is code = true ↔ e.codes.head? = some code) ∧
      ((e.is code = true ↔ e.Carries code) ↔
        (e.Carries code → e.codes.head? = some code)) := by
  have hfirst := e.is_iff_head? code
  have hcarried : e.codes.head? = some code → e.Carries code := fun h =>
    (mem_codes e).1 (List.mem_of_mem_head? h)
  refine ⟨hfirst, fun h hcarries => hfirst.1 (h.2 hcarries), fun h => ?_⟩
  exact ⟨fun his => hcarried (hfirst.1 his), fun hcarries => hfirst.2 (h hcarries)⟩

/-- An error of unknown origin hides the fault that it was made from. -/
theorem is_hides_cause :
    let cause := fault .zero (.notFound "on_track" "method")
    let e := unclassified .zero (some cause)
    cause ∈ e.wrapped ∧ e.Carries .notFound ∧ e.is .notFound = false :=
  ⟨List.mem_singleton.2 rfl, .under (List.mem_singleton.2 rfl) (.here rfl), rfl⟩

end TypeGraph.Error
