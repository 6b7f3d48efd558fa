import TypeGraph.Copy
import TypeGraph.Proofs.ConstraintTables
import Mathlib.Data.List.Forall2

/-!
# Histories of constraint sets

A history makes sets, adds constraints to them and copies them, in any order. It is
followed in three ways: by the constraints that each set was given (`Keeping.log`), by
the variables of a store (`Store.serve`), and by hash tables behind references
(`HashTables.Shelf`). At any time each set is the map of what it was given, as the
store and the tables have it; for the tables that is so because no two sets share one
(`HashTables.Shelf.Keeps`). Only requests to add to a set change what it was given,
and so a set and its copy go separate ways (`constraints_firstWins`).
-/

namespace TypeGraph

/-- What may be asked for. Sets are numbered in the order in which they are made. -/
inductive Request where
  /-- A set of some constraints, for a new variable. -/
  | make (level : Level) (cs : List Constraint)
  | add (set : Nat) (c : Constraint)
  /-- A copy of a set, for a new variable. What has to be listed for it is listed in
  an order that was drawn. -/
  | copy (set : Nat) (level : Option Level) (draw : Nat)

/-- A way to keep constraint sets. -/
structure Keeping (β : Type) where
  make : List Constraint → β
  add : β → Constraint → β
  copy : Nat → β → β

namespace Keeping

variable {β γ : Type} {K : Keeping β} {L : Keeping γ} {R : β → γ → Prop}
  {r : Request} {i : Nat}

/-- What becomes of the sets by a request. A set that was never made is taken to be
empty. -/
def perform (K : Keeping β) (sets : List β) : Request → List β
  | .make _ cs => sets ++ [K.make cs]
  | .add i c => sets.modify i (K.add · c)
  | .copy i _ draw => sets ++ [K.copy draw (sets.getD i (K.make []))]

/-- The sets after some requests. -/
def run (K : Keeping β) (requests : List Request) : List β := requests.foldl K.perform []

/-- Each set is what it was given, in turn. -/
def log : Keeping (List Constraint) where
  make cs := cs
  add cs c := cs ++ [c]
  copy _ cs := cs

/-! ## One way and another -/

/-- Whatever is done with sets respects a relation between two ways to keep them. -/
structure Agrees (K : Keeping β) (L : Keeping γ) (R : β → γ → Prop) : Prop where
  make : ∀ cs, R (K.make cs) (L.make cs)
  add : ∀ {b : β} {b' : γ} c, R b b' → R (K.add b c) (L.add b' c)
  copy : ∀ {b : β} {b' : γ} draw, R b b' → R (K.copy draw b) (L.copy draw b')

theorem Agrees.perform (h : K.Agrees L R) {sets : List β} {sets' : List γ}
    (hsets : List.Forall₂ R sets sets') (r : Request) :
    List.Forall₂ R (K.perform sets r) (L.perform sets' r) := by
  -- Sets are found by counting, so where one is changed or copied the induction is on
  -- both lists and the number.
  cases r with
  | make level cs => exact List.rel_append hsets (.cons (h.make cs) .nil)
  | add i c =>
    induction hsets generalizing i with
    | nil => simp [Keeping.perform]
    | cons hab hsets ih =>
      cases i with
      | zero => exact .cons (h.add c hab) hsets
      | succ i => exact .cons hab (ih i)
  | copy i level draw =>
    have hget : R (sets.getD i (K.make [])) (sets'.getD i (L.make [])) := by
      induction hsets generalizing i with
      | nil => exact h.make []
      | cons hab hsets ih =>
        cases i with
        | zero => exact hab
        | succ i => exact ih i
    exact List.rel_append hsets (.cons (h.copy draw hget) .nil)

/-- **A whole history keeps the sets together.** -/
theorem Agrees.run (h : K.Agrees L R) (requests : List Request) :
    List.Forall₂ R (K.run requests) (L.run requests) := by
  induction requests using List.reverseRecOn with
  | nil => exact .nil
  | append_singleton requests r ih =>
    rw [Keeping.run, Keeping.run, List.foldl_concat, List.foldl_concat]
    exact h.perform ih r

theorem Agrees.exists_of_run (h : K.Agrees L R) {requests : List Request} {b : β}
    (hb : (K.run requests)[i]? = some b) :
    ∃ b', (L.run requests)[i]? = some b' ∧ R b b' := by
  obtain ⟨hi, rfl⟩ := List.getElem?_eq_some_iff.1 hb
  have hrun := h.run requests
  have hi' : i < (L.run requests).length := hrun.length_eq ▸ hi
  exact ⟨(L.run requests)[i], List.getElem?_eq_getElem hi', hrun.get hi hi'⟩

/-! ## What stays -/

theorem length_le_perform (sets : List β) (r : Request) :
    sets.length ≤ (K.perform sets r).length := by
  cases r <;> simp [perform]

/-- A request leaves all sets as they are but one that it adds to. -/
theorem getElem?_perform {sets : List β} (hi : i < sets.length) (hr : ∀ c, r ≠ .add i c) :
    (K.perform sets r)[i]? = sets[i]? := by
  cases r with
  | make level cs => exact List.getElem?_append_left hi
  | add j c =>
    have hji : j ≠ i := fun h => hr c (h ▸ rfl)
    simp [perform, hji]
  | copy j level draw => exact List.getElem?_append_left hi

/-- **A set to which nothing is added stays as it is.** -/
theorem getElem?_foldl_perform {sets : List β} (hi : i < sets.length)
    {later : List Request} (hlater : ∀ c, .add i c ∉ later) :
    (later.foldl K.perform sets)[i]? = sets[i]? := by
  induction later generalizing sets with
  | nil => rfl
  | cons r later ih =>
    rw [List.foldl_cons, ih (hi.trans_le (length_le_perform sets r)) fun c hc =>
      hlater c (List.mem_cons_of_mem r hc)]
    exact getElem?_perform hi fun c hr => hlater c (hr ▸ List.mem_cons_self)

end Keeping

theorem ConstraintSet.ofList_concat (given : List Constraint) (c : Constraint) :
    ofList (given ++ [c]) = (ofList given).insertNew c := by
  rw [ofList, List.foldl_concat, ofList]

/-! ## Tables -/

/-- Sets that are kept in hash tables: where the table of each of them is, and the
tables. -/
structure HashTables.Shelf (H : HashTables) where
  refs : List TableRef := []
  heap : H.Heap := {}

namespace HashTables.Shelf

variable {H : HashTables} {k : H.Shelf} {logs : List (List Constraint)} {i : Nat}

/-- Keep what was made as one more set. -/
def put (k : H.Shelf) (made : TableRef × H.Heap) : H.Shelf := ⟨k.refs ++ [made.1], made.2⟩

/-- A request for a set in a table. A set that was never made is taken to be empty. -/
def serve (k : H.Shelf) : Request → H.Shelf
  | .make _ cs => k.put (k.heap.make cs)
  | .add i c => match k.refs[i]? with
    | some r => { k with heap := (k.heap.add r c).2 }
    | none => k
  | .copy i _ draw => match k.refs[i]? with
    | some r => k.put (k.heap.copy draw r)
    | none => k.put (k.heap.make [])

/-- The tables after some requests. -/
def serveAll (H : HashTables) (requests : List Request) : H.Shelf :=
  requests.foldl serve {}

/-- **Each set has a table of its own**, which holds what the set was given. -/
structure Keeps (k : H.Shelf) (logs : List (List Constraint)) : Prop where
  length : k.refs.length = logs.length
  nodup : k.refs.Nodup
  holds : ∀ (i : Nat) r given, k.refs[i]? = some r → logs[i]? = some given →
    ∃ t, k.heap.table? r = some t ∧ H.Holds t (.ofList given)

namespace Keeps

theorem exists_table (h : k.Keeps logs) {given : List Constraint}
    (hi : logs[i]? = some given) :
    ∃ r t, k.refs[i]? = some r ∧ k.heap.table? r = some t ∧
      H.Holds t (.ofList given) := by
  have hlt : i < k.refs.length := h.length ▸ (List.getElem?_eq_some_iff.1 hi).1
  obtain ⟨t, ht, hholds⟩ := h.holds i _ given (List.getElem?_eq_getElem hlt) hi
  exact ⟨_, t, List.getElem?_eq_getElem hlt, ht, hholds⟩

theorem exists_log (h : k.Keeps logs) {r : TableRef} (hr : k.refs[i]? = some r) :
    ∃ given t, logs[i]? = some given ∧ k.heap.table? r = some t ∧
      H.Holds t (.ofList given) := by
  have hlt : i < logs.length := h.length ▸ (List.getElem?_eq_some_iff.1 hr).1
  obtain ⟨t, ht, hholds⟩ := h.holds i r _ hr (List.getElem?_eq_getElem hlt)
  exact ⟨_, t, List.getElem?_eq_getElem hlt, ht, hholds⟩

theorem length_le (h : k.Keeps logs) (hr : k.refs[i]? = none) : logs.length ≤ i :=
  h.length ▸ List.getElem?_eq_none_iff.1 hr

/-- **A set that is made** has a table that no other set has. -/
theorem make (h : k.Keeps logs) {cs given : List Constraint}
    (hnew : H.Holds (H.ofList cs) (.ofList given)) :
    (k.put (k.heap.make cs)).Keeps (logs ++ [given]) := by
  have hold : ∀ (i : Nat) r, k.refs[i]? = some r → r ≠ (k.heap.make cs).1 := by
    intro i r hr
    obtain ⟨-, t, -, ht, -⟩ := h.exists_log hr
    rw [Heap.make_fst]
    exact (Heap.lt_of_table? ht).ne
  refine ⟨by simp [put, h.length], ?_, fun i r given' hr hgiven => ?_⟩
  · refine List.nodup_append.2 ⟨h.nodup, List.nodup_singleton _, fun r hr r' hr' => ?_⟩
    obtain ⟨i, hi⟩ := List.mem_iff_getElem?.1 hr
    rw [List.mem_singleton.1 hr']
    exact hold i r hi
  · change ∃ t, (k.heap.make cs).2.table? r = some t ∧ _
    rw [Heap.table?_make]
    by_cases hi : i < k.refs.length
    · rw [put, List.getElem?_append_left hi] at hr
      rw [List.getElem?_append_left (h.length ▸ hi)] at hgiven
      rw [if_neg (hold i r hr)]
      exact h.holds i r given' hr hgiven
    · have hlt : i < k.refs.length + 1 := by
        simpa [put] using (List.getElem?_eq_some_iff.1 hr).1
      obtain rfl : i = k.refs.length := by omega
      rw [put, List.getElem?_concat_length] at hr
      rw [h.length, List.getElem?_concat_length] at hgiven
      cases hr
      cases hgiven
      exact ⟨_, if_pos rfl, hnew⟩

/-- **A constraint that is added to a set** goes into its table, which no other set
has. -/
theorem add (hH : H.Lawful) (h : k.Keeps logs) {r : TableRef}
    (hr : k.refs[i]? = some r) (c : Constraint) :
    ({ k with heap := (k.heap.add r c).2 } : H.Shelf).Keeps
      (logs.modify i (· ++ [c])) := by
  refine ⟨by rw [List.length_modify]; exact h.length, h.nodup,
    fun j r' given' hr' hgiven' => ?_⟩
  by_cases hij : i = j
  · subst hij
    obtain ⟨given, t, hgiven, ht, hholds⟩ := h.exists_log hr
    rw [List.getElem?_modify_eq, hgiven] at hgiven'
    cases hr.symm.trans hr'
    cases hgiven'
    exact ⟨_, Heap.table?_add ht c,
      ConstraintSet.ofList_concat given c ▸ hH.holds_add hholds c⟩
  · have hne : r ≠ r' := by
      rintro rfl
      exact hij ((List.getElem?_inj (List.getElem?_eq_some_iff.1 hr).1 h.nodup).1
        (hr.trans hr'.symm))
    rw [List.getElem?_modify_ne _ _ hij] at hgiven'
    obtain ⟨t, ht, hholds⟩ := h.holds j r' given' hr' hgiven'
    exact ⟨t, (Heap.table?_add_of_ne hne c).trans ht, hholds⟩

/-- **A request does to the tables** what it does to the lists of what the sets were
given. -/
theorem serve (hH : H.Lawful) (h : k.Keeps logs) (r : Request) :
    (k.serve r).Keeps (Keeping.log.perform logs r) := by
  cases r with
  | make level cs => exact h.make (hH.holds_ofList cs)
  | add i c =>
    rw [Shelf.serve, Keeping.perform]
    cases hr : k.refs[i]? with
    | some r => exact h.add hH hr c
    | none =>
      rw [List.modify_eq_self (h.length_le hr)]
      exact h
  | copy i level draw =>
    rw [Shelf.serve, Keeping.perform]
    cases hr : k.refs[i]? with
    | some r =>
      obtain ⟨given, t, hgiven, ht, hholds⟩ := h.exists_log hr
      have hlisted : k.heap.copy draw r = k.heap.make (H.list draw t) := by
        rw [Heap.copy, ht]; rfl
      dsimp only
      rw [hlisted, List.getD_eq_getElem?_getD, hgiven]
      exact h.make (hH.holds_listed hholds draw)
    | none =>
      rw [List.getD_eq_getElem?_getD, List.getElem?_eq_none (h.length_le hr)]
      exact h.make (hH.holds_ofList [])

end Keeps

/-- **A whole history** leaves each set with a table of its own. -/
theorem keeps_serveAll (hH : H.Lawful) (requests : List Request) :
    (serveAll H requests).Keeps (Keeping.log.run requests) := by
  induction requests using List.reverseRecOn with
  | nil => exact ⟨rfl, .nil, fun _ _ _ hr => by cases hr⟩
  | append_singleton requests r ih =>
    rw [serveAll, Keeping.run, List.foldl_concat, List.foldl_concat]
    exact ih.serve hH r

end HashTables.Shelf

/-! ## Variables -/

namespace Store

variable {s : Store}

/-- A request for a set of a variable. -/
def serve (s : Store) : Request → Store
  | .make level cs => (s.newVar level (.ofList cs)).2
  | .add v c => s.constrain v c
  | .copy v level _ => (Copying.drawVar { level } v { store := s }).2.store

/-- The store after some requests. -/
def serveAll (requests : List Request) : Store := requests.foldl serve .empty

/-- The constraint sets of all variables. -/
def constraintSets (s : Store) : List ConstraintSet := s.vars.toList.map Var.constraints

theorem constraints_var (s : Store) (v : VarId) :
    (s.var v).constraints = s.constraintSets.getD v .empty := by
  rw [var, constraintSets, Array.getD_eq_getD_getElem?,
    List.getD_eq_getElem?_getD, List.getElem?_map, Array.getElem?_toList]
  cases s.vars[v]? <;> rfl

/-- Sets of variables are kept in order, and a copy is the same set. -/
def keeping : Keeping ConstraintSet where
  make := .ofList
  add := Keyed.insertNew
  copy _ cs := cs

/-- **Requests act on the sets of variables alone.** -/
theorem constraintSets_serve (s : Store) (r : Request) :
    (s.serve r).constraintSets = keeping.perform s.constraintSets r := by
  cases r with
  | make level cs => simp [serve, newVar, constraintSets, Keeping.perform, keeping]
  | add v c =>
    refine List.ext_getElem? fun w => ?_
    simp only [serve, constrain, constraintSets, Keeping.perform, keeping,
      Array.toList_modify, List.getElem?_map, List.getElem?_modify]
    cases s.vars.toList[w]? with
    | none => rfl
    | some x => by_cases hvw : v = w <;> simp [hvw]
  | copy v level draw =>
    have hset : (s.var v).constraints = s.constraintSets.getD v (.ofList []) :=
      s.constraints_var v
    rw [Keeping.perform, keeping, ← hset]
    simp [serve, Copying.drawVar, newVar, constraintSets]

theorem constraintSets_serveAll (requests : List Request) :
    (serveAll requests).constraintSets = keeping.run requests := by
  induction requests using List.reverseRecOn with
  | nil => rfl
  | append_singleton requests r ih =>
    rw [serveAll, Keeping.run, List.foldl_concat, List.foldl_concat, constraintSets_serve]
    rw [serveAll, Keeping.run] at ih
    rw [ih]

theorem log_agrees : Keeping.log.Agrees keeping fun given cs => cs = .ofList given where
  make _ := rfl
  add c h := by
    rw [h]
    exact (ConstraintSet.ofList_concat _ c).symm
  copy _ h := h

end Store

/-! ## Sets over time -/

variable {H : HashTables} {requests later : List Request} {i : Nat}
  {given : List Constraint}

/-- A set after some requests: a variable has it, and the table behind its reference
shows it. -/
structure SetAfter (H : HashTables) (requests : List Request) (i : Nat)
    (cs : ConstraintSet) : Prop where
  var : (Store.serveAll requests).vars[i]?.map Var.constraints = some cs
  table : ∃ r t, (HashTables.Shelf.serveAll H requests).refs[i]? = some r ∧
    (HashTables.Shelf.serveAll H requests).heap.table? r = some t ∧ H.Shows t cs

/-- **What a set was given decides what it is.** -/
theorem setAfter_of_log (hH : H.Lawful)
    (hi : (Keeping.log.run requests)[i]? = some given) :
    SetAfter H requests i (.ofList given) := by
  obtain ⟨r, t, hr, ht, hholds⟩ :=
    (HashTables.Shelf.keeps_serveAll hH requests).exists_table hi
  obtain ⟨cs, hcs, rfl⟩ := Store.log_agrees.exists_of_run hi
  rw [← Store.constraintSets_serveAll, Store.constraintSets, List.getElem?_map,
    Array.getElem?_toList] at hcs
  exact ⟨hcs, r, t, hr, ht, hH.shows hholds⟩

/-- A copy was given what the original was given before. -/
theorem log_copy (hi : (Keeping.log.run requests)[i]? = some given)
    (level : Option Level) (draw : Nat) :
    Keeping.log.run (requests ++ .copy i level draw :: later) =
      later.foldl Keeping.log.perform (Keeping.log.run requests ++ [given]) := by
  have hget : (Keeping.log.run requests).getD i [] = given := by
    rw [List.getD_eq_getElem?_getD, hi, Option.getD_some]
  have hcopy : Keeping.log.perform (Keeping.log.run requests) (.copy i level draw) =
      Keeping.log.run requests ++ [(Keeping.log.run requests).getD i []] := rfl
  rw [Keeping.run, List.foldl_append, List.foldl_cons, ← Keeping.run, hcopy, hget]

/-- **Constraint sets are maps from kinds to constraints in which the first constraint
wins.** After any requests each set is the map of the constraints that it was given.
A variable has this set, and a table shows it, whatever order its listings take.
A copy is the same set. It stays so until something is added to it, whatever is added
to the original, and the original stays what it is, whatever is added to the copy. Of
two sets with equally many constraints the one has the kinds of the other as soon as
it has all of them. -/
theorem constraints_firstWins (hH : H.Lawful) (requests : List Request)
    (hi : (Keeping.log.run requests)[i]? = some given) :
    let cs := ConstraintSet.ofList given
    let copy := (Keeping.log.run requests).length
    SetAfter H requests i cs ∧ cs.KeepsFirst given ∧
      (∀ level draw later, (∀ c, .add copy c ∉ later) →
        SetAfter H (requests ++ .copy i level draw :: later) copy cs) ∧
      (∀ level draw later, (∀ c, .add i c ∉ later) →
        SetAfter H (requests ++ .copy i level draw :: later) i cs) ∧
      ∀ b : ConstraintSet, cs.size = b.size → (∀ c ∈ cs.items, b.contains c.kind = true) →
        ∀ kind, cs.contains kind = true ↔ b.contains kind = true := by
  intro cs copy
  have hlt : i < copy := (List.getElem?_eq_some_iff.1 hi).1
  have hlen : (Keeping.log.run requests ++ [given]).length = copy + 1 :=
    List.length_append
  refine ⟨setAfter_of_log hH hi, ConstraintSet.keepsFirst_ofList given, ?_, ?_, ?_⟩
  · intro level draw later hlater
    apply setAfter_of_log hH
    rw [log_copy hi, Keeping.getElem?_foldl_perform (by omega) hlater,
      List.getElem?_concat_length]
  · intro level draw later hlater
    apply setAfter_of_log hH
    rw [log_copy hi, Keeping.getElem?_foldl_perform (by omega) hlater,
      List.getElem?_append_left hlt, hi]
  · intro b hsize hkinds
    apply (ConstraintSet.sameKinds_iff cs b).1
    simpa [ConstraintSet.sameKinds, hsize] using hkinds

/-- The second constraint of a kind is refused, and what is added to the set or to its
copy does not reach the other. -/
theorem constraints_firstWins_copied :
    let other : Constraint := { kind := "ord", description := "another order" }
    let requests : List Request := [.make (.depth 1) [.ord, .num], .add 0 other]
    let cs := ConstraintSet.ofList [.ord, .num, other]
    HashTables.standard.Lawful ∧
      (Keeping.log.run requests)[0]? = some [.ord, .num, other] ∧
      cs.items = [.num, .ord] ∧ (cs.add other).1 = false ∧ (cs.add .record).1 = true ∧
      cs.KeepsFirst [.ord, .num, other] ∧ SetAfter .standard requests 0 cs ∧
      SetAfter .standard (requests ++ [.copy 0 none 1, .add 0 .record]) 1 cs ∧
      SetAfter .standard (requests ++ [.copy 0 none 1, .add 1 .record,
        .make .unbounded [], .add 1 other]) 0 cs ∧
      ∀ kind, cs.contains kind = true ↔
        (ConstraintSet.ofList [.num, other]).contains kind = true := by
  intro other requests cs
  have hlog : (Keeping.log.run requests)[0]? = some [.ord, .num, other] := rfl
  obtain ⟨hset, hfirst, hcopy, horiginal, hkinds⟩ :=
    constraints_firstWins HashTables.standard_lawful requests hlog
  refine ⟨HashTables.standard_lawful, hlog, by decide, by decide, by decide,
    hfirst, hset, ?_, ?_, hkinds _ (by decide) (by decide)⟩
  · exact hcopy none 1 [.add 0 .record]
      (by simp [requests, Keeping.run, Keeping.perform, Keeping.log])
  · exact horiginal none 1 [.add 1 .record, .make .unbounded [], .add 1 other] (by simp)

end TypeGraph
