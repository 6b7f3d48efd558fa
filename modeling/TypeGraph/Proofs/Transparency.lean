import TypeGraph.Proofs.MirrorText
import TypeGraph.Proofs.OrderChecks
import TypeGraph.Proofs.Renaming

/-!
# Transparent links

Links are transparent. Nothing that is read off a term tells a linked cell from what
it stands for: a term and its expansion, in which all links are replaced, read the
same in every respect (`Store.Transparent`). Positions are the exception, also those
within errors, since an expansion has the positions of what stands behind the links.

An expansion mirrors its term with no variable or cell renamed (`expand_mirror`),
which settles all functions that only read. Checks of constraints also write: they
come to the same variables in the same order.
-/

namespace TypeGraph

namespace Store

variable {s : Store} {t : Ty}

/-! ## Expansions as mirrors -/

/-- An expansion stands for itself. -/
theorem deref_expand (hs : s.Acyclic) (t : Ty) : s.deref (s.expand t) = s.expand t :=
  deref_settled fun _ hc => (expand_unlinked hs t).here _ (Shape.mem_cells.2 hc)

theorem expand_deref (hs : s.Acyclic) (t : Ty) : s.expand (s.deref t) = s.expand t := by
  rw [expand_eq hs, expand_eq hs t, expandLayer, expandLayer, view, view, deref_deref hs]

/-- **An expansion mirrors its term**, in the same store and with all names kept. -/
theorem expand_mirror (hs : s.Acyclic) :
    Mirror s s (fun _ => True) Set.univ s.expand id id where
  settled _ _ := trivial
  subterm _ _ _ _ := trivial
  deref t _ := by rw [deref_expand hs, expand_deref hs]
  shape t _ := by rw [expand_deref hs, shape_expand hs, Shape.relabel_id]
  freeVar _ _ _ _ := Option.map_id'.symm
  binder_known _ _ _ _ := trivial
  free_known _ _ _ _ _ _ := trivial
  injective := Set.injOn_id _

/-- There is nothing left to expand in an expansion. -/
theorem expand_expand (hs : s.Acyclic) (t : Ty) : s.expand (s.expand t) = s.expand t := by
  induction t using viewInduction hs with
  | layer t ih =>
    have hview : s.view (s.expand t) = (s.view t).map s.expand := by
      rw [view, deref_expand hs, shape_expand hs]
    have hsame : ((s.view t).map s.expand).map s.expand = (s.view t).map s.expand := by
      rw [Shape.map_map]
      exact Shape.map_congr ih
    rw [expand_eq hs (s.expand t), expandLayer, hview, hsame,
      deref_expand hs, expand_eq hs t]
    rfl

theorem demeth_expand (hs : s.Acyclic) (t : Ty) :
    s.demeth (s.expand t) = s.expand (s.demeth t) :=
  congrArg Prod.snd ((expand_mirror hs).splitMeths hs hs (t := t) trivial)

/-- A base that stands for a variable has no links to replace. -/
theorem expand_demeth_of_var (hs : s.Acyclic) {v : VarId}
    (h : s.varOf? (s.demeth t) = some v) :
    s.expand (s.demeth t) = s.demeth t := by
  have hbase : s.deref (s.demeth t) = s.demeth t := deref_deref hs _
  rw [expand_eq hs, expandLayer, view, hbase]
  rw [varOf?, view, hbase] at h
  generalize s.demeth t = base at *
  obtain ⟨pos, x⟩ := base
  cases x with
  | cell c => rfl
  | _ => cases h

/-- The base of a term with methods is not a linked cell. -/
theorem expand_base (hs : s.Acyclic) (t : Ty) :
    (s.expand (s.splitMeths t).2).shape = (s.splitMeths t).2.shape.map s.expand := by
  rw [shape_expand hs]
  exact congrArg (fun u : Ty => u.shape.map s.expand) (deref_deref hs (s.layers t).2)

theorem ordParts_expand (hs : s.Acyclic) (t : Ty) :
    s.ordParts (s.expand t) = (s.ordParts t).map (Prod.map id (List.map s.expand)) := by
  have hbase := expand_base hs t
  have hsplit := (expand_mirror hs).splitMeths hs hs (t := t) trivial
  rw [ordParts, ordParts, hsplit]
  generalize s.splitMeths t = split at *
  obtain ⟨methods, base⟩ := split
  have hfields : (methods.map (Method.image id s.expand)).map (·.scheme.type) =
      (methods.map (·.scheme.type)).map s.expand := by
    rw [List.map_map, List.map_map]
    rfl
  dsimp only at hbase ⊢
  rw [hbase, hfields]
  cases base.shape with
  | cell c =>
    dsimp only [Shape.map]
    cases s.freeVar? c <;> rfl
  | custom kind held => cases kind <;> rfl
  | tuple elems => cases elems <;> rfl
  | _ => rfl

end Store

/-! ## Checks -/

namespace Demand

open Store

variable {s : Store} {sat : Satisfier (StateM Store)}

theorem num_expand (hs : s.Acyclic) (sat : Satisfier (StateM Store)) (t : Ty) :
    num.outcome sat (s.expand t) s = num.outcome sat t s := by
  have hvar := (expand_mirror hs).varOf? (t := s.demeth t) trivial
  have hground := (expand_mirror hs).isGround (t := s.demeth t) trivial ["int", "float"]
  rw [Option.map_id, id] at hvar
  refine outcome_eq ?_ ?_ <;>
  · rw [num]
    dsimp only
    rw [run_getThe_bind, run_getThe_bind, demeth_expand hs, hvar, hground]
    cases s.varOf? (s.demeth t) with
    | some v => rfl
    | none => cases s.isGround (s.demeth t) ["int", "float"] <;> rfl

theorem record_expand (hs : s.Acyclic) (sat : Satisfier (StateM Store)) (t : Ty) :
    record.outcome sat (s.expand t) s = record.outcome sat t s := by
  have hunit := (expand_mirror hs).isUnit (t := s.demeth t) trivial
  have hvar := (expand_mirror hs).varOf? (t := s.demeth t) trivial
  rw [Option.map_id, id] at hvar
  refine outcome_eq ?_ ?_ <;>
  · rw [record]
    dsimp only
    rw [run_getThe_bind, run_getThe_bind, demeth_expand hs, hunit, hvar]
    cases s.isUnit (s.demeth t) with
    | true => rfl
    | false =>
      cases hx : s.varOf? (s.demeth t) with
      | some v =>
        -- The satisfier is asked about one and the same node.
        rw [expand_demeth_of_var hs hx]
      | none => rfl

/-- The order constraint makes no difference between a term and its expansion. -/
theorem ord_expand (hs : s.Acyclic) (hsat : Recursive ord sat) (t : Ty) :
    Agree s Error.unplaced (ord.check sat t) (ord.check sat (s.expand t)) := by
  induction t using weightInduction s with
  | lighter t ih =>
    refine Agree.check_unplaced
      (Agree.ord_satisfied (ordParts_expand hs t) rfl fun v? parts hp u hu s₁ hs₁ => ?_)
    rw [hsat s₁ (hs.of_cells hs₁) u, hsat s₁ (hs.of_cells hs₁) (s.expand u)]
    exact ih u (weight_ordParts hs hp hu) s₁ hs₁

end Demand

/-! ## Transparency -/

namespace Store

variable {s : Store}

/-- **The term reads as its expansion does.** The expansion is the term with its links
replaced, layer by layer. Checks are compared by their outcomes, which include all
that they write into the store. -/
structure Transparent (s : Store) (t : Ty) : Prop where
  layer : (s.expand t).shape = (s.view t).map s.expand
  unlinked : (s.expand t).Everywhere fun x => ∀ c ∈ x.cells, s.link? c = none
  render : s.render (s.expand t) = s.render t
  freeVars : s.freeVars (s.expand t) = s.freeVars t
  occurs : ∀ v, s.occurs v (s.expand t) = s.occurs v t
  isomorphic : ∀ u, s.isomorphic (s.expand t) (s.expand u) = s.isomorphic t u
  hasMeth : ∀ name, s.hasMeth (s.expand t) name = s.hasMeth t name
  /-- What is found at the end of a path is the same scheme, expanded. -/
  invokePath : ∀ path, (s.invokePath (s.expand t) path).mapError Error.unplaced =
    ((s.invokePath t path).map (Scheme.image id s.expand)).mapError Error.unplaced
  splitMeths : s.splitMeths (s.expand t) =
    ((s.splitMeths t).1.map (Method.image id s.expand), s.expand (s.splitMeths t).2)
  isUnit : s.isUnit (s.expand t) = s.isUnit t
  isGround : ∀ names, s.isGround (s.expand t) names = s.isGround t names
  varOf? : s.varOf? (s.expand t) = s.varOf? t
  num : ∀ sat, Demand.num.outcome sat (s.expand t) s = Demand.num.outcome sat t s
  ord : ∀ sat, Demand.Recursive Demand.ord sat →
    Demand.ord.outcome sat (s.expand t) s = Demand.ord.outcome sat t s
  record : ∀ sat, Demand.record.outcome sat (s.expand t) s = Demand.record.outcome sat t s

/-- Terms are isomorphic just when their expansions are. -/
theorem isomorphic_expand (hs : s.Acyclic) (t u : Ty) :
    s.isomorphic (s.expand t) (s.expand u) = s.isomorphic t u := by
  -- Two terms are compared by their outlines, which are outlines of expansions
  -- already.
  have houtline : ∀ t, s.outline (s.expand t) = s.outline t := fun t => by
    rw [outline, outline, expand_expand hs]
  rw [Bool.eq_iff_iff, isomorphic_iff_fair hs, isomorphic_iff_fair hs, houtline, houtline]

/-- **Links are transparent.** In an acyclic store nothing that is read off a term
distinguishes it from its expansion; and the order constraint, which is checked
through a recursive satisfier, has one. -/
theorem expand_transparent (hs : s.Acyclic) (t : Ty) :
    s.Transparent t ∧
      ∀ subtype, ∃ sat, sat.subtype = subtype ∧ Demand.Recursive Demand.ord sat := by
  have h := expand_mirror hs
  refine ⟨?_, fun subtype => ⟨_, rfl, Demand.ord_throughout subtype⟩⟩
  exact {
    layer := shape_expand hs t
    unlinked := expand_unlinked hs t
    render := h.render hs hs trivial fun _ _ => rfl
    freeVars := (h.freeVars hs hs trivial).trans (List.map_id _)
    occurs := fun v => h.occurs hs hs trivial (v := v) trivial
    isomorphic := isomorphic_expand hs t
    hasMeth := h.hasMeth hs hs trivial
    invokePath := h.invokePath hs hs trivial
    splitMeths := h.splitMeths hs hs trivial
    isUnit := h.isUnit trivial
    isGround := h.isGround trivial
    varOf? := (h.varOf? trivial).trans Option.map_id'
    num := fun sat => Demand.num_expand hs sat t
    ord := fun sat hsat => by
      obtain ⟨-, hstore, hanswer⟩ := Demand.ord_expand hs hsat t s rfl
      exact Prod.ext hanswer hstore
    record := fun sat => Demand.record_expand hs sat t }

/-- Links to links: of a field and of what stands below it, within the scheme of the
field and within a custom type. -/
def chainedExample : Store :=
  ⟨#[⟨.depth 1, .ofList [.num]⟩, ⟨.unbounded, .empty⟩],
    #[.free 0, .link .covariant (.of (.cell 0)),
      .link .invariant (.of (.list .array (.of (.cell 1)))),
        .link .covariant (.of (.meth
          { name := "m", scheme := ⟨[1], .of (.tuple [.of (.cell 2), .of (.cell 6)])⟩ }
        (.of (.cell 5)))),
      .link .covariant (.of (.custom (.applied "k") [.of (.cell 1), .of (.cell 6)])),
      .link .covariant (.of (.cell 4)), .free 1]⟩

/-- A field on top of a linked cell, behind which there is another field. -/
def chainedExampleTerm : Ty :=
  .of (.meth { name := "n", scheme := ⟨[], .of (.cell 1)⟩ } (.of (.cell 3)))

theorem expand_transparent_chained :
    chainedExample.Transparent chainedExampleTerm ∧
      ∀ subtype, ∃ sat, sat.subtype = subtype ∧ Demand.Recursive Demand.ord sat :=
  expand_transparent
    (acyclic_of_rank (fun c => if c = 3 then 6 else if c = 6 then 0 else c) (by decide)) _

end Store

end TypeGraph
