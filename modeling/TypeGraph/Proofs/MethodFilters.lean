import TypeGraph.Proofs.VisibleMethods

/-!
# Layers that are taken off and put elsewhere

`filterMeths` leaves out layers by their names, and `remeth` puts the layers of one
term around another; both work on all layers, the shadowed ones included. What can be
seen follows the same rules all the same: a filter acts on the visible methods as it
does on the layers, since all layers of a name stay or go together, and the visible
methods of the one term come before those of the other.
-/

namespace TypeGraph.Store

open Method

variable {s : Store} {t u : Ty}

/-- The layers of a term that a filter leaves, on the term that they stood on. -/
theorem HasBase.layers_filterMeths (h : s.HasBase t) (excluded : String → Bool) :
    s.layers (s.filterMeths excluded t) =
      ((s.layers t).1.filter fun l => !excluded l.method.name, (s.layers t).2) := by
  obtain ⟨hbase, hnone, -⟩ := h.base_bare
  have hwrap := layers_wrap hbase ((s.layers t).1.filter fun l => !excluded l.method.name)
  rw [hnone, List.append_nil] at hwrap
  exact hwrap

/-- **A filter leaves the visible methods that are not excluded**, and the base. -/
theorem HasBase.splitMeths_filterMeths (h : s.HasBase t) (excluded : String → Bool) :
    s.splitMeths (s.filterMeths excluded t) =
      ((s.splitMeths t).1.filter fun m => !excluded m.name, (s.splitMeths t).2) := by
  have hkeep :=
    filter_firstOfEach (fun name => !excluded name) ((s.layers t).1.map (·.method))
  rw [splitMeths_eq, splitMeths_eq, demeth, demeth, h.layers_filterMeths excluded]
  refine congrArg (·, s.deref (s.layers t).2) (Eq.trans ?_ hkeep.symm)
  rw [List.filter_map]
  rfl

/-- Two filters one after the other exclude what the one or the other does. -/
theorem HasBase.filterMeths_filterMeths (h : s.HasBase t)
    (excluded excluded' : String → Bool) :
    s.filterMeths excluded' (s.filterMeths excluded t) =
      s.filterMeths (fun name => excluded name || excluded' name) t := by
  have hlayers := h.layers_filterMeths excluded
  rw [filterMeths, hlayers]
  change Layer.wrap (((s.layers t).1.filter _).filter _) _ =
    Layer.wrap ((s.layers t).1.filter _) _
  rw [List.filter_filter]
  refine congrArg (Layer.wrap · (s.layers t).2) (List.filter_congr fun l _ => ?_)
  rw [Bool.not_or, Bool.and_comm]

/-- **The visible methods of the one term come before those of the other**, and the
base is that of the other. -/
theorem HasBase.splitMeths_remeth (h : s.HasBase u) (t : Ty) :
    s.splitMeths (s.remeth t u) = (firstOfEach ((s.splitMeths t).1 ++ (s.splitMeths u).1),
      (s.splitMeths u).2) := by
  rw [remeth, splitMeths_wrap h, splitMeths_eq s t, firstOfEach_append_left]

/-- **Filters and changes of the base respect what can be seen of a term.** A filter
leaves the visible methods that it does not exclude, so it uncovers none, and the
base; and two filters are one. The layers of a term, put around any type with a base,
come before the methods of that type; put around the base of the term itself, they
make up the term again. -/
theorem filterMeths_remeth_homomorphic (ha : s.AcyclicBelow t) :
    (∀ excluded, s.splitMeths (s.filterMeths excluded t) =
        ((s.splitMeths t).1.filter fun m => !excluded m.name, (s.splitMeths t).2)) ∧
      (∀ excluded excluded', s.filterMeths excluded' (s.filterMeths excluded t) =
        s.filterMeths (fun name => excluded name || excluded' name) t) ∧
      (∀ u, s.HasBase u → s.splitMeths (s.remeth t u) =
        (firstOfEach ((s.splitMeths t).1 ++ (s.splitMeths u).1), (s.splitMeths u).2)) ∧
      (s.WellFormed → s.Scoped t → s.Complete t →
        s.isomorphic (s.remeth t (s.demeth t)) t = true) :=
  ⟨ha.hasBase.splitMeths_filterMeths, ha.hasBase.filterMeths_filterMeths,
    fun _ hu => hu.splitMeths_remeth t, fun hw ht hc => ha.isomorphic_wrap hw ht hc rfl⟩

/-- The outer one of two methods of a name is left out, and the inner one does not
appear. A method with a cyclic type is hidden by one of the term. With its own base
the term is complete again, hidden layer and all. -/
theorem filterMeths_remeth_homomorphic_shadowed :
    let other := cyclicFieldExample.addMeth { name := "c", scheme := .mono .unit }
    ((layeredExample.splitMeths (layeredExample.filterMeths (· == "a")
        layeredExampleTerm)).1.map (·.name)) = ["b"] ∧
      ((layeredExample.splitMeths (layeredExample.remeth layeredExampleTerm other)).1.map
          fun m => (m.name, m.doc)) =
        [("a", "outer"), ("b", ""), ("c", "")] ∧
      layeredExample.isomorphic (layeredExample.remeth layeredExampleTerm
        (layeredExample.demeth layeredExampleTerm))
        layeredExampleTerm = true := by
  intro other
  have hbase : layeredExample.HasBase other := cyclicFieldExample_hasBase.node none _
  obtain ⟨hfilter, -, hremeth, hiso⟩ :=
    filterMeths_remeth_homomorphic layeredExample_acyclicBelow.1
  refine ⟨?_, ?_,
    hiso (by decide) (by decide) (complete_of_everywhere (by decide) (by decide))⟩
  · rw [hfilter]
    decide
  · rw [hremeth other hbase]
    decide

end TypeGraph.Store
