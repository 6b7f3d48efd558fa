import TypeGraph.Proofs.CopiedText
import TypeGraph.Proofs.IsomorphismClasses
import TypeGraph.Proofs.MethodFreeForm

/-!
# Stripping and isomorphism

Stripping respects isomorphism. The comparison of two terms fixes its renaming on the
way, and much of that may happen in methods, which are gone when the terms are
stripped: the comparison of what is left meets the variables in another order and asks
for constraints at other places. By `isomorphic_iff_fair` none of this counts. What
counts is that the outline of a stripped term is a function of the outline of the term
(`outline_deepDemeth`), and that this function goes along with any renaming
(`Renames.stripped`), so that the fair relation that was found for the terms will do
for what is left.
-/

namespace TypeGraph

/-! ## Outlines without methods -/

namespace Outline

variable {R : VarId → VarId → Prop} {o o' : Outline} {label : Label}
  {vs : List VarId} {ps : List Outline}

/-- The outline without its methods. A method leaves what it is put on, and what
a custom type holds is left as it is. -/
def stripped : Outline → Outline
  | gap => gap
  | var v => var v
  | node (.method _ _) _ [_, inner] => inner.stripped
  | node (.custom name) binders held => node (.custom name) binders held
  | node label binders parts => node label binders (parts.map stripped)

theorem renames_node_left (h : Renames R (node label vs ps) o') :
    ∃ ws qs, o' = node label ws qs ∧ List.Forall₂ R vs ws ∧
      List.Forall₂ (Renames R) ps qs := by
  cases o' with
  | node label' ws qs =>
    obtain ⟨rfl, hbinders, hparts⟩ := renames_node_iff.1 h
    exact ⟨ws, qs, rfl, hbinders, hparts⟩
  | _ => cases h

/-- **A renaming of outlines renames what is left of them.** -/
theorem Renames.stripped (h : Renames R o o') : Renames R o.stripped o'.stripped := by
  fun_induction Outline.stripped o generalizing o' with
  | case1 => cases h
  | case2 v =>
    cases h with
    | var hvw => simpa only [Outline.stripped] using .var hvw
  | case3 name optional vs scheme inner ih =>
    -- Two parts are renamed to two parts, so that the other side is a method on
    -- something too.
    obtain ⟨ws, qs, rfl, -, hparts⟩ := renames_node_left h
    obtain ⟨scheme', rest, -, hrest, rfl⟩ := List.forall₂_cons_left_iff.1 hparts
    obtain ⟨inner', _, hinner, hnil, rfl⟩ := List.forall₂_cons_left_iff.1 hrest
    cases hnil
    simpa only [Outline.stripped] using ih hinner
  | case4 name vs held =>
    obtain ⟨ws, qs, rfl, -, -⟩ := renames_node_left h
    simpa only [Outline.stripped] using h
  | case5 label vs ps hmethod hcustom ih =>
    obtain ⟨ws, qs, rfl, hbinders, hparts⟩ := renames_node_left h
    have hmethod' : ∀ name optional scheme inner, label = .method name optional →
        qs = [scheme, inner] → False := by
      intro name optional scheme inner hlabel hqs
      obtain ⟨p, p', hps⟩ :=
        List.length_eq_two.1 (hparts.length_eq.trans (by rw [hqs]; rfl))
      exact hmethod name optional p p' hlabel hps
    rw [Outline.stripped]
    · refine renames_node_iff.2 ⟨rfl, hbinders, ?_⟩
      rw [List.forall₂_map_left_iff, List.forall₂_map_right_iff]
      have hboth :=
        (List.forall₂_and_left (p := fun p => ∀ q, Renames R p q →
          Renames R p.stripped q.stripped)
          ps qs).2 ⟨fun p hp _ => ih p hp, hparts⟩
      exact hboth.imp fun p q hpq => hpq.1 q hpq.2
    · exact hmethod'
    · exact hcustom

end Outline

namespace Shape

/-- A layer that is not a method, with its parts stripped, reads as what the layer
reads as, stripped. -/
theorem outline_onParts (s : Store) {x : Shape Ty} {read : Ty → Outline} {f : Ty → Ty}
    (hx : ∀ m inner, x ≠ .meth m inner)
    (h : ∀ u ∈ x.parts, read (f u) = (read u).stripped) :
    ((x.onParts f).map read).outline s = ((x.map read).outline s).stripped := by
  cases x with
  | meth m inner => exact absurd rfl (hx m inner)
  | hole | custom kind held => simp [onParts, map, outline, label?, Outline.stripped]
  | cell c =>
    cases hf : s.freeVar? c <;> simp [onParts, map, outline, hf, Outline.stripped]
  | arrow args ret =>
    have hargs : ∀ a ∈ args, read (f a.type) = (read a.type).stripped := fun a ha =>
      h _ (List.mem_append_left _ (List.mem_map_of_mem ha))
    have hret := h ret (List.mem_append_right _ List.mem_cons_self)
    simpa [onParts, map, outline, label?, binders, children,
      Outline.stripped, hret] using hargs
  | _ =>
    simp only [parts, children, List.forall_mem_map, List.forall_mem_singleton] at h
    simpa [onParts, map, outline, label?, binders, children, Outline.stripped] using h

end Shape

namespace Store

variable {s s' : Store} {t a b : Ty} {opts : CopyOptions}

theorem view_deepDemeth (hs : s.Acyclic) (t : Ty) :
    s.view (s.deepDemeth t) = (s.demeth t).shape.onParts s.deepDemeth := by
  rw [deepDemeth_eq hs, view_stripLayer (hs.hasBase t)]

/-- **The outline of a stripped term is the outline of the term, stripped.** -/
theorem outline_deepDemeth (hs : s.Acyclic) (t : Ty) :
    s.outline (s.deepDemeth t) = (s.outline t).stripped := by
  induction t using viewInduction hs with
  | layer t ih =>
    rw [outline_eq hs, view_deepDemeth hs]
    by_cases hmeth : ∃ m inner, s.view t = .meth m inner
    · -- The base of a method is that of what it is put on.
      obtain ⟨m, inner, hx⟩ := hmeth
      obtain ⟨pos, hl⟩ := layers_of_meth hs hx
      have hbase : s.demeth t = s.demeth inner := by rw [demeth, demeth, hl]
      have hinner : inner ∈ (s.view t).children := Shape.inner_mem_children hx
      rw [hbase, ← view_deepDemeth hs, ← outline_eq hs, ih inner hinner,
        outline_eq hs t, hx]
      simp only [Shape.map, Shape.outline, Shape.label?, Shape.binders,
        Shape.children, Outline.stripped]
    · have hno : ∀ m inner, s.view t ≠ .meth m inner :=
        fun m inner hx => hmeth ⟨m, inner, hx⟩
      have hbase : s.demeth t = s.deref t := by rw [demeth, layers_of_base hs hno]
      rw [hbase, ← view, outline_eq hs t]
      exact Shape.outline_onParts s hno fun u hu => ih u (Shape.parts_subset hu)

/-- **Isomorphic terms are isomorphic without their methods.** -/
theorem isomorphic_stripped (hs : s.Acyclic) (h : s.isomorphic a b = true) :
    s.isomorphic (s.deepDemeth a) (s.deepDemeth b) = true := by
  obtain ⟨R, hR, hab⟩ := (isomorphic_iff_fair hs a b).1 h
  refine (isomorphic_iff_fair hs _ _).2 ⟨R, hR, ?_⟩
  rw [outline_deepDemeth hs, outline_deepDemeth hs]
  exact hab.stripped

/-! ## Stripping in larger stores -/

theorem Within.demeth (h : s.Within s') (hs' : s'.Acyclic)
    (hw : s.WellFormed) (ht : s.Scoped t) :
    s'.demeth t = s.demeth t :=
  congrArg Prod.snd ((h.mirror hs' hw ht).splitMeths (h.acyclic hs') hs' .refl)

/-- A term is stripped alike in a store that has grown. -/
theorem Within.deepDemeth (h : s.Within s') (hs' : s'.Acyclic)
    (hw : s.WellFormed) (ht : s.Scoped t) :
    s'.deepDemeth t = s.deepDemeth t := by
  have hs := h.acyclic hs'
  induction t using weightInduction s with
  | lighter t ih =>
    rw [deepDemeth_eq hs', deepDemeth_eq hs, stripLayer, stripLayer, h.demeth hs' hw ht]
    refine congrArg (Ty.node t.pos) (Shape.onParts_congr fun u hu => ?_)
    exact ih u (weight_lt_of_part hs hu) (ht.of_reaches hw (reaches_part hu))

/-- **Stripping respects isomorphism.** Terms of an acyclic store that are isomorphic
are so without their methods. In particular a copy of a complete term without its
methods is isomorphic to the term without its methods, whether the term was stripped
before or after it was copied. -/
theorem deepDemeth_respects_isomorphism (hs : s.Acyclic) :
    (∀ a b, s.isomorphic a b = true →
        s.isomorphic (s.deepDemeth a) (s.deepDemeth b) = true) ∧
      ∀ t opts, s.WellFormed → s.Scoped t → s.Complete t →
        ∃ t' s', s.fresh opts t = (.ok t', s') ∧
          s'.isomorphic (s'.deepDemeth t') (s'.deepDemeth t) = true ∧
          s'.deepDemeth t = s.deepDemeth t := by
  refine ⟨fun a b => isomorphic_stripped hs, fun t opts hw ht hc => ?_⟩
  obtain ⟨t', s', onVar, onCell, hrun, hcopy, hw', hacyclic⟩ :=
    exists_graphCopy hw ht hc opts
  have hs' := hacyclic hs
  have hiso := isomorphic_symm hs' (hcopy.isomorphic hw ht hs' hw' hc)
  exact ⟨t', s', hrun, isomorphic_stripped hs' hiso, hcopy.within.deepDemeth hs' hw ht⟩

/-- A pair with two methods, of which the outer one has the type of the second
component. -/
def fieldsExample (first second : Ty) : Ty :=
  .addMeth (.of (.tuple [first, .addMeth second { name := "n", scheme := .mono .unit }]))
    { name := "m", scheme := .mono second }

/-- The variable of the second component is met first with the methods and last
without them. -/
theorem deepDemeth_respects_isomorphism_reordered :
    let a := fieldsExample (.of (.cell 1)) (.of (.cell 2))
    let b := fieldsExample (.of (.list .array (.of (.cell 2)))) (.of (.cell 0))
    linkedExample.render a = "(['b] * 'a.\x7bn : unit\x7d).\x7bm : 'a\x7d" ∧
      linkedExample.render (linkedExample.deepDemeth a) = "(['a] * 'b)" ∧
      linkedExample.isomorphic a b = true ∧
      linkedExample.isomorphic (linkedExample.deepDemeth a) (linkedExample.deepDemeth b) =
        true ∧
      ∃ t' s', linkedExample.fresh {} a = (.ok t', s') ∧
        s'.isomorphic (s'.deepDemeth t') (s'.deepDemeth a) = true ∧
          s'.deepDemeth a = linkedExample.deepDemeth a := by
  intro a b
  obtain ⟨hstripped, hcopied⟩ := deepDemeth_respects_isomorphism linkedExample_acyclic
  have hiso : linkedExample.isomorphic a b = true := by decide
  refine ⟨by decide +kernel, by decide +kernel, hiso, hstripped a b hiso, ?_⟩
  exact hcopied a {} (by decide) (by decide)
    (complete_of_everywhere (by decide) (by decide))

end Store

end TypeGraph
