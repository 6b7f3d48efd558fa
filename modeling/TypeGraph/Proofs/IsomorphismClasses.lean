import TypeGraph.Proofs.CopyIsomorphism

/-!
# Isomorphism as an equivalence

Isomorphism is an equivalence. The comparison treats its two sides differently: kinds
of constraints are looked up on one side only, and each comparison builds a renaming
of its own. By `isomorphic_iff_fair` all that counts is whether some fair relation
renames the one outline to the other, and fair relations can be turned around and put
one behind the other. It plays no part which variables the terms share: a variable of
the first term may well be renamed to another variable of the same term.
-/

namespace TypeGraph

namespace Outline

variable {R S : VarId → VarId → Prop} {o o' o'' : Outline}

/-- A renaming read backwards. -/
theorem Renames.swap (h : Renames R o o') : Renames (flip R) o' o := by
  induction h with
  | var h => exact .var h
  | node binders length _ ih =>
    have hparts :=
      (List.forall₂_iff_zip (R := flip (Renames (flip R)))).2
        ⟨length, fun hpq => ih _ hpq⟩
    exact renames_node_iff.2 ⟨rfl, binders.flip, hparts.flip⟩

/-- Lists that are related element by element through a list between them. -/
theorem forall₂_comp {α : Type} {P Q T : α → α → Prop} {as bs cs : List α}
    (h : ∀ b ∈ bs, ∀ a c, P a b → Q b c → T a c) (hP : List.Forall₂ P as bs)
    (hQ : List.Forall₂ Q bs cs) : List.Forall₂ T as cs := by
  induction hP generalizing cs with
  | nil =>
    cases hQ with
    | nil => exact .nil
  | @cons a b as bs hab _ ih =>
    cases hQ with
    | cons hbc hrest =>
      have htail := ih (fun b hb => h b (List.mem_cons_of_mem _ hb)) hrest
      exact .cons (h b List.mem_cons_self _ _ hab hbc) htail

/-- One renaming behind another. -/
theorem Renames.comp (h : Renames R o o') (h' : Renames S o' o'') :
    Renames (Relation.Comp R S) o o'' := by
  induction o' using partsInduction generalizing o o'' with
  | gap => cases h
  | var w =>
    cases h with
    | var hvw =>
      cases h' with
      | var hwx => exact .var ⟨w, hvw, hwx⟩
  | node label ws qs ih =>
    cases o with
    | node l vs ps =>
      cases o'' with
      | node l' xs rs =>
        obtain ⟨rfl, hvs, hps⟩ := renames_node_iff.1 h
        obtain ⟨rfl, hws, hqs⟩ := renames_node_iff.1 h'
        have hbinders : List.Forall₂ (Relation.Comp R S) vs xs :=
          forall₂_comp (fun w _ v x hvw hwx => ⟨w, hvw, hwx⟩) hvs hws
        exact renames_node_iff.2 ⟨rfl, hbinders,
          forall₂_comp (fun q hq p r => ih q hq) hps hqs⟩
      | _ => cases h'
    | _ => cases h

end Outline

namespace Store

variable {s : Store} {R S : VarId → VarId → Prop} {a b c : Ty}

theorem Fair.swap (hR : s.Fair R) : s.Fair (flip R) where
  oneToOne := ⟨fun _ _ _ h h' => hR.oneToOne.2 h h', fun _ _ _ h h' => hR.oneToOne.1 h h'⟩
  kinds v w h kind := (hR.kinds w v h kind).symm

theorem Fair.comp (hR : s.Fair R) (hS : s.Fair S) : s.Fair (Relation.Comp R S) where
  oneToOne := by
    constructor
    · rintro v v' x ⟨w, hvw, hwx⟩ ⟨w', hvw', hwx'⟩
      cases hS.oneToOne.1 hwx hwx'
      exact hR.oneToOne.1 hvw hvw'
    · rintro v x x' ⟨w, hvw, hwx⟩ ⟨w', hvw', hwx'⟩
      cases hR.oneToOne.2 hvw hvw'
      exact hS.oneToOne.2 hwx hwx'
  kinds := by
    rintro v x ⟨w, hvw, hwx⟩ kind
    exact (hR.kinds v w hvw kind).trans (hS.kinds w x hwx kind)

theorem isomorphic_symm (hs : s.Acyclic) (h : s.isomorphic a b = true) :
    s.isomorphic b a = true := by
  obtain ⟨R, hR, hab⟩ := (isomorphic_iff_fair hs a b).1 h
  exact (isomorphic_iff_fair hs b a).2 ⟨_, hR.swap, hab.swap⟩

theorem isomorphic_trans (hs : s.Acyclic) (h : s.isomorphic a b = true)
    (h' : s.isomorphic b c = true) :
    s.isomorphic a c = true := by
  obtain ⟨R, hR, hab⟩ := (isomorphic_iff_fair hs a b).1 h
  obtain ⟨S, hS, hbc⟩ := (isomorphic_iff_fair hs b c).1 h'
  exact (isomorphic_iff_fair hs a c).2 ⟨_, hR.comp hS, hab.comp hbc⟩

/-- **Isomorphism is an equivalence** on the complete terms of an acyclic store. -/
theorem isomorphic_equivalence (hs : s.Acyclic) (hw : s.WellFormed) :
    Equivalence fun a b : {t : Ty // s.Scoped t ∧ s.Complete t} =>
      s.isomorphic a b = true where
  refl a := isomorphic_refl hs hw a.2.1 a.2.2
  symm h := isomorphic_symm hs h
  trans h h' := isomorphic_trans hs h h'

/-- A pair of a list of the first variable, behind a link, and of the second
variable. -/
def pairExample : Ty := .of (.tuple [.of (.cell 1), .of (.cell 2)])

/-- The same pair with the variables exchanged. -/
def exchangedExample : Ty :=
  .of (.tuple [.of (.list .array (.of (.cell 2))), .of (.cell 0)])

/-- Each of the two terms has both variables, and the one is renamed to the other by
exchanging them. -/
theorem isomorphic_equivalence_exchanged :
    linkedExample.isomorphic pairExample exchangedExample = true ∧
      linkedExample.isomorphic exchangedExample pairExample = true ∧
      linkedExample.isomorphic pairExample pairExample = true := by
  have hequiv := isomorphic_equivalence linkedExample_acyclic (by decide)
  let a : {t : Ty // linkedExample.Scoped t ∧ linkedExample.Complete t} :=
    ⟨pairExample, by decide, complete_of_everywhere (by decide) (by decide)⟩
  let b : {t : Ty // linkedExample.Scoped t ∧ linkedExample.Complete t} :=
    ⟨exchangedExample, by decide, complete_of_everywhere (by decide) (by decide)⟩
  have hab : linkedExample.isomorphic a b = true := by decide
  have hba : linkedExample.isomorphic b a = true := hequiv.symm (x := a) (y := b) hab
  exact ⟨hab, hba, hequiv.trans (x := a) (y := b) (z := a) hab hba⟩

end Store

end TypeGraph
