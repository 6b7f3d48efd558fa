import TypeGraph.Isomorphism
import TypeGraph.Proofs.Descent
import TypeGraph.Render
import TypeGraph.Variables

/-!
# Reading terms without bounds

The functions that read a term behind its links, without their bounds. In an acyclic
store each of them is given by one equation: what it makes of a term, from what it
makes of terms that weigh less. Proofs about these functions start here and do not
unfold the bounded definitions.

Behind each equation stands that one layer asks only about terms that weigh less: the
subterms of the view, or, for rendering, the types of the methods of a term and its
base.
-/

namespace TypeGraph.Store

variable {s : Store}

/-! ## Variables -/

theorem any_congr_left {α : Type} {g h : α → Bool} {l : List α}
    (hgh : ∀ a ∈ l, g a = h a) : l.any g = l.any h := by
  simpa [List.any_map] using congrArg (List.any · id) (List.map_congr_left hgh)

theorem occursLayer_congr {v : VarId} {t : Ty} {g h : Ty → Bool}
    (hgh : ∀ u ∈ (s.view t).children, g u = h u) :
    s.occursLayer v g t = s.occursLayer v h t := by
  unfold occursLayer
  cases hx : s.view t <;> rw [hx] at hgh <;> first | rfl | exact any_congr_left hgh

theorem occurs_eq (hs : s.Acyclic) (v : VarId) (t : Ty) :
    s.occurs v t = s.occursLayer v (s.occurs v) t :=
  bounded_eq (s.occursWithin v) (s.occursLayer v) (fun _ _ => rfl)
    (fun _ _ _ h => occursLayer_congr fun u hu => h u (weight_lt_of_mem_view hs hu)) t

/-- The free occurrences of variables in a term, from left to right, without those in
`bound`. -/
def freeOccurrences (s : Store) (bound : List VarId) (t : Ty) : List VarId :=
  s.occurrences (s.span t) bound t

theorem occurrencesLayer_congr {bound : List VarId} {t : Ty}
    {g h : List VarId → Ty → List VarId}
    (hgh : ∀ u ∈ (s.view t).children, ∀ bound, g bound u = h bound u) :
    s.occurrencesLayer g bound t = s.occurrencesLayer h bound t := by
  unfold occurrencesLayer
  cases hx : s.view t with
  | cell c => rfl
  | meth m inner =>
    rw [hx] at hgh
    simp only [hgh m.scheme.type (by simp [Shape.children]),
      hgh inner (by simp [Shape.children])]
  | _ =>
    rw [hx] at hgh
    exact List.flatMap_congr fun u hu => hgh u hu bound

theorem occurrencesLayer_local (hs : s.Acyclic) (t : Ty)
    (g h : Ty → List VarId → List VarId)
    (hgh : ∀ u, s.weight u < s.weight t → g u = h u) :
    (fun bound => s.occurrencesLayer (fun b u => g u b) bound t) =
      fun bound => s.occurrencesLayer (fun b u => h u b) bound t :=
  funext fun _ => occurrencesLayer_congr fun u hu b =>
    congrFun (hgh u (weight_lt_of_mem_view hs hu)) b

theorem freeOccurrences_eq (hs : s.Acyclic) (bound : List VarId) (t : Ty) :
    s.freeOccurrences bound t = s.occurrencesLayer s.freeOccurrences bound t :=
  congrFun (bounded_eq (fun n t bound => s.occurrences n bound t)
    (fun g t bound => s.occurrencesLayer (fun b u => g u b) bound t) (fun _ _ => rfl)
    (occurrencesLayer_local hs) t) bound

/-- Any two bounds that cover the weight of a term give the same occurrences. -/
theorem occurrences_bound (hs : s.Acyclic) {t : Ty} {m n : Nat} (hm : s.weight t ≤ m)
    (hn : s.weight t ≤ n) (bound : List VarId) :
    s.occurrences m bound t = s.occurrences n bound t :=
  congrFun (bound_irrelevant (fun n t bound => s.occurrences n bound t)
    (fun g t bound => s.occurrencesLayer (fun b u => g u b) bound t) (fun _ _ => rfl)
    (occurrencesLayer_local hs) hm hn) bound

/-- Terms that stand for the same have the same free occurrences of variables. -/
theorem freeOccurrences_of_deref (hs : s.Acyclic) {t u : Ty} (h : s.deref t = s.deref u)
    (bound : List VarId) :
    s.freeOccurrences bound t = s.freeOccurrences bound u := by
  have hview : s.view t = s.view u := congrArg Ty.shape h
  rw [freeOccurrences_eq hs bound t, freeOccurrences_eq hs bound u, occurrencesLayer,
    occurrencesLayer, hview]

/-! ## Isomorphism -/

/-- Extend a renaming so that it takes `a` to `b`. -/
def matching (s : Store) (a b : Ty) (r : Renaming) : Option Renaming :=
  s.matchTerms (s.span a) a b r

theorem matchAll_congr {g h : Ty → Ty → Renaming → Option Renaming} {as bs : List Ty}
    (hgh : ∀ a ∈ as, ∀ b ∈ bs, g a b = h a b) (r : Renaming) :
    matchAll g as bs r = matchAll h as bs r := by
  induction as generalizing bs r with
  | nil => cases bs <;> rfl
  | cons a as ih =>
    cases bs with
    | nil => rfl
    | cons b bs =>
      simp only [matchAll, hgh a List.mem_cons_self b List.mem_cons_self]
      refine congrArg _ (funext fun r => ih (fun a ha b hb => ?_) r)
      exact hgh a (List.mem_cons_of_mem _ ha) b (List.mem_cons_of_mem _ hb)

theorem matchLayer_congr {g h : Ty → Ty → Renaming → Option Renaming} {a b : Ty}
    (hgh : ∀ u ∈ (s.view a).children, ∀ w ∈ (s.view b).children, g u w = h u w)
    (r : Renaming) : s.matchLayer g a b r = s.matchLayer h a b r := by
  unfold matchLayer
  split
  · rfl
  · split
    · exact congrArg _ (funext fun r => matchAll_congr hgh r)
    · rfl

/-- A comparison of two layers, of which at most one is a cell. -/
theorem matchLayer_eq {g : Ty → Ty → Renaming → Option Renaming} {a b : Ty}
    (h : ∀ c d, s.view a = .cell c → s.view b ≠ .cell d) (r : Renaming) :
    s.matchLayer g a b r =
      if (s.view a).alike (s.view b) then
        s.renameVars (s.view a).binders (s.view b).binders r >>=
          matchAll g (s.view a).children (s.view b).children
      else none := by
  unfold matchLayer
  split
  · rename_i c d hx hy
    exact absurd hy (h c d hx)
  · rfl

theorem matchLayer_local (hs : s.Acyclic) (a : Ty)
    (g h : Ty → Ty → Renaming → Option Renaming) (hgh : ∀ u, s.weight u < s.weight a →
      g u = h u) : s.matchLayer g a = s.matchLayer h a := by
  funext b r
  exact matchLayer_congr (fun u hu w _ =>
    congrFun (hgh u (weight_lt_of_mem_view hs hu)) w) r

theorem matching_eq (hs : s.Acyclic) (a b : Ty) (r : Renaming) :
    s.matching a b r = s.matchLayer s.matching a b r :=
  congrFun (congrFun (bounded_eq s.matchTerms s.matchLayer (fun _ _ => rfl)
    (matchLayer_local hs) a) b) r

/-- Any two bounds that cover the weight of the first term give the same comparison. -/
theorem matchTerms_bound (hs : s.Acyclic) {a b : Ty} {m n : Nat} (hm : s.weight a ≤ m)
    (hn : s.weight a ≤ n) :
    s.matchTerms m a b = s.matchTerms n a b :=
  congrFun (bound_irrelevant s.matchTerms s.matchLayer (fun _ _ => rfl)
    (matchLayer_local hs) hm hn) b

theorem isomorphic_eq (s : Store) (a b : Ty) :
    s.isomorphic a b = (s.matching a b []).isSome := rfl

/-! ## Methods -/

theorem nextLayer_congr {g h : Ty → List Layer × Ty} {t : Ty}
    (hgh : ∀ u ∈ (s.view t).children, g u = h u) : s.nextLayer g t = s.nextLayer h t := by
  unfold nextLayer
  split
  · rename_i pos m inner hx
    have hinner : inner ∈ (s.view t).children := by
      rw [view, hx]; simp [Ty.shape, Shape.children]
    rw [hgh inner hinner]
  · rfl

theorem nextLayer_local (hs : s.Acyclic) (t : Ty) (g h : Ty → List Layer × Ty)
    (hgh : ∀ u, s.weight u < s.weight t → g u = h u) :
    s.nextLayer g t = s.nextLayer h t :=
  nextLayer_congr fun u hu => hgh u (weight_lt_of_mem_view hs hu)

theorem layers_eq (hs : s.Acyclic) (t : Ty) : s.layers t = s.nextLayer s.layers t :=
  bounded_eq s.layersWithin s.nextLayer (fun _ _ => rfl) (nextLayer_local hs) t

/-- Any two bounds that cover the weight of a term give the same layers. -/
theorem layersWithin_bound (hs : s.Acyclic) {t : Ty} {m n : Nat} (hm : s.weight t ≤ m)
    (hn : s.weight t ≤ n) :
    s.layersWithin m t = s.layersWithin n t :=
  bound_irrelevant s.layersWithin s.nextLayer (fun _ _ => rfl) (nextLayer_local hs) hm hn

/-- A term stands for a method layer, whose inner type has the other layers; or it has
no layers. -/
theorem layers_cases (hs : s.Acyclic) (t : Ty) :
    (∃ pos m inner, s.deref t = .node pos (.meth m inner) ∧
        s.layers t = (⟨pos, m⟩ :: (s.layers inner).1, (s.layers inner).2)) ∨
      (∀ m inner, s.view t ≠ .meth m inner) ∧ s.layers t = ([], t) := by
  rw [layers_eq hs, nextLayer]
  split
  · rename_i pos m inner hx
    exact Or.inl ⟨pos, m, inner, hx, rfl⟩
  · rename_i hx
    refine Or.inr ⟨fun m inner hm => ?_, rfl⟩
    cases hd : s.deref t with
    | node pos x =>
      rw [view, hd] at hm
      exact hx pos m inner (hd.trans (congrArg (Ty.node pos) hm))

theorem view_of_deref {t : Ty} {pos : Option Range} {x : Shape Ty}
    (h : s.deref t = .node pos x) :
    s.view t = x := by
  rw [view, h]
  rfl

theorem layers_of_meth (hs : s.Acyclic) {t inner : Ty} {m : Method Ty}
    (hx : s.view t = .meth m inner) :
    ∃ pos, s.layers t = (⟨pos, m⟩ :: (s.layers inner).1, (s.layers inner).2) := by
  rcases layers_cases hs t with ⟨pos, m', inner', hd, hl⟩ | ⟨hno, -⟩
  · cases hx.symm.trans (view_of_deref hd)
    exact ⟨pos, hl⟩
  · exact absurd hx (hno m inner)

theorem layers_of_base (hs : s.Acyclic) {t : Ty}
    (hx : ∀ m inner, s.view t ≠ .meth m inner) :
    s.layers t = ([], t) := by
  rcases layers_cases hs t with ⟨pos, m, inner, hd, -⟩ | ⟨-, hl⟩
  · exact absurd (view_of_deref hd) (hx m inner)
  · exact hl

/-- The methods of a term, and its base, weigh no more than the term. -/
theorem weight_layers_le (hs : s.Acyclic) (t : Ty) :
    (∀ l ∈ (s.layers t).1, s.weight l.method.scheme.type < s.weight t) ∧
      s.weight (s.layers t).2 ≤ s.weight t := by
  induction t using viewInduction hs with
  | layer t ih =>
    rcases layers_cases hs t with ⟨pos, m, inner, hd, hl⟩ | ⟨-, hl⟩
    · have hmem : ∀ u ∈ [m.scheme.type, inner], u ∈ (s.view t).children := by
        rw [view_of_deref hd]
        exact fun u hu => hu
      have hinner := weight_lt_of_mem_view hs (hmem inner (by simp))
      obtain ⟨ihm, ihb⟩ := ih inner (hmem inner (by simp))
      rw [hl]
      refine ⟨fun l hl => ?_, ihb.trans hinner.le⟩
      rcases List.mem_cons.1 hl with rfl | hl
      · exact weight_lt_of_mem_view hs (hmem _ (by simp))
      · exact (ihm l hl).trans hinner
    · rw [hl]
      exact ⟨fun l hl => by simp at hl, le_rfl⟩

theorem mem_of_mem_visible {m : Method Ty} {layers : List Layer}
    (h : m ∈ Layer.visible layers) :
    ∃ l ∈ layers, l.method = m := by
  induction layers with
  | nil => simp [Layer.visible] at h
  | cons l rest ih =>
    rw [Layer.visible, List.foldr_cons, ← Layer.visible] at h
    rcases List.mem_cons.1 h with rfl | h
    · exact ⟨l, List.mem_cons_self, rfl⟩
    · obtain ⟨l', hl', hm⟩ := ih (List.mem_of_mem_filter h)
      exact ⟨l', List.mem_cons_of_mem _ hl', hm⟩

/-- The base of a term weighs no more than the term. -/
theorem weight_base_le (hs : s.Acyclic) (t : Ty) :
    s.weight (s.splitMeths t).2 ≤ s.weight t :=
  (weight_deref_le hs _).trans (weight_layers_le hs t).2

/-- The base of a term that stands for a method layer weighs less than the term. -/
theorem weight_base_lt (hs : s.Acyclic) {t inner : Ty} {m : Method Ty}
    (ht : s.view t = .meth m inner) :
    s.weight (s.splitMeths t).2 < s.weight t := by
  have hinner : s.weight inner < s.weight t :=
    weight_lt_of_mem_view hs (by simp [ht, Shape.children])
  obtain ⟨pos, hl⟩ := layers_of_meth hs ht
  have hbase : (s.splitMeths t).2 = (s.splitMeths inner).2 := by
    rw [splitMeths, splitMeths, hl]
  rw [hbase]
  exact (weight_base_le hs inner).trans_lt hinner

theorem weight_method_lt (hs : s.Acyclic) {t : Ty} {m : Method Ty}
    (hm : m ∈ (s.splitMeths t).1) :
    s.weight m.scheme.type < s.weight t := by
  obtain ⟨l, hl, rfl⟩ := mem_of_mem_visible hm
  exact (weight_layers_le hs t).1 l hl

/-! ## Rendering -/

/-- The text of a term, and the variables that it names. -/
def rendered (s : Store) (t : Ty) : StateM Names String := s.renderWithin (s.span t) t

/-- The text of a term is followed by what is said about the variables that it names. -/
theorem render_eq (s : Store) (t : Ty) :
    s.render t = ((s.rendered t).run []).1 ++ s.whereClause ((s.rendered t).run []).2 :=
  rfl

theorem mapM_congr_left {α β : Type} {m : Type → Type} [Monad m] [LawfulMonad m]
    {f g : α → m β} {l : List α} (h : ∀ a ∈ l, f a = g a) : l.mapM f = l.mapM g := by
  induction l with
  | nil => rfl
  | cons a l ih =>
    rw [List.mapM_cons, List.mapM_cons, h a List.mem_cons_self,
      ih fun b hb => h b (List.mem_cons_of_mem _ hb)]

/-- A layer asks about its subterms or, if it is a method, about all visible methods
and the base at once. -/
theorem renderLayer_congr {t : Ty} {g h : Ty → StateM Names String}
    (hparts : ∀ u ∈ (s.view t).children, g u = h u)
    (hmethods : ∀ m ∈ (s.splitMeths t).1, g m.scheme.type = h m.scheme.type)
    (hbase : ∀ m inner, s.view t = .meth m inner →
      g (s.splitMeths t).2 = h (s.splitMeths t).2) :
    s.renderLayer g t = s.renderLayer h t := by
  unfold renderLayer
  split
  · rfl
  · rename_i m inner hx
    have hfields : ((s.splitMeths t).1.mapM fun m => do
          discard <| m.scheme.vars.mapM Names.name
          return fieldText m (← g m.scheme.type)) =
        (s.splitMeths t).1.mapM fun m => do
          discard <| m.scheme.vars.mapM Names.name
          return fieldText m (← h m.scheme.type) :=
      mapM_congr_left fun m hm => by rw [hmethods m hm]
    simp only [hfields, hbase m inner hx]
  · rw [mapM_congr_left hparts]

theorem renderLayer_local (hs : s.Acyclic) (t : Ty) (g h : Ty → StateM Names String)
    (hgh : ∀ u, s.weight u < s.weight t → g u = h u) :
    s.renderLayer g t = s.renderLayer h t :=
  renderLayer_congr (fun u hu => hgh u (weight_lt_of_mem_view hs hu)) (fun _ hm =>
    hgh _ (weight_method_lt hs hm))
    fun _ _ hx => hgh _ (weight_base_lt hs hx)

theorem rendered_eq (hs : s.Acyclic) (t : Ty) :
    s.rendered t = s.renderLayer s.rendered t :=
  bounded_eq s.renderWithin s.renderLayer (fun _ _ => rfl) (renderLayer_local hs) t

/-- Any two bounds that cover the weight of a term give the same text. -/
theorem renderWithin_bound (hs : s.Acyclic) {t : Ty} {m n : Nat} (hm : s.weight t ≤ m)
    (hn : s.weight t ≤ n) :
    s.renderWithin m t = s.renderWithin n t :=
  bound_irrelevant s.renderWithin s.renderLayer (fun _ _ => rfl)
    (renderLayer_local hs) hm hn

end TypeGraph.Store
