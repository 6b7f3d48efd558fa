import TypeGraph.Proofs.Expansion
import TypeGraph.Proofs.Recursion
import Mathlib.Data.Set.Function

/-!
# Mirrors

A function on terms mirrors one store in another when it respects what terms stand
for: the image of a term stands, layer by layer, for what the term stands for, with
other names for variables and cells. Copies are mirrors, which rename, and so are
expansions, which rename nothing and leave links out.

Whatever is read off a term behind its links can then be read off its image: its
variables (`Mirror.freeVars`, `Mirror.occurs`), its methods (`Mirror.splitMeths`,
`Mirror.invokePath`) and its text (`Mirror.render`). Each of these functions is one
recursion on layers, so each needs one look at a layer and its mirror image.
-/

namespace TypeGraph

/-- A scheme with other names for its variables and with its type replaced. -/
def Scheme.image {α β : Type} (onVar : VarId → VarId) (onTerm : α → β)
    (scheme : Scheme α) : Scheme β :=
  ⟨scheme.vars.map onVar, onTerm scheme.type⟩

/-- A method with its scheme replaced. -/
def Method.image {α β : Type} (onVar : VarId → VarId) (onTerm : α → β)
    (m : Method α) : Method β :=
  { m with scheme := m.scheme.image onVar onTerm }

mutual

/-- The error with every position left out. -/
def Error.unplaced : Error → Error
  | .fault _ f => .fault .zero f
  | .unclassified _ cause => .unclassified .zero (unplacedCause cause)
  | .plain text => .plain text
  | .context text cause => .context text cause.unplaced
  | .join errors => .join (unplacedAll errors)
  | .raised _ f cause => .raised .zero f cause.unplaced

def Error.unplacedCause : Option Error → Option Error
  | none => none
  | some e => some e.unplaced

def Error.unplacedAll : List Error → List Error
  | [] => []
  | e :: es => e.unplaced :: unplacedAll es

end

mutual

theorem Error.firstCode_unplaced :
    ∀ e : Error, e.unplaced.first?.map Prod.fst = e.first?.map Prod.fst
  | .fault _ _ => rfl
  | .unclassified _ _ => rfl
  | .plain _ => rfl
  | .context _ cause => cause.firstCode_unplaced
  | .join errors => firstCode_unplacedAll errors
  | .raised _ _ _ => rfl

theorem Error.firstCode_unplacedAll :
    ∀ es : List Error, (firstOf? (unplacedAll es)).map Prod.fst =
      (firstOf? es).map Prod.fst
  | [] => rfl
  | e :: es => by
    have he := e.firstCode_unplaced
    have hes := firstCode_unplacedAll es
    rw [unplacedAll, firstOf?, firstOf?]
    cases hx : e.unplaced.first? <;> cases hy : e.first? <;> rw [hx, hy] at he
    · exact hes
    · cases he
    · cases he
    · exact he

end

/-- Positions do not classify an error. -/
theorem Error.is_unplaced (e : Error) (code : Code) : e.unplaced.is code = e.is code := by
  have hany : ∀ e : Error, e.is code = (e.first?.map Prod.fst).any (· == code) :=
      fun e => by
    rw [is, Option.any_map]
  rw [hany, hany, firstCode_unplaced]

namespace Store

/-- **The terms of a domain in the store `s`, mirrored in the store `s'`.** Different
variables among those that are known stay different. -/
structure Mirror (s s' : Store) (domain : Ty → Prop)
    (known : Set VarId) (onTerm : Ty → Ty) (onVar : VarId → VarId)
    (onCell : CellId → CellId) : Prop where
  settled : ∀ t, domain t → domain (s.deref t)
  subterm : ∀ t, domain t → ∀ u ∈ (s.view t).children, domain u
  deref : ∀ t, domain t → s'.deref (onTerm t) = onTerm (s.deref t)
  shape : ∀ t, domain t → (onTerm (s.deref t)).shape =
    ((s.view t).map onTerm).relabel onVar onCell
  freeVar : ∀ t c, domain t → s.view t = .cell c →
    s'.freeVar? (onCell c) = (s.freeVar? c).map onVar
  binder_known : ∀ t, domain t → ∀ v ∈ (s.view t).binders, v ∈ known
  free_known : ∀ t c v, domain t → s.view t = .cell c → s.freeVar? c = some v → v ∈ known
  injective : Set.InjOn onVar known

namespace Mirror

variable {s s' : Store} {domain : Ty → Prop} {known : Set VarId} {onTerm : Ty → Ty}
  {onVar : VarId → VarId} {onCell : CellId → CellId} {t : Ty}

theorem view (h : Mirror s s' domain known onTerm onVar onCell) (ht : domain t) :
    s'.view (onTerm t) = ((s.view t).map onTerm).relabel onVar onCell := by
  rw [Store.view, h.deref t ht, h.shape t ht]

/-- **The expansion of the image is the relabelled expansion of the term**, positions
apart. -/
theorem expand (h : Mirror s s' domain known onTerm onVar onCell)
    (hs : s.Acyclic) (hs' : s'.Acyclic) (ht : domain t) :
    (s'.expand (onTerm t)).unplaced = (s.expand t).relabel onVar onCell := by
  induction t using viewInduction hs with
  | layer t ih =>
    rw [Ty.unplaced_eq, shape_expand hs', h.view ht, Shape.map_map,
      Shape.map_relabel, Shape.map_map]
    rw [Ty.relabel_eq, shape_expand hs, Shape.map_map]
    exact congrArg (fun x : Shape Ty => Ty.of (x.relabel onVar onCell))
      (Shape.map_congr fun u hu => ih u hu (h.subterm t ht u hu))

/-! ## Variables -/

theorem beq_known (hf : Set.InjOn onVar known) {v w : VarId}
    (hv : v ∈ known) (hw : w ∈ known) :
    (onVar v == onVar w) = (v == w) := by
  rw [Bool.eq_iff_iff, beq_iff_eq, beq_iff_eq]
  exact hf.eq_iff hv hw

theorem mem_map_known (hf : Set.InjOn onVar known) {v : VarId}
    {l : List VarId} (hv : v ∈ known) (hl : ∀ w ∈ l, w ∈ known) :
    onVar v ∈ l.map onVar ↔ v ∈ l := by
  constructor
  · intro h
    obtain ⟨w, hw, heq⟩ := List.mem_map.1 h
    exact hf (hl w hw) hv heq ▸ hw
  · exact List.mem_map_of_mem

theorem contains_map_known (hf : Set.InjOn onVar known) {v : VarId}
    {l : List VarId} (hv : v ∈ known) (hl : ∀ w ∈ l, w ∈ known) :
    (l.map onVar).contains (onVar v) = l.contains v := by
  rw [Bool.eq_iff_iff, List.contains_iff_mem, List.contains_iff_mem]
  exact mem_map_known hf hv hl

theorem eraseDups_map_known (hf : Set.InjOn onVar known) {l : List VarId}
    (hl : ∀ w ∈ l, w ∈ known) :
    (l.map onVar).eraseDups = l.eraseDups.map onVar := by
  -- The head is removed from the tail, so the recursion is on the length.
  induction hn : l.length using Nat.strong_induction_on generalizing l with
  | _ n ih =>
    cases l with
    | nil => rfl
    | cons v l =>
      obtain ⟨hv, hl⟩ := List.forall_mem_cons.1 hl
      have hrest : l.filter ((fun w => !w == onVar v) ∘ onVar) =
          l.filter fun w => !w == v := by
        exact List.filter_congr fun w hw => congrArg (!·) (beq_known hf (hl w hw) hv)
      have hshort : (l.filter fun w => !w == v).length < n := by
        have := List.length_filter_le (fun w => !w == v) l
        rw [List.length_cons] at hn
        omega
      rw [List.map_cons, List.eraseDups_cons, List.eraseDups_cons, List.filter_map,
        hrest, List.map_cons]
      rw [ih _ hshort (fun w hw => hl w (List.mem_of_mem_filter hw)) rfl]

variable (h : Mirror s s' domain known onTerm onVar onCell)

include h

/-- Every free occurrence of a variable is one of a known variable. -/
theorem freeOccurrences_known (hs : s.Acyclic) (ht : domain t) (bound : List VarId) :
    ∀ v ∈ s.freeOccurrences bound t, v ∈ known := by
  induction t using viewInduction hs generalizing bound with
  | layer t ih =>
    rw [freeOccurrences_eq hs, occurrencesLayer]
    have hsub := h.subterm t ht
    cases hx : s.view t <;> rw [hx] at hsub ih
    case cell c =>
      intro v hv
      have hf := Option.mem_toList.1 (List.mem_of_mem_filter hv)
      exact h.free_known t c v ht hx hf
    case meth m inner =>
      intro v hv
      rcases List.mem_append.1 hv with hv | hv
      · exact ih _ (by simp [Shape.children]) (hsub _ (by simp [Shape.children])) _ v hv
      · exact ih _ (by simp [Shape.children]) (hsub _ (by simp [Shape.children])) _ v hv
    all_goals
      intro v hv
      obtain ⟨u, hu, hv⟩ := List.mem_flatMap.1 hv
      exact ih u hu (hsub u hu) bound v hv

/-- The free occurrences of variables in the image are the images of those in the
term. -/
theorem freeOccurrences (hs : s.Acyclic) (hs' : s'.Acyclic) (ht : domain t)
    {bound : List VarId} (hb : ∀ v ∈ bound, v ∈ known) :
    s'.freeOccurrences (bound.map onVar) (onTerm t) =
      (s.freeOccurrences bound t).map onVar := by
  induction t using viewInduction hs generalizing bound with
  | layer t ih =>
    rw [freeOccurrences_eq hs', freeOccurrences_eq hs, occurrencesLayer,
      occurrencesLayer, h.view ht]
    have hsub := h.subterm t ht
    have hbinders := h.binder_known t ht
    cases hx : s.view t <;> rw [hx] at hsub ih hbinders
    case cell c =>
      dsimp only [Shape.map, Shape.relabel]
      rw [h.freeVar t c ht hx]
      cases hv : s.freeVar? c with
      | none => rfl
      | some v =>
        have hknown := h.free_known t c v ht hx hv
        simp only [Option.map_some, Option.toList_some, List.filter_cons, List.filter_nil,
          contains_map_known h.injective hknown hb]
        cases bound.contains v <;> rfl
    case meth m inner =>
      -- Below the scheme its own variables are bound too, and their images are below
      -- the image.
      have hscheme : ∀ v ∈ m.scheme.vars ++ bound, v ∈ known :=
        List.forall_mem_append.2 ⟨hbinders, hb⟩
      have htype :=
        ih m.scheme.type (by simp [Shape.children])
          (hsub _ (by simp [Shape.children])) hscheme
      have hinner :=
        ih inner (by simp [Shape.children]) (hsub _ (by simp [Shape.children])) hb
      dsimp only [Shape.map, Shape.relabel]
      rw [← List.map_append, htype, hinner, List.map_append]
    all_goals
      change List.flatMap _ (((Shape.map onTerm _).relabel onVar onCell).children) = _
      rw [Shape.children_relabel, Shape.children_map, List.flatMap_map, List.map_flatMap]
      exact List.flatMap_congr fun u hu => ih u hu (hsub u hu) hb

/-- **The free variables of the image are the images of the free variables**, in the
same order. -/
theorem freeVars (hs : s.Acyclic) (hs' : s'.Acyclic) (ht : domain t) :
    s'.freeVars (onTerm t) = (s.freeVars t).map onVar := by
  change (s'.freeOccurrences ([].map onVar) (onTerm t)).eraseDups =
    (s.freeOccurrences [] t).eraseDups.map onVar
  rw [h.freeOccurrences hs hs' ht (by simp),
    eraseDups_map_known h.injective (h.freeOccurrences_known hs ht [])]

/-- A variable occurs in a term just when its image occurs in the image. -/
theorem occurs (hs : s.Acyclic) (hs' : s'.Acyclic) (ht : domain t)
    {v : VarId} (hv : v ∈ known) :
    s'.occurs (onVar v) (onTerm t) = s.occurs v t := by
  induction t using viewInduction hs with
  | layer t ih =>
    rw [occurs_eq hs', occurs_eq hs, occursLayer, occursLayer, h.view ht]
    have hsub := h.subterm t ht
    cases hx : s.view t <;> rw [hx] at hsub ih
    case cell c =>
      dsimp only [Shape.map, Shape.relabel]
      rw [h.freeVar t c ht hx]
      cases hw : s.freeVar? c with
      | none => rfl
      | some w =>
        simp only [Option.map_some, Option.some_beq_some]
        exact beq_known h.injective (h.free_known t c w ht hx hw) hv
    all_goals
      change List.any (((Shape.map onTerm _).relabel onVar onCell).children) _ = _
      rw [Shape.children_relabel, Shape.children_map, List.any_map]
      exact any_congr_left fun u hu => ih u hu (hsub u hu)

/-! ## Methods -/

theorem layers (hs : s.Acyclic) (hs' : s'.Acyclic) (ht : domain t) :
    (s'.layers (onTerm t)).1.map Layer.method =
        (s.layers t).1.map (·.method.image onVar onTerm) ∧
      (s'.layers (onTerm t)).2 = onTerm (s.layers t).2 := by
  induction t using viewInduction hs with
  | layer t ih =>
    have hview := h.view ht
    rcases layers_cases hs t with ⟨pos, m, inner, hd, hl⟩ | ⟨hno, hl⟩
    · have hx := view_of_deref hd
      rw [hx] at hview
      obtain ⟨pos', hl'⟩ := layers_of_meth hs' hview
      have hinner : inner ∈ (s.view t).children := by simp [hx, Shape.children]
      obtain ⟨hmethods, hbase⟩ := ih inner hinner (h.subterm t ht inner hinner)
      rw [hl, hl']
      exact ⟨congrArg₂ List.cons rfl hmethods, hbase⟩
    · have hno' : ∀ m inner, s'.view (onTerm t) ≠ .meth m inner := by
        intro m inner
        rw [hview]
        cases hx : s.view t with
        | meth m' inner' => exact absurd hx (hno m' inner')
        | _ =>
          intro h
          cases h
      rw [hl, layers_of_base hs' hno']
      exact ⟨rfl, rfl⟩

/-- The methods of a term and its base belong to the domain. -/
theorem layers_domain (hs : s.Acyclic) (ht : domain t) :
    (∀ l ∈ (s.layers t).1, domain l.method.scheme.type ∧
        ∀ v ∈ l.method.scheme.vars, v ∈ known) ∧
      domain (s.layers t).2 := by
  induction t using viewInduction hs with
  | layer t ih =>
    rcases layers_cases hs t with ⟨pos, m, inner, hd, hl⟩ | ⟨-, hl⟩
    · have hx := view_of_deref hd
      have hmem : ∀ u ∈ [m.scheme.type, inner], u ∈ (s.view t).children := by
        rw [hx]
        exact fun u hu => hu
      have hinner := hmem inner (by simp)
      obtain ⟨ihm, ihb⟩ := ih inner hinner (h.subterm t ht inner hinner)
      have hvars : ∀ v ∈ m.scheme.vars, v ∈ known := by
        have hbinders := h.binder_known t ht
        rw [hx] at hbinders
        exact hbinders
      rw [hl]
      exact ⟨List.forall_mem_cons.2 ⟨⟨h.subterm t ht _ (hmem _ (by simp)), hvars⟩, ihm⟩,
        ihb⟩
    · rw [hl]
      exact ⟨nofun, ht⟩

omit h in
theorem findMeth?_eq (s : Store) (t : Ty) (name : String) :
    s.findMeth? t name = ((s.layers t).1.map Layer.method).find? (·.name == name) := by
  rw [findMeth?, List.find?_map]
  rfl

theorem findMeth? (hs : s.Acyclic) (hs' : s'.Acyclic) (ht : domain t) (name : String) :
    s'.findMeth? (onTerm t) name =
      (s.findMeth? t name).map (Method.image onVar onTerm) := by
  have hlayers : (s.layers t).1.map (·.method.image onVar onTerm) =
      ((s.layers t).1.map Layer.method).map (Method.image onVar onTerm) := by
    rw [List.map_map]
    rfl
  rw [findMeth?_eq, findMeth?_eq, (h.layers hs hs' ht).1, hlayers, List.find?_map]
  rfl

theorem hasMeth (hs : s.Acyclic) (hs' : s'.Acyclic) (ht : domain t) (name : String) :
    s'.hasMeth (onTerm t) name = s.hasMeth t name := by
  rw [Store.hasMeth, Store.hasMeth, h.findMeth? hs hs' ht, Option.isSome_map]

theorem domain_of_findMeth? (hs : s.Acyclic) (ht : domain t)
    {name : String} {m : Method Ty} (hm : s.findMeth? t name = some m) :
    domain m.scheme.type := by
  obtain ⟨l, hl, rfl⟩ := Option.map_eq_some_iff.1 hm
  exact ((h.layers_domain hs ht).1 l (List.mem_of_find?_eq_some hl)).1

/-- Whatever path is looked up in the image, what is found is the image of what is
found in the term, and what is missing is missing in both. -/
theorem invokePath (hs : s.Acyclic) (hs' : s'.Acyclic) (ht : domain t)
    (path : List String) :
    (s'.invokePath (onTerm t) path).mapError Error.unplaced =
      ((s.invokePath t path).map (Scheme.image onVar onTerm)).mapError
        Error.unplaced := by
  suffices hfrom : ∀ scheme : TypeScheme, domain scheme.type →
      (path.foldlM (fun sc name => s'.invoke sc.type name)
          (scheme.image onVar onTerm)).mapError Error.unplaced =
        ((path.foldlM (fun sc name => s.invoke sc.type name) scheme).map
          (Scheme.image onVar onTerm)).mapError Error.unplaced from hfrom (.mono t) ht
  induction path with
  | nil => exact fun _ _ => rfl
  | cons name path ih =>
    intro scheme hdomain
    have hfind := h.findMeth? hs hs' hdomain name
    simp only [List.foldlM_cons, invoke, Scheme.image] at hfind ⊢
    rw [hfind]
    cases hm : s.findMeth? scheme.type name with
    | none => rfl
    | some m => exact ih m.scheme (h.domain_of_findMeth? hs hdomain hm)

omit h in
/-- What is visible of some methods depends on their names only. -/
theorem visible_image {layers layers' : List Layer}
    (hl : layers'.map Layer.method = layers.map (·.method.image onVar onTerm)) :
    Layer.visible layers' = (Layer.visible layers).map (Method.image onVar onTerm) := by
  induction layers generalizing layers' with
  | nil =>
    rw [List.map_nil, List.map_eq_nil_iff] at hl
    rw [hl]
    rfl
  | cons l layers ih =>
    obtain ⟨l', layers', rfl, hfirst, hrest⟩ := List.map_eq_cons_iff.1 hl
    rw [Layer.visible, Layer.visible, List.foldr_cons, List.foldr_cons,
      ← Layer.visible, ← Layer.visible]
    rw [ih hrest, hfirst, List.filter_map, List.map_cons]
    rfl

theorem splitMeths (hs : s.Acyclic) (hs' : s'.Acyclic) (ht : domain t) :
    s'.splitMeths (onTerm t) =
      ((s.splitMeths t).1.map (Method.image onVar onTerm),
        onTerm (s.splitMeths t).2) := by
  obtain ⟨hmethods, hbase⟩ := h.layers hs hs' ht
  change (Layer.visible (s'.layers (onTerm t)).1, s'.deref (s'.layers (onTerm t)).2) = _
  rw [visible_image hmethods, hbase, h.deref _ (h.layers_domain hs ht).2]
  rfl

theorem splitMeths_domain (hs : s.Acyclic) (ht : domain t) :
    (∀ m ∈ (s.splitMeths t).1, domain m.scheme.type ∧ ∀ v ∈ m.scheme.vars, v ∈ known) ∧
      domain (s.splitMeths t).2 := by
  obtain ⟨hlayers, hbase⟩ := h.layers_domain hs ht
  refine ⟨fun m hm => ?_, h.settled _ hbase⟩
  obtain ⟨l, hl, rfl⟩ := mem_of_mem_visible hm
  exact hlayers l hl

/-! ## Single layers -/

theorem isUnit (ht : domain t) : s'.isUnit (onTerm t) = s.isUnit t := by
  rw [Store.isUnit, Store.isUnit, h.view ht]
  cases s.view t with
  | tuple elems => cases elems <;> rfl
  | _ => rfl

theorem isGround (ht : domain t) (names : List String) :
    s'.isGround (onTerm t) names = s.isGround t names := by
  rw [Store.isGround, Store.isGround, h.view ht]
  cases s.view t with
  | custom kind held => cases kind <;> rfl
  | _ => rfl

theorem varOf? (ht : domain t) : s'.varOf? (onTerm t) = (s.varOf? t).map onVar := by
  rw [Store.varOf?, Store.varOf?, h.view ht]
  cases hx : s.view t with
  | cell c => exact h.freeVar t c ht hx
  | _ => rfl

end Mirror

end Store

end TypeGraph
