import TypeGraph.Term

/-!
# Terms, layer by layer

A term is a tree of layers, and everything that is proved about terms goes down that
tree: `Ty.fold` is the recursion, and `Ty.Everywhere` says that each layer of a term
has a property. Neither of them looks behind a cell; that is the matter of
reachability in a store.

`Ty.relabel` gives the variables and the cells of a term other names. It is what
a copy does to a term, apart from what it does to the store.
-/

namespace TypeGraph

/-! ## One layer -/

namespace Shape

variable {α β : Type}

@[simp] theorem children_map (f : α → β) (x : Shape α) :
    (x.map f).children = x.children.map f := by
  cases x <;> simp [map, children]

@[simp] theorem binders_map (f : α → β) (x : Shape α) :
    (x.map f).binders = x.binders := by
  cases x <;> rfl

theorem map_map {γ : Type} (g : β → γ) (f : α → β) (x : Shape α) :
    (x.map f).map g = x.map fun a => g (f a) := by
  cases x <;> simp [map]

theorem map_id (x : Shape α) : x.map id = x := by
  cases x <;> simp [map]

/-- The image of a layer depends on the images of its subterms only. -/
theorem map_congr {f g : α → β} {x : Shape α} (h : ∀ a ∈ x.children, f a = g a) :
    x.map f = x.map g := by
  cases x with
  | arrow args ret =>
    have hargs : ∀ a ∈ args, f a.type = g a.type := fun a ha =>
      h _ (List.mem_append_left _ (List.mem_map_of_mem ha))
    simpa [map, h ret (by simp [children])] using hargs
  | _ => simp_all [map, children]

/-- What a method is put on is a subterm. -/
theorem inner_mem_children {x : Shape α} {m : Method α} {inner : α}
    (hx : x = .meth m inner) :
    inner ∈ x.children := by
  simp [hx, children]

/-- The cell that a layer refers to, if any. -/
def cells : Shape α → List CellId
  | cell c => [c]
  | _ => []

@[simp] theorem mem_cells {x : Shape α} {c : CellId} : c ∈ x.cells ↔ x = .cell c := by
  cases x <;> simp [cells, eq_comm]

@[simp] theorem cells_map (f : α → β) (x : Shape α) : (x.map f).cells = x.cells := by
  cases x <;> rfl

def isHole : Shape α → Bool
  | hole => true
  | _ => false

theorem isHole_iff {x : Shape α} : x.isHole = true ↔ x = .hole := by
  cases x <;> simp [isHole]

instance (x : Shape α) : Decidable (x = .hole) := decidable_of_iff _ isHole_iff

/-- Other names for the variables that a layer quantifies and for the cell it refers
to. -/
def relabel (onVar : VarId → VarId) (onCell : CellId → CellId) : Shape α → Shape α
  | cell c => cell (onCell c)
  | meth m inner =>
    meth { m with scheme := ⟨m.scheme.vars.map onVar, m.scheme.type⟩ } inner
  | x => x

@[simp] theorem children_relabel (onVar : VarId → VarId)
    (onCell : CellId → CellId) (x : Shape α) :
    (x.relabel onVar onCell).children = x.children := by
  cases x <;> rfl

@[simp] theorem binders_relabel (onVar : VarId → VarId)
    (onCell : CellId → CellId) (x : Shape α) :
    (x.relabel onVar onCell).binders = x.binders.map onVar := by
  cases x <;> rfl

@[simp] theorem cells_relabel (onVar : VarId → VarId)
    (onCell : CellId → CellId) (x : Shape α) :
    (x.relabel onVar onCell).cells = x.cells.map onCell := by
  cases x <;> rfl

theorem relabel_congr {f f' : VarId → VarId} {g g' : CellId → CellId} {x : Shape α}
    (hv : ∀ v ∈ x.binders, f v = f' v) (hc : ∀ c ∈ x.cells, g c = g' c) :
    x.relabel f g = x.relabel f' g' := by
  cases x with
  | cell c => exact congrArg cell (hc c List.mem_cons_self)
  | meth m inner =>
    have hm : m.scheme.vars.map f = m.scheme.vars.map f' := List.map_congr_left hv
    simp only [relabel, hm]
  | _ => rfl

theorem map_relabel (f : α → β) (onVar : VarId → VarId)
    (onCell : CellId → CellId) (x : Shape α) :
    (x.relabel onVar onCell).map f = (x.map f).relabel onVar onCell := by
  cases x <;> rfl

theorem relabel_id (x : Shape α) : x.relabel id id = x := by
  cases x <;> simp [relabel]

end Shape

namespace Ty

@[simp] theorem shape_of (x : Shape Ty) : (of x).shape = x := rfl

/-! ## The size of a term -/

theorem listSize_append (ts us : List Ty) :
    listSize (ts ++ us) = listSize ts + listSize us := by
  induction ts with
  | nil => simp [listSize]
  | cons t ts ih => simp [listSize, ih, Nat.add_assoc]

theorem paramsSize_eq (ps : List (Param Ty)) :
    paramsSize ps = listSize (ps.map (·.type)) := by
  induction ps with
  | nil => rfl
  | cons p ps ih => cases p; simp [paramsSize, paramSize, listSize, ih]

theorem argsSize_eq (as : List (Arg Ty)) : argsSize as = listSize (as.map (·.type)) := by
  induction as with
  | nil => rfl
  | cons a as ih => cases a; simp [argsSize, argSize, listSize, ih]

/-- A term has one node more than its subterms together. -/
theorem size_eq (t : Ty) : t.size = listSize t.shape.children + 1 := by
  obtain ⟨pos, x⟩ := t
  cases x with
  | meth m inner =>
    obtain ⟨_, _, ⟨_, _⟩, _, _⟩ := m
    simp [size, shapeSize, methodSize, schemeSize, shape, Shape.children, listSize]
  | _ =>
    simp [size, shapeSize, shape, Shape.children, listSize, listSize_append,
      paramsSize_eq, argsSize_eq]

theorem size_pos (t : Ty) : 0 < t.size := by
  rw [size_eq]
  omega

theorem size_le_of_mem {u : Ty} {ts : List Ty} (h : u ∈ ts) : u.size ≤ listSize ts := by
  induction ts with
  | nil => exact nomatch h
  | cons t ts ih =>
    rw [listSize]
    rcases List.mem_cons.1 h with rfl | h
    · omega
    · have := ih h
      omega

theorem size_lt_of_mem {t u : Ty} (h : u ∈ t.shape.children) : u.size < t.size := by
  have := size_le_of_mem h
  rw [size_eq t]
  omega

/-! ## Recursion by layers -/

section Fold

variable {α : Type} (f : Option Range → Shape α → α)

mutual

/-- Replace every layer of a term, from the leaves up, by what `f` makes of it. -/
def fold : Ty → α
  | node pos x => f pos (foldShape x)

def foldShape : Shape Ty → Shape α
  | .hole => .hole
  | .cell c => .cell c
  | .constr name params => .constr name (foldParams params)
  | .getter t => .getter t.fold
  | .list repr t => .list repr t.fold
  | .tuple elems => .tuple (foldList elems)
  | .nullable t => .nullable t.fold
  | .arrow args ret => .arrow (foldArgs args) ret.fold
  | .meth m inner => .meth (foldMethod m) inner.fold
  | .custom kind held => .custom kind (foldList held)

def foldList : List Ty → List α
  | [] => []
  | t :: ts => t.fold :: foldList ts

def foldParams : List (Param Ty) → List (Param α)
  | [] => []
  | p :: ps => foldParam p :: foldParams ps

def foldParam : Param Ty → Param α
  | ⟨variance, t⟩ => ⟨variance, t.fold⟩

def foldArgs : List (Arg Ty) → List (Arg α)
  | [] => []
  | a :: as => foldArg a :: foldArgs as

def foldArg : Arg Ty → Arg α
  | ⟨optional, label, t⟩ => ⟨optional, label, t.fold⟩

def foldMethod : Method Ty → Method α
  | ⟨name, optional, scheme, doc, jsonName⟩ =>
    ⟨name, optional, foldScheme scheme, doc, jsonName⟩

def foldScheme : Scheme Ty → Scheme α
  | ⟨vars, t⟩ => ⟨vars, t.fold⟩

end

theorem foldList_eq (ts : List Ty) : foldList f ts = ts.map (fold f) := by
  induction ts with
  | nil => rfl
  | cons t ts ih => simp [foldList, ih]

theorem foldParams_eq (ps : List (Param Ty)) :
    foldParams f ps = ps.map fun p => ⟨p.variance, p.type.fold f⟩ := by
  induction ps with
  | nil => rfl
  | cons p ps ih => cases p; simp [foldParams, foldParam, ih]

theorem foldArgs_eq (as : List (Arg Ty)) :
    foldArgs f as = as.map fun a => ⟨a.optional, a.label, a.type.fold f⟩ := by
  induction as with
  | nil => rfl
  | cons a as ih => cases a; simp [foldArgs, foldArg, ih]

theorem fold_eq (t : Ty) : t.fold f = f t.pos (t.shape.map (fold f)) := by
  obtain ⟨p, x⟩ := t
  cases x with
  | meth m inner =>
    obtain ⟨_, _, ⟨_, _⟩, _, _⟩ := m
    rfl
  | _ =>
    simp [fold, foldShape, Shape.map, pos, shape, foldList_eq, foldParams_eq, foldArgs_eq]

end Fold

/-! ## Properties of every layer -/

/-- Every layer of the term has the property. Cells are leaves here. -/
inductive Everywhere (P : Shape Ty → Prop) : Ty → Prop
  | layer {t : Ty} (here : P t.shape) (subterms : ∀ u ∈ t.shape.children,
    Everywhere P u) : Everywhere P t

namespace Everywhere

variable {P Q : Shape Ty → Prop} {t : Ty}

theorem here (h : t.Everywhere P) : P t.shape := by
  cases h with
  | layer here _ => exact here

theorem sub (h : t.Everywhere P) {u : Ty} (hu : u ∈ t.shape.children) :
    u.Everywhere P := by
  cases h with
  | layer _ subterms => exact subterms u hu

theorem imp (h : t.Everywhere P) (hpq : ∀ x, P x → Q x) : t.Everywhere Q := by
  induction h with
  | layer here _ ih => exact .layer (hpq _ here) ih

end Everywhere

/-- Look at the layers of a term down to depth `n`. -/
def everywhereWithin (p : Shape Ty → Bool) : Nat → Ty → Bool
  | 0, _ => false
  | n + 1, t => p t.shape && t.shape.children.all (everywhereWithin p n)

theorem everywhereWithin_iff {p : Shape Ty → Bool} {n : Nat} {t : Ty} (hn : t.size ≤ n) :
    everywhereWithin p n t = true ↔ t.Everywhere fun x => p x = true := by
  induction n generalizing t with
  | zero => exact absurd hn (Nat.not_le_of_gt t.size_pos)
  | succ n ih =>
    have hsub : ∀ u ∈ t.shape.children, u.size ≤ n := fun u hu => by
      have := size_lt_of_mem hu
      omega
    rw [everywhereWithin, Bool.and_eq_true, List.all_eq_true]
    constructor
    · rintro ⟨h, hall⟩
      exact .layer h fun u hu => (ih (hsub u hu)).1 (hall u hu)
    · intro h
      exact ⟨h.here, fun u hu => (ih (hsub u hu)).2 (h.sub hu)⟩

instance (P : Shape Ty → Prop) [DecidablePred P] (t : Ty) : Decidable (t.Everywhere P) :=
  decidable_of_iff (everywhereWithin (fun x => decide (P x)) t.size t = true) <| by
    rw [everywhereWithin_iff (Nat.le_refl _)]
    exact ⟨fun h => h.imp fun _ hx => of_decide_eq_true hx,
      fun h => h.imp fun _ hx => decide_eq_true hx⟩

/-! ## Other names -/

/-- The term with its variables and cells renamed. It carries no positions. -/
def relabel (onVar : VarId → VarId) (onCell : CellId → CellId) : Ty → Ty :=
  fold fun _ x => of (x.relabel onVar onCell)

variable {f f' : VarId → VarId} {g g' : CellId → CellId}

theorem relabel_eq (t : Ty) :
    t.relabel f g = of ((t.shape.map (relabel f g)).relabel f g) :=
  fold_eq _ t

@[simp] theorem children_relabel (t : Ty) :
    (t.relabel f g).shape.children = t.shape.children.map (relabel f g) := by
  rw [relabel_eq, shape_of, Shape.children_relabel, Shape.children_map]

@[simp] theorem binders_relabel (t : Ty) :
    (t.relabel f g).shape.binders = t.shape.binders.map f := by
  rw [relabel_eq, shape_of, Shape.binders_relabel, Shape.binders_map]

@[simp] theorem cells_relabel (t : Ty) :
    (t.relabel f g).shape.cells = t.shape.cells.map g := by
  rw [relabel_eq, shape_of, Shape.cells_relabel, Shape.cells_map]

theorem shape_relabel_eq_cell {t : Ty} {d : CellId} :
    (t.relabel f g).shape = .cell d ↔ ∃ c, t.shape = .cell c ∧ g c = d := by
  simp only [← Shape.mem_cells, cells_relabel, List.mem_map]

/-- The term without its positions. -/
def unplaced : Ty → Ty := relabel id id

theorem unplaced_eq (t : Ty) : t.unplaced = of (t.shape.map unplaced) := by
  rw [unplaced, relabel_eq, Shape.relabel_id]

/-- A relabelled term depends only on the names of what stands in the term. -/
theorem relabel_congr {t : Ty}
    (h : t.Everywhere fun x => (∀ v ∈ x.binders, f v = f' v) ∧
      ∀ c ∈ x.cells, g c = g' c) :
    t.relabel f g = t.relabel f' g' := by
  induction h with
  | @layer t here _ ih =>
    rw [relabel_eq, relabel_eq, Shape.map_congr ih]
    exact congrArg of (Shape.relabel_congr (by simpa using here.1)
      (by simpa using here.2))

end Ty

end TypeGraph
