import TypeGraph.Proofs.Expansion
import TypeGraph.Proofs.Recursion

/-!
# Recursion that ends by itself

The bound of the functions that read a term behind its links could hide a recursion
that has no end: such a function answers when the bound is used up, and nobody sees
that it was. So the functions are written here once more in a form that admits it. At
depth `n` each of them gives its answer, or none if more than `n` calls would have to
be open at one time.

In an acyclic store all of them end on every term (`EndsWith`): at every depth that is
large enough they give one and the same answer, and that is the answer of the bounded
function. Large enough is the weight of the term.
-/

namespace TypeGraph.Store

variable {s : Store} {t : Ty} {n : Nat}

/-! ## Recursion that may run out of depth -/

/-- Follow links as long as there are any. -/
def derefIn (s : Store) : Nat → Ty → Option Ty
  | 0, _ => none
  | n + 1, t =>
    match t.shape with
    | .cell c =>
      match s.link? c with
      | some (_, u) => s.derefIn n u
      | none => some t
    | _ => some t

/-- Take method layers off as long as there are any. -/
def layersIn (s : Store) : Nat → Ty → Option (List Layer × Ty)
  | 0, _ => none
  | n + 1, t => do
    match ← s.derefIn (n + 1) t with
    | .node pos (.meth m inner) =>
      let (rest, base) ← s.layersIn n inner
      return (⟨pos, m⟩ :: rest, base)
    | _ => return ([], t)

def demethIn (s : Store) (n : Nat) (t : Ty) : Option Ty := do
  s.derefIn n (← s.layersIn n t).2

def splitMethsIn (s : Store) (n : Nat) (t : Ty) : Option (List (Method Ty) × Ty) := do
  let (layers, base) ← s.layersIn n t
  return (Layer.visible layers, ← s.derefIn n base)

/-- Look for a variable, from left to right, until it is found. -/
def occursIn (s : Store) (v : VarId) : Nat → Ty → Option Bool
  | 0, _ => none
  | n + 1, t => do
    match (← s.derefIn (n + 1) t).shape with
    | .cell c => return s.freeVar? c == some v
    | shape => shape.children.anyM (s.occursIn v n)

/-- Collect the free occurrences of variables without those in `bound`. -/
def occurrencesIn (s : Store) : Nat → List VarId → Ty → Option (List VarId)
  | 0, _, _ => none
  | n + 1, bound, t => do
    match (← s.derefIn (n + 1) t).shape with
    | .cell c => return (s.freeVar? c).toList.filter (!bound.contains ·)
    | .meth m inner =>
      return (← s.occurrencesIn n (m.scheme.vars ++ bound) m.scheme.type) ++
        (← s.occurrencesIn n bound inner)
    | shape => return (← shape.children.mapM (s.occurrencesIn n bound)).flatten

def freeVarsIn (s : Store) (n : Nat) (t : Ty) : Option (List VarId) :=
  return (← s.occurrencesIn n [] t).eraseDups

/-- Extend a renaming so that it takes `a` to `b`, if that ends, and if there is a way
to do it. -/
def matchingIn (s : Store) : Nat → Ty → Ty → Renaming → OptionT Option Renaming
  | 0, _, _, _ => .mk none
  | n + 1, a, b, r => do
    match (← s.derefIn (n + 1) a).shape, (← s.derefIn (n + 1) b).shape with
    | .cell c, .cell d =>
      match s.freeVar? c, s.freeVar? d with
      | some v, some w => .mk (some (s.renameVar v w r))
      | _, _ => failure
    | x, y =>
      if x.alike y then do
        let r ← .mk (some (s.renameVars x.binders y.binders r))
        (x.children.zip y.children).foldlM (fun r p => s.matchingIn n p.1 p.2 r) r
      else failure

def isomorphicIn (s : Store) (n : Nat) (a b : Ty) : Option Bool :=
  return (← (s.matchingIn n a b []).run).isSome

/-- A step of naming, among steps that may run out of depth. -/
def ended {α : Type} (step : StateM Names α) : StateT Names Option α :=
  fun names => some (step names)

/-- The text of a term, and the variables that it names. -/
def textIn (s : Store) : Nat → Ty → StateT Names Option String
  | 0, _ => fun _ => none
  | n + 1, t => do
    match (← s.derefIn (n + 1) t).shape with
    | .cell c =>
      match s.freeVar? c with
      | some v => ended (Names.name v)
      | none => return "?"
    | .meth _ _ => do
      let (methods, base) ← s.splitMethsIn (n + 1) t
      let fields ← methods.mapM fun m => do
        discard <| ended (m.scheme.vars.mapM Names.name)
        return fieldText m (← s.textIn n m.scheme.type)
      let fields := "\x7b" ++ ", ".intercalate fields ++ "\x7d"
      if base.shape.isUnit then return fields
      return (← s.textIn n base) ++ "." ++ fields
    | shape => return shape.text (← shape.children.mapM (s.textIn n))

def renderIn (s : Store) (n : Nat) (t : Ty) : Option String := do
  let (text, names) ← (s.textIn n t).run []
  return text ++ s.whereClause names

/-- **The recursion ends** with the answer, at every depth that is large enough. -/
def EndsWith {β : Type} (f : Nat → Option β) (answer : β) : Prop :=
  ∃ n, ∀ m, n ≤ m → f m = some answer

/-! ## Following links -/

/-- **Induction on the depth**, for terms whose weight it covers. -/
@[elab_as_elim]
theorem depthInduction {motive : (n : Nat) → (t : Ty) → s.weight t ≤ n → Prop}
    (deeper : ∀ n t (hn : s.weight t ≤ n + 1),
      (∀ u (hu : s.weight u < s.weight t),
          motive n u (Nat.le_of_lt_succ (hu.trans_le hn))) →
        motive (n + 1) t hn)
    (n : Nat) (t : Ty) (hn : s.weight t ≤ n) : motive n t hn := by
  induction n generalizing t with
  | zero => exact absurd hn (Nat.not_le_of_gt (s.weight_pos t))
  | succ n ih => exact deeper n t hn fun u _ => ih u _

theorem derefIn_eq (hs : s.Acyclic) (hn : s.weight t ≤ n) :
    s.derefIn n t = some (s.deref t) := by
  induction n, t, hn using depthInduction with
  | deeper n t _ ih =>
    rcases s.linked_or_settled t with ⟨c, variance, u, hc, hl⟩ | h
    · rw [derefIn, deref_link hs hc hl]
      simp only [hc, hl]
      exact ih u (weight_lt_of_step hs (.link hc hl))
    · rw [derefIn, deref_settled h]
      split
      · rename_i c hc
        rw [h c hc]
      · rfl

/-! ## Methods -/

theorem layersIn_eq (hs : s.Acyclic) (hn : s.weight t ≤ n) :
    s.layersIn n t = some (s.layers t) := by
  induction n, t, hn using depthInduction with
  | deeper n t hn ih =>
    rw [layersIn, derefIn_eq hs hn, Option.bind_eq_bind, Option.bind_some]
    rcases layers_cases hs t with ⟨pos, m, inner, hd, hl⟩ | ⟨hno, hl⟩
    · have hinner : s.weight inner < s.weight t :=
        weight_lt_of_mem_view hs (by rw [view_of_deref hd]; simp [Shape.children])
      rw [hl, hd]
      simp only [ih inner hinner]
      rfl
    · rw [hl]
      split
      · rename_i pos m inner hd
        exact absurd (view_of_deref hd) (hno m inner)
      · rfl

theorem demethIn_eq (hs : s.Acyclic) (hn : s.weight t ≤ n) :
    s.demethIn n t = some (s.demeth t) := by
  rw [demethIn, layersIn_eq hs hn, Option.bind_eq_bind, Option.bind_some]
  exact derefIn_eq hs ((weight_layers_le hs t).2.trans hn)

theorem splitMethsIn_eq (hs : s.Acyclic) (hn : s.weight t ≤ n) :
    s.splitMethsIn n t = some (s.splitMeths t) := by
  have hbase : s.derefIn n (s.layers t).2 = some (s.deref (s.layers t).2) :=
    derefIn_eq hs ((weight_layers_le hs t).2.trans hn)
  rw [splitMethsIn, layersIn_eq hs hn, Option.bind_eq_bind, Option.bind_some]
  simp only [hbase]
  rfl

/-! ## Variables -/

theorem anyM_eq_some {α : Type} {f : α → Option Bool} {g : α → Bool} {l : List α}
    (h : ∀ a ∈ l, f a = some (g a)) : l.anyM f = some (l.any g) := by
  induction l with
  | nil => rfl
  | cons a l ih =>
    rw [List.anyM, h a List.mem_cons_self, List.any_cons,
      ih fun b hb => h b (List.mem_cons_of_mem a hb)]
    cases g a <;> rfl

theorem occursIn_eq (hs : s.Acyclic) (v : VarId) (hn : s.weight t ≤ n) :
    s.occursIn v n t = some (s.occurs v t) := by
  induction n, t, hn using depthInduction with
  | deeper n t hn ih =>
    have hsub : ∀ u ∈ (s.view t).children, s.occursIn v n u = some (s.occurs v u) :=
      fun u hu => ih u (weight_lt_of_mem_view hs hu)
    rw [occursIn, derefIn_eq hs hn, occurs_eq hs, occursLayer,
      Option.bind_eq_bind, Option.bind_some]
    change (match s.view t with | .cell c => _ | _ => _) = _
    cases hx : s.view t <;> rw [hx] at hsub
    case cell c => rfl
    all_goals exact anyM_eq_some hsub

theorem mapM_eq_some {α β : Type} {f : α → Option β} {g : α → β} {l : List α}
    (h : ∀ a ∈ l, f a = some (g a)) :
    l.mapM f = some (l.map g) := by
  induction l with
  | nil => rfl
  | cons a l ih =>
    rw [List.mapM_cons, h a List.mem_cons_self,
      ih fun b hb => h b (List.mem_cons_of_mem a hb)]
    rfl

theorem occurrencesIn_eq (hs : s.Acyclic) (hn : s.weight t ≤ n) (bound : List VarId) :
    s.occurrencesIn n bound t = some (s.freeOccurrences bound t) := by
  revert bound
  induction n, t, hn using depthInduction with
  | deeper n t hn ih =>
    intro bound
    have hsub : ∀ u ∈ (s.view t).children, ∀ bound,
        s.occurrencesIn n bound u = some (s.freeOccurrences bound u) :=
      fun u hu => ih u (weight_lt_of_mem_view hs hu)
    rw [occurrencesIn, derefIn_eq hs hn, freeOccurrences_eq hs, occurrencesLayer,
      Option.bind_eq_bind, Option.bind_some]
    change (match s.view t with | .cell c => _ | .meth m inner => _ | _ => _) = _
    cases hx : s.view t <;> rw [hx] at hsub
    case cell c => rfl
    case meth m inner =>
      simp only [hsub m.scheme.type (by simp [Shape.children]),
        hsub inner (by simp [Shape.children])]
      rfl
    all_goals
      simp only [mapM_eq_some fun u hu => hsub u hu bound, List.flatMap]
      rfl

theorem freeVarsIn_eq (hs : s.Acyclic) (hn : s.weight t ≤ n) :
    s.freeVarsIn n t = some (s.freeVars t) := by
  rw [freeVarsIn, occurrencesIn_eq hs hn]
  rfl

/-! ## Isomorphism -/

/-- Two lists of one length, side by side. -/
theorem foldlM_zip_eq {f : Ty → Ty → Renaming → OptionT Option Renaming}
    {g : Ty → Ty → Renaming → Option Renaming} {as bs : List Ty}
    (hlen : as.length = bs.length)
    (h : ∀ a ∈ as, ∀ b ∈ bs, ∀ r, f a b r = .mk (some (g a b r))) (r : Renaming) :
    (as.zip bs).foldlM (fun r p => f p.1 p.2 r) r = .mk (some (matchAll g as bs r)) := by
  induction as generalizing bs r with
  | nil =>
    cases bs with
    | nil => rfl
    | cons b bs => cases hlen
  | cons a as ih =>
    cases bs with
    | nil => cases hlen
    | cons b bs =>
      have hrest := ih (Nat.succ.inj hlen) fun a ha b hb =>
        h a (List.mem_cons_of_mem _ ha) b (List.mem_cons_of_mem _ hb)
      rw [List.zip_cons_cons, List.foldlM_cons,
        h a List.mem_cons_self b List.mem_cons_self, matchAll]
      cases g a b r with
      | none => rfl
      | some r' => exact hrest r'

/-- The depth has to cover both terms. -/
theorem matchingIn_eq (hs : s.Acyclic) {a b : Ty} (ha : s.weight a ≤ n)
    (hb : s.weight b ≤ n) (r : Renaming) :
    s.matchingIn n a b r = .mk (some (s.matching a b r)) := by
  revert b r
  induction n, a, ha using depthInduction with
  | deeper n a ha ih =>
    intro b hb r
    rw [matchingIn, derefIn_eq hs ha, derefIn_eq hs hb, matching_eq hs]
    change (match s.view a, s.view b with | .cell c, .cell d => _ | x, y => _) = _
    split
    · rename_i c d hx hy
      simp only [matchLayer, hx, hy]
      cases s.freeVar? c <;> cases s.freeVar? d <;> rfl
    · rename_i hcells
      rw [matchLayer_eq fun c d hx hy => hcells c d hx hy]
      by_cases halike : (s.view a).alike (s.view b) = true
      · have hlen := ((Shape.alike_iff _ _).1 halike).2.2.2
        have hparts : ∀ u ∈ (s.view a).children, ∀ w ∈ (s.view b).children, ∀ r,
            s.matchingIn n u w r = .mk (some (s.matching u w r)) := by
          intro u hu w hw
          have hlight := weight_lt_of_mem_view hs hw
          exact ih u (weight_lt_of_mem_view hs hu) (by omega)
        rw [if_pos halike, if_pos halike]
        cases s.renameVars (s.view a).binders (s.view b).binders r with
        | none => rfl
        | some r' => exact foldlM_zip_eq hlen hparts r'
      · rw [if_neg halike, if_neg halike]
        rfl

theorem isomorphicIn_eq (hs : s.Acyclic) {a b : Ty} (ha : s.weight a ≤ n)
    (hb : s.weight b ≤ n) :
    s.isomorphicIn n a b = some (s.isomorphic a b) := by
  rw [isomorphicIn, matchingIn_eq hs ha hb]
  rfl

/-! ## Rendering -/

theorem ended_bind {α β : Type} (step : StateM Names α) (next : α → StateM Names β) :
    (ended step >>= fun a => ended (next a)) = ended (step >>= next) := rfl

theorem lift_some_bind {α β : Type} (a : α) (next : α → StateT Names Option β) :
    (liftM (some a) >>= next) = next a := rfl

theorem ended_mapM {α β : Type} {f : α → StateT Names Option β}
    {g : α → StateM Names β} {l : List α} (h : ∀ a ∈ l, f a = ended (g a)) :
    l.mapM f = ended (l.mapM g) := by
  induction l with
  | nil => rfl
  | cons a l ih =>
    rw [List.mapM_cons, List.mapM_cons, h a List.mem_cons_self,
      ih fun b hb => h b (List.mem_cons_of_mem a hb)]
    rfl

/-- The text of a term with methods, if the texts of their types and of the base are
given. -/
theorem textIn_methods (hs : s.Acyclic) (hn : s.weight t ≤ n + 1)
    {m : Method Ty} {inner : Ty} (hx : s.view t = .meth m inner)
    (ih : ∀ u, s.weight u < s.weight t → s.textIn n u = ended (s.rendered u)) :
    s.textIn (n + 1) t = ended (s.renderLayer s.rendered t) := by
  have hmethods : ∀ m ∈ (s.splitMeths t).1,
      s.textIn n m.scheme.type = ended (s.rendered m.scheme.type) :=
    fun m hm => ih _ (weight_method_lt hs hm)
  have hbase := ih _ (weight_base_lt hs hx)
  have hunit : s.view (s.splitMeths t).2 = (s.splitMeths t).2.shape :=
    congrArg Ty.shape (deref_deref hs _)
  rw [textIn, derefIn_eq hs hn, splitMethsIn_eq hs hn, lift_some_bind, renderLayer]
  change (match s.view t with | .cell c => _ | .meth _ _ => _ | _ => _) = _
  simp only [hx]
  rw [lift_some_bind]
  -- From here on the methods and the base are any that have their texts.
  generalize s.splitMeths t = split at *
  obtain ⟨methods, base⟩ := split
  have hfields : (methods.mapM fun m => do
        discard <| ended (m.scheme.vars.mapM Names.name)
        return fieldText m (← s.textIn n m.scheme.type)) =
      ended (methods.mapM fun m => do
        discard <| m.scheme.vars.mapM Names.name
        return fieldText m (← s.rendered m.scheme.type)) :=
    ended_mapM fun m hm => by rw [hmethods m hm]; rfl
  dsimp only at hbase hunit ⊢
  rw [hfields, hbase, ← ended_bind]
  refine congrArg _ (funext fun fields => ?_)
  rw [isUnit, hunit]
  cases base.shape.isUnit <;> rfl

theorem textIn_eq (hs : s.Acyclic) (hn : s.weight t ≤ n) :
    s.textIn n t = ended (s.rendered t) := by
  induction n, t, hn using depthInduction with
  | deeper n t hn ih =>
    have hparts : (s.view t).children.mapM (s.textIn n) =
        ended ((s.view t).children.mapM s.rendered) :=
      ended_mapM fun u hu => ih u (weight_lt_of_mem_view hs hu)
    rw [rendered_eq hs]
    cases hx : s.view t <;> rw [hx] at hparts
    case meth m inner => exact textIn_methods hs hn hx ih
    case cell c =>
      rw [textIn, derefIn_eq hs hn, lift_some_bind, renderLayer]
      change (match s.view t with | .cell c => _ | .meth _ _ => _ | _ => _) = _
      simp only [hx]
      cases hv : s.freeVar? c <;> rfl
    all_goals
      rw [textIn, derefIn_eq hs hn, lift_some_bind, renderLayer]
      change (match s.view t with | .cell c => _ | .meth _ _ => _ | _ => _) = _
      simp only [hx, hparts]
      rfl

theorem renderIn_eq (hs : s.Acyclic) (hn : s.weight t ≤ n) :
    s.renderIn n t = some (s.render t) := by
  rw [renderIn, textIn_eq hs hn]
  rfl

/-! ## All of them -/

/-- Reading the term ends, whatever is asked, with the answer of the bounded
function. -/
structure Ends (s : Store) (t : Ty) : Prop where
  deref : EndsWith (s.derefIn · t) (s.deref t)
  demeth : EndsWith (s.demethIn · t) (s.demeth t)
  freeVars : EndsWith (s.freeVarsIn · t) (s.freeVars t)
  occurs : ∀ v, EndsWith (s.occursIn v · t) (s.occurs v t)
  isomorphic : ∀ u, EndsWith (s.isomorphicIn · t u) (s.isomorphic t u)
  render : EndsWith (s.renderIn · t) (s.render t)

/-- **In an acyclic store everything ends.** -/
theorem Acyclic.ends (hs : s.Acyclic) (t : Ty) : s.Ends t where
  deref := ⟨s.weight t, fun _ hm => derefIn_eq hs hm⟩
  demeth := ⟨s.weight t, fun _ hm => demethIn_eq hs hm⟩
  freeVars := ⟨s.weight t, fun _ hm => freeVarsIn_eq hs hm⟩
  occurs v := ⟨s.weight t, fun _ hm => occursIn_eq hs v hm⟩
  isomorphic u :=
    ⟨s.weight t + s.weight u, fun _ hm => isomorphicIn_eq hs (by omega) (by omega)⟩
  render := ⟨s.weight t, fun _ hm => renderIn_eq hs hm⟩

end TypeGraph.Store
