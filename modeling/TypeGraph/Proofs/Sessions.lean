import TypeGraph.Constraint.Check
import TypeGraph.Proofs.Registration
import TypeGraph.Proofs.StoreHistory

/-!
# Programs that use a store

A session is a store together with what a program has in hand: variables, cells, terms
and schemes, and registries with origins of its own. The program can take apart what
it has and put terms together (`Obtains`), and it makes requests (`Becomes`): it draws
variables and cells, links cells, lowers levels, adds constraints, copies and
instantiates, checks constraints, registers origins and has types built. It can use
only what it has in hand.

Checks call back into the program, and so does building a type. What the program does
there is again nothing but requests, made with what it has in hand by then, and it may
go wrong at any point: after a request that was refused the program goes on with the
store as it has been left.

However the program proceeds, everything it has in hand is of the store, and the store
only evolves (`Becomes.advances`). So what is drawn next has never been seen before
(`session_wellFormed`).
-/

namespace TypeGraph

/-! ## What a program has in hand -/

/-- What a program can have in hand. -/
inductive Handle where
  | var (v : VarId)
  | cell (c : CellId)
  | term (t : Ty)
  | scheme (σ : TypeScheme)

/-- What is in hand belongs to the store. -/
def Handle.InScope (s : Store) : Handle → Prop
  | var v => v < s.vars.size
  | cell c => c < s.cells.size
  | term t => s.Scoped t
  | scheme σ => (∀ v ∈ σ.vars, v < s.vars.size) ∧ s.Scoped σ.type

theorem Handle.InScope.mono {s s' : Store} (h : s.Evolves s') :
    ∀ {x : Handle}, x.InScope s → x.InScope s'
  | .var _, hx => Nat.lt_of_lt_of_le hx h.vars_le
  | .cell _, hx => Nat.lt_of_lt_of_le hx h.cells_le
  | .term _, hx => h.scope hx
  | .scheme _, hx => ⟨fun v hv => Nat.lt_of_lt_of_le (hx.1 v hv) h.vars_le, h.scope hx.2⟩

/-- A layer of the term quantifies the variable. -/
inductive Ty.Binds (v : VarId) : Ty → Prop
  | here {t : Ty} (h : v ∈ t.shape.binders) : Binds v t
  | under {t u : Ty} (hu : u ∈ t.shape.children) (h : Binds v u) : Binds v t

/-- What is in hand names the variable. What cells hold is the matter of the store. -/
def Handle.Names (v : VarId) : Handle → Prop
  | var w => w = v
  | cell _ => False
  | term t => t.Binds v
  | scheme σ => v ∈ σ.vars ∨ σ.type.Binds v

/-- The origins that a recipe uses. -/
def Recipe.origins {τ : Type} (r : Recipe τ) : List τ :=
  r.start.toList ++ r.fields.map (·.origin)

/-- **A session**: a store, what the program has in hand, and its registries. -/
structure Session (τ : Type) where
  store : Store
  known : List Handle
  registries : List (Registry τ)

/-- What a program computes in a session. -/
abbrev SessionM (τ : Type) := Attempt (Session τ)

namespace Session

variable {τ α β : Type} {p q r : Session τ} {t u : Ty} {x : Handle}

instance : MonadStateOf Store (SessionM τ) where
  get := return (← getThe (Session τ)).store
  set s := modifyThe (Session τ) fun p => { p with store := s }
  modifyGet f :=
    modifyGetThe (Session τ) fun p => ((f p.store).1, { p with store := (f p.store).2 })

/-- The program has one more thing in hand. -/
def learn (p : Session τ) (x : Handle) : Session τ := { p with known := x :: p.known }

/-- **What a program can get from what it has in hand**, without a request: by reading
cells, by taking terms and schemes apart and putting them together, and by
generalizing. -/
inductive Obtains (p : Session τ) : Handle → Prop
  | known {x : Handle} (h : x ∈ p.known) : Obtains p x
  | free {c : CellId} {v : VarId} (h : Obtains p (.cell c))
    (hf : p.store.freeVar? c = some v) : Obtains p (.var v)
  | target {c : CellId} {variance : Variance} {t : Ty} (h : Obtains p (.cell c))
      (hl : p.store.link? c = some (variance, t)) : Obtains p (.term t)
  | binder {t : Ty} {v : VarId} (h : Obtains p (.term t)) (hv : v ∈ t.shape.binders) :
    Obtains p (.var v)
  | cell {t : Ty} {c : CellId} (h : Obtains p (.term t)) (hc : t.shape = .cell c) :
    Obtains p (.cell c)
  | child {t u : Ty} (h : Obtains p (.term t)) (hu : u ∈ t.shape.children) :
    Obtains p (.term u)
  | node (pos : Option Range) {x : Shape Ty}
      (hbinders : ∀ v ∈ x.binders, Obtains p (.var v))
      (hcells : ∀ c ∈ x.cells, Obtains p (.cell c))
      (hchildren : ∀ u ∈ x.children, Obtains p (.term u)) :
      Obtains p (.term (.node pos x))
  | quantified {σ : TypeScheme} {v : VarId} (h : Obtains p (.scheme σ))
    (hv : v ∈ σ.vars) : Obtains p (.var v)
  | body {σ : TypeScheme} (h : Obtains p (.scheme σ)) : Obtains p (.term σ.type)
  | scheme {vars : List VarId} {t : Ty} (hvars : ∀ v ∈ vars, Obtains p (.var v))
      (ht : Obtains p (.term t)) : Obtains p (.scheme ⟨vars, t⟩)
  | generalize {t : Ty} (level : Level) (ht : Obtains p (.term t)) :
      Obtains p (.scheme (p.store.generalize level t))

/-- The session comes after another one: the store has evolved, and nothing has been
forgotten. -/
structure Later (p q : Session τ) : Prop where
  evolves : p.store.Evolves q.store
  known : ∀ x ∈ p.known, x ∈ q.known

/-! ## Requests -/

/-- The session after a request for a term. A request that was refused may have
changed the store. -/
def received (p : Session τ) : Except Misuse Ty × Store → Session τ
  | (.ok t, s) => { p with store := s }.learn (.term t)
  | (.error _, s) => { p with store := s }

/-- The session after a type was asked for. -/
def materialized : Except Misuse (Except Error Ty) × Session τ → Session τ
  | (.ok (.ok t), q) => q.learn (.term t)
  | (_, q) => q

/-- **What can become of a session.** Where a request calls back into the program,
what becomes of the session there is again described by the same rules. -/
inductive Becomes (build : τ → SessionM τ Ty) : Session τ → Session τ → Prop
  | done (p : Session τ) : Becomes build p p
  | andThen {p q r : Session τ} (h : Becomes build p q) (h' : Becomes build q r) :
    Becomes build p r
  | learn {p : Session τ} {x : Handle} (h : p.Obtains x) : Becomes build p (p.learn x)
  | newVar (p : Session τ) (level : Level) (constraints : ConstraintSet) :
      Becomes build p ({ p with store := (p.store.newVar level constraints).2 }.learn
        (.var (p.store.newVar level constraints).1))
  | newCell {p : Session τ} {v : VarId} (hv : .var v ∈ p.known) :
      Becomes build p ({ p with store := (p.store.newCell (.free v)).2 }.learn
        (.cell (p.store.newCell (.free v)).1))
  | setLink {p : Session τ} {c : CellId} {t : Ty} (hc : .cell c ∈ p.known)
      (ht : .term t ∈ p.known)
      (variance : Variance) :
      Becomes build p { p with store := p.store.linked c variance t }
  | lowerLevel {p : Session τ} {v : VarId} (hv : .var v ∈ p.known) (level : Level) :
      Becomes build p { p with store := p.store.lowerLevel v level }
  | constrain {p : Session τ} {v : VarId} (hv : .var v ∈ p.known) (c : Constraint) :
      Becomes build p { p with store := p.store.constrain v c }
  | fresh {p : Session τ} {t : Ty} (ht : .term t ∈ p.known) (opts : CopyOptions) :
      Becomes build p (p.received (p.store.fresh opts t))
  | instantiate {p : Session τ} {σ : TypeScheme}
      (hσ : .scheme σ ∈ p.known) (level : Level) :
      Becomes build p (p.received (p.store.instantiate σ level))
  | check {p : Session τ} {t : Ty} {d : Demand (SessionM τ)}
      (hd : d = .num ∨ d = .ord ∨ d = .record)
      (ht : .term t ∈ p.known) (sat : Satisfier (SessionM τ))
      (hsubtype : ∀ q a b, p.Later q → q.Obtains (.term a) → q.Obtains (.term b) →
        Becomes build q ((sat.subtype a b).outcome q).2)
      (hsatisfies : ∀ q a, p.Later q → q.Obtains (.term a) →
        Becomes build q ((sat.satisfies a).outcome q).2) :
      Becomes build p ((d.check sat t).outcome p).2
  | newRegistry (p : Session τ) :
    Becomes build p { p with registries := p.registries ++ [.empty] }
  | register (p : Session τ) (i : Nat) (name doc : String) (origin : τ) :
      Becomes build p { p with
                        registries := p.registries.modify i (·.register name doc origin) }
  | materialize {p : Session τ} {r : Registry τ} (hr : r ∈ p.registries) (name : String)
      (hbuild : ∀ recipe, r.find? name = some recipe →
        ∀ o ∈ recipe.origins, ∀ q, p.Later q → Becomes build q ((build o).outcome q).2)
      (hbuilt : ∀ recipe, r.find? name = some recipe →
        ∀ o ∈ recipe.origins, ∀ q t, p.Later q →
        ((build o).outcome q).1 = .ok t → ((build o).outcome q).2.Obtains (.term t)) :
      Becomes build p (materialized ((r.materialize build name).outcome p))

/-! ## What all requests keep -/

/-- Everything the program has in hand belongs to the store. -/
structure Sound (p : Session τ) : Prop where
  store : p.store.WellFormed
  known : ∀ x ∈ p.known, x.InScope p.store

theorem Later.refl (p : Session τ) : p.Later p := ⟨.refl _, fun _ h => h⟩

theorem Later.trans (h : p.Later q) (h' : q.Later r) : p.Later r :=
  ⟨h.evolves.trans h'.evolves, fun x hx => h'.known x (h.known x hx)⟩

/-- **What a program can get belongs to the store.** -/
theorem Obtains.inScope (h : p.Obtains x) (hp : p.Sound) : x.InScope p.store := by
  induction h with
  | known h => exact hp.known _ h
  | free _ hf _ => exact hp.store.var_lt hf
  | target _ hl _ => exact hp.store.target_scope hl
  | binder _ hv ih => exact ih.here.1 _ hv
  | cell _ hc ih => exact ih.here.2 _ (by simp [hc])
  | child _ hu ih => exact ih.sub hu
  | node pos _ _ _ ihbinders ihcells ihchildren =>
    exact .layer ⟨ihbinders, ihcells⟩ ihchildren
  | quantified _ hv ih => exact ih.1 _ hv
  | body _ ih => exact ih.2
  | scheme _ _ ihvars iht => exact ⟨ihvars, iht⟩
  | generalize level _ ih =>
    exact ⟨fun v hv => Store.lt_of_mem_freeVars hp.store (List.mem_of_mem_filter hv), ih⟩

theorem Obtains.overCell {c : CellId} (h : p.Obtains (.cell c)) :
    p.Obtains (.term (.of (.cell c))) := by
  refine .node none (fun v hv => absurd hv List.not_mem_nil) (fun d hd => ?_) fun u hu =>
    absurd hu List.not_mem_nil
  rwa [List.mem_singleton.1 hd]

/-- A layer that names no variables and no cells can be had if its subterms can. -/
theorem Obtains.layer {x : Shape Ty} (hbinders : x.binders = []) (hcells : x.cells = [])
    (hx : ∀ u ∈ x.children, p.Obtains (.term u)) : p.Obtains (.term (.of x)) := by
  refine .node none (fun v hv => ?_) (fun c hc => ?_) hx
  · rw [hbinders] at hv
    cases hv
  · rw [hcells] at hc
    cases hc

/-- What can be reached from a term in hand can be had, then and later. -/
theorem Later.obtains (h : p.Later q) (ht : .term t ∈ p.known)
    (hr : p.store.Reaches t u) : q.Obtains (.term u) := by
  have hlater := h.evolves.reaches hr
  clear hr
  induction hlater with
  | refl => exact .known (h.known _ ht)
  | tail _ hstep ih =>
    cases hstep with
    | child hu => exact .child ih hu
    | link hc hl => exact .target (.cell ih hc) hl

/-- The session goes on, and everything in hand still belongs to the store. -/
def Advances (p q : Session τ) : Prop := q.Sound ∧ p.Later q

theorem Sound.advances_refl (hp : p.Sound) : p.Advances p := ⟨hp, .refl p⟩

theorem Advances.trans (h : p.Advances q) (h' : q.Advances r) : p.Advances r :=
  ⟨h'.1, h.2.trans h'.2⟩

theorem Sound.evolve (hp : p.Sound) {s : Store} (he : p.store.Evolves s)
    (hs : s.WellFormed) :
    p.Advances { p with store := s } :=
  ⟨⟨hs, fun x hx => (hp.known x hx).mono he⟩, he, fun _ h => h⟩

theorem Sound.learn (hp : p.Sound) (hx : x.InScope p.store) : p.Advances (p.learn x) :=
  ⟨⟨hp.store, List.forall_mem_cons.2 ⟨hx, hp.known⟩⟩, .refl _,
    fun _ h => List.mem_cons_of_mem _ h⟩

theorem Sound.received (hp : p.Sound) {result : Except Misuse Ty × Store}
    (hw : p.store.Within result.2) (hs : result.2.WellFormed)
    (ht : ∀ t, result.1 = .ok t → result.2.Scoped t) :
    p.Advances (p.received result) := by
  have hstore := hp.evolve (.of_within hw) hs
  rcases result with ⟨e | t, s⟩
  · exact hstore
  · exact hstore.trans (hstore.1.learn (ht t rfl))

/-- What was asked for is in hand. -/
theorem obtains_received {result : Except Misuse Ty × Store} (h : result.1 = .ok t) :
    (p.received result).Obtains (.term t) := by
  rcases result with ⟨e | u, s⟩
  · cases h
  · cases h
    exact .known (.head _)

/-! ## Computations in a session -/

/-- The computation advances the session, and what it gives is as `post` says. -/
def Safe (p : Session τ) (x : SessionM τ α) (post : Session τ → α → Prop) : Prop :=
  p.Sound → p.Advances (x.outcome p).2 ∧ ∀ a, (x.outcome p).1 = .ok a →
    post (x.outcome p).2 a

namespace Safe

variable {y : SessionM τ α} {f : α → SessionM τ β} {mid : Session τ → α → Prop}
  {post : Session τ → β → Prop}

theorem pure {a : β} (h : p.Sound → post p a) : p.Safe (Pure.pure a) post := by
  intro hp
  refine ⟨hp.advances_refl, fun b hb => ?_⟩
  cases hb
  exact h hp

/-- **Computations one after the other.** -/
theorem bind (h : p.Safe y mid)
    (hf : ∀ q a, q.Sound → p.Later q → mid q a → q.Safe (f a) post) :
    p.Safe (y >>= f) post := by
  intro hp
  obtain ⟨hadvance, hmid⟩ := h hp
  rcases hy : y.outcome p with ⟨e | a, q⟩ <;> rw [hy] at hadvance hmid
  · rw [Attempt.outcome_bind_error hy]
    exact ⟨hadvance, fun b hb => by cases hb⟩
  · rw [Attempt.outcome_bind_ok hy]
    obtain ⟨hnext, hpost⟩ := hf q a hadvance.1 hadvance.2 (hmid a rfl) hadvance.1
    exact ⟨hadvance.trans hnext, hpost⟩

theorem get {f : Store → SessionM τ β} (h : p.Safe (f p.store) post) :
    p.Safe (getThe Store >>= f) post := h

theorem modify {f : Store → Store} (he : p.store.Evolves (f p.store))
    (hs : p.Sound → (f p.store).WellFormed) :
    p.Safe (modifyThe Store f) fun _ _ => True :=
  fun hp => ⟨hp.evolve he (hs hp), fun _ _ => trivial⟩

end Safe

theorem safe_constrain (v : VarId) (c : Constraint) :
    p.Safe (modifyThe Store (·.constrain v c)) fun _ _ => True :=
  .modify (.constrain p.store v c) fun hp =>
    hp.store.of_cells (Store.Evolves.constrain p.store v c).vars_le rfl

/-! ## Checks -/

section Checks

variable {sat : Satisfier (SessionM τ)}

/-- Questions about terms that can be reached from one in hand. -/
theorem safe_all {ask : Ty → SessionM τ (Option Error)} {ts : List Ty}
    (h : ∀ u ∈ ts, ∀ q, p.Later q → q.Safe (ask u) fun _ _ => True) :
    p.Safe (Demand.all ask ts) fun _ _ => True := by
  induction ts generalizing p with
  | nil => exact .pure fun _ => trivial
  | cons u ts ih =>
    obtain ⟨hu, hts⟩ := List.forall_mem_cons.1 h
    refine .bind (hu p (.refl p)) fun q result _ hq _ => ?_
    cases result with
    | some e => exact .pure fun _ => trivial
    | none => exact ih fun w hw r hr => hts w hw r (hq.trans hr)

theorem safe_num (sat : Satisfier (SessionM τ)) (t : Ty) :
    p.Safe (Demand.num.satisfied sat t) fun _ _ => True := by
  refine .get ?_
  dsimp only
  split
  · exact .bind (safe_constrain _ _) fun _ _ _ _ _ => .pure fun _ => trivial
  · split <;> exact .pure fun _ => trivial

theorem safe_record (ht : .term t ∈ p.known)
    (hsubtype : ∀ q a b, p.Later q → q.Obtains (.term a) → q.Obtains (.term b) →
      q.Safe (sat.subtype a b) fun _ _ =>
        True) : p.Safe (Demand.record.satisfied sat t) fun _ _ => True := by
  refine .get ?_
  dsimp only
  split
  · exact .pure fun _ => trivial
  · split
    · have hunit : p.Obtains (.term .unit) :=
        .layer rfl rfl fun u hu => absurd hu List.not_mem_nil
      exact hsubtype p _ _ (.refl p)
        ((Later.refl p).obtains ht (p.store.reaches_demeth t)) hunit
    · exact .pure fun _ => trivial

theorem safe_ord (ht : .term t ∈ p.known)
    (hsatisfies : ∀ q a, p.Later q → q.Obtains (.term a) →
      q.Safe (sat.satisfies a) fun _ _ => True) :
    p.Safe (Demand.ord.satisfied sat t) fun _ _ => True := by
  have hask : ∀ u, p.store.Reaches t u → ∀ q, p.Later q →
      q.Safe (sat.satisfies u) fun _ _ => True :=
    fun u hu q hq => hsatisfies q u hq (hq.obtains ht hu)
  have hfields : ∀ u ∈ (p.store.splitMeths t).1.map (·.scheme.type),
      p.store.Reaches t u := by
    intro u hu
    obtain ⟨m, hm, rfl⟩ := List.mem_map.1 hu
    exact Store.reaches_method hm
  have hbase : ∀ u ∈ (p.store.splitMeths t).2.shape.children, p.store.Reaches t u :=
      fun u hu =>
    (p.store.reaches_demeth t).tail (.child hu)
  have hall : ∀ us : List Ty, (∀ u ∈ us, p.store.Reaches t u) → ∀ q, p.Later q →
      q.Safe (Demand.all sat.satisfies us) fun _ _ => True :=
    fun us hus q hq => safe_all fun u hu r hr => hask u (hus u hu) r (hq.trans hr)
  refine .get ?_
  rcases hsplit : p.store.splitMeths t with ⟨methods, base⟩
  rw [hsplit] at hfields hbase
  dsimp only
  split
  · split
    · exact .bind (safe_constrain _ _) fun q _ _ hq _ => hall _ hfields q hq
    · exact .pure fun _ => trivial
  · exact .pure fun _ => trivial
  · exact hall _ hfields p (.refl p)
  · rename_i elems _ hx
    exact hall elems (fun u hu => hbase u (by rw [hx]; exact hu)) p (.refl p)
  · rename_i elem hx
    exact hask elem (hbase elem (by simp [hx, Shape.children])) p (.refl p)
  · rename_i elem hx
    exact hask elem (hbase elem (by simp [hx, Shape.children])) p (.refl p)
  · exact .pure fun _ => trivial

theorem safe_check {d : Demand (SessionM τ)}
    (h : p.Safe (d.satisfied sat t) fun _ _ => True) :
    p.Safe (d.check sat t) fun _ _ => True := by
  refine .bind h fun q result _ _ _ => ?_
  cases result with
  | none => exact .pure fun _ => trivial
  | some e => dsimp only; split <;> exact .pure fun _ => trivial

end Checks

/-! ## Building -/

section Building

variable {build : τ → SessionM τ Ty}

/-- What belongs to the store when a type has been built. -/
def Built (q : Session τ) (t : Ty) : Prop := q.store.Scoped t

theorem safe_attachField {base : Ty} (hbase : p.store.Scoped base) (a : Attachment τ)
    (h : p.Safe (build a.origin) Built) :
    p.Safe (Recipe.attachField build base a) Built := by
  intro hp
  refine Safe.get (.bind h fun q leaf _ hq hleaf => .pure fun _ => ?_) hp
  exact Store.scoped_attach hq.evolves.vars_le hq.evolves.cells_le hp.store hbase
    hleaf a.path a.name a.doc

theorem safe_attachFields {base : Ty} {fields : List (Attachment τ)}
    (hbase : p.store.Scoped base)
    (h : ∀ a ∈ fields, ∀ q, p.Later q → q.Safe (build a.origin) Built) :
    p.Safe (fields.foldlM (Recipe.attachField build) base) Built := by
  induction fields generalizing p base with
  | nil => exact .pure fun _ => hbase
  | cons a fields ih =>
    obtain ⟨ha, hfields⟩ := List.forall_mem_cons.1 h
    rw [List.foldlM_cons]
    refine .bind (safe_attachField hbase a (ha p (.refl p))) fun q t _ hq ht => ?_
    exact ih ht fun b hb r hr => hfields b hb r (hq.trans hr)

theorem safe_make {recipe : Recipe τ}
    (h : ∀ o ∈ recipe.origins, ∀ q, p.Later q → q.Safe (build o) Built) :
    p.Safe (recipe.make build) Built := by
  have hfields : ∀ q base, p.Later q → q.store.Scoped base →
      q.Safe (recipe.fields.foldlM (Recipe.attachField build) base) Built :=
        fun q base hq hbase =>
    safe_attachFields hbase fun a ha r hr =>
      h a.origin (List.mem_append_right _ (List.mem_map_of_mem ha)) r (hq.trans hr)
  rw [Recipe.make]
  split
  · rename_i o hstart
    have ho : o ∈ recipe.origins := List.mem_append_left _ (by simp [hstart])
    exact .bind (h o ho p (.refl p)) fun q base _ hq hbase => hfields q base hq hbase
  · exact hfields p .unit (.refl p) p.store.scoped_unit

/-- **A type that is built belongs to the store**, if those belong to it that the
origins build. -/
theorem safe_materialize {r : Registry τ} {name : String}
    (h : ∀ recipe, r.find? name = some recipe → ∀ o ∈ recipe.origins, ∀ q, p.Later q →
      q.Safe (build o) Built) :
    p.Safe (r.materialize build name) fun q result =>
      ∀ t, result = .ok t → Built q t := by
  rw [Registry.materialize]
  cases hr : r.find? name with
  | none => exact .pure fun _ t ht => by cases ht
  | some recipe =>
    refine .bind (safe_make (h recipe hr)) fun q t _ _ ht => .pure fun _ u hu => ?_
    cases hu
    exact ht

end Building

/-! ## Sessions of a program -/

section Sessions

variable {build : τ → SessionM τ Ty}

/-- **Whatever the program does, what it has in hand belongs to the store, and the
store only evolves.** -/
theorem Becomes.advances (h : Becomes build p q) (hp : p.Sound) : p.Advances q := by
  induction h with
  | done p => exact hp.advances_refl
  | andThen _ _ ih ih' => exact (ih hp).trans (ih' (ih hp).1)
  | learn h => exact hp.learn (h.inScope hp)
  | newVar p level constraints =>
    have hwithin := p.store.within_newVar level constraints
    have hstore := hp.evolve (.of_within hwithin) (hp.store.of_cells hwithin.vars_le rfl)
    exact hstore.trans (hstore.1.learn (by simp [Handle.InScope, Store.newVar]))
  | @newCell p v hv =>
    have hstore :=
      hp.evolve (.of_within (p.store.within_newCell (.free v)))
        (hp.store.newCell (hp.known _ hv))
    exact hstore.trans (hstore.1.learn (by simp [Handle.InScope, Store.newCell]))
  | @setLink p c t hc ht variance =>
    obtain ⟨he, hs⟩ :=
      Store.Evolves.linked (hp.known _ hc) hp.store (hp.known _ ht) variance
    exact hp.evolve he hs
  | @lowerLevel p v _ level =>
    have he := Store.Evolves.lowerLevel p.store v level
    exact hp.evolve he (hp.store.of_cells he.vars_le rfl)
  | @constrain p v _ c =>
    have he := Store.Evolves.constrain p.store v c
    exact hp.evolve he (hp.store.of_cells he.vars_le rfl)
  | fresh ht opts =>
    obtain ⟨hwithin, hs, hresult⟩ := Store.fresh_adds hp.store (hp.known _ ht) opts
    exact hp.received hwithin hs hresult
  | instantiate hσ level =>
    obtain ⟨hwithin, hs, hresult⟩ :=
      Store.instantiate_adds hp.store (hp.known _ hσ).2 level
    exact hp.received hwithin hs hresult
  | @check p t d hd ht sat _ _ ihsubtype ihsatisfies =>
    refine (safe_check (t := t) ?_ hp).1
    rcases hd with rfl | rfl | rfl
    · exact safe_num sat t
    · exact safe_ord ht fun q a hq ha hsound =>
        ⟨ihsatisfies q a hq ha hsound, fun _ _ => trivial⟩
    · exact safe_record ht fun q a b hq ha hb hsound =>
        ⟨ihsubtype q a b hq ha hb hsound, fun _ _ => trivial⟩
  | newRegistry p => exact ⟨⟨hp.store, hp.known⟩, .refl _, fun _ h => h⟩
  | register p => exact ⟨⟨hp.store, hp.known⟩, .refl _, fun _ h => h⟩
  | @materialize p r _ name _ hbuilt ihbuild =>
    have hsafe : p.Safe (r.materialize build name) fun q result =>
        ∀ t, result = .ok t → Built q t :=
      safe_materialize fun recipe hr o ho q hq hsound =>
        ⟨ihbuild recipe hr o ho q hq hsound, fun t ht =>
          (hbuilt recipe hr o ho q t hq ht).inScope
            (ihbuild recipe hr o ho q hq hsound).1⟩
    obtain ⟨hadvance, hresult⟩ := hsafe hp
    rcases hrun : (r.materialize build name).outcome p with ⟨e | (e | t), q⟩ <;>
      rw [hrun] at hadvance hresult
    · exact hadvance
    · exact hadvance
    · exact hadvance.trans (hadvance.1.learn (hresult _ rfl t rfl))

/-- **The variable occurs somewhere**: in a cell, in the target of a link, or in what
the program has in hand. -/
inductive Mentions (p : Session τ) (v : VarId) : Prop
  | free {c : CellId} (hf : p.store.freeVar? c = some v)
  | target {c : CellId} {variance : Variance} {t : Ty} (hl : p.store.link? c =
    some (variance, t)) (h : t.Binds v)
  | known {x : Handle} (hx : x ∈ p.known) (h : x.Names v)

theorem lt_of_binds {s : Store} {v : VarId} (h : t.Binds v) (ht : s.Scoped t) :
    v < s.vars.size := by
  induction h with
  | here h => exact ht.here.1 _ h
  | under hu _ ih => exact ih (ht.sub hu)

/-- Variables that occur have been drawn. -/
theorem Sound.lt_of_mentions (hp : p.Sound) {v : VarId} (h : p.Mentions v) :
    v < p.store.vars.size := by
  cases h with
  | free hf => exact hp.store.var_lt hf
  | target hl h => exact lt_of_binds h (hp.store.target_scope hl)
  | @known x hx h =>
    have hscope := hp.known x hx
    cases x with
    | var w => exact (h : w = v) ▸ hscope
    | cell c => exact absurd h id
    | term t => exact lt_of_binds h hscope
    | scheme σ =>
      rcases h with h | h
      · exact hscope.1 v h
      · exact lt_of_binds h hscope.2

/-- **Whatever a program does from the start**, in every state that it comes to, all
variables that occur have been drawn, so that the next one is new; no variable has two
constraints of a kind; and a link cannot be made twice. From there on, levels never
rise, constraints are never lost, and links stay what they are. -/
theorem session_wellFormed {start : Session τ} (hstore : start.store = .empty)
    (hknown : start.known = []) (hp : Becomes build start p) (hq : Becomes build p q) :
    (∀ v, p.Mentions v → v < p.store.vars.size) ∧
      (∀ level constraints, ¬ p.Mentions (p.store.newVar level constraints).1) ∧
      (∀ v, (p.store.var v).constraints.keys.Nodup) ∧
      (∀ c variance t, p.store.link? c = some (variance, t) → ∀ variance' t',
        p.store.setLink c variance' t' = .error .relinked ∧
          p.store.linked c variance' t' = p.store) ∧
      p.store.Evolves q.store := by
  have hstart : start.Sound := by
    refine ⟨?_, fun x hx => ?_⟩
    · rw [hstore]
      decide
    · rw [hknown] at hx
      cases hx
  have hsound : p.Sound := (hp.advances hstart).1
  refine ⟨fun v hv => hsound.lt_of_mentions hv, fun level constraints h => ?_,
    fun v => Keyed.keys_nodup _, ?_, ?_⟩
  · exact Nat.lt_irrefl _ (hsound.lt_of_mentions h)
  · intro c variance t hl variance' t'
    have hrefused := Store.setLink_linked hl variance' t'
    exact ⟨hrefused, by rw [Store.linked, hrefused]⟩
  · exact (hq.advances hsound).2.evolves

/-- Copy a term in hand. -/
def copying (t : Ty) : SessionM τ Ty :=
  .mk (modifyGetThe (Session τ) fun p =>
    ((p.store.fresh {} t).1, p.received (p.store.fresh {} t)))

/-- A pair of which the second part is missing. -/
def unfinishedTerm : Ty := .of (.tuple [.of (.cell 0), .of .hole])

/-- A session in which the origin of a type has failed after it had drawn a variable
and a cell. -/
def failedExample : Session Unit where
  store := ⟨#[⟨.unbounded, .empty⟩, ⟨.unbounded, .empty⟩], #[.free 0, .free 1]⟩
  known := [.term unfinishedTerm, .term (.of (.cell 0)), .cell 0, .var 0]
  registries := [Registry.register .empty "a" "" ()]

theorem failedExample_reached :
    Becomes (fun _ => copying unfinishedTerm) ⟨.empty, [], [.empty]⟩ failedExample := by
  let build : Unit → SessionM Unit Ty := fun _ => copying unfinishedTerm
  let s : Store := ⟨#[⟨.unbounded, .empty⟩], #[.free 0]⟩
  have hdrawn : Becomes build ⟨.empty, [], [.empty]⟩ ⟨s, [.cell 0, .var 0], [.empty]⟩ :=
    .andThen (.newVar _ .unbounded .empty) (.newCell (.head _))
  have hcell : Becomes build ⟨s, [.cell 0, .var 0], [.empty]⟩
      ⟨s, [.term (.of (.cell 0)), .cell 0, .var 0], [.empty]⟩ :=
        .learn (.overCell (.known (.head _)))
  have hterm : Becomes build ⟨s, [.term (.of (.cell 0)), .cell 0, .var 0], [.empty]⟩
      ⟨s, [.term unfinishedTerm, .term (.of (.cell 0)), .cell 0, .var 0], [.empty]⟩ := by
    refine .learn (.layer rfl rfl fun u hu => ?_)
    rcases List.mem_pair.1 hu with rfl | rfl
    · exact .known (.head _)
    · exact .layer rfl rfl fun u hu => absurd hu List.not_mem_nil
  have hregistered : Becomes build ⟨s,
      [.term unfinishedTerm, .term (.of (.cell 0)), .cell 0, .var 0], [.empty]⟩
      ⟨s, [.term unfinishedTerm, .term (.of (.cell 0)), .cell 0, .var 0],
        [Registry.register .empty "a" "" ()]⟩ :=
    .register _ 0 "a" "" ()
  let p : Session Unit :=
    ⟨s, [.term unfinishedTerm, .term (.of (.cell 0)), .cell 0, .var 0],
      [Registry.register .empty "a" "" ()]⟩
  have hrun : materialized
      ((Registry.materialize (Registry.register .empty "a" "" ()) build "a").outcome p) =
      failedExample := rfl
  have hfailed : Becomes build p failedExample := by
    rw [← hrun]
    refine .materialize (.head _) "a" ?_ ?_
    · exact fun _ _ _ _ q hq => .fresh (hq.known _ (.head _)) {}
    · exact fun _ _ _ _ q t hq ht => obtains_received ht
  exact hdrawn.andThen (hcell.andThen (hterm.andThen (hregistered.andThen hfailed)))

/-- Two variables have been drawn, so the next one is the third. Then a check puts
a constraint on the first one, and its cell is linked, even to a term that it occurs
in. -/
theorem session_wellFormed_failed :
    (∀ v, failedExample.Mentions v → v < 2) ∧ ¬ failedExample.Mentions 2 ∧
      ∃ q : Session Unit, Becomes (fun _ => copying unfinishedTerm) failedExample q ∧
        q.store.link? 0 = some (.covariant, unfinishedTerm) ∧
          (q.store.var 0).constraints.keys = ["num"] ∧
        failedExample.store.Evolves q.store := by
  let sat : Satisfier (SessionM Unit) := ⟨fun _ _ => pure none, fun _ => pure none⟩
  let checked : Session Unit :=
    ((Demand.num.check sat (.of (.cell 0))).outcome failedExample).2
  have hchecked : Becomes (fun _ => copying unfinishedTerm) failedExample checked :=
    .check (Or.inl rfl) (.tail _ (.head _)) sat (fun q _ _ _ _ _ => .done q)
      fun q _ _ _ => .done q
  have hlinked : Becomes (fun _ => copying unfinishedTerm) checked
      { checked with store := checked.store.linked 0 .covariant unfinishedTerm } :=
    .setLink (.tail _ (.tail _ (.head _))) (.head _) .covariant
  have hq := hchecked.andThen hlinked
  obtain ⟨hmentions, hnew, -, -, hevolves⟩ :=
    session_wellFormed rfl rfl failedExample_reached hq
  exact ⟨hmentions, hnew .unbounded .empty, _, hq, rfl, rfl, hevolves⟩

end Sessions

end Session

end TypeGraph
