import NullableMarker.Proofs.BoundDirectives
import NullableMarker.Resolve.Environment

/-!
# Lazy binding cannot be observed

An environment answers questions about the nodes of its tree: the type that a type node stands for,
what a dotted expression at a declaration stands for, the scope of a node. Answering binds using
directives on the way, and the types found may be kept for later. Yet every answer is the one that
the question would get first of all, so the order of questions does not matter.

* `Environment.ask` — answering a question
* `Environment.askKeeping` — answering a question with the types that were found kept
* `Environment.answers_independent` — the answers to questions one after another
-/

namespace NullableMarker

namespace Environment

/-! ## Questions -/

/-- A question about the node at a place in the list of nodes. -/
inductive Query where
  | typeOf (place : Nat)
  | qualifier (place : Nat) (aliasName : Option String) (names : List String)
  | scopeOf (place : Nat)

/-- What is answered. -/
inductive Answer where
  | type (found : Option TypeSymbol)
  | target (found : Option Target)
  | scope (found : Option Scope)

/-- The type that the node at a place stands for. -/
def typeAt (env : Environment) (place : Nat) : Resolve (Option TypeSymbol) :=
  match env.nodes[place]? with
  | none => pure none
  | some n => n.asType

/-- What a dotted expression before a member stands for at the node at a place. -/
def qualifierAt (env : Environment) (place : Nat) (aliasName : Option String)
    (names : List String) : Resolve (Option Target) :=
  match env.nodes[place]? with
  | none => pure none
  | some n => n.qualifier aliasName names

/-- Answers a question. -/
def ask (env : Environment) : Query → Resolve Answer
  | .typeOf place => return .type (← env.typeAt place)
  | .qualifier place aliasName names => return .target (← env.qualifierAt place aliasName names)
  | .scopeOf place => return .scope (env.nodes[place]?.bind (·.scope?))

/-- The types found so far, by the places of their nodes. -/
abbrev Kept := List (Nat × Option TypeSymbol)

/-- Answers a question; a type is looked up only once. -/
def askKeeping (env : Environment) : Query → StateT Kept Resolve Answer
  | .typeOf place => do
    match (← get).lookup place with
    | some found => return .type found
    | none =>
      let found ← env.typeAt place
      modify ((place, found) :: ·)
      return .type found
  | q => env.ask q

/-! ## One question -/

theorem eq_of_rel_eq {α : Type} {o o' : Option α} (h : Option.Rel Eq o o') : o = o' := by
  cases h with
  | none => rfl
  | some h => rw [h]

theorem eq_of_rel_alike {o o' : Option Target} (h : Option.Rel (Target.Alike Eq) o o') :
    o = o' := by
  cases h with
  | none => rfl
  | some h =>
    cases h with
    | type h => rw [h]
    | space name => rfl

/-- The states that an environment comes to by answering questions: directives that were bound when
it was made are bound as they were, and others, if they are, to what they bring in. -/
def Asked (env : Environment) : Resolution → Prop :=
  StandsIn Eq env.table (fun i => env.resolution.bound.lookup i) env.root

section Questions

variable {env : Environment}

theorem asked_resolution (env : Environment) : env.Asked env.resolution where
  table := SymbolTable.alike_refl env.table
  bound x i _ hi := by
    cases hbound : env.resolution.bound.lookup i with
    | none => exact .unbound hbound
    | some b => exact .bound (Scope.bindings_of_known hi hbound) (Bindings.alike_refl b)

/-- What comes out in the same way from all those states comes out so from the first. -/
theorem keeps_first {α : Type} {m : Resolve α} (h : ∃ x, Keeps env.Asked Eq m x) :
    Keeps env.Asked Eq m (m.run' env.resolution) := by
  obtain ⟨x, hx⟩ := h
  rw [hx.run'_eq env.asked_resolution]
  exact hx

/-- The nodes of the environment are those of its tree, whose tokens start one after another. -/
structure Orderly (env : Environment) : Prop where
  nodes : env.nodes = env.root.scoped []
  startsBefore : env.root.tokens.Pairwise Token.StartsBefore

theorem opens_of_mem (h : env.Orderly) {place : Nat} {n : ScopedNode}
    (hn : env.nodes[place]? = some n) {scope : Scope}
    (hscope : n.outer = some scope ∨ n.inner = some scope) : env.root.Opens scope := by
  have hmem := List.mem_of_getElem? hn
  rw [h.nodes] at hmem
  exact ⟨n, hmem, scope, hscope, List.suffix_rfl⟩

theorem keeps_typeAt (h : env.Orderly) (place : Nat) :
    ∃ x, Keeps env.Asked Eq (env.typeAt place) x := by
  unfold typeAt
  cases hn : env.nodes[place]? with
  | none => exact ⟨_, Keeps.pure rfl⟩
  | some n =>
    dsimp only [ScopedNode.asType, typeIn]
    cases houter : n.outer with
    | none => exact ⟨_, Keeps.pure rfl⟩
    | some scope =>
      have hkeeps := keeps_written (I := env.Asked) (fun _ hst => hst.table)
        (lookupKeeps_of_opens h.startsBefore (opens_of_mem h hn (.inl houter))) n.node.written
      dsimp only
      rw [Lookup.typeNode_eq]
      exact ⟨_, hkeeps.imp fun _ _ => eq_of_rel_eq⟩

theorem scope?_eq {n : ScopedNode} {scope : Scope} (h : n.scope? = some scope) :
    n.outer = some scope ∨ n.inner = some scope := by
  unfold ScopedNode.scope? at h
  split at h
  · cases h
  · split at h
    · cases h
    · split at h
      · exact .inr h
      · exact .inl h

theorem keeps_qualifierAt (h : env.Orderly) (place : Nat) (aliasName : Option String)
    (names : List String) : ∃ x, Keeps env.Asked Eq (env.qualifierAt place aliasName names) x := by
  unfold qualifierAt
  cases hn : env.nodes[place]? with
  | none => exact ⟨_, Keeps.pure rfl⟩
  | some n =>
    dsimp only [ScopedNode.qualifier]
    cases hscope : n.scope? with
    | none => exact ⟨_, Keeps.pure rfl⟩
    | some scope =>
      have hopens := opens_of_mem h hn (scope?_eq hscope)
      have hkeeps := keeps_qualified (I := env.Asked) (fun _ hst => hst.table)
        (lookupKeeps_of_opens h.startsBefore hopens) aliasName (names.map (·, 0))
      exact ⟨_, hkeeps.imp fun _ _ => eq_of_rel_alike⟩

/-- A question gets the same answer in all states that the environment comes to. -/
theorem keeps_ask (h : env.Orderly) (q : Query) :
    Keeps env.Asked Eq (env.ask q) ((env.ask q).run' env.resolution) := by
  refine keeps_first ?_
  cases q with
  | typeOf place =>
    obtain ⟨x, hx⟩ := keeps_typeAt h place
    refine ⟨x >>= fun o => pure (.type o), hx.bind ?_⟩
    rintro o _ rfl
    exact Keeps.pure rfl
  | qualifier place aliasName names =>
    obtain ⟨x, hx⟩ := keeps_qualifierAt h place aliasName names
    refine ⟨x >>= fun o => pure (.target o), hx.bind ?_⟩
    rintro o _ rfl
    exact Keeps.pure rfl
  | scopeOf place => exact ⟨_, Keeps.pure rfl⟩

/-! ## Questions one after another -/

/-- The types that are kept are those that would be found first of all. -/
def Faithful (env : Environment) (kept : Kept) : Prop :=
  ∀ place found, kept.lookup place = some found →
    (env.typeAt place).run' env.resolution = .ok found

theorem run'_ask_typeOf (place : Nat) (st : Resolution) :
    (env.ask (.typeOf place)).run' st
      = ((env.typeAt place).run' st >>= fun found => pure (.type found)) := by
  show Prod.fst <$> ((env.typeAt place).run st >>= fun r => pure (Answer.type r.1, r.2))
    = (Prod.fst <$> (env.typeAt place).run st) >>= fun found => pure (Answer.type found)
  cases (env.typeAt place).run st with
  | error fault => rfl
  | ok r => rfl

/-- Keeping the types that were found changes no answer. -/
theorem keeps_askKeeping (h : env.Orderly) {kept : Kept} (hkept : env.Faithful kept) (q : Query) :
    Keeps env.Asked (fun r a => r.1 = a ∧ env.Faithful r.2) ((env.askKeeping q).run kept)
      ((env.ask q).run' env.resolution) := by
  have hask : Keeps env.Asked (fun r a => r.1 = a ∧ env.Faithful r.2)
      (env.ask q >>= fun a => pure (a, kept)) ((env.ask q).run' env.resolution) :=
    (keeps_ask h q).bind_pure fun a b st hst => ⟨⟨hst.1, hkept⟩, hst.2⟩
  cases q with
  | qualifier place aliasName names => exact hask
  | scopeOf place => exact hask
  | typeOf place =>
    rw [run'_ask_typeOf]
    unfold askKeeping
    rw [StateT.run_bind, StateT.run_get, pure_bind]
    cases hlookup : kept.lookup place with
    | some found =>
      rw [hkept place found hlookup]
      exact Keeps.pure ⟨rfl, hkept⟩
    | none =>
      -- the type is looked up, and kept together with what it was found to be
      have htype : Resolves env.Asked (env.typeAt place >>= fun found => pure (found, kept))
          ((env.typeAt place).run' env.resolution)
          fun r found st => r = (found, kept)
            ∧ (env.typeAt place).run' env.resolution = .ok found ∧ env.Asked st :=
        (keeps_first (keeps_typeAt h place)).with_eq.bind_pure
          fun a b st hst => ⟨by rw [hst.2.1], hst.1, hst.2.2⟩
      dsimp only
      rw [StateT.run_bind]
      refine htype.bind ?_
      rintro _ found st ⟨rfl, hfound, hst⟩
      refine .ok ⟨⟨rfl, fun place' found' hlookup' => ?_⟩, hst⟩
      have hlookup' : ((place, found) :: kept).lookup place' = some found' := hlookup'
      by_cases hplace : place' = place
      · rw [hplace, List.lookup_cons_self] at hlookup'
        cases hlookup'
        rw [hplace]
        exact hfound
      · rw [List.lookup_cons, beq_false_of_ne hplace] at hlookup'
        exact hkept place' found' hlookup'

theorem keeps_mapM_askKeeping (h : env.Orderly) {kept : Kept} (hkept : env.Faithful kept)
    (qs : List Query) :
    Keeps env.Asked (fun r as => r.1 = as ∧ env.Faithful r.2) ((qs.mapM env.askKeeping).run kept)
      (qs.mapM fun q => (env.ask q).run' env.resolution) := by
  induction qs generalizing kept with
  | nil => exact Keeps.pure ⟨rfl, hkept⟩
  | cons q qs ih =>
    rw [List.mapM_cons, List.mapM_cons, StateT.run_bind]
    refine (keeps_askKeeping h hkept q).bind ?_
    rintro ⟨a, kept'⟩ _ ⟨rfl, hkept'⟩
    rw [StateT.run_bind]
    refine (ih hkept').bind ?_
    rintro ⟨as, kept''⟩ _ ⟨rfl, hkept''⟩
    exact Keeps.pure ⟨rfl, hkept''⟩

end Questions

/-- The answers to questions one after another, whether the types that were found are kept or not,
are those that the questions would get first of all. A question that meets a reference that cannot
be looked up fails as it would first of all, and ends the sequence. -/
theorem answers_independent {source : String} {defined : List String} {root : Tree}
    (hroot : parseUnit source defined = .ok root ∨ parseFragment source defined = .ok root)
    {references : SymbolTable} {origin : String} {env : Environment}
    (henv : ofTree references origin root = .ok env) (qs : List Query) :
    (qs.mapM env.ask).run' env.resolution
        = qs.mapM (fun q => (env.ask q).run' env.resolution)
      ∧ ((qs.mapM env.askKeeping).run' []).run' env.resolution
        = qs.mapM (fun q => (env.ask q).run' env.resolution) := by
  have htree : root.tokens.Pairwise Token.StartsBefore := by
    rcases hroot with hroot | hroot
    · exact (Tree.isUnitOf_of_parseUnit hroot).startsBefore
    · exact (Tree.isTreeOf_of_parseFragment hroot).startsBefore
  have hmade : env.Orderly := by
    obtain ⟨⟨u, resolution⟩, -, heq⟩ := ok_of_bind henv
    cases heq
    exact ⟨rfl, htree⟩
  constructor
  · exact (Keeps.mapM fun q _ => keeps_ask hmade q).run'_eq env.asked_resolution
  · have hkept : env.Faithful [] := fun place found h => by cases h
    have hkeeping := keeps_mapM_askKeeping hmade hkept qs
    refine Keeps.run'_eq ?_ env.asked_resolution
    exact hkeeping.bind_pure fun r as st hst => ⟨hst.1.1, hst.2⟩

/-- The first of the questions binds the directive that the others get to. -/
theorem answers_independent_alias :
    ∃ root env s, parseUnit "using A=C;class B{A a;}class C{}" [] = .ok root
      ∧ ofTree (.ofList []) "source" root = .ok env
      ∧ (env.typeAt 7).run' env.resolution = .ok (some s) ∧ s.key = "C"
      ∧ (([.qualifier 5 (some "A") [], .typeOf 7, .typeOf 7].mapM env.askKeeping).run' []).run'
          env.resolution
        = [Query.qualifier 5 (some "A") [], .typeOf 7, .typeOf 7].mapM
            fun q => (env.ask q).run' env.resolution := by
  have hrun : ((parseUnit "using A=C;class B{A a;}class C{}" []).toOption.bind fun root =>
      (ofTree (.ofList []) "source" root).toOption.map fun env =>
        (((env.typeAt 7).run' env.resolution).toOption.bind fun found => found.map (·.key)))
      = some (some "C") := by
    decide +kernel
  obtain ⟨root, hroot, hrun⟩ := Option.bind_eq_some_iff.mp hrun
  obtain ⟨env, henv, hrun⟩ := Option.map_eq_some_iff.mp hrun
  obtain ⟨found, hfound, hkey⟩ := Option.bind_eq_some_iff.mp hrun
  obtain ⟨s, rfl, hname⟩ := Option.map_eq_some_iff.mp hkey
  have hroot := ok_of_toOption hroot
  have henv := ok_of_toOption henv
  exact ⟨root, env, s, hroot, henv, ok_of_toOption hfound, hname,
    (answers_independent (.inl hroot) henv _).2⟩

end Environment

end NullableMarker
