import NullableMarker.Proofs.Formatting
import NullableMarker.Proofs.ProperReferences

/-!
# Resolving always gives an answer

Resolving ends early only at a reference that cannot be looked up. Over types without such
references every name is looked up, every base list is resolved and every declaration is judged.

* `Answers` — a computation that gives an answer from every state with an invariant
* `answers_lookup` — lookups from any scope
* `Environment.ofTree_total`, `Environment.decisions_total` — environments and decisions
-/

namespace NullableMarker

/-! ## Computations that answer -/

section Computations

variable {I : Resolution → Prop} {α β : Type}

/-- From every state with the invariant the computation gives an answer with a property, and leaves a
state with the invariant. -/
def Answers (I : Resolution → Prop) (post : α → Prop) (m : Resolve α) : Prop :=
  ∀ st, I st → ∃ a st', m.run st = .ok (a, st') ∧ post a ∧ I st'

theorem Answers.pure {post : α → Prop} {a : α} (h : post a) : Answers I post (Pure.pure a) :=
  fun st hst => ⟨a, st, rfl, h, hst⟩

theorem Answers.bind {P : α → Prop} {Q : β → Prop} {m : Resolve α} {f : α → Resolve β}
    (h : Answers I P m) (hf : ∀ a, P a → Answers I Q (f a)) : Answers I Q (m >>= f) := by
  intro st hst
  obtain ⟨a, st₁, hm, ha, hst₁⟩ := h st hst
  obtain ⟨b, st₂, hfa, hb, hst₂⟩ := hf a ha st₁ hst₁
  refine ⟨b, st₂, ?_, hb, hst₂⟩
  show (m.run st >>= fun r => (f r.1).run r.2) = _
  rw [hm]
  exact hfa

theorem Answers.get : Answers I I get := fun st hst => ⟨st, st, rfl, hst, hst⟩

theorem Answers.modify {f : Resolution → Resolution} (h : ∀ st, I st → I (f st)) :
    Answers I (fun _ => True) (modify f) := fun st hst => ⟨⟨⟩, f st, rfl, trivial, h st hst⟩

theorem Answers.lift {post : α → Prop} {x : Except BadReference α}
    (h : ∃ a, x = .ok a ∧ post a) : Answers I post (liftM x : Resolve α) := by
  obtain ⟨a, rfl, ha⟩ := h
  exact fun st hst => ⟨a, st, rfl, ha, hst⟩

theorem Answers.forM {xs : List α} {f : α → Resolve PUnit}
    (hf : ∀ a ∈ xs, Answers I (fun _ => True) (f a)) : Answers I (fun _ => True) (xs.forM f) := by
  induction xs with
  | nil => exact Answers.pure trivial
  | cons a xs ih =>
    exact (hf a List.mem_cons_self).bind fun _ _ =>
      ih fun b hb => hf b (List.mem_cons_of_mem a hb)

theorem Answers.foldlM {P : β → Prop} {xs : List α} {f : β → α → Resolve β}
    (hf : ∀ b, P b → ∀ a, Answers I P (f b a)) {b : β} (hb : P b) :
    Answers I P (xs.foldlM f b) := by
  induction xs generalizing b with
  | nil => exact Answers.pure hb
  | cons a xs ih => exact (hf b hb a).bind fun c hc => ih hc

theorem Answers.mapM {xs : List α} {f : α → Resolve β}
    (hf : ∀ a ∈ xs, Answers I (fun _ => True) (f a)) :
    Answers I (fun _ => True) (xs.mapM f) := by
  induction xs with
  | nil => exact Answers.pure trivial
  | cons a xs ih =>
    rw [List.mapM_cons]
    have hrest := ih fun c hc => hf c (List.mem_cons_of_mem a hc)
    exact (hf a List.mem_cons_self).bind fun b _ => hrest.bind fun bs _ => Answers.pure trivial

end Computations

/-! ## States -/

/-- What the directives of a namespace bring in can be looked up in. -/
structure Bindings.Proper (b : Bindings) : Prop where
  aliases : ∀ a, FoundProper (b.aliases.lookup a)
  statics : ∀ s ∈ b.statics, s.isProper = true

theorem Bindings.proper_empty : Bindings.Proper {} := ⟨fun _ => foundProper_none, by simp⟩

/-- All references in the state can be looked up, and the table has types under the given keys. -/
structure Resolution.Proper (keys : List String) (st : Resolution) : Prop where
  table : st.table.Proper
  keys : ∀ key ∈ keys, (st.table.get? key).isSome = true
  bindings : ∀ i, (st.bindings i).Proper

namespace Resolution.Proper

variable {keys : List String} {st : Resolution}

theorem setBindings (h : st.Proper keys) {i : Nat} {b : Bindings} (hb : b.Proper) :
    (st.setBindings i b).Proper keys where
  table := h.table
  keys := h.keys
  bindings j := by
    by_cases hj : j = i
    · rw [hj, bindings_setBindings_self]
      exact hb
    · rw [Resolution.bindings, Resolution.setBindings, lookup_upsert_of_ne hj]
      exact h.bindings j

theorem complete (h : st.Proper keys) (key : String) {l : BaseList} (hl : l.Proper) :
    Resolution.Proper keys { st with table := st.table.complete key l } where
  table := h.table.complete key hl
  keys k hk := by
    obtain ⟨s, hs⟩ := Option.isSome_iff_exists.mp (h.keys k hk)
    obtain ⟨now, hnow, -⟩ := SymbolTable.get?_complete hs key l
    exact Option.isSome_iff_exists.mpr ⟨now, hnow⟩
  bindings := h.bindings

end Resolution.Proper

/-! ## Lookups -/

/-- Lookups that give an answer. -/
structure LookupAnswers (keys : List String) (l : Lookup) : Prop where
  name : ∀ n arity, Answers (Resolution.Proper keys) FoundProper (l.name n arity)
  aliasName : ∀ a, Answers (Resolution.Proper keys) FoundProper (l.alias a)

section Lookups

variable {keys : List String} {l : Lookup}

theorem answers_qualified (hl : LookupAnswers keys l) (aliasName : Option String)
    (segments : List (String × Nat)) :
    Answers (Resolution.Proper keys) FoundProper (l.qualified aliasName segments) := by
  have hafter : ∀ (o : Option Target) (rest : List (String × Nat)), FoundProper o →
      Answers (Resolution.Proper keys) FoundProper (do liftM ((← get).table.follow o rest)) :=
    fun o rest ho => Answers.get.bind fun st hst => Answers.lift (hst.table.follow ho rest)
  unfold Lookup.qualified
  cases aliasName with
  | some a =>
    dsimp only
    split
    · refine (Answers.pure ?_).bind fun o ho => hafter o segments ho
      rintro _ ⟨rfl⟩
      trivial
    · exact (hl.aliasName a).bind fun o ho => hafter o segments ho
  | none =>
    cases segments with
    | nil => exact Answers.pure foundProper_none
    | cons segment rest => exact (hl.name _ _).bind fun o ho => hafter o rest ho

theorem answers_typeNode (hl : LookupAnswers keys l) (t : Tree) :
    Answers (Resolution.Proper keys) (fun o => ∀ s ∈ o, s.isProper = true) (l.typeNode t) := by
  rw [Lookup.typeNode_eq]
  cases t.written with
  | keyword word =>
    refine Answers.get.bind fun st hst => Answers.pure ?_
    intro s hs
    obtain ⟨special, -, hs⟩ := Option.bind_eq_some_iff.mp hs
    exact hst.table.specials special s hs
  | name aliasName segments =>
    refine (answers_qualified hl aliasName segments).bind fun o ho => Answers.pure ?_
    intro s hs
    obtain ⟨target, htarget, hs⟩ := Option.bind_eq_some_iff.mp hs
    have hproper := ho target htarget
    cases target with
    | space name => cases hs
    | type u =>
      cases hs
      exact hproper
  | array => exact Answers.get.bind fun st hst => Answers.pure fun s hs => hst.table.types _ s hs
  | other => exact Answers.pure (by simp)

theorem answers_remark (text : String) :
    Answers (Resolution.Proper keys) (fun _ => True) (remark text) :=
  Answers.modify fun _ hst => ⟨hst.table, hst.keys, hst.bindings⟩

/-! ### Using directives -/

theorem answers_setBindings {i : Nat} {f : Bindings → Bindings} (hf : ∀ b, b.Proper → (f b).Proper) :
    Answers (Resolution.Proper keys) (fun _ => True)
      (modify fun st => st.setBindings i (f (st.bindings i))) :=
  Answers.modify fun _ hst => hst.setBindings (hf _ (hst.bindings i))

theorem answers_addAlias (i : Nat) (a : String) {target : Target} (htarget : target.Proper) :
    Answers (Resolution.Proper keys) (fun _ => True) (addAlias i a target) := by
  refine answers_setBindings (f := fun b => { b with aliases := upsert a target b.aliases }) ?_
  intro b hb
  refine ⟨fun c t ht => ?_, hb.statics⟩
  have ht : (upsert a target b.aliases).lookup c = some t := ht
  by_cases hc : c = a
  · rw [hc, lookup_upsert_self] at ht
    cases ht
    exact htarget
  · rw [lookup_upsert_of_ne hc] at ht
    exact hb.aliases c t ht

theorem answers_addImport (i : Nat) (name : String) :
    Answers (Resolution.Proper keys) (fun _ => True) (addImport i name) :=
  answers_setBindings (f := fun b => { b with imports := b.imports ++ [name] })
    fun _ hb => ⟨hb.aliases, hb.statics⟩

theorem answers_addStatic (i : Nat) {s : TypeSymbol} (hs : s.isProper = true) :
    Answers (Resolution.Proper keys) (fun _ => True) (addStatic i s) := by
  refine answers_setBindings (f := fun b => { b with statics := b.statics ++ [s] }) ?_
  intro b hb
  refine ⟨hb.aliases, fun t ht => ?_⟩
  rcases List.mem_append.mp ht with ht | ht
  · exact hb.statics t ht
  · rw [List.mem_singleton.mp ht]
    exact hs

theorem LookupAnswers.fromUsing (hl : LookupAnswers keys l) (space : String) (i : Nat) :
    LookupAnswers keys (Lookup.fromUsing space i l) where
  name n arity := by
    refine Answers.get.bind fun st hst => ?_
    have hfound := hst.table.inNamespace space n arity
    split
    · next target htarget =>
      rw [htarget] at hfound
      exact Answers.pure hfound
    · exact hl.name n arity
  aliasName a := by
    refine Answers.get.bind fun st hst => ?_
    have hfound := (hst.bindings i).aliases a
    split
    · next target htarget =>
      rw [htarget] at hfound
      exact Answers.pure hfound
    · exact hl.aliasName a

theorem answers_bindUsing (hl : LookupAnswers keys l) (i : Nat) (directive : Tree) :
    Answers (Resolution.Proper keys) (fun _ => True) (bindUsing i l directive) := by
  unfold bindUsing
  split
  · exact Answers.pure trivial
  · next target _ =>
    split
    · refine (answers_qualified hl _ _).bind fun o ho => ?_
      split
      · split
        · next found => exact answers_addAlias i _ (ho found rfl)
        · exact answers_remark _
      · split
        · split
          · next s => exact answers_addStatic i (ho (.type s) rfl)
          · exact Answers.pure trivial
        · split
          · exact answers_addImport i _
          · exact answers_remark _
    · split
      · exact Answers.pure trivial
      · refine (answers_typeNode hl target).bind fun o ho => ?_
        split
        · next s => exact answers_addAlias i _ (ho s rfl)
        · exact Answers.pure trivial

theorem answers_bindUsings (hl : LookupAnswers keys l) (space : String) (usings : List Tree) :
    Answers (Resolution.Proper keys) Bindings.Proper (bindUsings space usings l) := by
  unfold bindUsings
  split
  · exact Answers.pure Bindings.proper_empty
  · next i _ =>
    have hread : Answers (Resolution.Proper keys) Bindings.Proper (do return (← get).bindings i) :=
      Answers.get.bind fun st hst => Answers.pure (hst.bindings i)
    refine Answers.get.bind fun st hst => ?_
    dsimp only
    -- the directives are bound once, each by lookups from outside and through aliases before it
    split
    · refine (Answers.modify fun st hst => hst.setBindings Bindings.proper_empty).bind fun _ _ => ?_
      refine (Answers.forM fun directive _ => ?_).bind fun _ _ => hread
      exact answers_bindUsing (hl.fromUsing space i) i directive
    · exact hread

/-! ### Frames -/

theorem SymbolTable.Proper.candidates {T : SymbolTable} (hT : T.Proper) {b : Bindings}
    (hb : b.Proper) (name : String) (arity : Nat) :
    ∃ found, b.candidates T name arity = .ok found ∧ ∀ s ∈ found, s.isProper = true := by
  have hnested : ∀ {statics : List TypeSymbol}, (∀ s ∈ statics, s.isProper = true) →
      ∃ os, statics.mapM (T.nested · name arity) = .ok os
        ∧ ∀ o ∈ os, ∀ s ∈ o, s.isProper = true := by
    intro statics hstatics
    induction statics with
    | nil => exact ⟨[], rfl, by simp⟩
    | cons t statics ih =>
      obtain ⟨o, ho, hproper⟩ := hT.nested (hstatics t List.mem_cons_self) name arity
      obtain ⟨os, hos, hall⟩ := ih fun s hs => hstatics s (List.mem_cons_of_mem t hs)
      refine ⟨o :: os, ?_, ?_⟩
      · rw [List.mapM_cons, ho, hos]
        rfl
      · intro p hp
        rcases List.mem_cons.mp hp with rfl | hp
        · exact hproper
        · exact hall p hp
  obtain ⟨os, hos, hall⟩ := hnested hb.statics
  refine ⟨b.imports.filterMap (T.lookup · name arity) ++ os.filterMap id, ?_, ?_⟩
  · rw [Bindings.candidates, hos]
    rfl
  · intro s hs
    rcases List.mem_append.mp hs with hs | hs
    · obtain ⟨space, -, hs⟩ := List.mem_filterMap.mp hs
      exact hT.types _ s hs
    · obtain ⟨o, ho, hs⟩ := List.mem_filterMap.mp hs
      exact hall o ho s hs

theorem answers_find {b : Bindings} (hb : b.Proper) (name : String) (arity : Nat) :
    Answers (Resolution.Proper keys) FoundProper (b.find? name arity) := by
  unfold Bindings.find?
  split
  · next target htarget =>
    split at htarget
    · -- what an alias stands for was proper when it was bound, and symbols do not change
      refine Answers.pure ?_
      rw [← htarget]
      exact hb.aliases name
    · cases htarget
  · refine Answers.get.bind fun st hst => ?_
    refine (Answers.lift (hst.table.candidates hb name arity)).bind fun found hfound => ?_
    have hend : Answers (Resolution.Proper keys) FoundProper
        (pure (found.head?.map Target.type)) := by
      refine Answers.pure fun t ht => ?_
      obtain ⟨s, hs, rfl⟩ := Option.map_eq_some_iff.mp ht
      exact hfound s (List.mem_of_head? hs)
    dsimp only
    split
    · exact (answers_remark _).bind fun _ _ => hend
    · exact hend

theorem LookupAnswers.extend (hl : LookupAnswers keys l) (f : Frame) :
    LookupAnswers keys (f.extend l) := by
  cases f with
  | method ps =>
    refine ⟨fun n arity => ?_, hl.aliasName⟩
    dsimp only [Frame.extend]
    split
    · exact Answers.pure foundProper_none
    · exact hl.name n arity
  | type key ps =>
    refine ⟨fun n arity => ?_, hl.aliasName⟩
    dsimp only [Frame.extend]
    split
    · exact Answers.pure foundProper_none
    · refine Answers.get.bind fun st hst => ?_
      split
      · exact hl.name n arity
      · next container hcontainer =>
        have hproper := hst.table.types key container hcontainer
        refine (Answers.lift (hst.table.nested hproper n arity)).bind fun o ho => ?_
        split
        · next s =>
          refine Answers.pure ?_
          rintro _ ⟨rfl⟩
          exact ho s rfl
        · exact hl.name n arity
  | space name usings =>
    have hbind := answers_bindUsings hl name usings
    constructor
    · intro n arity
      refine Answers.get.bind fun st hst => ?_
      have hspace := hst.table.inNamespace name n arity
      split
      · next target htarget =>
        rw [htarget] at hspace
        exact Answers.pure hspace
      · refine hbind.bind fun b hb => (answers_find hb n arity).bind fun o ho => ?_
        split
        · exact Answers.pure ho
        · exact hl.name n arity
    · intro a
      refine hbind.bind fun b hb => ?_
      have hfound := hb.aliases a
      split
      · next target htarget =>
        rw [htarget] at hfound
        exact Answers.pure hfound
      · exact hl.aliasName a

/-- Names are looked up from any scope. -/
theorem answers_lookup (scope : Scope) : LookupAnswers keys scope.lookup := by
  induction scope with
  | nil => exact ⟨fun _ _ => Answers.pure foundProper_none, fun _ => Answers.pure foundProper_none⟩
  | cons f scope ih => exact ih.extend f

end Lookups

/-! ## Environments -/

section Environments

variable {keys : List String}

theorem answers_resolveBaseList (d : ScopedNode) :
    Answers (Resolution.Proper keys) BaseList.Proper (resolveBaseList d) := by
  have hnone : BaseList.Proper {} := ⟨by simp, by simp⟩
  unfold resolveBaseList
  split
  · exact Answers.pure hnone
  · next scope _ =>
    refine Answers.foldlM (fun l hl base => ?_) hnone
    refine (answers_typeNode (answers_lookup scope) base).bind fun entry _ => ?_
    exact Answers.pure (hl.add _ entry)

theorem answers_completeDeclaration (d : ScopedNode) :
    Answers (Resolution.Proper keys) (fun _ => True) (completeDeclaration d) := by
  unfold completeDeclaration
  split
  · exact Answers.pure trivial
  · split
    · exact Answers.pure trivial
    · next key _ =>
      refine (answers_resolveBaseList d).bind fun l hl => ?_
      exact Answers.modify fun st hst => hst.complete key hl

theorem answers_completeDeclarations (ds : List ScopedNode) :
    Answers (Resolution.Proper keys) (fun _ => True) (ds.forM completeDeclaration) :=
  Answers.forM fun d _ => answers_completeDeclaration d

end Environments

/-- The keys of the types that scoped nodes declare. -/
def declaredKeys (nodes : List ScopedNode) : List String :=
  (typeDeclarations nodes).filterMap (·.declaredKey?)

/-- The types known and those that scoped nodes declare, before any base list is resolved. -/
def Resolution.declaring (references : SymbolTable) (origin : String) (nodes : List ScopedNode) :
    Resolution :=
  { table := references.addAll ((typeDeclarations nodes).filterMap (·.declaredSymbol? origin)) }

/-- The key of a declared type, wherever it is said to come from. -/
theorem ScopedNode.key_declaredSymbol? (origin : String) (d : ScopedNode) :
    (d.declaredSymbol? origin).map (·.key) = d.declaredKey? := by
  unfold declaredKey? declaredSymbol?
  cases d.node.kind? with
  | none => rfl
  | some kind =>
    cases hkind : kind.typeKind? with
    | none => simp [hkind]
    | some typeKind => cases houter : d.outer <;> simp [hkind, declaredSymbol, TypeSymbol.key,
        TypeSymbol.metadata]

theorem ScopedNode.isProper_declaredSymbol? {origin : String} {d : ScopedNode} {s : TypeSymbol}
    (h : d.declaredSymbol? origin = some s) : s.isProper = true := by
  obtain ⟨kind, -, h⟩ := Option.bind_eq_some_iff.mp h
  obtain ⟨typeKind, -, h⟩ := Option.bind_eq_some_iff.mp h
  obtain ⟨outer, -, h⟩ := Option.bind_eq_some_iff.mp h
  cases h
  rfl

/-- Declaring types adds no reference, and makes their keys known. -/
theorem Resolution.proper_declaring {references : SymbolTable} (h : references.Proper)
    (origin : String) (nodes : List ScopedNode) :
    (declaring references origin nodes).Proper (declaredKeys nodes) where
  table := by
    refine h.addAll fun s hs => ?_
    obtain ⟨d, -, hd⟩ := List.mem_filterMap.mp hs
    exact ScopedNode.isProper_declaredSymbol? hd
  keys key hkey := by
    obtain ⟨d, hd, hkey⟩ := List.mem_filterMap.mp hkey
    rw [← d.key_declaredSymbol? origin] at hkey
    obtain ⟨s, hs, hkey⟩ := Option.map_eq_some_iff.mp hkey
    exact SymbolTable.isSome_get?_addAll
      (.inr ⟨s, List.mem_filterMap.mpr ⟨d, hd, hs⟩, hkey.symm⟩)
  bindings _ := Bindings.proper_empty

namespace Environment

/-- A tree has an environment over types whose references can be looked up. -/
theorem ofTree_total {references : SymbolTable} (h : references.Proper) (origin : String)
    (root : Tree) :
    ∃ env, ofTree references origin root = .ok env
      ∧ env.resolution.Proper (declaredKeys (root.scoped [])) := by
  obtain ⟨⟨⟩, st, hrun, -, hst⟩ := answers_completeDeclarations (typeDeclarations (root.scoped []))
    _ (Resolution.proper_declaring h origin (root.scoped []))
  refine ⟨⟨root, root.scoped [], st⟩, ?_, hst⟩
  unfold ofTree
  show ((typeDeclarations (root.scoped [])).forM completeDeclaration).run
    (.declaring references origin (root.scoped [])) >>= _ = _
  rw [hrun]
  rfl

end Environment

/-! ## Decisions -/

section Decisions

variable {keys : List String}

theorem answers_typeIn (scope : Option Scope) (type : Option Tree) :
    Answers (Resolution.Proper keys) (fun o => ∀ s ∈ o, s.isProper = true) (typeIn scope type) := by
  unfold typeIn
  split
  · next scope type => exact answers_typeNode (answers_lookup scope) type
  · exact Answers.pure (by simp)

/-- The rules about types can all be asked. -/
theorem SiteKind.byType_total (kind : SiteKind) (p : Profile) {known : KnownType}
    (hT : known.table.Proper) (hs : known.symbol.isProper = true) :
    ∀ rule ∈ kind.rules.byType, ∃ b, rule.applies p known = .ok b := by
  -- only the question whether a type is a message walks over references
  have hmessage : ∃ b, known.isMessage p = .ok b := hT.implements hs _ _
  cases kind with
  | property => simpa [rules, propertyRules] using hmessage
  | field => simpa [rules, fieldRules] using hmessage
  | parameter => simp [rules, parameterRules]

theorem answers_firstRule {α : Type} {p : Profile} {x : α} {rules : List (Rule α)}
    (h : ∀ rule ∈ rules, ∃ b, rule.applies p x = .ok b) :
    Answers (Resolution.Proper keys) (fun _ => True) (liftM (firstRule p x rules)) := by
  obtain ⟨o, ho, -⟩ := firstRule_total h
  exact Answers.lift ⟨o, ho, trivial⟩

theorem answers_ruling (p : Profile) (s : Site) :
    Answers (Resolution.Proper keys) (fun _ => True) (s.ruling? p) := by
  unfold Site.ruling?
  refine (answers_firstRule (s.kind.bySite_total p s)).bind fun found _ => ?_
  split
  · exact Answers.pure trivial
  · split
    · exact Answers.pure trivial
    · refine (answers_typeIn _ _).bind fun type htype => ?_
      split
      · exact Answers.pure trivial
      · next symbol =>
        refine Answers.get.bind fun st hst => ?_
        refine (answers_firstRule ?_).bind fun _ _ => Answers.pure trivial
        exact s.kind.byType_total p hst.table (htype symbol rfl)

theorem answers_isGuardCall (p : Profile) (s : ScopedNode) (previous : List Token) :
    Answers (Resolution.Proper keys) (fun _ => True) (p.isGuardCall s previous) := by
  have hqualifier : ∀ a names,
      Answers (Resolution.Proper keys) FoundProper (s.qualifier a names) := by
    intro a names
    unfold ScopedNode.qualifier
    split
    · exact Answers.pure foundProper_none
    · next scope _ => exact answers_qualified (answers_lookup scope) a _
  unfold Profile.isGuardCall
  split
  · exact Answers.pure trivial
  · next q _ =>
    split
    · exact Answers.pure trivial
    · refine (hqualifier q.aliasName q.names).bind fun o _ => ?_
      split <;> exact Answers.pure trivial

theorem answers_hasGuardCall (p : Profile) (s : ScopedNode) (previous ts : List Token) :
    Answers (Resolution.Proper keys) (fun _ => True) (p.hasGuardCall s previous ts) := by
  induction ts generalizing previous with
  | nil => exact Answers.pure trivial
  | cons t rest ih =>
    unfold Profile.hasGuardCall
    split
    · refine (answers_isGuardCall p s previous).bind fun guards _ => ?_
      split
      · exact Answers.pure trivial
      · exact ih (t :: previous)
    · exact ih (t :: previous)

theorem answers_judge (p : Profile) (s : Site) :
    Answers (Resolution.Proper keys) (fun _ => True) (s.judge p) := by
  have hholds : ∀ ruling, Answers (Resolution.Proper keys) (fun _ => True) (s.holds p ruling) := by
    intro ruling
    cases ruling with
    | optional => exact Answers.pure trivial
    | required => exact Answers.pure trivial
    | unlessGuarded =>
      have hguarded : Answers (Resolution.Proper keys) (fun _ => True)
          (p.isGuarded s.declaration) := by
        unfold Profile.isGuarded
        split
        · exact Answers.pure trivial
        · exact answers_hasGuardCall p _ _ _
      exact hguarded.bind fun _ _ => Answers.pure trivial
  unfold Site.judge
  refine (answers_ruling p s).bind fun ruling _ => ?_
  split
  · exact Answers.pure trivial
  · next ruling => exact (hholds ruling).bind fun _ _ => Answers.pure trivial

/-- All declarations are judged. -/
theorem Environment.decisions_total {env : Environment} (h : env.resolution.Proper keys)
    (p : Profile) : ∃ ds, env.decisions p = .ok ds := by
  have hjudged : Answers (Resolution.Proper keys) (fun _ => True) (judgeAll p env.sites) :=
    Answers.mapM fun s _ => (answers_judge p s).bind fun d _ =>
      (answers_remark _).bind fun _ _ => Answers.pure trivial
  obtain ⟨ds, st, hrun, -⟩ := hjudged env.resolution h
  exact ⟨ds, by rw [decisions, judged, hrun]; rfl⟩

end Decisions

end NullableMarker
