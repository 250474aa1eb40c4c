import NullableMarker.Proofs.Lookups

/-!
# Symbols that are found and symbols that are known

Base lists are resolved one after the other, and each replaces the entry of its type in the table.
Aliases and the types behind keywords are kept as symbols, so those bound before a base list was
resolved lack what it says. What a type node stands for is therefore the entry of the table up to
bases that were filled in later; it is the entry itself unless the node is a single word and the unit
gives the type a base list.

* `TypeSymbol.CompletedBy` — a symbol with bases filled in
* `Resolution.Sound` — what is kept by every question and by every base list
* `asType_known` — what type nodes stand for once an environment is made
* `asType_outdated` — an alias that lacks the base of its type
-/

namespace NullableMarker

/-! ## Bases filled in -/

/-- The second symbol is the first with bases filled in. -/
structure TypeSymbol.CompletedBy (s t : TypeSymbol) : Prop where
  rest : t = { s with base := t.base, interfaces := t.interfaces }
  base : s.base.any (·.isPresent) = true → t.base = s.base
  interfaces : s.interfaces <+: t.interfaces

namespace TypeSymbol

variable {s t u : TypeSymbol}

theorem CompletedBy.refl (s : TypeSymbol) : s.CompletedBy s := ⟨rfl, fun _ => rfl, List.prefix_rfl⟩

theorem CompletedBy.trans (h : s.CompletedBy t) (h' : t.CompletedBy u) : s.CompletedBy u where
  rest := by
    rw [h'.rest, h.rest]
  base hs := by
    have ht := h.base hs
    rw [← ht]
    exact h'.base (ht ▸ hs)
  interfaces := h.interfaces.trans h'.interfaces

theorem CompletedBy.key_eq (h : s.CompletedBy t) : t.key = s.key := by
  rw [h.rest]
  rfl

theorem key_merge (s t : TypeSymbol) : (s.merge t).key = s.key := rfl

end TypeSymbol

/-! ## Tables -/

namespace SymbolTable

/-- Every type stands under its key, and a type behind a keyword is the entry of its key. -/
structure Sound (T : SymbolTable) : Prop where
  keyed : ∀ key s, T.get? key = some s → s.key = key
  specials : ∀ word s, T.special? word = some s → s.special = some word ∧ T.get? s.key = some s

theorem sound_empty : empty.Sound where
  keyed _ _ h := by cases h
  specials _ _ h := by cases h

/-- The symbol that a table holds once a symbol is added. -/
theorem add_fst (T : SymbolTable) (s : TypeSymbol) :
    ∃ merged, (T.get? s.key = none ∧ merged = s
        ∨ ∃ first, T.get? s.key = some first ∧ merged = first.merge s)
      ∧ (T.add s).1.types = upsert merged.key merged T.types
      ∧ (T.add s).1.specials
        = (merged.special.elim T.specials fun word => upsert word merged T.specials) := by
  refine ⟨(T.add s).2, ?_, rfl, ?_⟩
  · unfold add
    cases T.get? s.key with
    | none => exact .inl ⟨rfl, rfl⟩
    | some first => exact .inr ⟨first, rfl, rfl⟩
  · unfold add
    dsimp only
    split
    · next word hword => rw [hword]; rfl
    · next hword => rw [hword]; rfl

theorem Sound.add {T : SymbolTable} (h : T.Sound) (s : TypeSymbol) : (T.add s).1.Sound := by
  obtain ⟨merged, hmerged, htypes, hspecials⟩ := add_fst T s
  have hkey : merged.key = s.key := by
    rcases hmerged with ⟨-, rfl⟩ | ⟨first, hfirst, rfl⟩
    · rfl
    · exact (first.key_merge s).trans (h.keyed _ _ hfirst)
  have hself : (T.add s).1.get? merged.key = some merged := by
    rw [get?, htypes, lookup_upsert_self]
  have hother : ∀ key, key ≠ merged.key → (T.add s).1.get? key = T.get? key := by
    intro key hne
    rw [get?, htypes, lookup_upsert_of_ne hne, get?]
  constructor
  · intro key t ht
    by_cases hk : key = merged.key
    · rw [hk, hself] at ht
      cases ht
      exact hk.symm
    · rw [hother key hk] at ht
      exact h.keyed key t ht
  · intro word t ht
    rw [special?, hspecials] at ht
    by_cases hword : merged.special = some word
    · rw [hword, Option.elim_some, lookup_upsert_self] at ht
      cases ht
      exact ⟨hword, hself⟩
    · have ht : T.special? word = some t := by
        cases hspecial : merged.special with
        | none => rwa [hspecial] at ht
        | some word' =>
          rw [hspecial, Option.elim_some, lookup_upsert_of_ne] at ht
          · exact ht
          · rintro rfl
            exact hword hspecial
      obtain ⟨hspecial, hget⟩ := h.specials word t ht
      refine ⟨hspecial, ?_⟩
      -- merging keeps the keyword of the first declaration
      have hne : t.key ≠ merged.key := by
        intro heq
        rw [heq, hkey] at hget
        rcases hmerged with ⟨hnone, -⟩ | ⟨first, hfirst, rfl⟩
        · rw [hnone] at hget
          cases hget
        · rw [hfirst] at hget
          cases hget
          refine hword ?_
          rw [TypeSymbol.merge, hspecial]
          rfl
      rw [hother _ hne, hget]

theorem Sound.addAll {T : SymbolTable} (h : T.Sound) (symbols : List TypeSymbol) :
    (T.addAll symbols).Sound := by
  induction symbols generalizing T with
  | nil => exact h
  | cons s symbols ih => exact ih (h.add s)

theorem sound_ofList (symbols : List TypeSymbol) : (ofList symbols).Sound :=
  sound_empty.addAll symbols

/-- The table has the symbol, up to bases filled in since if its key is one of `keys`. -/
def Knows (T : SymbolTable) (keys : List String) (s : TypeSymbol) : Prop :=
  ∃ now, T.get? s.key = some now ∧ s.CompletedBy now ∧ (now = s ∨ s.key ∈ keys)

theorem knows_of_get? {T : SymbolTable} {keys : List String} {s : TypeSymbol}
    (h : T.get? s.key = some s) : T.Knows keys s := ⟨s, h, .refl s, .inl rfl⟩

/-- A base list fills in the bases of the type with its key, and leaves the others alone. -/
theorem get?_complete {T : SymbolTable} {s : TypeSymbol} {k : String} (h : T.get? k = some s)
    (key : String) (l : BaseList) :
    ∃ now, (T.complete key l).get? k = some now ∧ s.CompletedBy now ∧ (now = s ∨ k = key) := by
  unfold complete
  cases hkey : T.get? key with
  | none => exact ⟨s, h, .refl s, .inl rfl⟩
  | some t =>
    by_cases hk : k = key
    · subst hk
      obtain rfl := Option.some.inj (hkey.symm.trans h)
      refine ⟨_, by rw [get?]; exact lookup_upsert_self _ _ _, ⟨rfl, fun hpresent => ?_, ?_⟩, .inr rfl⟩
      · exact if_pos hpresent
      · exact List.prefix_append _ _
    · refine ⟨s, ?_, .refl s, .inl rfl⟩
      rw [get?]
      exact (lookup_upsert_of_ne hk _ _).trans h

theorem Knows.complete {T : SymbolTable} {keys : List String} {s : TypeSymbol}
    (h : T.Knows keys s) {key : String} (hkey : key ∈ keys) (l : BaseList) :
    (T.complete key l).Knows keys s := by
  obtain ⟨now, hnow, hcompleted, heq⟩ := h
  obtain ⟨later, hlater, hcompleted', heq'⟩ := get?_complete hnow key l
  refine ⟨later, hlater, hcompleted.trans hcompleted', ?_⟩
  rcases heq' with rfl | hk
  · exact heq
  · exact .inr (hk ▸ hkey)

theorem special?_complete (T : SymbolTable) (key : String) (l : BaseList) (word : Special) :
    (T.complete key l).special? word = T.special? word := by
  unfold complete
  split <;> rfl

theorem keyed_complete {T : SymbolTable} (h : ∀ key s, T.get? key = some s → s.key = key)
    {key : String} {l : BaseList} {k : String} {s : TypeSymbol}
    (hs : (T.complete key l).get? k = some s) : s.key = k := by
  cases hk : T.get? k with
  | some t =>
    obtain ⟨now, hnow, hcompleted, -⟩ := get?_complete hk key l
    obtain rfl := Option.some.inj (hnow.symm.trans hs)
    rw [hcompleted.key_eq, h k t hk]
  | none =>
    unfold complete at hs
    cases hkey : T.get? key with
    | none =>
      rw [hkey] at hs
      exact h k s hs
    | some t =>
      have hne : k ≠ key := by
        rintro rfl
        rw [hk] at hkey
        cases hkey
      rw [hkey] at hs
      rw [get?] at hs
      rw [lookup_upsert_of_ne hne] at hs
      exact h k s hs

end SymbolTable

/-! ## States -/

/-- The table is keyed, and it knows the types behind keywords and aliases. -/
structure Resolution.Sound (keys : List String) (st : Resolution) : Prop where
  keyed : ∀ key s, st.table.get? key = some s → s.key = key
  specials : ∀ word s, st.table.special? word = some s → st.table.Knows keys s
  aliases : ∀ i a s, (st.bindings i).aliases.lookup a = some (.type s) → st.table.Knows keys s

namespace Resolution.Sound

variable {keys : List String} {st : Resolution}

theorem setBindings (h : st.Sound keys) {i : Nat} {b : Bindings}
    (hb : ∀ a s, b.aliases.lookup a = some (.type s) → st.table.Knows keys s) :
    (st.setBindings i b).Sound keys where
  keyed := h.keyed
  specials := h.specials
  aliases j a s hs := by
    by_cases hj : j = i
    · subst hj
      rw [bindings_setBindings_self] at hs
      exact hb a s hs
    · refine h.aliases j a s ?_
      rwa [bindings, Resolution.setBindings, lookup_upsert_of_ne hj] at hs

theorem complete (h : st.Sound keys) {key : String} (hkey : key ∈ keys) (l : BaseList) :
    Resolution.Sound keys { st with table := st.table.complete key l } where
  keyed _ _ hs := SymbolTable.keyed_complete h.keyed hs
  specials word s hs := by
    rw [SymbolTable.special?_complete] at hs
    exact (h.specials word s hs).complete hkey l
  aliases i a s hs := (h.aliases i a s hs).complete hkey l

end Resolution.Sound

/-! ## One resolution beside itself -/

/-- A resolution beside itself, over a table that stays. What is remarked plays no part. -/
def Coupling.still (keys : List String) (T : SymbolTable) : Coupling where
  asked _ := True
  keys _ := True
  entered _ := True
  found := T.Knows keys
  current s := T.get? s.key = some s
  found_of_current := SymbolTable.knows_of_get?
  entered_of_found _ := trivial
  states st st' := st.table = T ∧ st'.table = T ∧ st'.bound = st.bound ∧ st.Sound keys
  ids := Eq
  answers := by
    rintro st st' ⟨rfl, hT', -, hst⟩
    rw [hT']
    refine Inquiry.answers_refl (fun key s hs => ?_) hst.specials
    show st.table.get? s.key = some s
    rwa [hst.keyed key s hs]
  bound_eq := by
    rintro st st' i _ ⟨-, -, hbound, -⟩ rfl
    rw [hbound]
  found_alias := by
    rintro st st' i _ a s ⟨rfl, -, -, hst⟩ rfl hs
    exact hst.aliases i a s hs
  entered_static _ _ _ := trivial
  states_setBindings := by
    rintro st st' i _ b ⟨rfl, hT', hbound, hst⟩ rfl hb -
    exact ⟨rfl, hT', congrArg (upsert i b) hbound, hst.setBindings hb⟩
  states_remark := by
    rintro st st' r r' ⟨hT, hT', hbound, hst⟩
    exact ⟨hT, hT', hbound, ⟨hst.keyed, hst.specials, hst.aliases⟩⟩

namespace Coupling

theorem still_self {keys : List String} {st : Resolution} (h : st.Sound keys) :
    (still keys st.table).states st st := ⟨rfl, rfl, rfl, h⟩

theorem lookupAlike_self {keys : List String} {T : SymbolTable} (scope : Scope) :
    (still keys T).LookupAlike scope.lookup scope.lookup :=
  alike_lookup_self (fun _ => rfl) fun _ _ => ⟨fun _ _ => trivial, fun _ _ _ => trivial⟩

end Coupling

/-! ## Environments -/

/-- A type that has a base list of its own, by its declaration. -/
def ScopedNode.completedKey? (s : ScopedNode) : Option String :=
  if s.isKind fun k => k == .enumType || k == .delegateType then none else s.declaredKey?

theorem Resolution.Sound.completeDeclaration {keys : List String} {st st' : Resolution}
    (h : st.Sound keys) {s : ScopedNode} (hs : ∀ key, s.completedKey? = some key → key ∈ keys)
    {u : Unit} (hrun : (completeDeclaration s).run st = .ok (u, st')) : st'.Sound keys := by
  unfold NullableMarker.completeDeclaration at hrun
  unfold ScopedNode.completedKey? at hs
  split at hrun
  · cases hrun
    exact h
  · next hkind =>
    rw [if_neg hkind] at hs
    cases hkey : s.declaredKey? with
    | none =>
      rw [hkey] at hrun
      cases hrun
      exact h
    | some key =>
      rw [hkey] at hrun
      obtain ⟨⟨l, st₁⟩, hl, hend⟩ := ok_of_bind hrun
      have halike := Coupling.alike_resolveBaseList_self (C := .still keys st.table) (d := s)
        (fun _ => rfl) (fun _ _ _ _ => ⟨fun _ _ => trivial, fun _ _ _ => trivial⟩)
        fun _ _ _ _ => trivial
      obtain ⟨_, _, -, -, -, -, -, hst₁⟩ := halike.ok (Coupling.still_self h) hl
      cases hend
      exact hst₁.complete (hs key hkey) l

theorem Resolution.Sound.completeAll {keys : List String} {st st' : Resolution}
    (h : st.Sound keys) {declarations : List ScopedNode}
    (hkeys : ∀ s ∈ declarations, ∀ key, s.completedKey? = some key → key ∈ keys) {u : Unit}
    (hrun : (declarations.forM NullableMarker.completeDeclaration).run st = .ok (u, st')) :
    st'.Sound keys := by
  induction declarations generalizing st with
  | nil =>
    cases hrun
    exact h
  | cons s declarations ih =>
    obtain ⟨⟨v, st₁⟩, hs, hrest⟩ := ok_of_bind hrun
    refine ih (h.completeDeclaration (hkeys s List.mem_cons_self) hs) ?_ hrest
    exact fun s' hs' => hkeys s' (List.mem_cons_of_mem s hs')

namespace Environment

variable {symbols : List TypeSymbol} {origin : String} {root : Tree} {env : Environment}
  {st st' : Resolution}

/-- The keys of the types that the tree gives a base list. -/
def completedKeys (env : Environment) : List String :=
  (typeDeclarations env.nodes).filterMap (·.completedKey?)

/-- The states that an environment comes to by answering questions. -/
inductive Reached (env : Environment) : Resolution → Prop
  | made : Reached env env.resolution
  | asType {st st' : Resolution} {n : ScopedNode} {o : Option TypeSymbol} :
      Reached env st → n.asType.run st = .ok (o, st') → Reached env st'
  | typeOf {st st' : Resolution} {n : ScopedNode} {o : Option TypeSymbol} :
      Reached env st → n.typeOf.run st = .ok (o, st') → Reached env st'
  | qualifier {st st' : Resolution} {n : ScopedNode} {a : Option String} {names : List String}
      {o : Option Target} :
      Reached env st → (n.qualifier a names).run st = .ok (o, st') → Reached env st'

theorem sound_resolution (henv : ofTree (.ofList symbols) origin root = .ok env) :
    env.resolution.Sound env.completedKeys := by
  obtain ⟨⟨u, resolution⟩, hrun, heq⟩ := ok_of_bind henv
  cases heq
  have hdeclared := (SymbolTable.sound_ofList symbols).addAll
    ((typeDeclarations (root.scoped [])).filterMap (·.declaredSymbol? origin))
  refine Resolution.Sound.completeAll ⟨hdeclared.keyed, ?_, ?_⟩ ?_ hrun
  · exact fun word s hs => SymbolTable.knows_of_get? (hdeclared.specials word s hs).2
  · intro i a s hs
    cases hs
  · exact fun s hs key hkey => List.mem_filterMap.mpr ⟨s, hs, hkey⟩

open Coupling in
theorem alike_typeIn_self {keys : List String} {T : SymbolTable} (scope : Option Scope) (t : Tree) :
    Alike (still keys T).states ((still keys T).FindsType t.written) (typeIn scope (some t))
      (typeIn scope (some t)) := by
  cases scope with
  | none => exact Alike.pure ⟨rfl, fun s hs => by cases hs⟩
  | some scope => exact alike_typeNode (lookupAlike_self scope) rfl fun _ _ => trivial

open Coupling in
theorem Reached.states_self (hmade : env.resolution.Sound env.completedKeys) (h : env.Reached st) :
    (still env.completedKeys env.table).states st st := by
  have hself : ∀ {st st'}, (still env.completedKeys env.table).states st st' →
      (still env.completedKeys env.table).states st st := fun ⟨hT, _, _, hst⟩ => ⟨hT, hT, rfl, hst⟩
  induction h with
  | made => exact still_self hmade
  | @asType st st' n o _ hrun ih =>
    obtain ⟨_, _, -, -, hst'⟩ := (alike_typeIn_self n.outer n.node).ok ih hrun
    exact hself hst'
  | @typeOf st st' n o _ hrun ih =>
    unfold ScopedNode.typeOf at hrun
    cases ht : n.node.type? with
    | none =>
      rw [ht] at hrun
      cases hscope : n.inner with
      | none => rw [hscope] at hrun; cases hrun; exact ih
      | some scope => rw [hscope] at hrun; cases hrun; exact ih
    | some t =>
      rw [ht] at hrun
      obtain ⟨_, _, -, -, hst'⟩ := (alike_typeIn_self n.inner t).ok ih hrun
      exact hself hst'
  | @qualifier st st' n a names o _ hrun ih =>
    unfold ScopedNode.qualifier at hrun
    split at hrun
    · cases hrun
      exact ih
    · next scope _ =>
      obtain ⟨_, _, -, -, hst'⟩ := (alike_qualified (lookupAlike_self scope) _ fun _ _ => trivial).ok
        ih hrun
      exact hself hst'

/-- What a type node stands for once an environment is made is, up to bases filled in later, what
the table holds under its key; it is that very symbol unless the node is a single word and the tree
gives the type a base list. -/
theorem asType_known (henv : ofTree (.ofList symbols) origin root = .ok env) (hst : env.Reached st)
    {n : ScopedNode} {s : TypeSymbol} (hs : n.asType.run st = .ok (some s, st')) :
    ∃ now, env.table.get? s.key = some now ∧ s.CompletedBy now
      ∧ (now = s ∨ n.node.written.isOneWord = true ∧ s.key ∈ env.completedKeys) := by
  have hstates := hst.states_self (sound_resolution henv)
  obtain ⟨_, _, -, ⟨-, hfinds⟩, -⟩ := (alike_typeIn_self n.outer n.node).ok hstates hs
  obtain ⟨⟨now, hnow, hcompleted, heq⟩, hcurrent⟩ := hfinds s rfl
  refine ⟨now, hnow, hcompleted, ?_⟩
  cases hword : n.node.written.isOneWord with
  | true => exact heq.imp_right fun hkey => ⟨rfl, hkey⟩
  | false => exact .inl (Option.some.inj (hnow.symm.trans (hcurrent hword)))

theorem asType_known_field :
    ∃ root env n s now, parseUnit "class A{A a;}" [] = .ok root
      ∧ ofTree (.ofList []) "source" root = .ok env ∧ n ∈ env.nodes
      ∧ (n.asType.run env.resolution).map (·.1) = .ok (some s)
      ∧ env.table.get? s.key = some now ∧ s.CompletedBy now := by
  have hrun : ((parseUnit "class A{A a;}" []).toOption.bind fun root =>
      (ofTree (.ofList []) "source" root).toOption.map fun env =>
        env.nodes.any fun n => ((n.asType.run env.resolution).toOption.bind (·.1)).isSome)
      = some true := by
    decide +kernel
  obtain ⟨root, hroot, hrun⟩ := Option.bind_eq_some_iff.mp hrun
  obtain ⟨env, henv, hrun⟩ := Option.map_eq_some_iff.mp hrun
  obtain ⟨n, hn, hrun⟩ := List.any_eq_true.mp hrun
  obtain ⟨s, hs⟩ := Option.isSome_iff_exists.mp hrun
  obtain ⟨⟨_, st'⟩, hrun, rfl⟩ := Option.bind_eq_some_iff.mp hs
  have hrun := ok_of_toOption hrun
  have henv := ok_of_toOption henv
  obtain ⟨now, hnow, hcompleted, -⟩ := asType_known henv .made hrun
  exact ⟨root, env, n, s, now, ok_of_toOption hroot, henv, hn, by rw [hrun]; rfl, hnow, hcompleted⟩

/-- An alias that a base list has bound is not told what a later base list says. -/
theorem asType_outdated :
    ∃ root env n s, parseUnit "using A=C;class B:A{A a;}class C:D{}class D{}" [] = .ok root
      ∧ ofTree (.ofList []) "source" root = .ok env
      ∧ n ∈ env.nodes ∧ n.node.isNode NodeKind.isType = true
      ∧ (n.asType.run env.resolution).map (·.1) = .ok (some s)
      ∧ env.table.get? s.key ≠ some s := by
  have hrun : ((parseUnit "using A=C;class B:A{A a;}class C:D{}class D{}" []).toOption.bind
      fun root => (ofTree (.ofList []) "source" root).toOption.map fun env =>
        env.nodes.any fun n => n.node.isNode NodeKind.isType
          && ((n.asType.run env.resolution).toOption.bind (·.1)).any fun s =>
            s.base.isNone && (env.table.get? s.key).any (·.base.isSome)) = some true := by
    decide +kernel
  obtain ⟨root, hroot, hrun⟩ := Option.bind_eq_some_iff.mp hrun
  obtain ⟨env, henv, hrun⟩ := Option.map_eq_some_iff.mp hrun
  obtain ⟨n, hn, hrun⟩ := List.any_eq_true.mp hrun
  obtain ⟨htype, hrun⟩ := Bool.and_eq_true_iff.mp hrun
  obtain ⟨s, hs, hbase⟩ := (Option.any_eq_true _ _).mp hrun
  obtain ⟨⟨_, st'⟩, hrun, rfl⟩ := Option.bind_eq_some_iff.mp hs
  have hrun := ok_of_toOption hrun
  refine ⟨root, env, n, s, ok_of_toOption hroot, ok_of_toOption henv, hn, htype, by rw [hrun]; rfl, ?_⟩
  intro hsame
  rw [hsame, Bool.and_eq_true_iff] at hbase
  obtain ⟨hnone, hsome⟩ := hbase
  rw [Option.any_some, Option.isSome_iff_ne_none] at hsome
  exact hsome (Option.isNone_iff_eq_none.mp hnone)

end Environment

end NullableMarker
