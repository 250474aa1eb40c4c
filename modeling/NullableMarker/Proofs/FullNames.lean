import NullableMarker.Proofs.Enclosures
import NullableMarker.Proofs.ReferenceOrder

/-!
# Full names of declared types

The key of a declared type is its dotted name, and adding the type makes the namespaces around it
known. So its full name, taken segment by segment from the outermost namespace, leads through these
namespaces and from each type to the one nested in it, unless a type has the name of a namespace.

* `SymbolTable.hasNamespace_addAll_of_mem` — namespaces that are known through a type
* `SymbolTable.follow_spaces`, `SymbolTable.follow_types` — where segments lead
* `Located.spaces_eq` — types with one key lie in one namespace
* `Environment.found_by_full_name` — declared types are found by their full names
-/

namespace NullableMarker

/-! ## Namespaces of added types -/

namespace SymbolTable

variable {T : SymbolTable}

/-- The namespaces around a type that was added are known. -/
theorem hasNamespace_addAll_of_mem (hT : T.Keyed) {symbols : List TypeSymbol}
    (hspecial : ∀ s ∈ symbols, s.special = none) {s u : TypeSymbol} (hs : s ∈ symbols)
    (hu : (T.addAll symbols).get? s.key = some u) {name : String}
    (hname : name ∈ enclosing u.namespaceName) : (T.addAll symbols).hasNamespace name = true := by
  induction symbols generalizing T with
  | nil => cases hs
  | cons first symbols ih =>
    have hrest := fun t ht => hspecial t (List.mem_cons_of_mem first ht)
    rcases List.mem_cons.mp hs with rfl | hs
    · refine hasNamespace_addAll_of_hasNamespace ?_ symbols
      -- the entry keeps its namespace while the others are added
      have hkept := sameOutline_addAll (hT.add s) hrest s.key
      rw [get?_add_self hT, Option.some_or] at hkept
      rw [show ((T.add s).1.addAll symbols).get? s.key = some u from hu] at hkept
      cases hkept with
      | some houtline =>
        rw [hasNamespace_add, houtline.namespaceName_eq, Bool.or_eq_true]
        exact .inr (List.contains_iff_mem.mpr hname)
    · exact ih (hT.add first) hrest hs hu

/-! ## Following segments -/

theorem lookup_eq (T : SymbolTable) (space name : String) (arity : Int) :
    T.lookup space name arity = T.get? (joinName space (metadataName name arity)) := by
  unfold lookup joinName
  split
  · rw [String.empty_append]
  · rfl

/-- A nested type that a type declares itself is found first. -/
theorem nested_of_get? {container s : TypeSymbol} {name : String} {arity : Int}
    (h : T.get? (container.key ++ "." ++ metadataName name arity) = some s) :
    T.nested container name arity = .ok (some s) := by
  unfold nested ancestry
  rw [Ancestry.findSome?_after, h]

/-- The segments of a namespace lead to it. -/
theorem follow_spaces {spaces : List String} {before : List String}
    (hknown : ∀ ps, ps <+: spaces → ps ≠ [] → T.hasNamespace (dottedName (before ++ ps)) = true)
    (hfree : ∀ name, T.hasNamespace name = true → T.get? name = none)
    (rest : List (String × Nat)) :
    T.follow (some (.space (dottedName before))) (spaces.map (·, 0) ++ rest)
      = T.follow (some (.space (dottedName (before ++ spaces)))) rest := by
  -- the name reached so far grows by one part with each segment
  induction spaces generalizing before with
  | nil => rw [List.append_nil]; rfl
  | cons name spaces ih =>
    have hspace := hknown [name] (by simp) (List.cons_ne_nil _ _)
    rw [dottedName_concat] at hspace
    have hmember : T.member (.space (dottedName before)) name 0
        = .ok (some (.space (dottedName (before ++ [name])))) := by
      unfold member inNamespace?
      dsimp only
      rw [lookup_eq, show metadataName name ((0 : Nat) : Int) = name from rfl, hfree _ hspace,
        dottedName_concat]
      simp [hspace]
    have hafter : ∀ ps, ps <+: spaces → ps ≠ [] →
        T.hasNamespace (dottedName ((before ++ [name]) ++ ps)) = true := by
      intro ps hps _
      rw [List.append_assoc]
      exact hknown (name :: ps) (List.cons_prefix_cons.mpr ⟨rfl, hps⟩) (List.cons_ne_nil _ _)
    rw [List.map_cons, List.cons_append, follow, hmember]
    show T.follow _ _ = _
    rw [ih hafter, List.append_assoc, List.singleton_append]

/-- The segments of nested types lead from one to the next. -/
theorem follow_types (hT : T.Keyed) (hempty : T.get? "" = none) {types : List (String × Nat)}
    {before : List String} {s : TypeSymbol} (hs : T.get? (dottedName before) = some s)
    (hknown : ∀ ts, ts <+: types → ts ≠ [] →
      (T.get? (dottedName (before ++ metadataNames ts))).isSome = true) :
    ∃ u, T.get? (dottedName (before ++ metadataNames types)) = some u
      ∧ T.follow (some (.type s)) types = .ok (some (.type u)) := by
  induction types generalizing before s with
  | nil => exact ⟨s, by simpa using hs, rfl⟩
  | cons type types ih =>
    obtain ⟨name, arity⟩ := type
    obtain ⟨t, ht⟩ := Option.isSome_iff_exists.mp
      (hknown [(name, arity)] (by simp) (List.cons_ne_nil _ _))
    have ht : T.get? (dottedName (before ++ [metadataName name arity])) = some t := ht
    have hne : dottedName before ≠ "" := by
      intro heq
      rw [heq, hempty] at hs
      cases hs
    -- the base classes are not asked, because the type has a nested type of that name itself
    have hmember : T.member (.type s) name arity = .ok (some (.type t)) := by
      have hnested : T.nested s name arity = .ok (some t) := by
        refine nested_of_get? ?_
        rw [hT _ _ hs, ← joinName_of_ne hne, ← dottedName_concat]
        exact ht
      unfold member
      dsimp only
      rw [hnested]
      rfl
    have hafter : ∀ ts, ts <+: types → ts ≠ [] → (T.get? (dottedName
        ((before ++ [metadataName name arity]) ++ metadataNames ts))).isSome = true := by
      intro ts hts _
      have hmore := hknown ((name, arity) :: ts) (List.cons_prefix_cons.mpr ⟨rfl, hts⟩)
        (List.cons_ne_nil _ _)
      simpa using hmore
    obtain ⟨u, hu, hfollow⟩ := ih ht hafter
    refine ⟨u, by simpa using hu, ?_⟩
    rw [follow, hmember]
    exact hfollow

end SymbolTable

/-! ## Shared keys -/

namespace Located

variable {T : SymbolTable} {scope scope' : Scope} {c c' : Enclosure}

/-- The key of a type is not continued by namespaces. -/
theorem eq_nil_of_free (h : Located T scope c) {more rest : List String}
    (hparts : metadataNames c.types = more ++ rest)
    (hfree : T.get? (dottedName (c.spaces ++ more)) = none) : more = [] := by
  by_contra hne
  have hmap : metadataNames (c.types.take more.length) = more := by
    rw [metadataNames, List.map_take, ← metadataNames, hparts, List.take_left]
  have htypes : c.types.take more.length ≠ [] := by
    intro heq
    rw [heq] at hmap
    exact hne hmap.symm
  have hknown := h.known _ (List.take_prefix _ _) htypes
  rw [Enclosure.parts, hmap, hfree] at hknown
  cases hknown

/-- Types with one key lie in one namespace. -/
theorem spaces_eq (h : Located T scope c) (h' : Located T scope' c')
    (hkey : dottedName c.parts = dottedName c'.parts) : c.spaces = c'.spaces := by
  -- the parts agree, so if the namespaces did not, one name would be that of a namespace and a key
  have hparts := dottedName_injective h.parts h'.parts hkey
  rcases List.append_eq_append_iff.mp hparts with ⟨more, hspaces, htypes⟩ | ⟨more, hspaces, htypes⟩
  · have hnil := h.eq_nil_of_free htypes (hspaces ▸ h'.free)
    rw [hspaces, hnil, List.append_nil]
  · have hnil := h'.eq_nil_of_free htypes (hspaces ▸ h.free)
    rw [hspaces, hnil, List.append_nil]

/-- The segments of a full name lead from the outermost namespace to the type. -/
theorem follow_segments (h : Located T scope c) (hT : T.Keyed)
    (hfree : ∀ name, T.hasNamespace name = true → T.get? name = none)
    (hspaces : ∀ ps, ps <+: c.spaces → ps ≠ [] → T.hasNamespace (dottedName ps) = true)
    (hne : c.types ≠ []) :
    ∃ u, T.get? (dottedName c.parts) = some u
      ∧ T.follow (some (.space "")) c.segments = .ok (some (.type u)) := by
  obtain ⟨⟨name, arity⟩, types, htypes⟩ := List.exists_cons_of_ne_nil hne
  obtain ⟨t, ht⟩ := Option.isSome_iff_exists.mp
    (h.known [(name, arity)] (by simp [htypes]) (List.cons_ne_nil _ _))
  have ht : T.get? (dottedName (c.spaces ++ [metadataName name arity])) = some t := ht
  have hmember : T.member (.space (dottedName c.spaces)) name arity = .ok (some (.type t)) := by
    have hlookup : T.lookup (dottedName c.spaces) name arity = some t := by
      rw [SymbolTable.lookup_eq, ← dottedName_concat, ht]
    unfold SymbolTable.member SymbolTable.inNamespace?
    dsimp only
    rw [hlookup]
  have hknown : ∀ ts, ts <+: types → ts ≠ [] → (T.get? (dottedName
      ((c.spaces ++ [metadataName name arity]) ++ metadataNames ts))).isSome = true := by
    intro ts hts _
    have hmore := h.known ((name, arity) :: ts)
      (by rw [htypes]; exact List.cons_prefix_cons.mpr ⟨rfl, hts⟩) (List.cons_ne_nil _ _)
    simpa [Enclosure.parts] using hmore
  obtain ⟨u, hu, hfollow⟩ := SymbolTable.follow_types hT h.empty ht hknown
  refine ⟨u, by simpa [Enclosure.parts, htypes] using hu, ?_⟩
  rw [Enclosure.segments, show ("" : String) = dottedName [] from rfl,
    SymbolTable.follow_spaces (by simpa using hspaces) hfree, List.nil_append, htypes,
    SymbolTable.follow, hmember]
  exact hfollow

end Located

/-! ## Environments -/

/-- The names of the namespaces that scoped nodes declare. -/
def declaredNamespaces (nodes : List ScopedNode) : List String :=
  (nodes.filter (·.isKind NodeKind.isNamespace)).filterMap fun s => s.inner.map (·.namespaceName)

/-- Base lists add no namespace. -/
theorem hasNamespace_completeAll {ds : List ScopedNode} {st st' : Resolution} {u : Unit}
    (h : (ds.forM completeDeclaration).run st = .ok (u, st')) (name : String) :
    st'.table.hasNamespace name = st.table.hasNamespace name := by
  induction ds generalizing st with
  | nil =>
    cases h
    rfl
  | cons d ds ih =>
    obtain ⟨⟨_, st₁⟩, hd, hrest⟩ := ok_of_bind h
    refine (ih hrest).trans ?_
    rcases completeDeclaration_cases hd with ⟨-, rfl⟩ | ⟨key, l, st₂, -, -, rfl⟩
    · rfl
    · exact SymbolTable.hasNamespace_complete _ _ _ _

/-- A declared symbol comes from a declaration of a type in a scope. -/
theorem ScopedNode.cases_declaredSymbol? {s : ScopedNode} {origin : String} {d : TypeSymbol}
    (h : s.declaredSymbol? origin = some d) :
    ∃ scope kind, s.outer = some scope ∧ s.node.isNode NodeKind.isTypeDeclaration = true
      ∧ d = declaredSymbol origin scope kind s.node := by
  obtain ⟨kind, hkind, h⟩ := Option.bind_eq_some_iff.mp h
  obtain ⟨typeKind, htype, h⟩ := Option.bind_eq_some_iff.mp h
  obtain ⟨outer, houter, h⟩ := Option.bind_eq_some_iff.mp h
  refine ⟨outer, typeKind, houter, ?_, (Option.some.inj h).symm⟩
  rw [Tree.isNode, hkind]
  show kind.isTypeDeclaration = true
  rw [← kind.isSome_typeKind?, htype]
  rfl

theorem mem_declaredSymbols {nodes : List ScopedNode} {s : ScopedNode} (hs : s ∈ nodes)
    {origin : String} {d : TypeSymbol} (h : s.declaredSymbol? origin = some d) :
    d ∈ declaredSymbols origin nodes := by
  obtain ⟨scope, kind, houter, htype, -⟩ := s.cases_declaredSymbol? h
  refine List.mem_filterMap.mpr ⟨s, List.mem_filter.mpr ⟨hs, ?_⟩, h⟩
  rw [houter, ScopedNode.isKind, htype]
  rfl

namespace Environment

variable {references : SymbolTable} {origin : String} {root : Tree} {env : Environment}

/-- A declared type is known. -/
theorem isSome_get?_declared (hreferences : references.Keyed)
    (henv : ofTree references origin root = .ok env) {s : ScopedNode} (hs : s ∈ root.scoped [])
    {key : String} (hkey : s.declaredKey? = some key) : (env.table.get? key).isSome = true := by
  obtain ⟨d, hd, rfl, -⟩ := exists_declaredSymbol hkey origin
  have hfind : ((declaredSymbols origin (root.scoped [])).find? (·.key == d.key)).isSome = true :=
    List.find?_isSome.mpr ⟨d, mem_declaredSymbols hs hd, by simp⟩
  have houtline := sameOutline_ofTree hreferences henv d.key
  cases hget : env.table.get? d.key with
  | some u => rfl
  | none =>
    rw [hget] at houtline
    cases hreference : references.get? d.key with
    | some r => rw [hreference, Option.some_or] at houtline; cases houtline
    | none =>
      obtain ⟨e, he⟩ := Option.isSome_iff_exists.mp hfind
      rw [hreference, Option.none_or, he] at houtline
      cases houtline

end Environment

/-- The key of a declared type is its full name, and it lies in the namespaces around it. -/
theorem ScopedNode.IsLocated.of_declared {T : SymbolTable} {s : ScopedNode} {c : Enclosure}
    (hc : s.IsLocated T c) {origin : String} {d : TypeSymbol}
    (hd : s.declaredSymbol? origin = some d) :
    ∃ scope, Located T scope (c.enter s.node) ∧ (c.enter s.node).types ≠ []
      ∧ d.key = dottedName (c.enter s.node).parts
      ∧ d.namespaceName = dottedName (c.enter s.node).spaces := by
  obtain ⟨scope, kind, houter, htype, rfl⟩ := s.cases_declaredSymbol? hd
  obtain ⟨hscope, hinner⟩ := hc scope houter
  refine ⟨scope.enter s.node, hinner, ?_, ?_, ?_⟩
  · rw [c.enter_type htype]
    simp
  · rw [hscope.key_declaredSymbol, c.enter_type htype, Enclosure.parts_concat]
  · rw [c.enter_type htype]
    exact hscope.space

namespace Environment

variable {references : SymbolTable} {origin : String} {root : Tree} {env : Environment}

/-- A declared type is known in the namespace that it is declared in. -/
theorem namespaceName_declared (hreferences : references.Keyed)
    (henv : ofTree references origin root = .ok env)
    (hlocated : ∀ s ∈ root.scoped [], ∃ c, s.IsLocated env.table c)
    (hshared : ∀ d ∈ declaredSymbols origin (root.scoped []), ∀ r,
      references.get? d.key = some r → r.namespaceName = d.namespaceName)
    {d u : TypeSymbol} (hd : d ∈ declaredSymbols origin (root.scoped []))
    (hu : env.table.get? d.key = some u) : u.namespaceName = d.namespaceName := by
  have houtline := sameOutline_ofTree hreferences henv d.key
  rw [hu] at houtline
  cases hreference : references.get? d.key with
  | some r =>
    rw [hreference, Option.some_or] at houtline
    cases houtline with
    | some h => rw [← h.namespaceName_eq, hshared d hd r hreference]
  | none =>
    rw [hreference, Option.none_or] at houtline
    cases hfirst : (declaredSymbols origin (root.scoped [])).find? (·.key == d.key) with
    | none => rw [hfirst] at houtline; cases houtline
    | some first =>
      rw [hfirst] at houtline
      cases houtline with
      | some h =>
        -- declarations that share a key stand in one namespace
        have hkey : first.key = d.key := by simpa using List.find?_some hfirst
        obtain ⟨s, hs, hd⟩ := List.mem_filterMap.mp hd
        obtain ⟨s', hs', hd'⟩ := List.mem_filterMap.mp (List.mem_of_find?_eq_some hfirst)
        obtain ⟨c, hc⟩ := hlocated s (List.mem_of_mem_filter hs)
        obtain ⟨c', hc'⟩ := hlocated s' (List.mem_of_mem_filter hs')
        obtain ⟨_, hinner, -, hname, hspace⟩ := hc.of_declared hd
        obtain ⟨_, hinner', -, hname', hspace'⟩ := hc'.of_declared hd'
        have hspaces := hinner'.spaces_eq hinner (hname'.symm.trans (hkey.trans hname))
        rw [← h.namespaceName_eq, hspace', hspaces, hspace]

/-- The namespaces around a declared type are known. -/
theorem hasNamespace_declared (hreferences : references.Keyed)
    (henv : ofTree references origin root = .ok env) {d u : TypeSymbol}
    (hd : d ∈ declaredSymbols origin (root.scoped [])) (hu : env.table.get? d.key = some u)
    {name : String} (hname : name ∈ SymbolTable.enclosing u.namespaceName) :
    env.table.hasNamespace name = true := by
  obtain ⟨-, -, hrun⟩ := run_of_ofTree henv
  have houtline := sameOutline_completeAll hrun d.key
  rw [show env.resolution.table.get? d.key = some u from hu] at houtline
  cases hadded : (references.addAll (declaredSymbols origin (root.scoped []))).get? d.key with
  | none => rw [hadded] at houtline; cases houtline
  | some added =>
    rw [hadded] at houtline
    cases houtline with
    | some h =>
      show env.resolution.table.hasNamespace name = true
      rw [hasNamespace_completeAll hrun]
      refine SymbolTable.hasNamespace_addAll_of_mem hreferences
        (fun s hs => special_of_mem_declaredSymbols hs) hd hadded ?_
      rw [h.namespaceName_eq]
      exact hname

end Environment

/-- What a source is read as has its parts, and identifiers that can be parts of names. -/
theorem spelled_of_parseUnit {source : String} {defined : List String} {root : Tree}
    (h : parseUnit source defined = .ok root) : root.Spelled := by
  obtain ⟨stream, hstream, hroot⟩ := stream_of_readSource h
  refine ⟨TokenStream.toUnit_whole hroot, fun id hid hkind => ?_⟩
  rw [TokenStream.tokens_of_toUnit hroot] at hid
  exact identifier_form hstream hid hkind

namespace Environment

variable {origin : String} {root : Tree} {env : Environment}

/-- The nodes of a unit stand in their enclosures, if no type has the name of a namespace. -/
theorem located_ofTree {references : SymbolTable} (hreferences : references.Keyed)
    (henv : ofTree references origin root = .ok env) (hroot : root.Spelled)
    (hempty : env.table.get? "" = none)
    (hdeclared : ∀ name ∈ declaredNamespaces env.nodes, env.table.get? name = none) :
    List.Forall₂ (ScopedNode.IsLocated env.table) env.nodes (root.enclosures {}) := by
  obtain ⟨-, hnodes, -⟩ := run_of_ofTree henv
  rw [hnodes] at hdeclared ⊢
  refine Tree.located_scoped (.start hempty rfl rfl) root hroot fun s hs => ?_
  refine ⟨fun key hkey => isSome_get?_declared hreferences henv hs hkey, ?_⟩
  intro hspace scope hscope
  exact hdeclared _ (List.mem_filterMap.mpr
    ⟨s, List.mem_filter.mpr ⟨hs, hspace⟩, by rw [hscope]; rfl⟩)

/-- Every declared type is found by its full name from any scope. No type may have the name of a
namespace that is known or declared, and a type of the references that is declared again must lie in
the same namespace. -/
theorem found_by_full_name {source : String} {defined : List String}
    (hroot : parseUnit source defined = .ok root) {references : List TypeSymbol}
    (henv : ofTree (.ofList references) origin root = .ok env)
    (hknown : ∀ name, env.table.hasNamespace name = true → env.table.get? name = none)
    (hdeclared : ∀ name ∈ declaredNamespaces env.nodes, env.table.get? name = none)
    (hshared : ∀ d ∈ declaredSymbols origin env.nodes, ∀ r,
      (SymbolTable.ofList references).get? d.key = some r → r.namespaceName = d.namespaceName) :
    List.Forall₂ (fun s c => s ∈ typeDeclarations env.nodes →
        ∃ symbol, s.declaredKey?.bind env.table.get? = some symbol
          ∧ ∀ (scope : Scope) (st : Resolution), st.table = env.table →
            (scope.lookup.qualified (some "global") (c.enter s.node).segments).run st
              = .ok (some (.type symbol), st))
      env.nodes (root.enclosures {}) := by
  have hkeyed := SymbolTable.keyed_ofList references
  obtain ⟨-, hnodes, hrun⟩ := run_of_ofTree henv
  have hempty : env.table.get? "" = none := by
    refine hknown "" ?_
    show env.resolution.table.hasNamespace "" = true
    rw [hasNamespace_completeAll hrun]
    exact SymbolTable.hasNamespace_addAll_of_hasNamespace
      (SymbolTable.hasNamespace_addAll_of_hasNamespace rfl _) _
  have hlocated := located_ofTree hkeyed henv (spelled_of_parseUnit hroot) hempty hdeclared
  have hall : ∀ s ∈ env.nodes, ∃ c, s.IsLocated env.table c := by
    intro s hs
    obtain ⟨c, -, hc⟩ := exists_of_forall₂ hlocated hs
    exact ⟨c, hc⟩
  refine hlocated.imp fun s c hc hs => ?_
  obtain ⟨key, hkey⟩ := exists_declaredKey hs
  obtain ⟨d, hd, rfl, -⟩ := exists_declaredSymbol hkey origin
  have hmem : d ∈ declaredSymbols origin env.nodes := List.mem_filterMap.mpr ⟨s, hs, hd⟩
  obtain ⟨scope, hinner, hne, hname, hspace⟩ := hc.of_declared hd
  have hspaces : ∀ ps, ps <+: (c.enter s.node).spaces → ps ≠ [] →
      env.table.hasNamespace (dottedName ps) = true := by
    intro ps hps hps'
    obtain ⟨u, hu⟩ := Option.isSome_iff_exists.mp
      (isSome_get?_declared hkeyed henv (hnodes ▸ List.mem_of_mem_filter hs) hkey)
    have hparts : Parts (c.enter s.node).spaces := hinner.parts.of_append
    rw [hnodes] at hall hshared hmem
    refine hasNamespace_declared hkeyed henv hmem hu ?_
    rw [namespaceName_declared hkeyed henv hall hshared hmem hu, hspace]
    exact hparts.mem_enclosing hps hps'
  obtain ⟨u, hu, hfollow⟩ := hinner.follow_segments (keyed_ofTree hkeyed henv) hknown
    hspaces hne
  refine ⟨u, ?_, ?_⟩
  · rw [hkey, Option.bind_some, hname, hu]
  · intro scope st hst
    unfold Lookup.qualified
    simp [hst, hfollow]

/-- A nested type is found through two namespace declarations and a generic type, of which the
references know a part. -/
theorem found_by_full_name_nested :
    ∃ root env symbol, parseUnit "namespace A.B{namespace C{class D<T>{struct E{}}}}" [] = .ok root
      ∧ ofTree (.ofList [{ name := "D", namespaceName := "A.B.C", arity := 1 }]) "source" root
        = .ok env
      ∧ env.table.get? "A.B.C.D\x601.E" = some symbol
      ∧ ∀ scope : Scope,
        (scope.lookup.qualified (some "global")
          [("A", 0), ("B", 0), ("C", 0), ("D", 1), ("E", 0)]).run env.resolution
          = .ok (some (.type symbol), env.resolution) := by
  have hrun : ((parseUnit "namespace A.B{namespace C{class D<T>{struct E{}}}}" []).toOption.bind
      fun root => (ofTree (.ofList [{ name := "D", namespaceName := "A.B.C", arity := 1 }]) "source"
        root).toOption.map fun env =>
        decide ((env.table.namespaces.all fun name => (env.table.get? name).isNone) = true
          ∧ ((declaredNamespaces env.nodes).all fun name => (env.table.get? name).isNone) = true
          ∧ ((declaredSymbols "source" env.nodes).all fun d =>
            ((SymbolTable.ofList [{ name := "D", namespaceName := "A.B.C", arity := 1 }]).get?
              d.key).all (·.namespaceName == d.namespaceName)) = true
          ∧ ((env.nodes.zip (root.enclosures {})).find? fun p =>
            p.1.node.name == "E" && p.1.isKind NodeKind.isTypeDeclaration).map (fun p =>
              (p.1.outer.isSome, p.1.declaredKey?, (p.2.enter p.1.node).segments))
            = some (true, some "A.B.C.D\x601.E", [("A", 0), ("B", 0), ("C", 0), ("D", 1), ("E", 0)])))
      = some true := by
    decide +kernel
  obtain ⟨root, hroot, hrun⟩ := Option.bind_eq_some_iff.mp hrun
  obtain ⟨env, henv, hrun⟩ := Option.map_eq_some_iff.mp hrun
  simp only [decide_eq_true_eq, List.all_eq_true, Option.isNone_iff_eq_none] at hrun
  obtain ⟨hknown, hdeclared, hshared, hfind⟩ := hrun
  obtain ⟨⟨s, c⟩, hfind, hpair⟩ := Option.map_eq_some_iff.mp hfind
  simp only [Prod.mk.injEq] at hpair
  obtain ⟨houter, hkey, hsegments⟩ := hpair
  have hroot := ok_of_toOption hroot
  have henv := ok_of_toOption henv
  have hfound := found_by_full_name hroot henv
    (fun name hname => hknown name (List.contains_iff_mem.mp hname)) hdeclared
    fun d hd r hr => by simpa [hr] using hshared d hd
  have hpair := List.mem_of_find?_eq_some hfind
  have hnamed := List.find?_some hfind
  have hkind := (Bool.and_eq_true_iff.mp hnamed).2
  have hdeclaration : s ∈ typeDeclarations env.nodes :=
    List.mem_filter.mpr ⟨(List.of_mem_zip hpair).1, Bool.and_eq_true_iff.mpr ⟨houter, hkind⟩⟩
  obtain ⟨symbol, hsymbol, hqualified⟩ :=
    (List.forall₂_iff_zip.mp hfound).2 hpair hdeclaration
  rw [hkey] at hsymbol
  rw [hsegments] at hqualified
  exact ⟨root, env, symbol, hroot, henv, hsymbol, fun scope => hqualified scope _ rfl⟩

end Environment

end NullableMarker
